import StepperSynth.Synth.Pitch
import StepperSynth.Synth.Refinement
import StepperSynth.Synth.Silence

/-!
# What the host holds is what is heard

From the packets of the host to the edges of the outputs, through both tasks. An event
is handled in one step, with no interrupt inside `setChannelPeriod`.

* `TasksPrompt`, `prompt_seen`: an interrupt that the tasks see served in time is served
  in time in the run of the synthesizer.
* `taskEdges_eq`: the outputs move as they do there.
* `outputEdges_off`: a channel that is off does not move.
* `chord_in_tune`: every note that sounds does so on one channel, in tune, and the other
  channels are silent.
-/

namespace StepperSynth

open Common MIDI

/-! ## Time -/

/-- The ticks among the actions. -/
def taskTicks (actions : List Action) : ℕ :=
  (actions.filterMap Action.interference).count .tick

/-- After a request of the timer, fewer than `limit` ticks pass without `isr`. -/
def TasksPrompt (api : QueueApi) (T : Byte → Word) (limit : ℕ) (start : Tasks)
    (actions : List Action) : Prop :=
  ∀ pre w rest s, actions = pre ++ w ++ rest → run (taskStep api T) start pre = .ok s →
    s.ctx.pwmGenerator.tim.Requests → .timer .isr ∉ w → taskTicks w < limit

/-- The times at which the output of channel `i` changes. -/
def taskEdges (api : QueueApi) (T : Byte → Word) (i : Ch) : ℕ → Tasks → List Action → List ℕ
  | _, _, [] => []
  | now, s, a :: actions =>
    match taskStep api T s a with
    | .error _ => []
    | .ok s' =>
      (if s'.ctx.pwmGenerator.tim.out i ≠ s.ctx.pwmGenerator.tim.out i then [now + taskTicks [a]]
        else []) ++ taskEdges api T i (now + taskTicks [a]) s' actions

section Time

variable {api : QueueApi} {T : Byte → Word} {s s' : Tasks} {packets : List Packet}
  {actions : List Action}

theorem ticks_interference (inputs : List Input) :
    ticks inputs = (inputs.filterMap Input.interference).count .tick := by
  induction inputs with
  | nil => rfl
  | cons input inputs ih =>
    rw [ticks_cons, ih]
    cases input with
    | tick => exact List.count_cons_self.symm
    | isr => exact (List.count_cons_of_ne (by decide)).symm
    | packet p => rfl

theorem ticks_seen (h : SystemInv api T packets s) :
    ticks (seen (taskStep api T) inputOf s actions) = taskTicks actions := by
  rw [ticks_interference, seen_interference h]
  rfl

theorem isr_mem_interference {inputs : List Input} :
    .isr ∈ inputs ↔ Interference.isr ∈ inputs.filterMap Input.interference := by
  rw [List.mem_filterMap]
  constructor
  · exact fun h => ⟨_, h, rfl⟩
  · rintro ⟨input, h, hisr⟩
    cases input with
    | tick => cases hisr
    | isr => exact h
    | packet p => cases hisr

theorem isr_mem_seen (h : SystemInv api T packets s) (hisr : .timer .isr ∈ actions) :
    .isr ∈ seen (taskStep api T) inputOf s actions := by
  rw [isr_mem_interference, seen_interference h]
  exact List.mem_filterMap.mpr ⟨_, hisr, rfl⟩

/-- The synthesizer sees the requests and the `isr` runs of the tasks. -/
theorem prompt_seen {limit : ℕ} (h : SystemInv api T packets s)
    (hprompt : TasksPrompt api T limit s actions) :
    Prompt T limit s.ctx (seen (taskStep api T) inputOf s actions) := by
  intro pre w rest ctx heq hrun hreq hisr
  have hstutters := stutters api T
  rw [List.append_assoc] at heq
  obtain ⟨pre', more, s₁, rfl, hrun₁, ⟨p₁, h₁⟩, hpre, hmore⟩ := hstutters.seen_split ⟨_, h⟩ heq
  obtain ⟨w', rest', s₂, rfl, -, -, hw, -⟩ := hstutters.seen_split ⟨p₁, h₁⟩ hmore
  obtain ⟨t, hrunt, -, hinner⟩ := hstutters.run ⟨_, h⟩ pre'
  obtain rfl : s₁ = t := Except.ok.inj (hrun₁.symm.trans hrunt)
  rw [hpre, hrun] at hinner
  cases hinner
  rw [← hw, ticks_seen h₁]
  refine hprompt pre' w' rest' s₁ (List.append_assoc _ _ _).symm hrun₁ hreq fun hmem => ?_
  exact hisr (hw ▸ isr_mem_seen h₁ hmem)

theorem after_inputOf (now : ℕ) (s : Tasks) (a : Action) {input : Input}
    (hsome : inputOf s a = some input) : input.after now = now + taskTicks [a] := by
  cases a with
  | timer i => cases i <;> cases hsome <;> rfl
  | noteHandler =>
    unfold inputOf at hsome
    cases hpc : s.noteHandler with
    | receive =>
      rw [hpc] at hsome
      cases hsome
    | handle event =>
      rw [hpc] at hsome
      cases hsome
      rfl
  | _ => cases hsome

theorem taskTicks_of_none {s : Tasks} {a : Action} (hnone : inputOf s a = none) :
    taskTicks [a] = 0 := by
  cases a with
  | timer i => cases i <;> cases hnone
  | _ => rfl

/-- The outputs move as they do in the run of the synthesizer. -/
theorem taskEdges_eq (h : SystemInv api T packets s) (i : Ch) (now : ℕ) :
    taskEdges api T i now s actions =
      outputEdges T i now s.ctx (seen (taskStep api T) inputOf s actions) := by
  induction actions generalizing s packets now with
  | nil => rfl
  | cons a actions ih =>
    obtain ⟨s', hstep, h'⟩ := systemInv_step h a
    have hs := steps_of_taskStep hstep
    rw [taskEdges, hstep, seen_cons hstep]
    simp only
    rw [ih h']
    cases hin : inputOf s a with
    | none =>
      rw [ctx_of_none hs hin, taskTicks_of_none hin, if_neg (not_not_intro rfl)]
      rfl
    | some input =>
      show _ = outputEdges T i now s.ctx (input :: _)
      rw [outputEdges, synthStep_of_some h hs hin, ← after_inputOf now s a hin]
      rfl

theorem taskTicks_append (xs ys : List Action) :
    taskTicks (xs ++ ys) = taskTicks xs + taskTicks ys := by
  unfold taskTicks
  rw [List.filterMap_append, List.count_append]

/-- With few ticks, no interrupt is late. -/
theorem tasksPrompt_of_few {limit : ℕ} {start : Tasks} (hfew : taskTicks actions < limit) :
    TasksPrompt api T limit start actions := by
  intro pre w rest s heq _ _ _
  rw [heq, taskTicks_append, taskTicks_append] at hfew
  omega

end Time

/-! ## At rest -/

section Rest

variable {api : QueueApi} {T : Byte → Word} {s : Tasks} {packets : List Packet}

/-- No packet reaches the synthesizer. -/
theorem seen_silent (h : SystemInv api T packets s) (hq : Quiescent s) {silence : List Action}
    (hsilent : ∀ a ∈ silence, a.packet = none) (p : Packet) :
    .packet p ∉ seen (taskStep api T) inputOf s silence := by
  induction silence generalizing s packets with
  | nil => exact List.not_mem_nil
  | cons a silence ih =>
    obtain ⟨s', hstep, h'⟩ := systemInv_step h a
    have hrest := fun b hb => hsilent b (List.mem_cons_of_mem a hb)
    rw [seen_cons hstep, List.mem_append, not_or]
    rcases quiescent_step hq (hsilent a List.mem_cons_self) (steps_of_taskStep hstep) with
      rfl | ⟨i, rfl, rfl⟩
    · refine ⟨?_, ih h' hq hrest⟩
      cases a with
      | timer i => cases i <;> simp [inputOf]
      | noteHandler => simp [inputOf, hq.noteHandler]
      | _ => simp [inputOf]
    · refine ⟨?_, ih h' ⟨hq.rx, hq.usbMidi, hq.queue, hq.noteHandler⟩ hrest⟩
      cases i <;> simp [inputOf]

/-- A channel that is off does not move. -/
theorem outputEdges_off {ctx : NoteHandlerTaskContext} (h : Coupled T ctx) {i : Ch}
    (hoff : (ctx.pwmGenerator.view i).period = 0) {inputs : List Input}
    (hnone : ∀ p, .packet p ∉ inputs) (now : ℕ) : outputEdges T i now ctx inputs = [] := by
  induction inputs generalizing ctx now with
  | nil => rfl
  | cons input inputs ih =>
    have hrest : ∀ p, .packet p ∉ inputs := fun p hp => hnone p (List.mem_cons_of_mem _ hp)
    have hcc : (ctx.pwmGenerator.view i).ccxe = false := by
      rw [(h.agree i).1]
      exact decide_eq_false (not_not_intro hoff)
    rw [outputEdges]
    cases input with
    | packet p => exact absurd List.mem_cons_self (hnone p)
    | tick =>
      have hout : (ctx.pwmGenerator.tick.view i).out = (ctx.pwmGenerator.view i).out := by
        rw [PWMGenerator.view_tick]
        exact Channel.tick_out_of_off hcc
      have hoff' : (ctx.pwmGenerator.tick.view i).period = 0 := by
        rw [PWMGenerator.view_tick, Channel.tick_period, hoff]
      show (if (ctx.pwmGenerator.tick.view i).out ≠ (ctx.pwmGenerator.view i).out then _ else _) ++
        _ = _
      rw [if_neg (not_not_intro hout), ih h.tick hoff' hrest]
      rfl
    | isr =>
      have hout : ctx.pwmGenerator.isr.tim.out = ctx.pwmGenerator.tim.out := by
        rw [ctx.pwmGenerator.isr_frame.tim]
      have hoff' : (ctx.pwmGenerator.isr.view i).period = 0 := by
        rw [PWMGenerator.view_isr _ (by rw [h.num]; exact i.isLt), Channel.isr_period, hoff]
      show (if ctx.pwmGenerator.isr.tim.out i ≠ ctx.pwmGenerator.tim.out i then _ else _) ++ _ = _
      rw [hout, if_neg (not_not_intro rfl), ih h.isr hoff' hrest]
      rfl

/-- In silence the voices keep their notes. -/
theorem voices_silent (h : SystemInv api T packets s) (hq : Quiescent s) {silence : List Action}
    (hsilent : ∀ a ∈ silence, a.packet = none) {w rest : List Input}
    (heq : seen (taskStep api T) inputOf s silence = w ++ rest) {ctx : NoteHandlerTaskContext}
    (hrun : run (synthStep T) s.ctx w = .ok ctx) : ctx.noteScheduler = s.ctx.noteScheduler := by
  refine voices_of_no_packet (fun p hp => ?_) hrun
  exact seen_silent h hq hsilent p (heq ▸ List.mem_append_left _ hp)

end Rest

/-! ## The chord -/

/-- The half-period `half` is less than half a semitone off note `n`. -/
def InTune (n : Byte) (half : ℕ) : Prop :=
  (2 : ℕ) ^ (-(1 : ℝ) / 24) * tetPeriod n.toNat < (2 * half : ℕ) ∧
    (2 * half : ℕ) < (2 : ℕ) ^ ((1 : ℝ) / 24) * tetPeriod n.toNat

theorem inTune_iff {n : Byte} {half : ℕ} :
    InTune n half ↔ 2 ^ (-(1 : ℝ) / 24) * tetPeriod n.toNat < 2 * half ∧
      2 * half < 2 ^ ((1 : ℝ) / 24) * tetPeriod n.toNat := by
  rw [InTune, Nat.cast_mul, Nat.cast_ofNat]

/-- What channel `i` puts out from `now` to `stop`, when its voice has note `n`. -/
def PutsOut (n : Byte) (now stop : ℕ) (edges : List ℕ) : Prop :=
  if n = kFreeNote then edges = []
  else ∃ next half, edges = grid next half stop ∧ now < next ∧ next ≤ now + 62500 ∧ InTune n half

/-- **The chord.** Let `powf` be accurate to 4 units in the last place on the arguments of
    the table. Let the host keep to its flow control and send at most `2^32 - 2` note-ons,
    be silent for 6 rounds for each of its packets, and stay silent from then on; and let
    `isr` come less than 39 ticks after each request of the timer, and never inside the
    handling of an event. Then each note that is held and was not overtaken by
    `SYNTH_NUM_VOICES` others has exactly one voice, no other note has one, and for the
    whole silence the output of each voice toggles at one distance that is its note in tune,
    or not at all if it has no note. -/
theorem chord_in_tune (api : QueueApi) {powf : Float32 → Float32 → Float32}
    (hpowf : PowfAccurate powf) {tim : Tim} {gpio gpio' : Gpio} {clock : Word} {pins : Ch → Pin}
    {g : PWMGenerator}
    (hmake : PWMGenerator.make tim gpio clock pins synthNumVoices = .ok (g, gpio'))
    (hdier : tim.dier = 0) (hccer : tim.ccer = 0) {actions : List Action}
    (hflow : FlowControl api (notePeriodUs12tet powf) (taskInit g) actions)
    (hcount : noteOns (hostPackets actions) ≤ 2 ^ 32 - 2) {rounds : List (List Action)}
    (hrounds : ∀ r ∈ rounds, Round r) (hlong : 6 * (hostPackets actions).length ≤ rounds.length)
    {silence : List Action} (hsilent : ∀ a ∈ silence, a.packet = none)
    (hprompt : TasksPrompt api (notePeriodUs12tet powf) 39 (taskInit g)
      (actions ++ rounds.flatten ++ silence)) :
    ∃ s, run (taskStep api (notePeriodUs12tet powf)) (taskInit g) (actions ++ rounds.flatten) =
        .ok s ∧
      (∀ n, n ≠ kFreeNote →
        (Sounds synthNumVoices (gestures (noteEvents (hostPackets actions))) n →
          ∃! i, (s.ctx.noteScheduler.mVoices i).note = n) ∧
        (¬ Sounds synthNumVoices (gestures (noteEvents (hostPackets actions))) n →
          ∀ i, (s.ctx.noteScheduler.mVoices i).note ≠ n)) ∧
      ∀ i, PutsOut (s.ctx.noteScheduler.mVoices i).note (taskTicks (actions ++ rounds.flatten))
        (taskTicks (actions ++ rounds.flatten ++ silence))
        (taskEdges api (notePeriodUs12tet powf) i (taskTicks (actions ++ rounds.flatten)) s
          silence) := by
  have hinit := systemInv_init api (notePeriodUs12tet powf) (coupled_init _ hmake hdier hccer)
  obtain ⟨s, hrun, h, hq, hlossless⟩ := rest_of_rounds hinit hflow hrounds hlong
  have hsim := hlossless.sim h hq hcount
  have hplays : Plays (gestures (noteEvents (hostPackets actions))) s.ctx.noteScheduler :=
    plays_of_sim hsim
  refine ⟨s, hrun, fun n hn => ?_, fun i => ?_⟩
  · rw [← hplays.sounds n hn]
    refine ⟨fun ⟨i, hi⟩ => ⟨i, hi, fun j hj => ?_⟩, fun hnone i hi => hnone ⟨i, hi⟩⟩
    exact hsim.inv.distinct j i (hj.trans hi.symm) (hj ▸ hn)
  rw [taskEdges_eq h]
  unfold PutsOut
  split_ifs with hfree
  · have hoff : (s.ctx.pwmGenerator.view i).period = 0 := by
      rw [h.coupled.period i, hfree, halfOf, if_pos rfl]
    exact outputEdges_off h.coupled hoff (seen_silent h hq hsilent) _
  · -- the run of the synthesizer up to the silence, and from there on
    obtain ⟨t, hrunt, -, hbefore⟩ :=
      (stutters api (notePeriodUs12tet powf)).run ⟨[], hinit⟩ (actions ++ rounds.flatten)
    obtain rfl : s = t := Except.ok.inj (hrun.symm.trans hrunt)
    have hpromptSeen := prompt_seen hinit hprompt
    rw [seen_append hrun] at hpromptSeen
    have hkeep : ∀ w rest ctx,
        seen (taskStep api (notePeriodUs12tet powf)) inputOf s silence = w ++ rest →
        run (synthStep (notePeriodUs12tet powf)) (taskInit g).ctx
          (seen (taskStep api (notePeriodUs12tet powf)) inputOf (taskInit g)
            (actions ++ rounds.flatten) ++ w) = .ok ctx →
        (ctx.noteScheduler.mVoices i).note = (s.ctx.noteScheduler.mVoices i).note := by
      intro w rest ctx heq hw
      rw [run_append_ok hbefore] at hw
      rw [voices_silent h hq hsilent heq hw]
    obtain ⟨ctx, next, half, hctx, hedges, hlt, hle, htune⟩ :=
      edges_in_tune hpowf (timely_init hmake hdier hccer) hpromptSeen hfree hkeep
    obtain rfl : s.ctx = ctx := Except.ok.inj (hbefore.symm.trans hctx)
    rw [← seen_append hrun, ticks_seen hinit, ticks_seen hinit] at hedges
    rw [ticks_seen hinit] at hlt hle
    exact ⟨next, half, hedges, hlt, hle, inTune_iff.mpr htune⟩

/-- One note, with an `isr` run and two ticks in the silence. -/
theorem chord_in_tune_a4 :
    ∃ s, run (taskStep freeRTOS (notePeriodUs12tet roundedPowf)) (taskInit PWMGenerator.mainInit)
        ([Action.host ![0x09, 0x90, 69, 100]] ++
          (List.replicate 6 [Action.usbMidi, .timer .tick, .noteHandler]).flatten) = .ok s ∧
      (∀ n, n ≠ kFreeNote →
        (Sounds synthNumVoices
            (gestures (noteEvents (hostPackets [Action.host ![0x09, 0x90, 69, 100]]))) n →
          ∃! i, (s.ctx.noteScheduler.mVoices i).note = n) ∧
        (¬ Sounds synthNumVoices
            (gestures (noteEvents (hostPackets [Action.host ![0x09, 0x90, 69, 100]]))) n →
          ∀ i, (s.ctx.noteScheduler.mVoices i).note ≠ n)) ∧
      ∀ i, PutsOut (s.ctx.noteScheduler.mVoices i).note
        (taskTicks ([Action.host ![0x09, 0x90, 69, 100]] ++
          (List.replicate 6 [Action.usbMidi, .timer .tick, .noteHandler]).flatten))
        (taskTicks ([Action.host ![0x09, 0x90, 69, 100]] ++
          (List.replicate 6 [Action.usbMidi, .timer .tick, .noteHandler]).flatten ++
            [Action.timer .tick, .timer .isr, .timer .tick]))
        (taskEdges freeRTOS (notePeriodUs12tet roundedPowf) i
          (taskTicks ([Action.host ![0x09, 0x90, 69, 100]] ++
            (List.replicate 6 [Action.usbMidi, .timer .tick, .noteHandler]).flatten)) s
          [Action.timer .tick, .timer .isr, .timer .tick]) := by
  obtain ⟨gpio', hmake⟩ := PWMGenerator.make_main fun _ => ⟨0, 0, 0, fun _ => 0⟩
  have hflow : FlowControl freeRTOS (notePeriodUs12tet roundedPowf)
      (taskInit PWMGenerator.mainInit) [Action.host ![0x09, 0x90, 69, 100]] :=
    flowControl_of_few (by decide)
  have hrounds : ∀ r ∈ List.replicate 6 [Action.usbMidi, .timer .tick, .noteHandler], Round r := by
    intro r hr
    rw [List.eq_of_mem_replicate hr]
    exact ⟨by simp [Action.packet], by simp, by simp⟩
  have hsilent : ∀ a ∈ [Action.timer .tick, .timer .isr, .timer .tick], a.packet = none := by
    simp [Action.packet]
  exact chord_in_tune freeRTOS powfAccurate_roundedPowf hmake rfl rfl hflow (by decide) hrounds
    (by decide) hsilent (tasksPrompt_of_few (by decide))

end StepperSynth
