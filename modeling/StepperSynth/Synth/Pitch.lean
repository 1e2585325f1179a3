import StepperSynth.Pwm.Waveform
import StepperSynth.Synth.Handler
import StepperSynth.Tet

/-!
# The pitch of a voice

From MIDI packets to the edges of the outputs, for runs of the note handler, the
timer and `isr` in which an interrupt is served in time. A packet is handled in one
step: an interrupt inside `setChannelPeriod` can put the first edge off (see
`Pwm/Enabling`), and the runs here have none.

* `Prompt`: fewer than `limit` ticks pass between a request of the timer and `isr`.
* `OnTime`, `onTime_step`: where every sounding channel is between two edges.
* `outputEdges_eq_grid`: as long as a voice keeps its note, its output toggles at
  one distance.
* `voice_in_tune`: that distance is the half-period of the note, within half a
  semitone.
-/

namespace StepperSynth

open Common MIDI

namespace Input

/-- The time in ticks after an input. -/
def after (now : ℕ) : Input → ℕ
  | tick => now + 1
  | _ => now

def isTick : Input → Bool
  | tick => true
  | _ => false

end Input

/-- The ticks among the inputs. -/
def ticks (inputs : List Input) : ℕ := inputs.countP Input.isTick

/-- The timer asks for `isr`. -/
def Tim.Requests (tim : Tim) : Prop := tim.sr &&& tim.dier ≠ 0

/-- After a request, fewer than `limit` ticks pass without `isr`. -/
def Prompt (T : Byte → Word) (limit : ℕ) (ctx : NoteHandlerTaskContext) (inputs : List Input) :
    Prop :=
  ∀ pre w rest ctx', inputs = pre ++ w ++ rest → run (synthStep T) ctx pre = .ok ctx' →
    ctx'.pwmGenerator.tim.Requests → .isr ∉ w → ticks w < limit

/-- The times at which the output of channel `i` changes. -/
def outputEdges (T : Byte → Word) (i : Ch) : ℕ → NoteHandlerTaskContext → List Input → List ℕ
  | _, _, [] => []
  | now, ctx, input :: inputs =>
    match synthStep T ctx input with
    | .error _ => []
    | .ok ctx' =>
      (if ctx'.pwmGenerator.tim.out i ≠ ctx.pwmGenerator.tim.out i then [input.after now] else [])
        ++ outputEdges T i (input.after now) ctx' inputs

/-! ## One channel -/

namespace Channel

variable {now : ℕ} {c : Channel} {φ : Phase}

/-- The time of the next edge, if the last one is serviced with `h`. -/
def due (h : ℕ) : Phase → ℕ
  | .waiting next => next
  | .pending last => last + h

/-- A tick: an edge if one is due, and else nothing. -/
theorem tick_inPhase (hc : c.InPhase now φ)
    (hlt : ∀ last, φ = .pending last → now < last + 2 ^ 31) :
    (c.tick.out = c.out ∧ c.tick.InPhase (now + 1) φ ∧ φ ≠ .waiting (now + 1)) ∨
      (φ = .waiting (now + 1) ∧ c.tick.out = (c.out ^^ c.ccxe) ∧
        c.tick.InPhase (now + 1) (.pending (now + 1))) := by
  have hout : c.ccr ≠ c.cnt + 1 → c.tick.out = c.out := fun hm => by
    unfold tick
    rw [if_neg hm]
  cases φ with
  | waiting next =>
    rcases tick_waiting hc with ⟨hm, rfl, hc'⟩ | ⟨hm, hc'⟩
    · right
      refine ⟨rfl, ?_, hc'⟩
      unfold tick
      rw [if_pos hm]
    · refine Or.inl ⟨hout hm, hc', fun heq => ?_⟩
      cases heq
      have := hc'.2.1
      omega
  | pending last =>
    have := hlt last rfl
    rcases tick_pending hc with ⟨hm, hlate⟩ | ⟨hm, hc'⟩
    · omega
    · exact Or.inl ⟨hout hm, hc', nofun⟩

/-- `isr`: the next edge is due. -/
theorem isr_inPhase (hc : c.InPhase now φ)
    (hlt : ∀ last, φ = .pending last → now < last + c.period.toNat) :
    c.isr.InPhase now (.waiting (due c.period.toNat φ)) := by
  cases φ with
  | waiting next =>
    have hflag : ¬ c.flag = true := by simp [hc.1]
    unfold isr
    rw [if_neg hflag]
    exact hc
  | pending last => exact isr_pending hc (hlt last rfl)

/-- A new period for a channel that has none: the first edge is due after half of it. -/
theorem setPeriod_inPhase {p : Word} (hen : c.period = 0) (hp : p / 2 ≠ 0) (now : ℕ) :
    (c.setPeriod p).InPhase now (.waiting (now + (p / 2).toNat)) := by
  unfold setPeriod
  simp only
  rw [if_pos ⟨hen, hp⟩]
  generalize p / 2 = half at hp
  refine ⟨rfl, by bv_omega, ?_⟩
  show (c.cnt + half - c.cnt).toNat + now = now + half.toNat
  bv_omega

/-- A new period for a channel that has one does not move its next edge. -/
theorem setPeriod_retune {p : Word} (hen : c.period ≠ 0) (hp : p / 2 ≠ 0) :
    c.setPeriod p = { c with period := p / 2 } := by
  refine setPeriod_running hen ?_
  by_contra hlt
  refine hp (BitVec.eq_of_toNat_eq ?_)
  have hlt' : p.toNat < 2 := by simpa [BitVec.le_def] using hlt
  rw [BitVec.toNat_udiv]
  exact Nat.div_eq_of_lt hlt'

end Channel

/-! ## One input -/

section Step

variable {T : Byte → Word} {ctx ctx' : NoteHandlerTaskContext}

/-- What a note event does to a channel. -/
theorem noteHandler_view (h : Coupled T ctx) {event : NoteEvent} (hnote : event.note < 128)
    (he : noteHandler T ctx event = .ok ctx') (i : Ch) :
    ctx'.pwmGenerator.view i = ctx.pwmGenerator.view i ∨
      ∃ p, ctx'.pwmGenerator.view i = (ctx.pwmGenerator.view i).setPeriod p := by
  have hfree := note_ne_kFreeNote hnote
  have hset : ∀ (s : NoteScheduler) (j : Ch) (p : Word),
      noteHandler T ctx event = .ok ⟨s, ctx.pwmGenerator.setPeriodBody j p⟩ →
      ctx'.pwmGenerator.view i = ctx.pwmGenerator.view i ∨
        ∃ p, ctx'.pwmGenerator.view i = (ctx.pwmGenerator.view i).setPeriod p := by
    intro s j p hs
    obtain rfl : _ = ctx' := Except.ok.inj (hs.symm.trans he)
    rw [PWMGenerator.view_setPeriodBody]
    split_ifs
    · exact Or.inr ⟨p, rfl⟩
    · exact Or.inl rfl
  cases hkind : event.kind with
  | kNone =>
    rw [noteHandler_none hkind] at he
    cases he
    exact Or.inl rfl
  | kNoteOn =>
    obtain ⟨j, o, -, -, hj⟩ := noteHandler_noteOn (T := T) h.num hkind hfree
    exact hset _ j _ hj
  | kNoteOff =>
    rcases noteHandler_noteOff (T := T) h.num hkind hfree with ⟨j, -, -, -, hj⟩ | ⟨-, hj⟩
    · exact hset _ j 0 hj
    · rw [hj] at he
      cases he
      exact Or.inl rfl

/-- The flag of an enabled channel is a request. -/
theorem Coupled.requests (h : Coupled T ctx) {i : Ch} (hen : (ctx.pwmGenerator.view i).period ≠ 0)
    (hflag : (ctx.pwmGenerator.view i).flag = true) : ctx.pwmGenerator.tim.Requests := by
  intro hzero
  have hirq : (ctx.pwmGenerator.view i).ccxie = true := by
    rw [(h.agree i).2]
    exact decide_eq_true hen
  have hbit : (ctx.pwmGenerator.tim.sr &&& ctx.pwmGenerator.tim.dier).getLsbD (i + 1) =
      ((ctx.pwmGenerator.view i).flag && (ctx.pwmGenerator.view i).ccxie) := BitVec.getLsbD_and
  rw [hzero, hflag, hirq] at hbit
  simp at hbit

end Step

/-! ## Runs -/

/-- The half-periods of all notes lie between `limit` and `bound`. -/
def HalvesWithin (T : Byte → Word) (limit bound : ℕ) : Prop :=
  ∀ n, n < 128 → limit ≤ (T n / 2).toNat ∧ (T n / 2).toNat ≤ bound

section Runs

variable (T : Byte → Word) (bound : ℕ) (start : NoteHandlerTaskContext)

/-- Where channel `i` is between two edges after the inputs `past`, newest first. An
    edge that waits for `isr` was a request then, and `isr` has not run since. -/
def OnTime (past : List Input) (ctx : NoteHandlerTaskContext) (i : Ch) (φ : Phase) : Prop :=
  (ctx.pwmGenerator.view i).InPhase (ticks past) φ ∧
    match φ with
    | .waiting next => next ≤ ticks past + bound
    | .pending last => ∃ w p ctx', past = w ++ p ∧ .isr ∉ w ∧ ticks p = last ∧
        run (synthStep T) start p.reverse = .ok ctx' ∧ ctx'.pwmGenerator.tim.Requests

/-- What holds after the inputs `past`, newest first. -/
structure Timely (past : List Input) (ctx : NoteHandlerTaskContext) : Prop where
  ran : run (synthStep T) start past.reverse = .ok ctx
  coupled : Coupled T ctx
  onTime : ∀ i, (ctx.pwmGenerator.view i).period ≠ 0 → ∃ φ, OnTime T bound start past ctx i φ

/-- What an input does to a channel of period `h` that keeps it: nothing, or it is the
    tick of its next edge. -/
def Goes (h : ℕ) (past : List Input) (input : Input) (c c' : Channel) (φ φ' : Phase) : Prop :=
  (c'.out = c.out ∧ Channel.due h φ' = Channel.due h φ) ∨
    (c'.out ≠ c.out ∧ Channel.due h φ = ticks (input :: past) ∧
      Channel.due h φ' = Channel.due h φ + h)

variable {T bound start}
variable {past : List Input} {ctx ctx' : NoteHandlerTaskContext} {i : Ch} {φ : Phase} {limit : ℕ}

theorem ticks_append (xs ys : List Input) : ticks (xs ++ ys) = ticks xs + ticks ys :=
  List.countP_append

theorem ticks_reverse (xs : List Input) : ticks xs.reverse = ticks xs := List.countP_reverse

theorem ticks_cons (input : Input) (past : List Input) :
    ticks (input :: past) = input.after (ticks past) := by
  cases input with
  | tick => exact List.countP_cons_of_pos rfl
  | isr => exact List.countP_cons_of_neg (by simp [Input.isTick])
  | packet p => exact List.countP_cons_of_neg (by simp [Input.isTick])

theorem prompt_tail {input : Input} (h : Prompt T limit start (input :: past).reverse) :
    Prompt T limit start past.reverse := by
  intro pre w rest ctx' heq
  refine h pre w (rest ++ [input]) ctx' ?_
  rw [List.reverse_cons, heq, List.append_assoc _ rest]

/-- An edge has not been waiting for `isr` for long. -/
theorem OnTime.lt {last : ℕ} (hprompt : Prompt T limit start past.reverse)
    (h : OnTime T bound start past ctx i (.pending last)) : ticks past < last + limit := by
  obtain ⟨-, w, p, ctx', rfl, hisr, rfl, hrun, hreq⟩ := h
  have hlt := hprompt p.reverse w.reverse [] ctx' (by simp) hrun hreq (by simpa using hisr)
  rw [ticks_reverse] at hlt
  rw [ticks_append]
  omega

theorem onTime_tick (hlimit : limit ≤ 2 ^ 31) (hprompt : Prompt T limit start past.reverse)
    (hcoupled : Coupled T ctx) (hrun : run (synthStep T) start past.reverse = .ok ctx)
    (hen : (ctx.pwmGenerator.view i).period ≠ 0) (h : OnTime T bound start past ctx i φ) :
    ∃ φ', OnTime T bound start (.tick :: past)
        { ctx with pwmGenerator := ctx.pwmGenerator.tick } i φ' ∧
      Goes (ctx.pwmGenerator.view i).period.toNat past .tick (ctx.pwmGenerator.view i)
        (ctx.pwmGenerator.tick.view i) φ φ' := by
  have hlate : ∀ last, φ = .pending last → ticks past < last + 2 ^ 31 := by
    rintro last rfl
    have := h.lt hprompt
    omega
  have hticks : ticks (.tick :: past) = ticks past + 1 := ticks_cons .tick past
  unfold OnTime Goes
  rw [hticks]
  simp only [PWMGenerator.view_tick]
  rcases Channel.tick_inPhase h.1 hlate with ⟨hout, hc, -⟩ | ⟨rfl, hout, hc⟩
  · refine ⟨φ, ⟨hc, ?_⟩, Or.inl ⟨hout, rfl⟩⟩
    cases φ with
    | waiting next =>
      have hnext : next ≤ ticks past + bound := h.2
      show next ≤ ticks past + 1 + bound
      omega
    | pending last =>
      obtain ⟨w, p, ctx', rfl, hisr, hlast, hp⟩ := h.2
      exact ⟨.tick :: w, p, ctx', rfl, by simpa using hisr, hlast, hp⟩
  · have hcc : (ctx.pwmGenerator.view i).ccxe = true := by
      rw [(hcoupled.agree i).1]
      exact decide_eq_true hen
    refine ⟨.pending (ticks past + 1), ⟨hc, [], .tick :: past,
      { ctx with pwmGenerator := ctx.pwmGenerator.tick }, rfl, by simp, hticks, ?_, ?_⟩,
      Or.inr ⟨?_, rfl, rfl⟩⟩
    · rw [List.reverse_cons, run_append_ok hrun]
      rfl
    · have hen' : (ctx.pwmGenerator.tick.view i).period ≠ 0 := by
        rwa [PWMGenerator.view_tick, Channel.tick_period]
      refine hcoupled.tick.requests hen' ?_
      rw [PWMGenerator.view_tick]
      exact hc.1
    · rw [hout, hcc]
      simp

theorem onTime_isr (hprompt : Prompt T limit start past.reverse) (hcoupled : Coupled T ctx)
    (hlo : limit ≤ (ctx.pwmGenerator.view i).period.toNat)
    (hhi : (ctx.pwmGenerator.view i).period.toNat ≤ bound)
    (h : OnTime T bound start past ctx i φ) :
    ∃ φ', OnTime T bound start (.isr :: past)
        { ctx with pwmGenerator := ctx.pwmGenerator.isr } i φ' ∧
      Goes (ctx.pwmGenerator.view i).period.toNat past .isr (ctx.pwmGenerator.view i)
        (ctx.pwmGenerator.isr.view i) φ φ' := by
  have hview : ctx.pwmGenerator.isr.view i = (ctx.pwmGenerator.view i).isr :=
    ctx.pwmGenerator.view_isr (by rw [hcoupled.num]; exact i.isLt)
  have hlate : ∀ last, φ = .pending last →
      ticks past < last + (ctx.pwmGenerator.view i).period.toNat := by
    rintro last rfl
    have := h.lt hprompt
    omega
  have hticks : ticks (.isr :: past) = ticks past := ticks_cons .isr past
  unfold OnTime Goes
  rw [hticks]
  simp only [hview]
  refine ⟨_, ⟨Channel.isr_inPhase h.1 hlate, ?_⟩, Or.inl ⟨Channel.isr_out _, rfl⟩⟩
  cases φ with
  | waiting next => exact h.2
  | pending last =>
    have hlast : _ + last = ticks past := h.1.2
    show last + _ ≤ ticks past + bound
    omega

/-- A channel that a packet leaves alone, or gives another period. -/
theorem onTime_packet {p : Packet} (hcoupled : Coupled T ctx)
    (he : noteHandler T ctx (parsePacket p) = .ok ctx')
    (hen : (ctx.pwmGenerator.view i).period ≠ 0) (hen' : (ctx'.pwmGenerator.view i).period ≠ 0)
    (h : OnTime T bound start past ctx i φ) :
    ∃ φ', OnTime T bound start (.packet p :: past) ctx' i φ' ∧
      Goes (ctx.pwmGenerator.view i).period.toNat past (.packet p) (ctx.pwmGenerator.view i)
        (ctx'.pwmGenerator.view i) φ φ' := by
  have hticks : ticks (.packet p :: past) = ticks past := ticks_cons (.packet p) past
  -- the edges stay as they are
  obtain ⟨hout, hc⟩ : (ctx'.pwmGenerator.view i).out = (ctx.pwmGenerator.view i).out ∧
      (ctx'.pwmGenerator.view i).InPhase (ticks past) φ := by
    rcases noteHandler_view hcoupled (parsePacket_note_lt p) he i with hview | ⟨q, hview⟩
    · rw [hview]
      exact ⟨rfl, h.1⟩
    · rw [hview, Channel.setPeriod_period] at hen'
      rw [hview, Channel.setPeriod_retune hen hen']
      exact ⟨rfl, h.1⟩
  refine ⟨φ, ⟨hticks ▸ hc, ?_⟩, Or.inl ⟨hout, rfl⟩⟩
  cases φ with
  | waiting next =>
    rw [hticks]
    exact h.2
  | pending last =>
    obtain ⟨w, past', ctx₁, rfl, hisr, hlast, hrun⟩ := h.2
    exact ⟨.packet p :: w, past', ctx₁, rfl, by simpa using hisr, hlast, hrun⟩

/-- A channel that a packet starts. -/
theorem onTime_start {p : Packet} (hcoupled : Coupled T ctx)
    (he : noteHandler T ctx (parsePacket p) = .ok ctx')
    (hen : (ctx.pwmGenerator.view i).period = 0) (hen' : (ctx'.pwmGenerator.view i).period ≠ 0)
    (hhi : (ctx'.pwmGenerator.view i).period.toNat ≤ bound) :
    ∃ φ, OnTime T bound start (.packet p :: past) ctx' i φ := by
  have hticks : ticks (.packet p :: past) = ticks past := ticks_cons (.packet p) past
  rcases noteHandler_view hcoupled (parsePacket_note_lt p) he i with hview | ⟨q, hview⟩
  · rw [hview] at hen'
    exact absurd hen hen'
  · rw [hview, Channel.setPeriod_period] at hen' hhi
    refine ⟨.waiting (ticks past + (q / 2).toNat), ?_, ?_⟩
    · rw [hview, hticks]
      exact Channel.setPeriod_inPhase hen hen' _
    · rw [hticks]
      exact Nat.add_le_add_left hhi _

theorem Coupled.period_bounds (hT : HalvesWithin T limit bound) (h : Coupled T ctx)
    (hen : (ctx.pwmGenerator.view i).period ≠ 0) :
    limit ≤ (ctx.pwmGenerator.view i).period.toNat ∧
      (ctx.pwmGenerator.view i).period.toNat ≤ bound := by
  have hperiod := h.period i
  unfold halfOf at hperiod
  split_ifs at hperiod with hfree
  · exact absurd hperiod hen
  · rw [hperiod]
    exact hT _ ((h.note i).resolve_left hfree)

/-- One input: where the channel is afterwards, and what its output does. -/
theorem onTime_step (hT : HalvesWithin T limit bound) (hlimit : limit ≤ 2 ^ 31)
    (h : Timely T bound start past ctx) (hprompt : Prompt T limit start past.reverse)
    {input : Input} (hstep : synthStep T ctx input = .ok ctx')
    (hen : (ctx.pwmGenerator.view i).period ≠ 0) (hen' : (ctx'.pwmGenerator.view i).period ≠ 0)
    (hφ : OnTime T bound start past ctx i φ) :
    ∃ φ', OnTime T bound start (input :: past) ctx' i φ' ∧
      Goes (ctx.pwmGenerator.view i).period.toNat past input (ctx.pwmGenerator.view i)
        (ctx'.pwmGenerator.view i) φ φ' := by
  cases input with
  | tick =>
    cases hstep
    exact onTime_tick hlimit hprompt h.coupled h.ran hen hφ
  | isr =>
    cases hstep
    obtain ⟨hlo, hhi⟩ := h.coupled.period_bounds hT hen
    exact onTime_isr hprompt h.coupled hlo hhi hφ
  | packet p => exact onTime_packet h.coupled hstep hen hen' hφ

theorem timely_step (hT : HalvesWithin T limit bound) (hlimit : limit ≤ 2 ^ 31)
    (h : Timely T bound start past ctx) {input : Input}
    (hprompt : Prompt T limit start (input :: past).reverse) :
    ∃ ctx', synthStep T ctx input = .ok ctx' ∧ Timely T bound start (input :: past) ctx' := by
  obtain ⟨ctx', hstep, hcoupled⟩ := coupled_step T ctx input h.coupled
  refine ⟨ctx', hstep, ?_, hcoupled, fun i hen' => ?_⟩
  · rw [List.reverse_cons, run_append_ok h.ran, run_cons_ok hstep, run_nil]
  by_cases hen : (ctx.pwmGenerator.view i).period = 0
  · cases input with
    | tick =>
      cases hstep
      rw [PWMGenerator.view_tick, Channel.tick_period] at hen'
      exact absurd hen hen'
    | isr =>
      cases hstep
      rw [PWMGenerator.view_isr _ (by rw [h.coupled.num]; exact i.isLt),
        Channel.isr_period] at hen'
      exact absurd hen hen'
    | packet p =>
      exact onTime_start h.coupled hstep hen hen' (hcoupled.period_bounds hT hen').2
  · obtain ⟨φ, hφ⟩ := h.onTime i hen
    obtain ⟨φ', hφ', -⟩ := onTime_step hT hlimit h (prompt_tail hprompt) hstep hen hen' hφ
    exact ⟨φ', hφ'⟩

/-- Where everything is after a run. -/
theorem timely_run (hT : HalvesWithin T limit bound) (hlimit : limit ≤ 2 ^ 31)
    (hstart : Timely T bound start [] start) {inputs : List Input}
    (hprompt : Prompt T limit start inputs) :
    ∃ ctx, run (synthStep T) start inputs = .ok ctx ∧ Timely T bound start inputs.reverse ctx := by
  refine run_history (Timely T bound start) (fun past => Prompt T limit start past.reverse)
    (fun _ _ => prompt_tail) (fun past ctx input hp h => ?_) hstart inputs ?_
  · exact timely_step hT hlimit h hp
  · rwa [List.reverse_reverse]

/-! ## As long as a voice keeps its note -/

/-- The next edge is still to come. -/
theorem OnTime.lt_due (hprompt : Prompt T limit start past.reverse)
    (h : OnTime T bound start past ctx i φ) {half : ℕ} (hhalf : limit ≤ half) :
    ticks past < Channel.due half φ := by
  cases φ with
  | waiting next => exact h.1.2.1
  | pending last => exact (h.lt hprompt).trans_le (Nat.add_le_add_left hhalf last)

theorem Coupled.period_of_note (h : Coupled T ctx) {n : Byte}
    (hn : (ctx.noteScheduler.mVoices i).note = n) (hfree : n ≠ kFreeNote) :
    (ctx.pwmGenerator.view i).period = T n / 2 := by
  have hperiod := h.period i
  rwa [hn, halfOf, if_neg hfree] at hperiod

theorem prompt_of_append {inputs rest : List Input} (h : Prompt T limit start (inputs ++ rest)) :
    Prompt T limit start inputs := by
  intro pre w rest' ctx' heq
  refine h pre w (rest' ++ rest) ctx' ?_
  rw [heq, List.append_assoc _ rest']

/-- The edges of a voice that keeps its note `n`. -/
theorem outputEdges_eq_grid (hT : HalvesWithin T limit bound) (hpos : 0 < limit)
    (hlimit : limit ≤ 2 ^ 31) {n : Byte} (hn : n < 128) {inputs : List Input}
    (h : Timely T bound start past ctx) (hφ : OnTime T bound start past ctx i φ)
    (hprompt : Prompt T limit start (past.reverse ++ inputs))
    (hkeep : ∀ w rest ctx', inputs = w ++ rest → run (synthStep T) ctx w = .ok ctx' →
      (ctx'.noteScheduler.mVoices i).note = n) :
    outputEdges T i (ticks past) ctx inputs =
      grid (Channel.due (T n / 2).toNat φ) (T n / 2).toNat (ticks past + ticks inputs) := by
  have hfree := note_ne_kFreeNote hn
  have hhalf : limit ≤ (T n / 2).toNat := (hT n hn).1
  have hne : T n / 2 ≠ 0 := by
    intro hzero
    rw [hzero] at hhalf
    exact absurd hhalf (by simpa using hpos.ne')
  induction inputs generalizing past ctx φ with
  | nil => exact (grid_of_lt (hφ.lt_due (prompt_of_append hprompt) hhalf)).symm
  | cons input inputs ih =>
    have hpast := prompt_of_append hprompt
    rw [← List.singleton_append, ← List.append_assoc, ← List.reverse_cons] at hprompt
    obtain ⟨ctx', hstep, h'⟩ := timely_step hT hlimit h (prompt_of_append hprompt)
    have hperiod := h.coupled.period_of_note (hkeep [] _ ctx rfl rfl) hfree
    have hperiod' := h'.coupled.period_of_note
      (hkeep [input] inputs ctx' rfl (by rw [run_cons_ok hstep, run_nil])) hfree
    obtain ⟨φ', hφ', hgoes⟩ := onTime_step hT hlimit h hpast hstep
      (by rwa [hperiod]) (by rwa [hperiod']) hφ
    have hrest := ih h' hφ' hprompt fun w rest c heq hrun =>
      hkeep (input :: w) rest c (by rw [heq]; rfl) (by rw [run_cons_ok hstep, hrun])
    have hticks : ticks past + ticks (input :: inputs) =
        ticks (input :: past) + ticks inputs := by
      rw [← ticks_reverse past, ← ticks_append, ← ticks_reverse (input :: past), ← ticks_append]
      simp
    have hafter := ticks_cons input past
    rw [outputEdges, hstep]
    simp only
    rw [hticks, ← hafter, hrest]
    rw [hperiod] at hgoes
    rcases hgoes with ⟨hout, hdue⟩ | ⟨hout, hdue, hdue'⟩
    · have hsame : ctx'.pwmGenerator.tim.out i = ctx.pwmGenerator.tim.out i := hout
      rw [if_neg (not_not_intro hsame), hdue]
      rfl
    · have hchange : ctx'.pwmGenerator.tim.out i ≠ ctx.pwmGenerator.tim.out i := hout
      rw [if_pos hchange, hdue', hdue, grid_of_le (by omega) (Nat.le_add_right _ _)]
      rfl

end Runs

/-! ## The synthesizer -/

section Synth

variable {powf : Float32 → Float32 → Float32}

theorem notePeriod_halvesWithin (hpowf : PowfAccurate powf) :
    HalvesWithin (notePeriodUs12tet powf) 39 62500 := by
  intro n hn
  have hlo := le_notePeriod hpowf hn
  have hhi := notePeriod_le_max hpowf n
  rw [BitVec.toNat_udiv]
  show 39 ≤ _ / 2 ∧ _ / 2 ≤ 62500
  omega

/-- The edges of a voice, from a state in which every sounding channel is between two. -/
theorem edges_in_tune (hpowf : PowfAccurate powf) {start : NoteHandlerTaskContext}
    (hstart : Timely (notePeriodUs12tet powf) 62500 start [] start) {before inputs : List Input}
    (hprompt : Prompt (notePeriodUs12tet powf) 39 start (before ++ inputs)) {i : Ch} {n : Byte}
    (hn : n ≠ kFreeNote)
    (hkeep : ∀ w rest ctx, inputs = w ++ rest →
      run (synthStep (notePeriodUs12tet powf)) start (before ++ w) = .ok ctx →
      (ctx.noteScheduler.mVoices i).note = n) :
    ∃ ctx next half, run (synthStep (notePeriodUs12tet powf)) start before = .ok ctx ∧
      outputEdges (notePeriodUs12tet powf) i (ticks before) ctx inputs =
        grid next half (ticks (before ++ inputs)) ∧
      ticks before < next ∧ next ≤ ticks before + 62500 ∧
      2 ^ (-(1 : ℝ) / 24) * tetPeriod n.toNat < 2 * half ∧
      2 * half < 2 ^ ((1 : ℝ) / 24) * tetPeriod n.toNat := by
  have hT := notePeriod_halvesWithin hpowf
  obtain ⟨ctx, hrun, h⟩ := timely_run hT (by norm_num) hstart (prompt_of_append hprompt)
  have hnote : (ctx.noteScheduler.mVoices i).note = n :=
    hkeep [] inputs ctx rfl (by rw [List.append_nil, hrun])
  have hlt : n < 128 := ((hnote ▸ h.coupled.note i).resolve_left hn)
  have hperiod := h.coupled.period_of_note hnote hn
  have hhalf := hT n hlt
  have hen : (ctx.pwmGenerator.view i).period ≠ 0 := by
    intro hzero
    rw [← hperiod, hzero] at hhalf
    exact absurd hhalf.1 (by decide)
  obtain ⟨φ, hφ⟩ := h.onTime i hen
  have hpast : Prompt (notePeriodUs12tet powf) 39 start before.reverse.reverse := by
    rw [List.reverse_reverse]
    exact prompt_of_append hprompt
  have hgrid := outputEdges_eq_grid hT (by norm_num) (by norm_num) hlt h hφ
    (by rwa [List.reverse_reverse]) fun w rest ctx' heq hw =>
      hkeep w rest ctx' heq (by rw [run_append_ok hrun, hw])
  have hnext := hφ.lt_due hpast hhalf.1
  rw [ticks_reverse] at hgrid hnext
  obtain ⟨hlo, hhi⟩ := wave_bounds hpowf hlt
  refine ⟨ctx, _, _, hrun, by rw [hgrid, ticks_append], hnext, ?_, hlo, hhi⟩
  cases φ with
  | waiting next => exact ticks_reverse before ▸ hφ.2
  | pending last =>
    have hlast : _ + last = ticks before.reverse := hφ.1.2
    rw [ticks_reverse] at hlast
    show last + _ ≤ ticks before + 62500
    omega

/-- At first, no channel sounds. -/
theorem timely_init {T : Byte → Word} {bound : ℕ} {tim : Tim} {gpio gpio' : Gpio} {clock : Word}
    {pins : Ch → Pin} {g : PWMGenerator}
    (hmake : PWMGenerator.make tim gpio clock pins synthNumVoices = .ok (g, gpio'))
    (hdier : tim.dier = 0) (hccer : tim.ccer = 0) : Timely T bound ⟨{}, g⟩ [] ⟨{}, g⟩ := by
  refine ⟨rfl, coupled_init _ hmake hdier hccer, fun i hen => absurd ?_ hen⟩
  exact (PWMGenerator.make_ok hmake).2.1 i

/-- **A voice sounds in tune.** Let `powf` be accurate to 4 units in the last place on
    the arguments of the table. Take any run of packets, ticks and `isr` from a fresh
    scheduler and a fresh generator in which `isr` comes less than 39 ticks after the
    timer asks for it, and never inside the handling of a packet. In any part of the run in which voice `i` keeps a note `n`, the
    output of the voice toggles exactly at the times `next`, `next + half`,
    `next + 2 * half`, … up to the end; the first of them is at most 62500 ticks away; and
    the full wave `2 * half` is less than half a semitone from the period of `n` in equal
    temperament. -/
theorem voice_in_tune (hpowf : PowfAccurate powf) {tim : Tim} {gpio gpio' : Gpio} {clock : Word}
    {pins : Ch → Pin} {g : PWMGenerator}
    (hmake : PWMGenerator.make tim gpio clock pins synthNumVoices = .ok (g, gpio'))
    (hdier : tim.dier = 0) (hccer : tim.ccer = 0) {before inputs : List Input}
    (hprompt : Prompt (notePeriodUs12tet powf) 39 ⟨{}, g⟩ (before ++ inputs)) {i : Ch} {n : Byte}
    (hn : n ≠ kFreeNote)
    (hkeep : ∀ w rest ctx, inputs = w ++ rest →
      run (synthStep (notePeriodUs12tet powf)) ⟨{}, g⟩ (before ++ w) = .ok ctx →
      (ctx.noteScheduler.mVoices i).note = n) :
    ∃ ctx next half, run (synthStep (notePeriodUs12tet powf)) ⟨{}, g⟩ before = .ok ctx ∧
      outputEdges (notePeriodUs12tet powf) i (ticks before) ctx inputs =
        grid next half (ticks (before ++ inputs)) ∧
      ticks before < next ∧ next ≤ ticks before + 62500 ∧
      2 ^ (-(1 : ℝ) / 24) * tetPeriod n.toNat < 2 * half ∧
      2 * half < 2 ^ ((1 : ℝ) / 24) * tetPeriod n.toNat :=
  edges_in_tune hpowf (timely_init hmake hdier hccer) hprompt hn hkeep

end Synth

/-- Without packets the voices keep their notes. -/
theorem voices_of_no_packet {T : Byte → Word} {inputs : List Input}
    {ctx ctx' : NoteHandlerTaskContext}
    (h : ∀ p, .packet p ∉ inputs) (hrun : run (synthStep T) ctx inputs = .ok ctx') :
    ctx'.noteScheduler = ctx.noteScheduler := by
  induction inputs generalizing ctx with
  | nil =>
    cases hrun
    rfl
  | cons input inputs ih =>
    have htail : ∀ p, .packet p ∉ inputs := fun p hp => h p (List.mem_cons_of_mem _ hp)
    cases input with
    | packet p => exact absurd List.mem_cons_self (h p)
    | tick =>
      rw [run_cons_ok rfl] at hrun
      exact (ih htail hrun).trans rfl
    | isr =>
      rw [run_cons_ok rfl] at hrun
      exact (ih htail hrun).trans rfl

/-- The highest note, up to its first edge. -/
theorem voice_in_tune_g9 :
    ∃ ctx next half, run (synthStep (notePeriodUs12tet roundedPowf)) ⟨{}, PWMGenerator.mainInit⟩
        [.packet ![0x09, 0x90, 127, 100]] = .ok ctx ∧
      outputEdges (notePeriodUs12tet roundedPowf) 0 (ticks [.packet ![0x09, 0x90, 127, 100]]) ctx
          (List.replicate 39 .tick) =
        grid next half (ticks ([.packet ![0x09, 0x90, 127, 100]] ++ List.replicate 39 .tick)) ∧
      ticks [.packet ![0x09, 0x90, 127, 100]] < next ∧
      next ≤ ticks [.packet ![0x09, 0x90, 127, 100]] + 62500 ∧
      2 ^ (-(1 : ℝ) / 24) * tetPeriod (127 : Byte).toNat < 2 * half ∧
      2 * half < 2 ^ ((1 : ℝ) / 24) * tetPeriod (127 : Byte).toNat := by
  obtain ⟨gpio', hmake⟩ := PWMGenerator.make_main fun _ => ⟨0, 0, 0, fun _ => 0⟩
  obtain ⟨ctx₁, hstep, hnote, hreq⟩ : ∃ ctx₁, synthStep (notePeriodUs12tet roundedPowf)
      ⟨{}, PWMGenerator.mainInit⟩ (.packet ![0x09, 0x90, 127, 100]) = .ok ctx₁ ∧
      (ctx₁.noteScheduler.mVoices 0).note = 127 ∧
      ctx₁.pwmGenerator.tim.sr &&& ctx₁.pwmGenerator.tim.dier = 0 :=
    ⟨_, rfl, rfl, by decide +kernel⟩
  refine voice_in_tune powfAccurate_roundedPowf hmake rfl rfl ?_ (i := 0) (n := 127) (by decide) ?_
  · -- all ticks come after the packet, and only then can there be a request
    intro pre w rest ctx' heq hrun hreq' _
    by_contra hlate
    have hsum := congrArg ticks heq
    rw [ticks_append, ticks_append, ticks_append] at hsum
    have htotal : ticks [.packet ![0x09, 0x90, 127, 100]] + ticks (List.replicate 39 .tick) = 39 :=
      rfl
    have hpre : ticks pre = 0 := by omega
    cases pre with
    | nil =>
      cases hrun
      exact hreq' (by decide)
    | cons input pre =>
      injection heq with hinput heq
      subst hinput
      rw [run_cons_ok hstep] at hrun
      cases pre with
      | nil =>
        cases hrun
        exact hreq' hreq
      | cons input pre =>
        injection heq with hinput heq
        subst hinput
        rw [ticks_cons, ticks_cons] at hpre
        cases hpre
  · intro w rest ctx heq hrun
    rw [List.singleton_append, run_cons_ok hstep] at hrun
    rw [voices_of_no_packet ?_ hrun, hnote]
    intro p hp
    have hmem : .packet p ∈ List.replicate 39 Input.tick := heq ▸ List.mem_append_left _ hp
    cases List.eq_of_mem_replicate hmem

end StepperSynth
