import StepperSynth.Synth.EndToEnd

/-!
# Silence

When the host has released every note, the tasks come to rest with all channels off,
and no output moves until the next packet.

* `received_run`, `flowControl_silent`: a silent host stays within its flow control.
* `quiescent_step`, `rest_of_rounds`: the tasks at rest.
* `Silent`, `silent_step`: the state after the last release, and what can still happen.
* `all_notes_off`: from the packets of the host to the outputs of the timer.
-/

namespace StepperSynth

open Common MIDI

section Host

variable {api : QueueApi} {T : Byte → Word} {s s' : Tasks} {a : Action} {packets : List Packet}

/-! ## A silent host -/

/-- What has been received stays received. -/
theorem received_step (hs : Steps api T s a s') : s.received.length ≤ s'.received.length := by
  cases hs with
  | receive hpc hq =>
    rw [List.length_append]
    exact Nat.le_add_right _ _
  | _ => exact le_rfl

theorem received_run {actions : List Action} (hrun : run (taskStep api T) s actions = .ok s') :
    s.received.length ≤ s'.received.length := by
  induction actions generalizing s with
  | nil =>
    cases hrun
    exact le_rfl
  | cons a actions ih =>
    cases hstep : taskStep api T s a with
    | error e =>
      rw [run, hstep] at hrun
      cases hrun
    | ok s₁ =>
      rw [run_cons_ok hstep] at hrun
      exact (received_step (steps_of_taskStep hstep)).trans (ih hrun)

theorem hostPackets_silent {actions : List Action} (hsilent : ∀ a ∈ actions, a.packet = none) :
    hostPackets actions = [] := by
  unfold hostPackets
  rw [List.filterMap_eq_nil_iff]
  exact hsilent

theorem hostPackets_append (actions rest : List Action) :
    hostPackets (actions ++ rest) = hostPackets actions ++ hostPackets rest :=
  List.filterMap_append

/-- Silence keeps within the flow control. -/
theorem flowControl_silent {start : Tasks} (hstart : SystemInv api T [] start)
    {actions silence : List Action} (hflow : FlowControl api T start actions)
    (hsilent : ∀ a ∈ silence, a.packet = none) : FlowControl api T start (actions ++ silence) := by
  intro before rest s heq hrun
  rcases List.append_eq_append_iff.mp heq with ⟨more, rfl, hmore⟩ | ⟨more, hmore, -⟩
  · obtain ⟨s₀, hrun₀, -⟩ := systemInv_run hstart actions
    rw [run_append_ok hrun₀] at hrun
    have hnow := hflow actions [] s₀ (List.append_nil _).symm hrun₀
    have hquiet : hostPackets more = [] :=
      hostPackets_silent fun a ha => hsilent a (hmore ▸ List.mem_append_left _ ha)
    have hreceived := received_run hrun
    rw [hostPackets_append, hquiet, List.append_nil]
    omega
  · exact hflow before more s hmore hrun

end Host

/-! ## The tasks at rest -/

/-- At rest and without a packet, only the timer and its interrupt do anything. -/
theorem quiescent_step {api : QueueApi} {T : Byte → Word} {s s' : Tasks} {a : Action}
    (hq : Quiescent s) (ha : a.packet = none) (hs : Steps api T s a s') :
    s' = s ∨ ∃ i, a = .timer i ∧
      s' = { s with ctx := { s.ctx with pwmGenerator := s.ctx.pwmGenerator.interfere i } } := by
  obtain ⟨hrx, hmidi, hqueue, hhandler⟩ := hq
  cases hs with
  | host packet => cases ha
  | poll hpc hrx => exact .inl rfl
  | wait hpc hq => exact .inl rfl
  | read hpc hrx' =>
    rw [hrx] at hrx'
    cases hrx'
  | skip hpc hkind =>
    rw [hmidi] at hpc
    cases hpc
  | parse hpc hkind =>
    rw [hmidi] at hpc
    cases hpc
  | send hpc =>
    rw [hmidi] at hpc
    cases hpc
  | check hpc =>
    rw [hmidi] at hpc
    cases hpc
  | receive hpc hq =>
    rw [hqueue] at hq
    cases hq
  | handle hpc he =>
    rw [hhandler] at hpc
    cases hpc
  | timer i => exact .inr ⟨i, rfl, rfl⟩

/-- After enough rounds, the tasks rest, and nothing of what the host has sent is lost. -/
theorem rest_of_rounds {api : QueueApi} {T : Byte → Word} {g : PWMGenerator}
    (hinit : SystemInv api T [] (taskInit g)) {actions : List Action}
    (hflow : FlowControl api T (taskInit g) actions) {rounds : List (List Action)}
    (hrounds : ∀ r ∈ rounds, Round r) (hlong : 6 * (hostPackets actions).length ≤ rounds.length) :
    ∃ s, run (taskStep api T) (taskInit g) (actions ++ rounds.flatten) = .ok s ∧
      SystemInv api T (hostPackets actions) s ∧ Quiescent s ∧
      Lossless (hostPackets actions) s := by
  obtain ⟨s₁, hrun₁, h₁⟩ := systemInv_run hinit actions
  have hwork : work s₁ ≤ rounds.length := by
    have hle := work_le hinit hrun₁
    have hzero : work (taskInit g) = 0 := rfl
    omega
  obtain ⟨s, hrun, h, hq⟩ := quiescent_of_rounds h₁ hrounds hwork
  have hquiet : ∀ a ∈ rounds.flatten, a.packet = none := by
    intro a ha
    obtain ⟨r, hr, har⟩ := List.mem_flatten.mp ha
    exact (hrounds r hr).silent a har
  obtain ⟨t, hrunt, ht⟩ := kept_run hinit rfl (flowControl_silent hinit hflow hquiet)
  rw [run_append_ok hrun₁, hrun] at hrunt
  cases hrunt
  have hkept := ht.lossless
  rw [List.reverse_reverse, hostPackets_append, hostPackets_silent hquiet, List.append_nil] at hkept
  exact ⟨s, by rw [run_append_ok hrun₁, hrun], h, hq, hkept⟩

/-! ## Channels that are off -/

/-- The output of a channel that is off does not toggle. -/
theorem Channel.tick_out_of_off {c : Channel} (hoff : c.ccxe = false) : c.tick.out = c.out := by
  unfold tick
  split_ifs
  · rw [hoff, Bool.xor_false]
  · rfl

/-- Both tasks wait, and no voice has a note. -/
structure Silent (T : Byte → Word) (s : Tasks) : Prop where
  quiescent : Quiescent s
  coupled : Coupled T s.ctx
  free : ∀ i, (s.ctx.noteScheduler.mVoices i).note = kFreeNote

section Silent

variable {api : QueueApi} {T : Byte → Word} {s s' : Tasks} {a : Action}

theorem Silent.off (h : Silent T s) (ch : Ch) :
    s.ctx.pwmGenerator.mPeriodsUs ch = 0 ∧ (s.ctx.pwmGenerator.view ch).ccxe = false ∧
      (s.ctx.pwmGenerator.view ch).ccxie = false := by
  have hper : s.ctx.pwmGenerator.mPeriodsUs ch = 0 := by
    have hhalf := h.coupled.period ch
    rwa [h.free ch, halfOf, if_pos rfl] at hhalf
  have hzero : (s.ctx.pwmGenerator.view ch).period = 0 := hper
  obtain ⟨hcc, hirq⟩ := h.coupled.agree ch
  rw [hzero] at hcc hirq
  exact ⟨hper, hcc, hirq⟩

/-- Without a packet, it stays so, and no output moves. -/
theorem silent_step (h : Silent T s) (ha : a.packet = none) (hs : Steps api T s a s') :
    Silent T s' ∧ s'.ctx.pwmGenerator.tim.out = s.ctx.pwmGenerator.tim.out := by
  rcases quiescent_step h.quiescent ha hs with rfl | ⟨i, rfl, rfl⟩
  · exact ⟨h, rfl⟩
  have hq : Quiescent { s with ctx := { s.ctx with
      pwmGenerator := s.ctx.pwmGenerator.interfere i } } :=
    ⟨h.quiescent.rx, h.quiescent.usbMidi, h.quiescent.queue, h.quiescent.noteHandler⟩
  cases i with
  | tick =>
    refine ⟨⟨hq, h.coupled.tick, h.free⟩, funext fun ch => ?_⟩
    show (s.ctx.pwmGenerator.tick.view ch).out = (s.ctx.pwmGenerator.view ch).out
    rw [PWMGenerator.view_tick]
    exact Channel.tick_out_of_off (h.off ch).2.1
  | isr =>
    refine ⟨⟨hq, h.coupled.isr, h.free⟩, ?_⟩
    show s.ctx.pwmGenerator.isr.tim.out = _
    rw [s.ctx.pwmGenerator.isr_frame.tim]

theorem silent_run {packets : List Packet} (hinv : SystemInv api T packets s) (h : Silent T s)
    {actions : List Action} (hsilent : ∀ a ∈ actions, a.packet = none) :
    ∃ s', run (taskStep api T) s actions = .ok s' ∧ Silent T s' ∧
      s'.ctx.pwmGenerator.tim.out = s.ctx.pwmGenerator.tim.out := by
  induction actions generalizing s packets with
  | nil => exact ⟨s, rfl, h, rfl⟩
  | cons a actions ih =>
    obtain ⟨s₁, hstep, hinv₁⟩ := systemInv_step hinv a
    obtain ⟨h₁, hout₁⟩ := silent_step h (hsilent a List.mem_cons_self) (steps_of_taskStep hstep)
    obtain ⟨s₂, hrun, h₂, hout₂⟩ := ih hinv₁ h₁ fun b hb => hsilent b (List.mem_cons_of_mem _ hb)
    exact ⟨s₂, by rw [run_cons_ok hstep, hrun], h₂, hout₂.trans hout₁⟩

end Silent

/-- Nothing sounds any more: no voice has a note, and every channel is off. -/
def AllOff (ctx : NoteHandlerTaskContext) : Prop :=
  ∀ i, (ctx.noteScheduler.mVoices i).note = kFreeNote ∧ ctx.pwmGenerator.mPeriodsUs i = 0 ∧
    ctx.pwmGenerator.tim.ccer &&& Tim.ccxeMsk i = 0 ∧
    ctx.pwmGenerator.tim.dier &&& Tim.ccxieMsk i = 0

theorem Silent.allOff {T : Byte → Word} {s : Tasks} (h : Silent T s) : AllOff s.ctx := by
  intro i
  obtain ⟨hper, hcc, hirq⟩ := h.off i
  refine ⟨h.free i, hper, ?_, ?_⟩
  · by_contra hne
    have hbit : (s.ctx.pwmGenerator.view i).ccxe = true :=
      (and_mask_ne_zero (PWMGenerator.ccBit_lt i) _).mp hne
    rw [hcc] at hbit
    cases hbit
  · by_contra hne
    have hbit : (s.ctx.pwmGenerator.view i).ccxie = true :=
      (and_mask_ne_zero (PWMGenerator.irqBit_lt i) _).mp hne
    rw [hirq] at hbit
    cases hbit

/-- **All notes off.** Let the host keep to its flow control, send at most `2^32 - 2`
    note-ons, and release every note that it has pressed; then let it be silent for 6
    rounds for each of its packets. No voice has a note any more and every channel is off;
    and whatever the timer, its interrupt and the tasks do from then on without another
    packet, that stays so, and no output ever moves. -/
theorem all_notes_off (api : QueueApi) (notePeriodUs12tet : Byte → Word) {tim : Tim}
    {gpio gpio' : Gpio} {clock : Word} {pins : Ch → Pin} {g : PWMGenerator}
    (hmake : PWMGenerator.make tim gpio clock pins synthNumVoices = .ok (g, gpio'))
    (hdier : tim.dier = 0) (hccer : tim.ccer = 0) {actions : List Action}
    (hflow : FlowControl api notePeriodUs12tet (taskInit g) actions)
    (hcount : noteOns (hostPackets actions) ≤ 2 ^ 32 - 2)
    (hreleased : ∀ n, ¬ Held (gestures (noteEvents (hostPackets actions))) n)
    {rounds : List (List Action)} (hrounds : ∀ r ∈ rounds, Round r)
    (hlong : 6 * (hostPackets actions).length ≤ rounds.length) {silence : List Action}
    (hsilent : ∀ a ∈ silence, a.packet = none) :
    ∃ s s', run (taskStep api notePeriodUs12tet) (taskInit g) (actions ++ rounds.flatten) = .ok s ∧
      run (taskStep api notePeriodUs12tet) s silence = .ok s' ∧ AllOff s.ctx ∧ AllOff s'.ctx ∧
      s'.ctx.pwmGenerator.tim.out = s.ctx.pwmGenerator.tim.out := by
  have hinit := systemInv_init api notePeriodUs12tet (coupled_init _ hmake hdier hccer)
  obtain ⟨s, hrun, h, hq, hlossless⟩ := rest_of_rounds hinit hflow hrounds hlong
  have hplays := plays_of_sim (hlossless.sim h hq hcount)
  have hfree : ∀ i, (s.ctx.noteScheduler.mVoices i).note = kFreeNote := by
    intro i
    by_contra hne
    exact hplays.released _ hne (hreleased _) i rfl
  have hsil : Silent notePeriodUs12tet s := ⟨hq, h.coupled, hfree⟩
  obtain ⟨s', hrun', hsil', hout⟩ := silent_run h hsil hsilent
  exact ⟨s, s', hrun, hrun', hsil.allOff, hsil'.allOff, hout⟩

/-- One note, pressed and released. -/
theorem all_notes_off_one :
    ∃ s s', run (taskStep freeRTOS fun _ => 1000) (taskInit PWMGenerator.mainInit)
        ([.host ![0x09, 0x90, 60, 100], .usbMidi, .host ![0x08, 0x80, 60, 0]] ++
          (List.replicate 12 [.usbMidi, .timer .tick, .noteHandler]).flatten) = .ok s ∧
      run (taskStep freeRTOS fun _ => 1000) s [.timer .tick, .usbMidi, .timer .isr, .timer .tick] =
        .ok s' ∧
      AllOff s.ctx ∧ AllOff s'.ctx ∧
      s'.ctx.pwmGenerator.tim.out = s.ctx.pwmGenerator.tim.out := by
  obtain ⟨gpio', hmake⟩ := PWMGenerator.make_main fun _ => ⟨0, 0, 0, fun _ => 0⟩
  refine all_notes_off freeRTOS _ hmake rfl rfl (flowControl_of_few (by decide)) (by decide)
    (fun n hheld => ?_) (fun r hr => ?_) (by decide) (by simp [Action.packet])
  · have hhistory : gestures (noteEvents (hostPackets
        [.host ![0x09, 0x90, 60, 100], .usbMidi, .host ![0x08, 0x80, 60, 0]])) =
        [.release 60, .press 60] := by decide
    rw [hhistory] at hheld
    simp only [Held, Gesture.name, List.find?_cons] at hheld
    by_cases hn : 60#8 = n
    · simp [hn] at hheld
    · simp [hn] at hheld
  · rw [List.eq_of_mem_replicate hr]
    exact ⟨by simp [Action.packet], by simp, by simp⟩

end StepperSynth
