import StepperSynth.Midi
import StepperSynth.Pwm.Enables
import StepperSynth.Scheduler.Calls

/-!
# The note handler

Model of the body of `noteHandlerTask` (`main.cpp`), which applies each note
event to the scheduler and passes the voice on to the generator. The timer may
tick and `isr` may run between two events. An event is handled in one step, with no
tick and no interrupt inside `setChannelPeriod`; `Pwm/Enabling` and `Pwm/Interleaved`
take it apart.

* `noteHandler_noteOn`, `noteHandler_noteOff`: what the body does, whatever the
  state.
* `Coupled`, `coupled_step`: the voice table and the generator say the same.
* `voices_match_channels`: so they do after every run, of any length, and no
  assert on the way fails.
-/

namespace StepperSynth

open Common MIDI

/-- What `NoteHandlerTaskContext` points to, without the queue. -/
structure NoteHandlerTaskContext where
  noteScheduler : NoteScheduler
  pwmGenerator : PWMGenerator

/-- Model of the body of `noteHandlerTask` after the receive (`main.cpp`
    lines 80–90). `notePeriodUs12tet` is a parameter. -/
def noteHandler (notePeriodUs12tet : Byte → Word) (ctx : NoteHandlerTaskContext)
    (event : NoteEvent) : Except Fault NoteHandlerTaskContext :=
  match event.kind with
  | .kNoteOff =>
    match ctx.noteScheduler.handleNoteOff event.note with
    | .error e => .error e
    | .ok (noteScheduler, result) =>
      if result.outcome ≠ .kNoVoice then
        match ctx.pwmGenerator.setChannelPeriod result.voiceIndex 0 with
        | .error e => .error e
        | .ok pwmGenerator => .ok ⟨noteScheduler, pwmGenerator⟩
      else .ok { ctx with noteScheduler }
  | .kNoteOn =>
    match ctx.noteScheduler.handleNoteOn event.note with
    | .error e => .error e
    | .ok (noteScheduler, result) =>
      let period := notePeriodUs12tet event.note
      match ctx.pwmGenerator.setChannelPeriod result.voiceIndex period with
      | .error e => .error e
      | .ok pwmGenerator => .ok ⟨noteScheduler, pwmGenerator⟩
  | .kNone => .ok ctx

/-- What can happen to a running synthesizer. -/
inductive Input
  | packet (p : Packet)
  | tick
  | isr

/-- One input. A packet is handled in one step, with no interrupt inside
    `setChannelPeriod`. -/
def synthStep (notePeriodUs12tet : Byte → Word) (ctx : NoteHandlerTaskContext) :
    Input → Except Fault NoteHandlerTaskContext
  | .packet p => noteHandler notePeriodUs12tet ctx (parsePacket p)
  | .tick => .ok { ctx with pwmGenerator := ctx.pwmGenerator.tick }
  | .isr => .ok { ctx with pwmGenerator := ctx.pwmGenerator.isr }

/-! ## What the handler does -/

theorem note_ne_kFreeNote {note : Byte} (h : note < 128) : note ≠ kFreeNote := by
  rintro rfl
  exact absurd h (by decide)

section Handler

variable {T : Byte → Word} {ctx : NoteHandlerTaskContext} {event : NoteEvent}

theorem noteHandler_none (hkind : event.kind = .kNone) : noteHandler T ctx event = .ok ctx := by
  unfold noteHandler
  rw [hkind]

/-- A note on: the scheduler picks a voice, and its channel gets the period. -/
theorem noteHandler_noteOn (hnum : ctx.pwmGenerator.mNumChannels = synthNumVoices)
    (hkind : event.kind = .kNoteOn) (hnote : event.note ≠ kFreeNote) :
    ∃ i o, ctx.noteScheduler.handleNoteOn event.note =
        .ok (ctx.noteScheduler.assign i event.note, ⟨o, i⟩) ∧
      ctx.noteScheduler.PicksVoice event.note i o ∧
      noteHandler T ctx event = .ok ⟨ctx.noteScheduler.assign i event.note,
        ctx.pwmGenerator.setPeriodBody i (T event.note)⟩ := by
  obtain ⟨i, o, he, hp⟩ := ctx.noteScheduler.handleNoteOn_cases hnote
  refine ⟨i, o, he, hp, ?_⟩
  have hi : i < ctx.pwmGenerator.mNumChannels := by
    rw [hnum]
    exact i.isLt
  unfold noteHandler
  rw [hkind]
  simp only [he, ctx.pwmGenerator.setChannelPeriod_ok i hi]

/-- A note off: the voice that the scheduler frees is switched off; if it finds
    none, nothing changes. -/
theorem noteHandler_noteOff (hnum : ctx.pwmGenerator.mNumChannels = synthNumVoices)
    (hkind : event.kind = .kNoteOff) (hnote : event.note ≠ kFreeNote) :
    (∃ i, (ctx.noteScheduler.mVoices i).note = event.note ∧
        (ctx.noteScheduler.mVoices i).updateTs ≠ uint32Max ∧
        ctx.noteScheduler.handleNoteOff event.note =
          .ok (ctx.noteScheduler.unassign i, ⟨.kFreed, i⟩) ∧
        noteHandler T ctx event = .ok ⟨ctx.noteScheduler.unassign i,
          ctx.pwmGenerator.setPeriodBody i 0⟩) ∨
      (ctx.noteScheduler.handleNoteOff event.note =
          .ok (ctx.noteScheduler, ⟨.kNoVoice, kMaxIndex⟩) ∧
        noteHandler T ctx event = .ok ctx) := by
  rcases ctx.noteScheduler.handleNoteOff_cases hnote with ⟨i, hi, hts, he⟩ | ⟨-, he⟩
  · left
    refine ⟨i, hi, hts, he, ?_⟩
    have hlt : i < ctx.pwmGenerator.mNumChannels := by
      rw [hnum]
      exact i.isLt
    unfold noteHandler
    rw [hkind]
    simp only [he, ctx.pwmGenerator.setChannelPeriod_ok i hlt]
    rfl
  · right
    refine ⟨he, ?_⟩
    unfold noteHandler
    rw [hkind]
    simp only [he]
    rfl

end Handler

/-! ## The voice table and the generator -/

/-- The half-period of a channel whose voice has `note`. -/
def halfOf (T : Byte → Word) (note : Byte) : Word := if note = kFreeNote then 0 else T note / 2

/-- The voice table and the generator say the same, for periods `T`. -/
structure Coupled (T : Byte → Word) (ctx : NoteHandlerTaskContext) : Prop where
  inv : NoteScheduler.Inv ctx.noteScheduler
  note : ∀ i, (ctx.noteScheduler.mVoices i).note = kFreeNote ∨
    (ctx.noteScheduler.mVoices i).note < 128
  num : ctx.pwmGenerator.mNumChannels = synthNumVoices
  agree : ∀ ch, (ctx.pwmGenerator.view ch).Agree
  period : ∀ i : Fin synthNumVoices, (ctx.pwmGenerator.view i).period =
    halfOf T (ctx.noteScheduler.mVoices i).note

namespace Coupled

variable {T : Byte → Word} {ctx : NoteHandlerTaskContext}

/-- Voice `i` gets a note, and its channel gets the period that goes with it. -/
theorem set (h : Coupled T ctx) {s : NoteScheduler} (hs : NoteScheduler.Inv s)
    {i : Fin synthNumVoices} {p : Word} {note : Byte} (hi : (s.mVoices i).note = note)
    (hother : ∀ j, j ≠ i → (s.mVoices j).note = (ctx.noteScheduler.mVoices j).note)
    (hnote : note = kFreeNote ∨ note < 128) (hp : p / 2 = halfOf T note) :
    Coupled T ⟨s, ctx.pwmGenerator.setPeriodBody i p⟩ := by
  refine ⟨hs, fun j => ?_, ?_, fun ch => ?_, fun j => ?_⟩
  · by_cases hj : j = i
    · rw [hj, hi]
      exact hnote
    · rw [hother j hj]
      exact h.note j
  · rw [PWMGenerator.setPeriodBody_num]
    exact h.num
  · rw [PWMGenerator.view_setPeriodBody]
    split_ifs
    · exact Channel.agree_setPeriod (h.agree ch) p
    · exact h.agree ch
  · rw [PWMGenerator.view_setPeriodBody]
    by_cases hj : j = i
    · rw [if_pos hj, Channel.setPeriod_period, hp, hj, hi]
    · rw [if_neg hj, hother j hj]
      exact h.period j

theorem noteHandler (h : Coupled T ctx) {event : NoteEvent} (hnote : event.note < 128) :
    ∃ ctx', StepperSynth.noteHandler T ctx event = .ok ctx' ∧ Coupled T ctx' := by
  have hfree := note_ne_kFreeNote hnote
  cases hkind : event.kind with
  | kNone => exact ⟨ctx, noteHandler_none hkind, h⟩
  | kNoteOn =>
    obtain ⟨i, o, -, hp, he⟩ := noteHandler_noteOn (T := T) h.num hkind hfree
    refine ⟨_, he, h.set (h.inv.assign hfree fun j hj => hp.unique h.inv hfree hj) ?_ ?_
      (Or.inr hnote) ?_⟩
    · rw [NoteScheduler.assign_self]
    · intro j hj
      rw [NoteScheduler.assign_ne _ hj]
    · exact (if_neg hfree).symm
  | kNoteOff =>
    rcases noteHandler_noteOff (T := T) h.num hkind hfree with ⟨i, -, hts, -, he⟩ | ⟨-, he⟩
    · refine ⟨_, he, h.set (h.inv.unassign hts) ?_ ?_ (Or.inl rfl) ?_⟩
      · rw [NoteScheduler.unassign_self]
      · intro j hj
        rw [NoteScheduler.unassign_ne _ hj]
      · rfl
    · exact ⟨ctx, he, h⟩

theorem tick (h : Coupled T ctx) :
    Coupled T { ctx with pwmGenerator := ctx.pwmGenerator.tick } := by
  refine ⟨h.inv, h.note, h.num, fun ch => ?_, h.period⟩
  rw [PWMGenerator.view_tick]
  exact Channel.agree_tick (h.agree ch)

theorem isr (h : Coupled T ctx) : Coupled T { ctx with pwmGenerator := ctx.pwmGenerator.isr } := by
  have hf := ctx.pwmGenerator.isr_frame
  refine ⟨h.inv, h.note, hf.num.trans h.num, fun ch => ?_, fun i => ?_⟩
  · rw [ctx.pwmGenerator.view_isr (by rw [h.num]; exact ch.isLt)]
    exact Channel.agree_isr (h.agree ch)
  · show ctx.pwmGenerator.isr.mPeriodsUs i = _
    rw [hf.periods]
    exact h.period i

end Coupled

/-- Every input keeps the voice table and the generator together. -/
theorem coupled_step (T : Byte → Word) (ctx : NoteHandlerTaskContext) (input : Input)
    (h : Coupled T ctx) : ∃ ctx', synthStep T ctx input = .ok ctx' ∧ Coupled T ctx' := by
  cases input with
  | packet p => exact h.noteHandler (parsePacket_note_lt p)
  | tick => exact ⟨_, rfl, h.tick⟩
  | isr => exact ⟨_, rfl, h.isr⟩

/-- A fresh scheduler and a fresh generator agree. -/
theorem coupled_init (T : Byte → Word) {tim : Tim} {gpio gpio' : Gpio} {clock : Word}
    {pins : Ch → Pin} {g : PWMGenerator}
    (hmake : PWMGenerator.make tim gpio clock pins synthNumVoices = .ok (g, gpio'))
    (hdier : tim.dier = 0) (hccer : tim.ccer = 0) : Coupled T ⟨{}, g⟩ := by
  have hg := PWMGenerator.bookkeeping_make hmake hdier hccer
  exact ⟨NoteScheduler.inv_init, fun _ => Or.inl rfl, hg.num, hg.agree, hg.period⟩

/-- What the generator says about channel `i`: its period, and its enable bits. -/
theorem Coupled.channel {T : Byte → Word} {ctx : NoteHandlerTaskContext} (h : Coupled T ctx)
    (i : Fin synthNumVoices) :
    ctx.pwmGenerator.mPeriodsUs i = halfOf T (ctx.noteScheduler.mVoices i).note ∧
      (ctx.pwmGenerator.tim.ccer &&& Tim.ccxeMsk i ≠ 0 ↔ ctx.pwmGenerator.mPeriodsUs i ≠ 0) ∧
      (ctx.pwmGenerator.tim.dier &&& Tim.ccxieMsk i ≠ 0 ↔ ctx.pwmGenerator.mPeriodsUs i ≠ 0) := by
  obtain ⟨he, hi⟩ := h.agree i
  refine ⟨h.period i, ?_, ?_⟩
  · have hbit : ctx.pwmGenerator.tim.ccer &&& Tim.ccxeMsk i ≠ 0 ↔
        (ctx.pwmGenerator.view i).ccxe = true := and_mask_ne_zero (PWMGenerator.ccBit_lt i) _
    rw [hbit, he, decide_eq_true_eq]
    rfl
  · have hbit : ctx.pwmGenerator.tim.dier &&& Tim.ccxieMsk i ≠ 0 ↔
        (ctx.pwmGenerator.view i).ccxie = true := and_mask_ne_zero (PWMGenerator.irqBit_lt i) _
    rw [hbit, hi, decide_eq_true_eq]
    rfl

/-- Channel `i` is as the note of voice `i` asks. -/
structure ChannelMatches (T : Byte → Word) (ctx : NoteHandlerTaskContext)
    (i : Fin synthNumVoices) : Prop where
  free : (ctx.noteScheduler.mVoices i).note = kFreeNote →
    ctx.pwmGenerator.mPeriodsUs i = 0 ∧
      ctx.pwmGenerator.tim.ccer &&& Tim.ccxeMsk i = 0 ∧
      ctx.pwmGenerator.tim.dier &&& Tim.ccxieMsk i = 0
  busy : ∀ n, (ctx.noteScheduler.mVoices i).note = n → n ≠ kFreeNote →
    ctx.pwmGenerator.mPeriodsUs i = T n / 2 ∧ T n / 2 ≠ 0 ∧
      ctx.pwmGenerator.tim.ccer &&& Tim.ccxeMsk i ≠ 0 ∧
      ctx.pwmGenerator.tim.dier &&& Tim.ccxieMsk i ≠ 0

theorem Coupled.channelMatches {T : Byte → Word} (hT : ∀ n, n < 128 → 2 ≤ T n)
    {ctx : NoteHandlerTaskContext} (h : Coupled T ctx) (i : Fin synthNumVoices) :
    ChannelMatches T ctx i := by
  obtain ⟨hper, hcc, hirq⟩ := h.channel i
  constructor
  · intro hfree
    rw [halfOf, if_pos hfree] at hper
    refine ⟨hper, ?_, ?_⟩
    · by_contra hne
      exact hcc.mp hne hper
    · by_contra hne
      exact hirq.mp hne hper
  · intro n hn hne
    rw [hn, halfOf, if_neg hne] at hper
    have hlt : n < 128 := by
      have := h.note i
      rw [hn] at this
      exact this.resolve_left hne
    have hhalf : T n / 2 ≠ 0 := Channel.half_ne_zero (hT n hlt)
    rw [← hper] at hhalf
    exact ⟨hper, hper ▸ hhalf, hcc.mpr hhalf, hirq.mpr hhalf⟩

/-- **The voice table and the generator never drift apart.** Let
    `notePeriodUs12tet` return at least 2 for every note in `0 … 127`. For every
    sequence of packets, ticks and `isr` runs, of any length, from a fresh
    scheduler and a generator with `SYNTH_NUM_VOICES` channels on a timer with
    `DIER` and `CCER` as a reset leaves them: no assert fails and every voice
    index is in range; the channel of a free voice has period 0 and its enable
    bits clear; and that of a voice with a note has half the period of the note,
    which is nonzero, and its enable bits set. -/
theorem voices_match_channels (notePeriodUs12tet : Byte → Word)
    (hT : ∀ n, n < 128 → 2 ≤ notePeriodUs12tet n) {tim : Tim} {gpio gpio' : Gpio} {clock : Word}
    {pins : Ch → Pin} {g : PWMGenerator}
    (hmake : PWMGenerator.make tim gpio clock pins synthNumVoices = .ok (g, gpio'))
    (hdier : tim.dier = 0) (hccer : tim.ccer = 0) (inputs : List Input) :
    ∃ ctx, run (synthStep notePeriodUs12tet) ⟨{}, g⟩ inputs = .ok ctx ∧
      ∀ i, ChannelMatches notePeriodUs12tet ctx i := by
  have hstep := fun ctx input (_ : True) => coupled_step notePeriodUs12tet ctx input
  obtain ⟨ctx, hrun, h⟩ := run_invariant hstep
    (coupled_init notePeriodUs12tet hmake hdier hccer) inputs (fun _ _ => trivial)
  exact ⟨ctx, hrun, h.channelMatches hT⟩

/-- Two notes on the generator of `main`, one released while the timer runs. The
    periods are 1000 for every note. -/
theorem voices_match_channels_main :
    ∃ ctx, run (synthStep fun _ => 1000) ⟨{}, PWMGenerator.mainInit⟩
        [.packet ![0x09, 0x90, 60, 100], .tick, .packet ![0x09, 0x90, 64, 100], .isr,
          .packet ![0x08, 0x80, 60, 0]] = .ok ctx ∧
      ∀ i, ChannelMatches (fun _ => 1000) ctx i := by
  obtain ⟨gpio', hmake⟩ := PWMGenerator.make_main fun _ => ⟨0, 0, 0, fun _ => 0⟩
  exact voices_match_channels _ (fun _ _ => by decide) hmake rfl rfl _

end StepperSynth
