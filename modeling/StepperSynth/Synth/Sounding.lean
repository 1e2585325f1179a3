import StepperSynth.Common.History
import StepperSynth.Scheduler.Reference
import StepperSynth.Synth.Handler

/-!
# Which notes sound

The scheduler refines the least recently used allocator, and that allocator
holds what sounds. So the packets alone say which notes sound.

* `Input.call`: the call of the scheduler that a packet makes.
* `held_noteOn`: a Note On packet with velocity 0 counts as a release.
* `follows_step`: the handler makes exactly these calls.
* `sounding_notes`: after every run, the voices hold the notes that are held and
  were not overtaken by `SYNTH_NUM_VOICES` others.
-/

namespace StepperSynth

open Common MIDI

/-! ## The history of an input sequence -/

/-- The call that a note event makes. -/
def callOf (event : NoteEvent) : Option Call :=
  match event.kind with
  | .kNoteOn => some (.noteOn event.note)
  | .kNoteOff => some (.noteOff event.note)
  | .kNone => none

/-- The call that an input makes. -/
def Input.call : Input → Option Call
  | .packet p => callOf (parsePacket p)
  | .tick => none
  | .isr => none

/-- A note on is a press of the note, a note off a release. -/
def Call.gesture : Call → Gesture Byte
  | .noteOn n => .press n
  | .noteOff n => .release n

/-- The presses and releases of the inputs, newest first. -/
def history (inputs : List Input) : List (Gesture Byte) :=
  ((inputs.filterMap Input.call).map Call.gesture).reverse

theorem callOf_note {event : NoteEvent} {c : Call} (h : callOf event = some c) :
    c.note = event.note := by
  unfold callOf at h
  cases hkind : event.kind with
  | kNoteOn => rw [hkind] at h; cases h; rfl
  | kNoteOff => rw [hkind] at h; cases h; rfl
  | kNone => rw [hkind] at h; cases h

theorem Input.call_note {input : Input} {c : Call} (h : input.call = some c) :
    c.note ≠ kFreeNote := by
  cases input with
  | packet p =>
    rw [callOf_note h]
    exact note_ne_kFreeNote (parsePacket_note_lt p)
  | tick => cases h
  | isr => cases h

theorem calls_note (inputs : List Input) :
    ∀ c ∈ inputs.filterMap Input.call, c.note ≠ kFreeNote := by
  intro c hc
  obtain ⟨input, -, hcall⟩ := List.mem_filterMap.mp hc
  exact Input.call_note hcall

theorem history_concat (inputs : List Input) {input : Input} {c : Call}
    (hcall : input.call = some c) :
    history (inputs ++ [input]) = c.gesture :: history inputs := by
  unfold history
  rw [List.filterMap_append, List.map_append, List.reverse_append]
  simp [hcall]

/-- A Note On packet with velocity 0 is a release of its note, with any other a press. -/
theorem held_noteOn (inputs : List Input) {p : Packet} (hcin : p 0 &&& kCinMask = kCinNoteOn) :
    Held (history (inputs ++ [.packet p])) (p 2 &&& kDataMask) ↔ p 3 &&& kDataMask ≠ 0 := by
  have hkind : (parsePacket p).kind ≠ .kNone := (parsePacket_isNote_iff p).mpr (.inl hcin)
  have hiff := parsePacket_noteOn_iff p
  rw [hcin, eq_self_iff_true, true_and] at hiff
  rw [← hiff, ← parsePacket_note hkind]
  cases hk : (parsePacket p).kind with
  | kNoteOn =>
    have hcall : Input.call (.packet p) = some (.noteOn (parsePacket p).note) := by
      rw [Input.call, callOf, hk]
    rw [history_concat inputs hcall]
    exact iff_of_true held_press rfl
  | kNoteOff =>
    have hcall : Input.call (.packet p) = some (.noteOff (parsePacket p).note) := by
      rw [Input.call, callOf, hk]
    rw [history_concat inputs hcall]
    exact iff_of_false not_held_release nofun
  | kNone => exact absurd hk hkind

/-! ## The handler makes the calls -/

section Handler

variable {T : Byte → Word} {ctx : NoteHandlerTaskContext}

/-- The handler passes the event on to the scheduler, whatever the generator does. -/
theorem noteHandler_call (hnum : ctx.pwmGenerator.mNumChannels = synthNumVoices)
    {event : NoteEvent} (hnote : event.note ≠ kFreeNote) :
    ∃ ctx', noteHandler T ctx event = .ok ctx' ∧
      ctx'.pwmGenerator.mNumChannels = synthNumVoices ∧
      match callOf event with
      | none => ctx'.noteScheduler = ctx.noteScheduler
      | some c => ∃ r, ctx.noteScheduler.call c = .ok (ctx'.noteScheduler, r) := by
  unfold callOf
  cases hkind : event.kind with
  | kNone => exact ⟨ctx, noteHandler_none hkind, hnum, rfl⟩
  | kNoteOn =>
    obtain ⟨i, o, hcall, -, he⟩ := noteHandler_noteOn (T := T) hnum hkind hnote
    exact ⟨_, he, (PWMGenerator.setPeriodBody_num _ _ _).trans hnum, _, hcall⟩
  | kNoteOff =>
    rcases noteHandler_noteOff (T := T) hnum hkind hnote with ⟨i, -, -, hcall, he⟩ | ⟨hcall, he⟩
    · exact ⟨_, he, (PWMGenerator.setPeriodBody_num _ _ _).trans hnum, _, hcall⟩
    · exact ⟨_, he, hnum, _, hcall⟩

theorem synthStep_call (hnum : ctx.pwmGenerator.mNumChannels = synthNumVoices) (input : Input) :
    ∃ ctx', synthStep T ctx input = .ok ctx' ∧
      ctx'.pwmGenerator.mNumChannels = synthNumVoices ∧
      match input.call with
      | none => ctx'.noteScheduler = ctx.noteScheduler
      | some c => ∃ r, ctx.noteScheduler.call c = .ok (ctx'.noteScheduler, r) := by
  cases input with
  | packet p => exact noteHandler_call hnum (note_ne_kFreeNote (parsePacket_note_lt p))
  | tick => exact ⟨_, rfl, hnum, rfl⟩
  | isr => exact ⟨_, rfl, (ctx.pwmGenerator.isr_frame).num.trans hnum, rfl⟩

end Handler

/-- The state after the inputs `h`, newest first: the scheduler is where the
    reference allocator is after the presses and releases of `h`. -/
structure Follows (h : List Input) (ctx : NoteHandlerTaskContext) : Prop where
  num : ctx.pwmGenerator.mNumChannels = synthNumVoices
  sim : NoteScheduler.Sim (h.filterMap Input.call) ctx.noteScheduler
    (lruOf refInit ((h.filterMap Input.call).map Call.gesture))

/-- The reference allocator answers a call as it answers the gesture. -/
theorem refResult_gesture (a : RefAllocator) (c : Call) (h : List (Gesture Byte)) :
    (refResult (lruOf a h) c).1 = lruOf a (c.gesture :: h) := by
  cases c with
  | noteOn n => rfl
  | noteOff n =>
    show (refResult (lruOf a h) (.noteOff n)).1 = ((lruOf a h).release n).1
    simp only [refResult]
    cases (lruOf a h).release n with
    | mk a' v => cases v <;> rfl

/-- The runs considered: at most `2^32 - 2` note-ons. -/
def FewNoteOns (h : List Input) : Prop := Call.countOn (h.filterMap Input.call) ≤ 2 ^ 32 - 2

theorem FewNoteOns.adm {h : List Input} (hfew : FewNoteOns h) :
    NoteScheduler.Adm (h.filterMap Input.call) := ⟨calls_note h, hfew⟩

theorem fewNoteOns_tail (input : Input) (h : List Input) (hfew : FewNoteOns (input :: h)) :
    FewNoteOns h := by
  unfold FewNoteOns at *
  rw [List.filterMap_cons] at hfew
  cases hcall : input.call with
  | none => rwa [hcall] at hfew
  | some c =>
    rw [hcall] at hfew
    cases c with
    | noteOn n => rw [Call.countOn_noteOn] at hfew; omega
    | noteOff n => rwa [Call.countOn_noteOff] at hfew

/-- One input. -/
theorem follows_step (T : Byte → Word) (h : List Input) (ctx : NoteHandlerTaskContext)
    (input : Input) (hfew : FewNoteOns (input :: h)) (hctx : Follows h ctx) :
    ∃ ctx', synthStep T ctx input = .ok ctx' ∧ Follows (input :: h) ctx' := by
  obtain ⟨ctx', he, hnum, hcall⟩ := synthStep_call (T := T) hctx.num input
  refine ⟨ctx', he, hnum, ?_⟩
  have hadm := hfew.adm
  rw [List.filterMap_cons] at hadm ⊢
  cases hc : input.call with
  | none =>
    rw [hc] at hcall
    rw [hcall]
    exact hctx.sim
  | some c =>
    rw [hc] at hcall hadm
    obtain ⟨r, hr⟩ := hcall
    obtain ⟨s', hs', hsim⟩ := NoteScheduler.sim_call hctx.sim hadm
    rw [hr, Except.ok.injEq, Prod.mk.injEq] at hs'
    rw [refResult_gesture] at hsim
    rw [hs'.1]
    exact hsim

theorem follows_init {g : PWMGenerator} (hnum : g.mNumChannels = synthNumVoices) :
    Follows [] ⟨{}, g⟩ := ⟨hnum, NoteScheduler.sim_init⟩

/-! ## Runs -/

theorem history_reverse (inputs : List Input) :
    (inputs.reverse.filterMap Input.call).map Call.gesture = history inputs := by
  unfold history
  rw [List.filterMap_reverse, List.map_reverse]

/-- The voices play what the history says. -/
structure Plays (h : List (Gesture Byte)) (s : NoteScheduler) : Prop where
  /-- A note has a voice iff it is held and at no moment since its latest note-on
      were `SYNTH_NUM_VOICES` or more other notes held whose latest note-on came
      after it. -/
  sounds : ∀ n, n ≠ kFreeNote →
    ((∃ i, (s.mVoices i).note = n) ↔ Sounds synthNumVoices h n)
  /-- No released note keeps sounding. -/
  released : ∀ n, n ≠ kFreeNote → ¬ Held h n → ∀ i, (s.mVoices i).note ≠ n
  /-- While at most `SYNTH_NUM_VOICES` notes are held at once, each one sounds. -/
  few : (∀ h', h' <:+ h → ∀ S : Finset Byte, (∀ m ∈ S, Held h' m) → S.card ≤ synthNumVoices) →
    ∀ n, n ≠ kFreeNote → Held h n → ∃ i, (s.mVoices i).note = n

/-- **Which notes sound.** For every sequence of packets with at most `2^32 - 2`
    note-ons, with ticks and `isr` runs anywhere between them, from a fresh
    scheduler, the voices play exactly what the history of the packets says. -/
theorem sounding_notes (notePeriodUs12tet : Byte → Word) {g : PWMGenerator}
    (hnum : g.mNumChannels = synthNumVoices) (inputs : List Input)
    (hcount : Call.countOn (inputs.filterMap Input.call) ≤ 2 ^ 32 - 2) :
    ∃ ctx, run (synthStep notePeriodUs12tet) ⟨{}, g⟩ inputs = .ok ctx ∧
      Plays (history inputs) ctx.noteScheduler := by
  have hfew : FewNoteOns inputs.reverse := by
    unfold FewNoteOns Call.countOn at *
    rwa [List.filterMap_reverse, List.countP_reverse]
  obtain ⟨ctx, hrun, hctx⟩ := run_history Follows FewNoteOns fewNoteOns_tail
    (follows_step notePeriodUs12tet) (follows_init hnum) inputs hfew
  have hsim := hctx.sim
  rw [history_reverse] at hsim
  have htracks : Tracks (history inputs) (lruOf refInit (history inputs)) :=
    tracks_lruOf (fun _ => rfl) _
  have hsounds : ∀ n, n ≠ kFreeNote → ((∃ i, (ctx.noteScheduler.mVoices i).note = n) ↔
      Sounds synthNumVoices (history inputs) n) := by
    intro n hn
    have h := htracks.sounds n
    rw [Fintype.card_fin] at h
    rw [← h]
    exact exists_congr fun i => (hsim.held_some hn i).symm
  refine ⟨ctx, hrun, hsounds, fun n hn hheld i hi => ?_, fun hfew n hn hheld => ?_⟩
  · exact hheld ((hsounds n hn).mp ⟨i, hi⟩).1
  · exact (hsounds n hn).mpr (sounds_of_few hfew hheld)

/-- Five notes on the four voices of `main`, and the release of the stolen one. -/
theorem sounding_notes_five :
    ∃ ctx, run (synthStep fun _ => 1000) ⟨{}, PWMGenerator.mainInit⟩
        [.packet ![0x09, 0x90, 60, 100], .packet ![0x09, 0x90, 64, 100],
          .packet ![0x09, 0x90, 67, 100], .tick, .packet ![0x09, 0x90, 70, 100],
          .packet ![0x09, 0x90, 72, 100], .isr, .packet ![0x09, 0x90, 60, 0]] = .ok ctx ∧
      Plays (history [.packet ![0x09, 0x90, 60, 100], .packet ![0x09, 0x90, 64, 100],
          .packet ![0x09, 0x90, 67, 100], .tick, .packet ![0x09, 0x90, 70, 100],
          .packet ![0x09, 0x90, 72, 100], .isr, .packet ![0x09, 0x90, 60, 0]])
        ctx.noteScheduler :=
  sounding_notes _ rfl _ (by decide)

end StepperSynth
