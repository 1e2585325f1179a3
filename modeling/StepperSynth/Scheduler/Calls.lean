import StepperSynth.Scheduler.Basic

/-!
# Runs of the note scheduler

Sequences of `handleNoteOn` and `handleNoteOff` calls of any length, also past
the wrap of the 32-bit `m_counter`.

* `Inv`: no two voices play one note, and no free voice carries the time stamp
  `UINT32_MAX`. `handleNoteOff` never frees a voice with that stamp, which is
  what keeps the second part.
* `noteOn_outcomes`: what the next `handleNoteOn` returns, after every run.
* `noteOff_releases_iff`: after every run, the next `handleNoteOff(n)` releases
  `n` if and only if no voice plays `n` under the time stamp `UINT32_MAX`.
* `updateTs_run`: the time stamp of a playing voice is the number of note-ons
  up to the latest one of its note, modulo `2^32`.
* `releases_iff_stampOf`: so that number alone says which notes get stuck.
-/

namespace StepperSynth

open Common

/-- A call of the scheduler. -/
inductive Call
  | noteOn (note : Byte)
  | noteOff (note : Byte)
  deriving DecidableEq, Repr

namespace Call

/-- The argument. -/
def note : Call → Byte
  | noteOn n => n
  | noteOff n => n

/-- Whether the call is one of `handleNoteOn`. -/
def isNoteOn : Call → Bool
  | noteOn _ => true
  | noteOff _ => false

/-- The number of note-ons among the calls. -/
def countOn (h : List Call) : ℕ := h.countP isNoteOn

@[simp] theorem countOn_nil : countOn [] = 0 := rfl

@[simp] theorem countOn_noteOn (n : Byte) (h : List Call) :
    countOn (noteOn n :: h) = countOn h + 1 := List.countP_cons_of_pos rfl

@[simp] theorem countOn_noteOff (n : Byte) (h : List Call) :
    countOn (noteOff n :: h) = countOn h := List.countP_cons_of_neg Bool.false_ne_true

/-- In a list of calls, newest first: the number of note-ons up to and including
    the latest one of `n`. -/
def stampOf : List Call → Byte → ℕ
  | [], _ => 0
  | c :: h, n => if c = noteOn n then countOn (c :: h) else stampOf h n

end Call

namespace NoteScheduler

/-- One call, with its result. -/
def call (s : NoteScheduler) : Call → Except Fault (NoteScheduler × Result)
  | .noteOn n => s.handleNoteOn n
  | .noteOff n => s.handleNoteOff n

/-- The state after one call. -/
def callState (s : NoteScheduler) (c : Call) : Except Fault NoteScheduler :=
  match s.call c with
  | .error e => .error e
  | .ok (s', _) => .ok s'

theorem callState_noteOn {s s' : NoteScheduler} {n : Byte} {r : Result}
    (h : s.handleNoteOn n = .ok (s', r)) : s.callState (.noteOn n) = .ok s' := by
  rw [callState, call, h]

theorem callState_noteOff {s s' : NoteScheduler} {n : Byte} {r : Result}
    (h : s.handleNoteOff n = .ok (s', r)) : s.callState (.noteOff n) = .ok s' := by
  rw [callState, call, h]

/-! ## The invariant of runs of any length -/

/-- What every reachable state satisfies, also past the wrap of `m_counter`. -/
structure Inv (s : NoteScheduler) : Prop where
  distinct : ∀ i j, (s.mVoices i).note = (s.mVoices j).note → (s.mVoices i).note ≠ kFreeNote →
    i = j
  freeTs : ∀ i, (s.mVoices i).note = kFreeNote → (s.mVoices i).updateTs ≠ uint32Max

theorem inv_init : Inv {} :=
  ⟨fun _ _ _ h => absurd rfl h, fun _ _ => show (0 : Word) ≠ uint32Max by decide⟩

/-- Whatever voice `handleNoteOn` picks, only that voice plays the note afterwards. -/
theorem PicksVoice.unique {s : NoteScheduler} {note : Byte} {i : Fin synthNumVoices} {o : Outcome}
    (hs : Inv s) (hn : note ≠ kFreeNote) (h : s.PicksVoice note i o) {j : Fin synthNumVoices}
    (hj : (s.mVoices j).note = note) : j = i := by
  cases h with
  | retrigger hi => exact hs.distinct j i (hj.trans hi.symm) (hj ▸ hn)
  | allocated hno _ _ => exact absurd hj (hno j)
  | stolen hno _ _ => exact absurd hj (hno j)

theorem Inv.assign {s : NoteScheduler} (hs : Inv s) {note : Byte} (hn : note ≠ kFreeNote)
    {i : Fin synthNumVoices} (hu : ∀ j, (s.mVoices j).note = note → j = i) :
    Inv (s.assign i note) := by
  refine ⟨fun j k hjk hfree => ?_, fun j hj => ?_⟩
  · by_cases hji : j = i <;> by_cases hki : k = i
    · rw [hji, hki]
    · rw [hji, assign_self, assign_ne s hki] at hjk
      exact absurd (hu k hjk.symm) hki
    · rw [hki, assign_self, assign_ne s hji] at hjk
      exact absurd (hu j hjk) hji
    · rw [assign_ne s hji] at hjk hfree
      rw [assign_ne s hki] at hjk
      exact hs.distinct j k hjk hfree
  · have hji : j ≠ i := by
      rintro rfl
      rw [assign_self] at hj
      exact hn hj
    rw [assign_ne s hji] at hj ⊢
    exact hs.freeTs j hj

theorem Inv.unassign {s : NoteScheduler} (hs : Inv s) {i : Fin synthNumVoices}
    (hts : (s.mVoices i).updateTs ≠ uint32Max) : Inv (s.unassign i) := by
  refine ⟨fun j k hjk hfree => ?_, fun j hj => ?_⟩
  · have hji : j ≠ i := by rintro rfl; exact hfree (by rw [unassign_self])
    have hki : k ≠ i := by rintro rfl; exact hfree (by rw [hjk, unassign_self])
    rw [unassign_ne s hji] at hjk hfree
    rw [unassign_ne s hki] at hjk
    exact hs.distinct j k hjk hfree
  · by_cases hji : j = i
    · rw [hji, unassign_self]; exact hts
    · rw [unassign_ne s hji] at hj ⊢
      exact hs.freeTs j hj

/-- Every call with a note returns and keeps the invariant. -/
theorem inv_callState (s : NoteScheduler) (c : Call) (hc : c.note ≠ kFreeNote) (hs : Inv s) :
    ∃ s', s.callState c = .ok s' ∧ Inv s' := by
  cases c with
  | noteOn n =>
    obtain ⟨i, o, he, hp⟩ := s.handleNoteOn_cases hc
    exact ⟨_, callState_noteOn he, hs.assign hc fun j hj => hp.unique hs hc hj⟩
  | noteOff n =>
    rcases s.handleNoteOff_cases hc with ⟨i, -, hts, he⟩ | ⟨-, he⟩
    · exact ⟨_, callState_noteOff he, hs.unassign hts⟩
    · exact ⟨_, callState_noteOff he, hs⟩

/-- Every run with notes returns a state that satisfies the invariant. -/
theorem inv_run (calls : List Call) (hcalls : ∀ c ∈ calls, c.note ≠ kFreeNote) :
    ∃ s, run callState {} calls = .ok s ∧ Inv s :=
  run_invariant inv_callState inv_init calls hcalls

/-! ## Note on -/

/-- The outcome of a note on decides, and is decided by, the voice table: a free
    voice is found whenever there is one. -/
theorem PicksVoice.outcome_iff {s : NoteScheduler} {note : Byte} {i : Fin synthNumVoices}
    {o : Outcome} (hs : Inv s) (h : s.PicksVoice note i o) :
    (o = .kRetrigger ↔ (s.mVoices i).note = note) ∧
    (o = .kAllocated ↔ (∀ j, (s.mVoices j).note ≠ note) ∧ (s.mVoices i).note = kFreeNote) ∧
    (o = .kStolen ↔ (∀ j, (s.mVoices j).note ≠ note) ∧ ∀ j, (s.mVoices j).note ≠ kFreeNote) := by
  cases h with
  | retrigger hi =>
    simp only [hi, reduceCtorEq, false_iff, not_and]
    exact ⟨trivial, fun h => absurd hi (h i), fun h => absurd hi (h i)⟩
  | allocated hno hmin hts =>
    have hi : (s.mVoices i).note = kFreeNote := hmin.holds
    simp only [reduceCtorEq, false_iff, true_iff, not_and, not_forall]
    exact ⟨hno i, ⟨hno, hi⟩, fun _ => ⟨i, not_not_intro hi⟩⟩
  | stolen hno hfree _ =>
    have hbusy : ∀ j, (s.mVoices j).note ≠ kFreeNote := fun j hj => hs.freeTs j hj (hfree j hj)
    simp only [reduceCtorEq, false_iff, true_iff, not_and]
    exact ⟨hno i, fun _ => hbusy i, hno, hbusy⟩

/-- The next `handleNoteOn(n)` returns a voice index in range and one of three
    outcomes: `kRetrigger` iff that voice plays `n`, `kAllocated` iff no voice
    plays `n` and that voice is free, `kStolen` iff no voice plays `n` and no
    voice is free. While a voice is free, the one it picks plays `n` or is free.
    Afterwards the voice plays `n`, and no other voice has changed. -/
def AnswersNoteOn (s : NoteScheduler) (n : Byte) : Prop :=
  ∃ s' r, ∃ i : Fin synthNumVoices, s.handleNoteOn n = .ok (s', r) ∧ r.voiceIndex = i ∧
    (r.outcome = .kRetrigger ∨ r.outcome = .kAllocated ∨ r.outcome = .kStolen) ∧
    (r.outcome = .kRetrigger ↔ (s.mVoices i).note = n) ∧
    (r.outcome = .kAllocated ↔ (∀ j, (s.mVoices j).note ≠ n) ∧ (s.mVoices i).note = kFreeNote) ∧
    (r.outcome = .kStolen ↔
      (∀ j, (s.mVoices j).note ≠ n) ∧ ∀ j, (s.mVoices j).note ≠ kFreeNote) ∧
    ((∃ j, (s.mVoices j).note = kFreeNote) →
      (s.mVoices i).note = n ∨ (s.mVoices i).note = kFreeNote) ∧
    (s'.mVoices i).note = n ∧ ∀ j, j ≠ i → s'.mVoices j = s.mVoices j

/-- `handleNoteOn` answers `kRetrigger`, `kAllocated` or `kStolen`. -/
theorem PicksVoice.outcome_cases {s : NoteScheduler} {note : Byte} {i : Fin synthNumVoices}
    {o : Outcome} (h : s.PicksVoice note i o) :
    o = .kRetrigger ∨ o = .kAllocated ∨ o = .kStolen := by
  cases h with
  | retrigger _ => exact .inl rfl
  | allocated _ _ _ => exact .inr (.inl rfl)
  | stolen _ _ _ => exact .inr (.inr rfl)

/-- While a voice is free, no busy voice is taken from another note. -/
theorem PicksVoice.spares_busy {s : NoteScheduler} {note : Byte} {i : Fin synthNumVoices}
    {o : Outcome} (hs : Inv s) (h : s.PicksVoice note i o)
    (hfree : ∃ j, (s.mVoices j).note = kFreeNote) :
    (s.mVoices i).note = note ∨ (s.mVoices i).note = kFreeNote := by
  obtain ⟨j, hj⟩ := hfree
  cases h with
  | retrigger hi => exact .inl hi
  | allocated _ hmin _ => exact .inr hmin.holds
  | stolen _ hall _ => exact absurd (hall j hj) (hs.freeTs j hj)

/-- **Note-on outcomes are exact after runs of any length.** After every
    sequence of calls with notes no two voices play one note, and the next note
    on is answered as documented. In particular no busy voice is stolen while
    one is free. -/
theorem noteOn_outcomes (calls : List Call) (hcalls : ∀ c ∈ calls, c.note ≠ kFreeNote) :
    ∃ s, run callState {} calls = .ok s ∧
      (∀ i j, i ≠ j → (s.mVoices i).note ≠ kFreeNote →
        (s.mVoices i).note ≠ (s.mVoices j).note) ∧
      ∀ n, n ≠ kFreeNote → s.AnswersNoteOn n := by
  obtain ⟨s, hrun, hs⟩ := inv_run calls hcalls
  refine ⟨s, hrun, fun i j hij hfree he => hij (hs.distinct i j he hfree), fun n hn => ?_⟩
  obtain ⟨i, o, he, hp⟩ := s.handleNoteOn_cases hn
  obtain ⟨h1, h2, h3⟩ := hp.outcome_iff hs
  refine ⟨s.assign i n, ⟨o, i⟩, i, he, rfl, hp.outcome_cases, h1, h2, h3, hp.spares_busy hs,
    by rw [assign_self], fun j hj => ?_⟩
  exact assign_ne s hj n

/-- After a release the next note is answered as documented. -/
theorem noteOn_outcomes_released :
    ∃ s, run callState {} [.noteOn 60, .noteOff 60, .noteOn 64] = .ok s ∧ s.AnswersNoteOn 60 := by
  obtain ⟨s, hrun, -, h⟩ := noteOn_outcomes [.noteOn 60, .noteOff 60, .noteOn 64] (by decide)
  exact ⟨s, hrun, h 60 (by decide)⟩

/-! ## Note off -/

/-- The next `handleNoteOff(n)` returns `{kFreed, i}` exactly when voice `i`
    plays `n`; then no voice plays `n`, no other voice changes and no time
    stamp does. It returns `kNoVoice` and changes nothing exactly when no voice
    plays `n`. -/
def Releases (s : NoteScheduler) (n : Byte) : Prop :=
  ∃ s' r, s.handleNoteOff n = .ok (s', r) ∧
    (∀ i : Fin synthNumVoices, r = ⟨.kFreed, i⟩ ↔ (s.mVoices i).note = n) ∧
    (∀ j, (s'.mVoices j).note ≠ n) ∧
    (∀ i : Fin synthNumVoices, r = ⟨.kFreed, i⟩ → ∀ j, j ≠ i → s'.mVoices j = s.mVoices j) ∧
    (∀ j, (s'.mVoices j).updateTs = (s.mVoices j).updateTs) ∧
    (r.outcome = .kNoVoice ∧ s' = s ↔ ∀ i, (s.mVoices i).note ≠ n)

theorem releases_of_freed {s : NoteScheduler} (hs : Inv s) {n : Byte} (hn : n ≠ kFreeNote)
    {i : Fin synthNumVoices} (hi : (s.mVoices i).note = n)
    (he : s.handleNoteOff n = .ok (s.unassign i, ⟨.kFreed, i⟩)) : s.Releases n := by
  have hu : ∀ j, (s.mVoices j).note = n → j = i :=
    fun j hj => hs.distinct j i (hj.trans hi.symm) (hj ▸ hn)
  refine ⟨_, _, he, fun j => ?_, fun j => ?_, fun j hj k hk => ?_, fun j => ?_, ?_⟩
  · rw [Result.mk.injEq, Fin.val_inj]
    exact ⟨fun h => h.2 ▸ hi, fun h => ⟨rfl, (hu j h).symm⟩⟩
  · by_cases hji : j = i
    · rw [hji, unassign_self]; exact hn.symm
    · rw [unassign_ne s hji]; exact fun h => hji (hu j h)
  · rw [Result.mk.injEq, Fin.val_inj] at hj
    exact unassign_ne s (hj.2 ▸ hk)
  · by_cases hji : j = i
    · rw [hji, unassign_self]
    · rw [unassign_ne s hji]
  · simp only [reduceCtorEq, false_and, false_iff, not_forall]
    exact ⟨i, not_not_intro hi⟩

theorem releases_of_noVoice {s : NoteScheduler} {n : Byte} (hno : ∀ i, (s.mVoices i).note ≠ n)
    (he : s.handleNoteOff n = .ok (s, ⟨.kNoVoice, kMaxIndex⟩)) : s.Releases n :=
  ⟨_, _, he, fun i => by simp [hno i], hno, fun _ _ _ _ => rfl, fun _ => rfl, by simpa using hno⟩

/-- In a state of the invariant, `handleNoteOff` releases a note exactly when
    its voice does not carry the time stamp `UINT32_MAX`. -/
theorem releases_iff {s : NoteScheduler} (hs : Inv s) {n : Byte} (hn : n ≠ kFreeNote) :
    s.Releases n ↔ ∀ i, (s.mVoices i).note = n → (s.mVoices i).updateTs ≠ uint32Max := by
  rcases s.handleNoteOff_cases hn with ⟨i, hi, hts, he⟩ | ⟨hall, he⟩
  · refine ⟨fun _ j hj => ?_, fun _ => releases_of_freed hs hn hi he⟩
    rwa [hs.distinct j i (hj.trans hi.symm) (hj ▸ hn)]
  · constructor
    · rintro ⟨s', r, he', hfreed, -⟩ j hj
      rw [he, Except.ok.injEq, Prod.mk.injEq] at he'
      have := (hfreed j).mpr hj
      rw [← he'.2] at this
      cases this
    · intro h
      exact releases_of_noVoice (fun i hi => h i hi (hall i hi)) he

/-- **A playing note can be released, unless its voice carries the time stamp
    `UINT32_MAX`.** After every sequence of calls with notes, the next
    `handleNoteOff(n)` does what its documentation says iff no voice plays `n`
    under that time stamp: the search compares strictly with its start value. -/
theorem noteOff_releases_iff (calls : List Call) (hcalls : ∀ c ∈ calls, c.note ≠ kFreeNote) :
    ∃ s, run callState {} calls = .ok s ∧ ∀ n, n ≠ kFreeNote →
      (s.Releases n ↔ ∀ i, (s.mVoices i).note = n → (s.mVoices i).updateTs ≠ uint32Max) := by
  obtain ⟨s, hrun, hs⟩ := inv_run calls hcalls
  exact ⟨s, hrun, fun n hn => releases_iff hs hn⟩

/-- Note 64 was pressed second, so it can be released. -/
theorem noteOff_releases_second :
    ∃ s, run callState {} [.noteOn 60, .noteOn 64] = .ok s ∧
      (s.Releases 64 ↔ ∀ i, (s.mVoices i).note = 64 → (s.mVoices i).updateTs ≠ uint32Max) := by
  obtain ⟨s, hrun, h⟩ := noteOff_releases_iff [.noteOn 60, .noteOn 64] (by decide)
  exact ⟨s, hrun, h 64 (by decide)⟩

/-! ### Time stamps -/

/-- After the calls `h`, newest first, the counter counts the note-ons and a
    playing voice carries the count at the latest note-on of its note. -/
def Stamped (h : List Call) (s : NoteScheduler) : Prop :=
  Inv s ∧ s.mCounter = BitVec.ofNat 32 (Call.countOn h) ∧
    ∀ i, (s.mVoices i).note ≠ kFreeNote →
      (s.mVoices i).updateTs = BitVec.ofNat 32 (Call.stampOf h (s.mVoices i).note)

theorem Stamped.noteOn {h : List Call} {s : NoteScheduler} (hs : Stamped h s) {n : Byte}
    (hn : n ≠ kFreeNote) :
    ∃ s', s.callState (.noteOn n) = .ok s' ∧ Stamped (.noteOn n :: h) s' := by
  obtain ⟨hinv, hcount, hts⟩ := hs
  obtain ⟨i, o, he, hp⟩ := s.handleNoteOn_cases hn
  have hinv' : Inv (s.assign i n) := hinv.assign hn fun j hj => hp.unique hinv hn hj
  have hcount' : s.mCounter + 1 = BitVec.ofNat 32 (Call.countOn (.noteOn n :: h)) := by
    rw [Call.countOn_noteOn, BitVec.ofNat_add, hcount]
    rfl
  refine ⟨s.assign i n, callState_noteOn he, hinv', hcount', fun j hj => ?_⟩
  by_cases hji : j = i
  · subst hji
    rw [assign_self, Call.stampOf, if_pos rfl]
    exact hcount'
  · rw [assign_ne s hji] at hj ⊢
    have hne : Call.noteOn n ≠ Call.noteOn (s.mVoices j).note := by
      intro heq
      rw [Call.noteOn.injEq] at heq
      exact hji (hp.unique hinv hn heq.symm)
    rw [Call.stampOf, if_neg hne]
    exact hts j hj

theorem Stamped.noteOff {h : List Call} {s : NoteScheduler} (hs : Stamped h s) {n : Byte}
    (hn : n ≠ kFreeNote) :
    ∃ s', s.callState (.noteOff n) = .ok s' ∧ Stamped (.noteOff n :: h) s' := by
  obtain ⟨hinv, hcount, hts⟩ := hs
  have hstamp : ∀ m, Call.stampOf (.noteOff n :: h) m = Call.stampOf h m :=
    fun m => if_neg (by simp)
  rcases s.handleNoteOff_cases hn with ⟨i, -, hfree, he⟩ | ⟨-, he⟩
  · refine ⟨s.unassign i, callState_noteOff he, hinv.unassign hfree, hcount, fun j hj => ?_⟩
    have hji : j ≠ i := by
      intro hji
      apply hj
      rw [hji, unassign_self]
    rw [unassign_ne s hji] at hj ⊢
    rw [hstamp, hts j hj]
  · refine ⟨s, callState_noteOff he, hinv, hcount, fun j hj => ?_⟩
    rw [hstamp, hts j hj]

theorem stamped_callState (h : List Call) (s : NoteScheduler) (c : Call)
    (hadm : ∀ d ∈ c :: h, d.note ≠ kFreeNote) (hs : Stamped h s) :
    ∃ s', s.callState c = .ok s' ∧ Stamped (c :: h) s' := by
  have hn : c.note ≠ kFreeNote := hadm c List.mem_cons_self
  cases c with
  | noteOn n => exact hs.noteOn hn
  | noteOff n => exact hs.noteOff hn

/-- After a run with notes, a playing voice carries the number of note-ons up to
    the latest one of its note, modulo `2^32`. -/
theorem updateTs_run (calls : List Call) (hcalls : ∀ c ∈ calls, c.note ≠ kFreeNote) :
    ∃ s, run callState {} calls = .ok s ∧ ∀ i, (s.mVoices i).note ≠ kFreeNote →
      (s.mVoices i).updateTs =
        BitVec.ofNat 32 (Call.stampOf calls.reverse (s.mVoices i).note) := by
  obtain ⟨s, hrun, -, -, hts⟩ := run_history_of_forall stamped_callState
    (s := {}) ⟨inv_init, rfl, fun _ h => absurd rfl h⟩ calls hcalls
  exact ⟨s, hrun, hts⟩

theorem ofNat_eq_uint32Max_iff (k : ℕ) :
    BitVec.ofNat 32 k = uint32Max ↔ k % 2 ^ 32 = 2 ^ 32 - 1 := by
  rw [← BitVec.toNat_inj, BitVec.toNat_ofNat, toNat_uint32Max]

/-- **Which notes get stuck.** After a run with notes, a note can be released unless
    it plays and the number of note-ons up to its latest one is `-1` modulo `2^32`. -/
theorem releases_iff_stampOf (calls : List Call) (hcalls : ∀ c ∈ calls, c.note ≠ kFreeNote) :
    ∃ s, run callState {} calls = .ok s ∧ ∀ n, n ≠ kFreeNote →
      (s.Releases n ↔ (∃ i, (s.mVoices i).note = n) →
        Call.stampOf calls.reverse n % 2 ^ 32 ≠ 2 ^ 32 - 1) := by
  obtain ⟨s, hrun, hs⟩ := inv_run calls hcalls
  obtain ⟨t, hrunt, hts⟩ := updateTs_run calls hcalls
  obtain rfl : s = t := Except.ok.inj (hrun.symm.trans hrunt)
  refine ⟨s, hrun, fun n hn => ?_⟩
  rw [releases_iff hs hn, forall_exists_index]
  refine forall_congr' fun i => imp_congr_right ?_
  rintro rfl
  rw [hts i hn, Ne, ofNat_eq_uint32Max_iff]

/-! ### The stuck note -/

/-- Voice 0 plays note 60 under the time stamp `k`. -/
def retriggered (k : ℕ) : NoteScheduler where
  mVoices := Function.update (fun _ => {}) 0 { note := 60, updateTs := BitVec.ofNat 32 k }
  mCounter := BitVec.ofNat 32 k

theorem retriggered_noteOn (k : ℕ) :
    (retriggered k).callState (.noteOn 60) = .ok (retriggered (k + 1)) := by
  have hf : (retriggered k).findNote 60 = some 0 := rfl
  have hcounter : (retriggered k).mCounter + 1 = BitVec.ofNat 32 (k + 1) := by
    rw [BitVec.ofNat_add]; rfl
  apply callState_noteOn (r := ⟨.kRetrigger, 0⟩)
  rw [handleNoteOn, if_neg (by decide), hf]
  simp only [hcounter]
  simp [retriggered]

theorem run_retriggered (k : ℕ) :
    run callState {} (List.replicate (k + 1) (.noteOn 60)) = .ok (retriggered (k + 1)) := by
  induction k with
  | zero => rfl
  | succ k ih =>
    rw [List.replicate_succ', run_append_ok ih, run_cons_ok (retriggered_noteOn (k + 1)), run_nil]

/-- **A stuck note.** After `2^32 - 1` note-ons of note 60 voice 0 plays it under
    the time stamp `UINT32_MAX`, and `handleNoteOff(60)` answers `kNoVoice`. -/
theorem noteOff_stuck :
    ∃ s, run callState {} (List.replicate (2 ^ 32 - 1) (.noteOn 60)) = .ok s ∧
      (s.mVoices 0).note = 60 ∧
      s.handleNoteOff 60 = .ok (s, ⟨.kNoVoice, kMaxIndex⟩) ∧ ¬ s.Releases 60 := by
  have hrun := run_retriggered (2 ^ 32 - 2)
  have he : (retriggered (2 ^ 32 - 2 + 1)).handleNoteOff 60 =
      .ok (retriggered (2 ^ 32 - 2 + 1), ⟨.kNoVoice, kMaxIndex⟩) := rfl
  refine ⟨_, hrun, rfl, he, ?_⟩
  rintro ⟨s', r, he', hfreed, -⟩
  rw [he, Except.ok.injEq, Prod.mk.injEq] at he'
  have := (hfreed 0).mpr rfl
  rw [← he'.2] at this
  cases this

end NoteScheduler

end StepperSynth
