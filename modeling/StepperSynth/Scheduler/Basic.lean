import StepperSynth.Basic
import StepperSynth.Common.Machine
import StepperSynth.Common.Scan

/-!
# `NoteScheduler`

Model of `note_scheduler.cpp` and what each method does, branch by branch.

* `handleNoteOn_cases`, `handleNoteOff_cases`: for every state and every note
  other than `kFreeNote` the call returns; the voice it picks is in range.
* `handleNoteOn_free`, `handleNoteOff_free`: the asserts reject `kFreeNote`.
-/

namespace StepperSynth

open Common

/-- `NoteScheduler::kFreeNote` (`note_scheduler.hpp` line 23). -/
def kFreeNote : Byte := 0xFF

/-- `NoteScheduler::kMaxIndex` (line 24). -/
def kMaxIndex : ℕ := 0xFF

/-- `NoteScheduler::Outcome` (lines 26–32). -/
inductive Outcome
  | kNoVoice
  | kStolen
  | kRetrigger
  | kAllocated
  | kFreed
  deriving DecidableEq, Repr

/-- `NoteScheduler::Result` (lines 34–37). -/
structure Result where
  outcome : Outcome
  voiceIndex : ℕ
  deriving DecidableEq, Repr

/-- `NoteScheduler::Voice` (lines 17–20). -/
structure Voice where
  note : Byte := kFreeNote
  updateTs : Word := 0
  deriving DecidableEq, Repr

/-- `NoteScheduler` (lines 10–62), with its default member initialisers. -/
structure NoteScheduler where
  mVoices : Fin synthNumVoices → Voice := fun _ => {}
  mCounter : Word := 0
  deriving DecidableEq

/-- `NoteScheduler::Snapshot` (lines 12–14). -/
abbrev Snapshot := Fin synthNumVoices → Byte

namespace NoteScheduler

/-! ## Model of the C++ code -/

/-- `m_voices[i] = v` for an index that the code does not check. -/
def setVoice (s : NoteScheduler) (i : ℕ) (f : Voice → Voice) : Except Fault NoteScheduler :=
  if h : i < synthNumVoices then
    .ok { s with mVoices := Function.update s.mVoices ⟨i, h⟩ (f (s.mVoices ⟨i, h⟩)) }
  else .error .voiceIndex

/-- The variables of the search loop of `handleNoteOn` (`note_scheduler.cpp`
    lines 16–19), with the values they start with. -/
structure LrSearch where
  lrFreeIndex : ℕ := 0xFF
  lrFreeTs : Word := uint32Max
  lrBusyIndex : ℕ := 0
  lrBusyTs : Word := uint32Max

/-- The body of the search loop (lines 21–34). -/
def lrSearchBody (voices : Fin synthNumVoices → Voice) (a : LrSearch) (i : Fin synthNumVoices) :
    LrSearch :=
  let ts := (voices i).updateTs
  if (voices i).note = kFreeNote then
    if ts < a.lrFreeTs then { a with lrFreeTs := ts, lrFreeIndex := i } else a
  else
    if ts < a.lrBusyTs then { a with lrBusyTs := ts, lrBusyIndex := i } else a

/-- The search loop (lines 14–34). -/
def lrSearch (voices : Fin synthNumVoices → Voice) : LrSearch :=
  (List.finRange synthNumVoices).foldl (lrSearchBody voices) {}

/-- The loop with an early return of lines 7–12: the first voice that plays `note`. -/
def findNote (s : NoteScheduler) (note : Byte) : Option (Fin synthNumVoices) :=
  (List.finRange synthNumVoices).find? fun i => (s.mVoices i).note = note

/-- Model of `NoteScheduler::handleNoteOn` (lines 3–46). -/
def handleNoteOn (s : NoteScheduler) (note : Byte) : Except Fault (NoteScheduler × Result) :=
  if note = kFreeNote then .error .noteIsFree
  else
    let counter := s.mCounter + 1
    match s.findNote note with
    | some i =>
      .ok ({ mVoices := Function.update s.mVoices i { s.mVoices i with updateTs := counter }
             mCounter := counter }, ⟨.kRetrigger, i⟩)
    | none => do
      let a := lrSearch s.mVoices
      let hasFree := a.lrFreeIndex ≠ kMaxIndex
      let chosenVoiceIndex := if hasFree then a.lrFreeIndex else a.lrBusyIndex
      let outcome := if hasFree then Outcome.kAllocated else Outcome.kStolen
      let s ← s.setVoice chosenVoiceIndex fun _ => { note := note, updateTs := counter }
      .ok ({ s with mCounter := counter }, ⟨outcome, chosenVoiceIndex⟩)

/-- The body of the search loop of `handleNoteOff` (lines 55–60), on
    `(chosen_voice_index, chosen_voice_ts)`. -/
def chooseBody (voices : Fin synthNumVoices → Voice) (note : Byte) (a : ℕ × Word)
    (i : Fin synthNumVoices) : ℕ × Word :=
  if (voices i).note = note ∧ (voices i).updateTs < a.2 then (i, (voices i).updateTs) else a

/-- Model of `NoteScheduler::handleNoteOff` (lines 48–68). -/
def handleNoteOff (s : NoteScheduler) (note : Byte) : Except Fault (NoteScheduler × Result) :=
  if note = kFreeNote then .error .noteIsFree
  else
    let chosenVoiceIndex :=
      ((List.finRange synthNumVoices).foldl (chooseBody s.mVoices note) (kMaxIndex, uint32Max)).1
    if chosenVoiceIndex ≠ kMaxIndex then do
      let s ← s.setVoice chosenVoiceIndex fun v => { v with note := kFreeNote }
      .ok (s, ⟨.kFreed, chosenVoiceIndex⟩)
    else .ok (s, ⟨.kNoVoice, kMaxIndex⟩)

/-- Model of `NoteScheduler::getSnapshot` (lines 70–75). -/
def getSnapshot (s : NoteScheduler) : Snapshot := fun i => (s.mVoices i).note

/-! ## The effect of a call -/

/-- Voice `i` takes `note` under the next time stamp. -/
def assign (s : NoteScheduler) (i : Fin synthNumVoices) (note : Byte) : NoteScheduler where
  mVoices := Function.update s.mVoices i { note := note, updateTs := s.mCounter + 1 }
  mCounter := s.mCounter + 1

/-- Voice `i` is freed and keeps its time stamp. -/
def unassign (s : NoteScheduler) (i : Fin synthNumVoices) : NoteScheduler :=
  { s with mVoices := Function.update s.mVoices i { s.mVoices i with note := kFreeNote } }

@[simp] theorem assign_mCounter (s : NoteScheduler) (i : Fin synthNumVoices) (note : Byte) :
    (s.assign i note).mCounter = s.mCounter + 1 := rfl

@[simp] theorem assign_self (s : NoteScheduler) (i : Fin synthNumVoices) (note : Byte) :
    (s.assign i note).mVoices i = { note := note, updateTs := s.mCounter + 1 } := by
  simp [assign]

@[simp] theorem assign_ne (s : NoteScheduler) {i j : Fin synthNumVoices} (h : j ≠ i)
    (note : Byte) : (s.assign i note).mVoices j = s.mVoices j := by
  simp [assign, h]

@[simp] theorem unassign_mCounter (s : NoteScheduler) (i : Fin synthNumVoices) :
    (s.unassign i).mCounter = s.mCounter := rfl

@[simp] theorem unassign_self (s : NoteScheduler) (i : Fin synthNumVoices) :
    (s.unassign i).mVoices i = { s.mVoices i with note := kFreeNote } := by
  simp [unassign]

@[simp] theorem unassign_ne (s : NoteScheduler) {i j : Fin synthNumVoices} (h : j ≠ i) :
    (s.unassign i).mVoices j = s.mVoices j := by
  simp [unassign, h]

theorem setVoice_val (s : NoteScheduler) (i : Fin synthNumVoices) (f : Voice → Voice) :
    s.setVoice i f = .ok { s with mVoices := Function.update s.mVoices i (f (s.mVoices i)) } := by
  simp [setVoice]

theorem findNote_some {s : NoteScheduler} {note : Byte} {i : Fin synthNumVoices}
    (h : s.findNote note = some i) : (s.mVoices i).note = note := by
  simpa using List.find?_some h

theorem findNote_none {s : NoteScheduler} {note : Byte} (h : s.findNote note = none)
    (i : Fin synthNumVoices) : (s.mVoices i).note ≠ note := by
  simpa using List.find?_eq_none.mp h i (List.mem_finRange i)

/-- No voice index is the sentinel. -/
theorem val_ne_kMaxIndex (i : Fin synthNumVoices) : (i : ℕ) ≠ kMaxIndex :=
  (i.isLt.trans (by decide)).ne

/-! ## The searches -/

/-- `i` is the first voice with the smallest time stamp among those with `p`. -/
abbrev FirstLr (s : NoteScheduler) (p : Byte → Prop) (i : Fin synthNumVoices) : Prop :=
  FirstMin (fun j => p (s.mVoices j).note) (fun j => (s.mVoices j).updateTs)
    (List.finRange synthNumVoices) i

/-- The search loop of `handleNoteOn` is two independent searches. -/
theorem lrSearch_eq (voices : Fin synthNumVoices → Voice) :
    let free := (List.finRange synthNumVoices).foldl (scanBody
      (fun j => (voices j).note = kFreeNote) (fun j => (voices j).updateTs) Fin.val)
      (kMaxIndex, uint32Max)
    let busy := (List.finRange synthNumVoices).foldl (scanBody
      (fun j => (voices j).note ≠ kFreeNote) (fun j => (voices j).updateTs) Fin.val)
      (0, uint32Max)
    lrSearch voices = ⟨free.1, free.2, busy.1, busy.2⟩ := by
  unfold lrSearch
  induction List.finRange synthNumVoices using List.reverseRecOn with
  | nil => rfl
  | append_singleton l i ih =>
    simp only [List.foldl_append, List.foldl_cons, List.foldl_nil] at ih ⊢
    rw [ih]
    by_cases hf : (voices i).note = kFreeNote
    · simp only [lrSearchBody, scanBody, hf, ne_eq, not_true_eq_false, false_and, if_true,
        if_false, true_and]
      split_ifs <;> rfl
    · simp only [lrSearchBody, scanBody, hf, ne_eq, not_false_eq_true, false_and, if_false,
        true_and]
      split_ifs <;> rfl

theorem uint32Max_le_iff (w : Word) : uint32Max ≤ w ↔ w = uint32Max := by
  have := w.isLt
  rw [BitVec.le_def, ← BitVec.toNat_inj, toNat_uint32Max]
  omega

/-- A search that starts with a sentinel and `UINT32_MAX`. -/
theorem scan_voices (s : NoteScheduler) (p : Byte → Prop) [DecidablePred p] (b0 : ℕ) :
    let found := ((List.finRange synthNumVoices).foldl (scanBody (fun j => p (s.mVoices j).note)
      (fun j => (s.mVoices j).updateTs) Fin.val) (b0, uint32Max)).1
    ((∀ i, p (s.mVoices i).note → (s.mVoices i).updateTs = uint32Max) ∧ found = b0) ∨
      ∃ i, s.FirstLr p i ∧ (s.mVoices i).updateTs ≠ uint32Max ∧ found = i := by
  rcases scan_spec (fun j => p (s.mVoices j).note) (fun j => (s.mVoices j).updateTs) Fin.val b0
    uint32Max (List.finRange synthNumVoices) with ⟨h, he⟩ | ⟨i, h, hlt, he⟩
  · left
    refine ⟨fun i hi => ?_, by rw [he]⟩
    exact (uint32Max_le_iff _).mp (h i (List.mem_finRange i) hi)
  · right
    exact ⟨i, h, hlt.ne, by rw [he]⟩

/-- A voice found by a search is the least recently used one; among voices with
    one time stamp it is the first. -/
theorem FirstLr.lex {s : NoteScheduler} {p : Byte → Prop} {i : Fin synthNumVoices}
    (h : s.FirstLr p i) (j : Fin synthNumVoices) (hj : p (s.mVoices j).note) (hne : j ≠ i) :
    (s.mVoices i).updateTs < (s.mVoices j).updateTs ∨
      (s.mVoices i).updateTs = (s.mVoices j).updateTs ∧ i < j :=
  FirstMin.lex (List.pairwise_lt_finRange _) h j (List.mem_finRange j) hj hne

/-! ## The methods, branch by branch -/

theorem handleNoteOn_free (s : NoteScheduler) : s.handleNoteOn kFreeNote = .error .noteIsFree :=
  if_pos rfl

theorem handleNoteOff_free (s : NoteScheduler) : s.handleNoteOff kFreeNote = .error .noteIsFree :=
  if_pos rfl

/-- How `handleNoteOn` picks the voice `i` for `note`. -/
inductive PicksVoice (s : NoteScheduler) (note : Byte) (i : Fin synthNumVoices) : Outcome → Prop
  | retrigger : (s.mVoices i).note = note → PicksVoice s note i .kRetrigger
  | allocated : (∀ j, (s.mVoices j).note ≠ note) → s.FirstLr (· = kFreeNote) i →
      (s.mVoices i).updateTs ≠ uint32Max → PicksVoice s note i .kAllocated
  /-- The busy voice of the search, or voice 0 when every busy voice carries
      the time stamp `UINT32_MAX`. -/
  | stolen : (∀ j, (s.mVoices j).note ≠ note) →
      (∀ j, (s.mVoices j).note = kFreeNote → (s.mVoices j).updateTs = uint32Max) →
      (s.FirstLr (· ≠ kFreeNote) i ∨
        (i : ℕ) = 0 ∧ ∀ j, (s.mVoices j).note ≠ kFreeNote → (s.mVoices j).updateTs = uint32Max) →
      PicksVoice s note i .kStolen

/-- `handleNoteOn` returns on every state: the voice it writes is in range. -/
theorem handleNoteOn_cases (s : NoteScheduler) {note : Byte} (hn : note ≠ kFreeNote) :
    ∃ i o, s.handleNoteOn note = .ok (s.assign i note, ⟨o, i⟩) ∧ s.PicksVoice note i o := by
  unfold handleNoteOn
  rw [if_neg hn]
  cases hf : s.findNote note with
  | some i =>
    have hi := findNote_some hf
    refine ⟨i, .kRetrigger, ?_, .retrigger hi⟩
    simp only [assign, ← hi]
  | none =>
    have hno := findNote_none hf
    simp only [lrSearch_eq]
    rcases s.scan_voices (· = kFreeNote) kMaxIndex with ⟨hfree, he⟩ | ⟨i, hi, hts, he⟩
    · -- no free voice was found: the busy search decides
      rw [he]
      rcases s.scan_voices (· ≠ kFreeNote) 0 with ⟨hbusy, hb⟩ | ⟨i, hi, hts, hb⟩
      · refine ⟨⟨0, by decide⟩, .kStolen, ?_, .stolen hno hfree (.inr ⟨rfl, hbusy⟩)⟩
        rw [hb]
        rfl
      · refine ⟨i, .kStolen, ?_, .stolen hno hfree (.inl hi)⟩
        rw [hb, if_neg (by simp), if_neg (by simp), setVoice_val]
        rfl
    · refine ⟨i, .kAllocated, ?_, .allocated hno hi hts⟩
      rw [he, if_pos (val_ne_kMaxIndex i), if_pos (val_ne_kMaxIndex i), setVoice_val]
      rfl

/-- `handleNoteOff` frees the voice its search finds. It finds none when every
    voice that plays `note` carries the time stamp `UINT32_MAX`. -/
theorem handleNoteOff_cases (s : NoteScheduler) {note : Byte} (hn : note ≠ kFreeNote) :
    (∃ i, (s.mVoices i).note = note ∧ (s.mVoices i).updateTs ≠ uint32Max ∧
        s.handleNoteOff note = .ok (s.unassign i, ⟨.kFreed, i⟩)) ∨
      ((∀ i, (s.mVoices i).note = note → (s.mVoices i).updateTs = uint32Max) ∧
        s.handleNoteOff note = .ok (s, ⟨.kNoVoice, kMaxIndex⟩)) := by
  have hbody : chooseBody s.mVoices note =
      scanBody (fun j => (s.mVoices j).note = note) (fun j => (s.mVoices j).updateTs) Fin.val := rfl
  unfold handleNoteOff
  rw [if_neg hn, hbody]
  rcases s.scan_voices (· = note) kMaxIndex with ⟨hno, he⟩ | ⟨i, hi, hts, he⟩
  · right
    refine ⟨hno, ?_⟩
    rw [he]
    rfl
  · left
    refine ⟨i, hi.holds, hts, ?_⟩
    rw [he]
    simp only [ne_eq, val_ne_kMaxIndex, not_false_eq_true, if_true, setVoice_val]
    rfl

end NoteScheduler

end StepperSynth
