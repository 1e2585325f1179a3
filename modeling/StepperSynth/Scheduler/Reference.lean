import StepperSynth.Common.Lru
import StepperSynth.Scheduler.Calls

/-!
# The note scheduler refines a least recently used queue

The code never stores an order: it recovers it from 32-bit time stamps. The
reference allocator keeps the order itself and no time stamps.

* `refCall`: the reference allocator, on `Lru`.
* `Sim`: the simulation relation. The order of the reference allocator is the
  order of the time stamps, where voices with one time stamp (those never used)
  stand in the order of their indices.
* `sim_call`: one call, up to `2^32 - 2` note-ons.
* `scheduler_refines_lru`: every result and every snapshot of a run is that of
  the reference allocator.
-/

namespace StepperSynth

open Common

/-! ## The reference allocator -/

/-- A permutation of the voices, and the note of each voice. -/
abbrev RefAllocator := Lru (Fin synthNumVoices) Byte

/-- The voices in the order `0, 1, …`, all free. -/
def refInit : RefAllocator where
  order := List.finRange synthNumVoices
  held := fun _ => none
  nodup := List.nodup_finRange _
  mem_order := List.mem_finRange

/-- The outcome that reports how a note was given its voice. -/
def refOutcome : Grant → Outcome
  | .again => .kRetrigger
  | .fresh => .kAllocated
  | .stolen => .kStolen

/-- The notes of the voices, `kFreeNote` for a free one. -/
def refSnapshot (a : RefAllocator) : Snapshot := fun i => (a.held i).getD kFreeNote

/-- The state and the result of a call. -/
def refResult (a : RefAllocator) : Call → RefAllocator × Result
  | .noteOn n =>
    let r := a.press n
    (r.1, ⟨refOutcome r.2.1, r.2.2⟩)
  | .noteOff n =>
    match a.release n with
    | (a', some v) => (a', ⟨.kFreed, v⟩)
    | (a', none) => (a', ⟨.kNoVoice, kMaxIndex⟩)

/-- A call, with its result and the snapshot after it. -/
def refCall (a : RefAllocator) (c : Call) : RefAllocator × (Result × Snapshot) :=
  let r := refResult a c
  (r.1, r.2, refSnapshot r.1)

namespace NoteScheduler

/-- A call of the code, with its result and the snapshot after it. -/
def callSnapshot (s : NoteScheduler) (c : Call) :
    Except Fault (NoteScheduler × (Result × Snapshot)) :=
  match s.call c with
  | .error e => .error e
  | .ok (s', r) => .ok (s', r, s'.getSnapshot)

/-! ## The simulation relation -/

/-- The order that the searches recover from the time stamps. -/
def Older (s : NoteScheduler) (i j : Fin synthNumVoices) : Prop :=
  (s.mVoices i).updateTs < (s.mVoices j).updateTs ∨
    (s.mVoices i).updateTs = (s.mVoices j).updateTs ∧ i < j

/-- A note as the reference allocator keeps it. -/
def toHeld (note : Byte) : Option Byte := if note = kFreeNote then none else some note

theorem toHeld_eq_some {note n : Byte} (hn : n ≠ kFreeNote) : toHeld note = some n ↔ note = n := by
  unfold toHeld
  split_ifs with h
  · simp only [false_iff]
    intro he
    exact hn (he.symm.trans h)
  · simp

theorem toHeld_eq_none {note : Byte} : toHeld note = none ↔ note = kFreeNote := by
  unfold toHeld
  split_ifs with h <;> simp [h]

theorem toHeld_getD (note : Byte) : (toHeld note).getD kFreeNote = note := by
  unfold toHeld
  split_ifs with h <;> simp [h]

/-- The state `s` of the code after the calls `h`, newest first, and the state
    `a` of the reference allocator. -/
structure Sim (h : List Call) (s : NoteScheduler) (a : RefAllocator) : Prop where
  inv : Inv s
  counter : s.mCounter.toNat = Call.countOn h
  ts_le : ∀ i, (s.mVoices i).updateTs.toNat ≤ Call.countOn h
  held : ∀ i, a.held i = toHeld (s.mVoices i).note
  order : a.order.Pairwise s.Older

/-- The runs considered: calls with notes, and fewer note-ons than it takes to
    reach the time stamp `UINT32_MAX`. -/
def Adm (h : List Call) : Prop :=
  (∀ c ∈ h, c.note ≠ kFreeNote) ∧ Call.countOn h ≤ 2 ^ 32 - 2

theorem adm_tail (c : Call) (h : List Call) (hadm : Adm (c :: h)) : Adm h := by
  refine ⟨fun d hd => hadm.1 d (List.mem_cons_of_mem _ hd), ?_⟩
  have := hadm.2
  cases c with
  | noteOn n => rw [Call.countOn_noteOn] at this; omega
  | noteOff n => rwa [Call.countOn_noteOff] at this

theorem adm_reverse {calls : List Call} (hcalls : ∀ c ∈ calls, c.note ≠ kFreeNote)
    (hcount : Call.countOn calls ≤ 2 ^ 32 - 2) : Adm calls.reverse := by
  refine ⟨by simpa using hcalls, ?_⟩
  unfold Call.countOn at *
  rwa [List.countP_reverse]

theorem sim_init : Sim [] {} refInit where
  inv := inv_init
  counter := rfl
  ts_le _ := le_rfl
  held _ := rfl
  order := (List.pairwise_lt_finRange _).imp fun h => Or.inr ⟨rfl, h⟩

section Step

variable {h : List Call} {s : NoteScheduler} {a : RefAllocator}

/-- No time stamp has reached `UINT32_MAX` yet. -/
theorem Sim.ts_ne_max (hs : Sim h s a) (hcount : Call.countOn h ≤ 2 ^ 32 - 2)
    (i : Fin synthNumVoices) : (s.mVoices i).updateTs ≠ uint32Max := by
  intro he
  have := hs.ts_le i
  rw [he, toNat_uint32Max] at this
  omega

theorem Sim.held_some (hs : Sim h s a) {n : Byte} (hn : n ≠ kFreeNote) (i : Fin synthNumVoices) :
    a.held i = some n ↔ (s.mVoices i).note = n := by
  rw [hs.held, toHeld_eq_some hn]

theorem Sim.held_none (hs : Sim h s a) (i : Fin synthNumVoices) :
    a.held i = none ↔ (s.mVoices i).note = kFreeNote := by
  rw [hs.held, toHeld_eq_none]

theorem Sim.holder_none (hs : Sim h s a) {n : Byte} (hn : n ≠ kFreeNote)
    (hno : ∀ j, (s.mVoices j).note ≠ n) : a.holder n = none := by
  cases ho : a.holder n with
  | none => rfl
  | some v => exact absurd ((hs.held_some hn v).mp (Lru.holder_some ho)) (hno v)

theorem Sim.holder_some (hs : Sim h s a) {n : Byte} (hn : n ≠ kFreeNote) {i : Fin synthNumVoices}
    (hi : (s.mVoices i).note = n) : a.holder n = some i := by
  apply Lru.holder_eq ((hs.held_some hn i).mpr hi)
  intro j hj
  rw [hs.held_some hn] at hj
  exact hs.inv.distinct j i (hj.trans hi.symm) (hj ▸ hn)

/-- A voice that the code's search finds has no older voice before it. -/
theorem FirstLr.not_older {p : Byte → Prop} {i : Fin synthNumVoices} (hi : s.FirstLr p i)
    {j : Fin synthNumVoices} (hj : p (s.mVoices j).note) : ¬ s.Older j i := by
  by_cases hji : j = i
  · subst hji
    unfold Older
    simp
  · have := hi.lex j hj hji
    unfold Older
    rintro (hlt | ⟨heq, hlt⟩)
    · rcases this with h | ⟨h, -⟩
      · exact absurd hlt h.asymm
      · exact absurd (h ▸ hlt) (lt_irrefl _)
    · rcases this with h | ⟨-, h⟩
      · exact absurd (heq ▸ h) (lt_irrefl _)
      · exact absurd hlt h.asymm

/-- The code and the reference allocator give a note the same voice, for the
    same reason. -/
theorem Sim.press_eq (hs : Sim h s a) (hcount : Call.countOn h ≤ 2 ^ 32 - 2) {n : Byte}
    (hn : n ≠ kFreeNote) {i : Fin synthNumVoices} {o : Outcome} (hp : s.PicksVoice n i o) :
    refOutcome (a.press n).2.1 = o ∧ (a.press n).2.2 = i := by
  cases hp with
  | retrigger hi =>
    rw [Lru.press_again (hs.holder_some hn hi)]
    exact ⟨rfl, rfl⟩
  | allocated hno hi _ =>
    have hfree : a.free = some i := by
      apply find?_of_least hs.order (a.mem_order i)
      · rw [(hs.held_none i).mpr hi.holds]; rfl
      · intro j _ hj
        exact hi.not_older ((hs.held_none j).mp (by simpa using hj))
    rw [Lru.press_fresh (hs.holder_none hn hno) hfree]
    exact ⟨rfl, rfl⟩
  | stolen hno hfree hi =>
    have hbusy : ∀ j, (s.mVoices j).note ≠ kFreeNote :=
      fun j hj => hs.ts_ne_max hcount j (hfree j hj)
    have hnone : a.free = none := by
      cases hf : a.free with
      | none => rfl
      | some v => exact absurd ((hs.held_none v).mp (Lru.free_some hf)) (hbusy v)
    -- the search for a busy voice cannot have failed
    have hi : s.FirstLr (· ≠ kFreeNote) i := by
      rcases hi with hi | ⟨-, hall⟩
      · exact hi
      · exact absurd (hall i (hbusy i)) (hs.ts_ne_max hcount i)
    have hhead : a.order.head? = some i :=
      head?_of_least hs.order (a.mem_order i) fun j _ => hi.not_older (hbusy j)
    rw [Lru.press_stolen (hs.holder_none hn hno) hnone hhead]
    exact ⟨rfl, rfl⟩

theorem Sim.assign (hs : Sim h s a) {n : Byte} (hadm : Adm (.noteOn n :: h))
    {i : Fin synthNumVoices} (hu : ∀ j, (s.mVoices j).note = n → j = i) :
    Sim (.noteOn n :: h) (s.assign i n) ((a.store i (some n)).moveBack i) := by
  have hn : n ≠ kFreeNote := hadm.1 _ List.mem_cons_self
  have hcount := hadm.2
  rw [Call.countOn_noteOn] at hcount
  have hcounter : (s.mCounter + 1).toNat = Call.countOn h + 1 := by
    rw [BitVec.toNat_add, hs.counter]
    exact Nat.mod_eq_of_lt (by show Call.countOn h + 1 < 2 ^ 32; omega)
  refine ⟨hs.inv.assign hn hu, by rw [Call.countOn_noteOn]; exact hcounter, fun j => ?_,
    fun j => ?_, ?_⟩
  · rw [Call.countOn_noteOn]
    by_cases hj : j = i
    · rw [hj, assign_self]; exact hcounter.le
    · rw [assign_ne s hj]; exact (hs.ts_le j).trans (Nat.le_succ _)
  · by_cases hj : j = i
    · subst hj
      simp [Lru.moveBack, Lru.store, toHeld, hn]
    · rw [assign_ne s hj, ← hs.held j]
      simp [Lru.moveBack, Lru.store, hj]
  · apply pairwise_touch a.nodup _ _ hs.order
    · intro j hj
      left
      rw [assign_ne s hj, assign_self, BitVec.lt_def, hcounter]
      exact Nat.lt_succ_of_le (hs.ts_le j)
    · intro j k hj hk hjk
      unfold Older
      rw [assign_ne s hj, assign_ne s hk]
      exact hjk

theorem Sim.unassign (hs : Sim h s a) {n : Byte} {i : Fin synthNumVoices}
    (hts : (s.mVoices i).updateTs ≠ uint32Max) :
    Sim (.noteOff n :: h) (s.unassign i) (a.store i none) := by
  have hsame : ∀ j, ((s.unassign i).mVoices j).updateTs = (s.mVoices j).updateTs := by
    intro j
    by_cases hj : j = i
    · rw [hj, unassign_self]
    · rw [unassign_ne s hj]
  refine ⟨hs.inv.unassign hts, hs.counter, fun j => by rw [hsame]; exact hs.ts_le j, fun j => ?_,
    hs.order.imp fun hjk => ?_⟩
  · by_cases hj : j = i
    · subst hj
      simp [Lru.store, toHeld]
    · rw [unassign_ne s hj, ← hs.held j]
      simp [Lru.store, hj]
  · unfold Older
    rw [hsame, hsame]
    exact hjk

/-- **One call.** The code answers like the reference allocator, and the states
    stay related. -/
theorem sim_call (hs : Sim h s a) {c : Call} (hadm : Adm (c :: h)) :
    ∃ s', s.call c = .ok (s', (refResult a c).2) ∧ Sim (c :: h) s' (refResult a c).1 := by
  have hcount := (adm_tail c h hadm).2
  cases c with
  | noteOn n =>
    have hn : n ≠ kFreeNote := hadm.1 _ List.mem_cons_self
    obtain ⟨i, o, he, hp⟩ := s.handleNoteOn_cases hn
    obtain ⟨ho, hv⟩ := hs.press_eq hcount hn hp
    refine ⟨s.assign i n, ?_, ?_⟩
    · rw [call, he, ← ho, ← hv]
      rfl
    · show Sim _ _ (a.press n).1
      rw [Lru.press_state, hv]
      exact hs.assign hadm fun j hj => hp.unique hs.inv hn hj
  | noteOff n =>
    have hn : n ≠ kFreeNote := hadm.1 _ List.mem_cons_self
    rcases s.handleNoteOff_cases hn with ⟨i, hi, hts, he⟩ | ⟨hall, he⟩
    · have hrel : refResult a (.noteOff n) = (a.store i none, ⟨.kFreed, i⟩) := by
        rw [refResult, Lru.release, hs.holder_some hn hi]
      rw [hrel]
      exact ⟨s.unassign i, he, hs.unassign hts⟩
    · have hno : ∀ j, (s.mVoices j).note ≠ n := fun j hj => hs.ts_ne_max hcount j (hall j hj)
      have hrel : refResult a (.noteOff n) = (a, ⟨.kNoVoice, kMaxIndex⟩) := by
        rw [refResult, Lru.release, hs.holder_none hn hno]
      rw [hrel]
      exact ⟨s, he, hs.inv, hs.counter, hs.ts_le, hs.held, hs.order⟩

theorem Sim.snapshot (hs : Sim h s a) : s.getSnapshot = refSnapshot a := by
  funext i
  rw [refSnapshot, hs.held, toHeld_getD]
  rfl

end Step

/-! ## Runs -/

/-- **The time stamps implement a least recently used queue.** For every
    sequence of calls with notes that has at most `2^32 - 2` note-ons, every
    result and every snapshot, the one before the first call included, is that
    of the reference allocator. -/
theorem scheduler_refines_lru (calls : List Call) (hcalls : ∀ c ∈ calls, c.note ≠ kFreeNote)
    (hcount : Call.countOn calls ≤ 2 ^ 32 - 2) :
    getSnapshot {} = refSnapshot refInit ∧
      ∃ s, trace callSnapshot {} calls = .ok (s, (refTrace refCall refInit calls).2) := by
  refine ⟨sim_init.snapshot, ?_⟩
  have hstep : ∀ h s a c, Adm (c :: h) → Sim h s a →
      ∃ s', s.callSnapshot c = .ok (s', (refCall a c).2) ∧ Sim (c :: h) s' (refCall a c).1 := by
    intro h s a c hadm hs
    obtain ⟨s', he, hs'⟩ := sim_call hs hadm
    refine ⟨s', ?_, hs'⟩
    rw [callSnapshot, he]
    simp only [hs'.snapshot]
    rfl
  obtain ⟨s, hs, -⟩ := trace_history Sim Adm adm_tail hstep calls [] {} refInit
    (by rw [List.append_nil]; exact adm_reverse hcalls hcount) sim_init
  exact ⟨s, hs⟩

/-- Five notes on four voices: the last one steals. -/
theorem scheduler_refines_lru_five :
    getSnapshot {} = refSnapshot refInit ∧
      ∃ s, trace callSnapshot {} [.noteOn 60, .noteOn 64, .noteOn 67, .noteOn 70, .noteOn 72] =
        .ok (s, (refTrace refCall refInit
          [.noteOn 60, .noteOn 64, .noteOn 67, .noteOn 70, .noteOn 72]).2) :=
  scheduler_refines_lru [.noteOn 60, .noteOn 64, .noteOn 67, .noteOn 70, .noteOn 72] (by decide)
    (by decide)

end NoteScheduler

end StepperSynth
