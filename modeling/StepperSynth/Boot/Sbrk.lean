import StepperSynth.Boot.Startup
import StepperSynth.Common.Bump

/-!
# `_sbrk`

Model of `sysmem.c`: the heap of the C library is a break between `_end` and the stack.

* `sbrk_step`: a call does to the address what the request does to the break.
* `sbrk_run`: so does every sequence of calls that releases no more than is in use.
* `sbrk_disjoint`: without releases, the blocks are apart from each other, from the
  static variables and from the stack.
-/

namespace StepperSynth

open Common

/-- The static variable `__sbrk_heap_end`, with 0 for `NULL`, and whether `errno` has been
    set to `ENOMEM`. -/
structure Sbrk where
  heapEnd : Word
  enomem : Bool
  deriving DecidableEq

/-- The variable is in `.bss`. -/
def Sbrk.start : Sbrk := ⟨0, false⟩

/-- `max_heap` (lines 12 and 13). -/
def maxHeap : Word := estack - BitVec.ofNat 32 minStackSize

namespace Image

/-- Model of `_sbrk` (lines 6–31). The argument is signed. -/
def sbrk (im : Image) (s : Sbrk) (incr : Word) : Sbrk × Word :=
  let s := if s.heapEnd = 0 then { s with heapEnd := im.heap } else s
  if s.heapEnd + incr > maxHeap then ({ s with enomem := true }, -1)
  else ({ s with heapEnd := s.heapEnd + incr }, s.heapEnd)

/-! ## The break -/

variable (im : Image)

/-- What is between `_end` and the stack. -/
def heapRoom : ℤ := maxHeap.toNat - im.heap.toNat

/-- The answer to a request. -/
def answer : Option ℤ → Word
  | none => -1
  | some start => im.heap + BitVec.ofInt 32 start

/-- The address that goes with a break. -/
structure At (used : ℤ) (s : Sbrk) : Prop where
  low : 0 ≤ used
  high : used ≤ im.heapRoom
  heapEnd : s.heapEnd = 0 ∧ used = 0 ∨ (s.heapEnd.toNat : ℤ) = im.heap.toNat + used

variable {im} {used : ℤ} {s : Sbrk} {incr : Word}

theorem maxHeap_toNat : maxHeap.toNat = 0x2001BC00 := by decide

/-- The heap starts behind the static variables. -/
theorem heap_bounds (im : Image) :
    0x20000000 ≤ im.heap.toNat ∧ im.heap.toNat + minHeapSize ≤ maxHeap.toNat := by
  have hsram := im.sram
  have hdata := im.data
  have hgap := im.gap
  have hbss := im.bss
  have hrest := im.rest
  have hfits := im.fits
  have hend : estack.toNat = 0x2001C000 := by decide
  rw [maxHeap_toNat]
  unfold minHeapSize minStackSize at *
  omega

/-- The addition does not wrap. -/
theorem sbrk_add {a : Word} (ha : (a.toNat : ℤ) = im.heap.toNat + used)
    (hhigh : used ≤ im.heapRoom) (hnext : 0 ≤ used + incr.toInt) :
    ((a + incr).toNat : ℤ) = im.heap.toNat + (used + incr.toInt) := by
  obtain ⟨hheap, -⟩ := im.heap_bounds
  have hint := BitVec.toInt_eq_toNat_cond incr
  have hlt := incr.isLt
  unfold heapRoom at hhigh
  rw [maxHeap_toNat] at hhigh
  rw [BitVec.toNat_add]
  split_ifs at hint <;> omega

theorem sbrk_test {a : Word} (ha : (a.toNat : ℤ) = im.heap.toNat + used)
    (hhigh : used ≤ im.heapRoom) (hnext : 0 ≤ used + incr.toInt) :
    a + incr > maxHeap ↔ im.heapRoom < used + incr.toInt := by
  have hsum := sbrk_add ha hhigh hnext
  unfold heapRoom
  rw [gt_iff_lt, BitVec.lt_def]
  omega

/-- The address of a break that is in use. -/
theorem answer_some {a : Word} (ha : (a.toNat : ℤ) = im.heap.toNat + used) :
    im.answer (some used) = a := by
  apply BitVec.eq_of_toNat_eq
  show (im.heap + BitVec.ofInt 32 used).toNat = a.toNat
  have hlt := a.isLt
  rw [BitVec.toNat_add, BitVec.toNat_ofInt]
  omega

/-- The call takes the break from where it is, or from `_end` at first. -/
theorem sbrk_from (h : im.At used s) (incr : Word) : ∃ a : Word,
    (a.toNat : ℤ) = im.heap.toNat + used ∧
      im.sbrk s incr =
        if a + incr > maxHeap then (⟨a, true⟩, -1) else (⟨a + incr, s.enomem⟩, a) := by
  rcases h.heapEnd with ⟨hnull, rfl⟩ | hend
  · refine ⟨im.heap, (add_zero _).symm, ?_⟩
    unfold sbrk
    rw [if_pos hnull]
  · have hne : s.heapEnd ≠ 0 := by
      intro hnull
      have hheap := im.heap_bounds.1
      have hlow := h.low
      rw [hnull] at hend
      simp at hend
      omega
    refine ⟨s.heapEnd, hend, ?_⟩
    unfold sbrk
    rw [if_neg hne]

/-- What a call does, when the break is to be at `used'` after it. -/
structure Answers (im : Image) (s : Sbrk) (incr : Word) (used' : ℤ) (start : Option ℤ) : Prop where
  at' : im.At used' (im.sbrk s incr).1
  answer : (im.sbrk s incr).2 = im.answer start
  enomem : (im.sbrk s incr).1.enomem = (s.enomem || start.isNone)

/-- One call. -/
theorem sbrk_step (h : im.At used s) (hnext : 0 ≤ (bump im.heapRoom used incr.toInt).1) :
    im.Answers s incr (bump im.heapRoom used incr.toInt).1
      (bump im.heapRoom used incr.toInt).2 := by
  obtain ⟨a, ha, hsbrk⟩ := sbrk_from h incr
  by_cases hroom : used + incr.toInt ≤ im.heapRoom
  · rw [bump_of_le hroom] at hnext ⊢
    have htest := (sbrk_test ha h.high hnext).not.mpr (not_lt.mpr hroom)
    rw [if_neg htest] at hsbrk
    refine ⟨⟨hnext, hroom, ?_⟩, ?_, ?_⟩
    · rw [hsbrk]
      exact .inr (sbrk_add ha h.high hnext)
    · rw [hsbrk]
      exact (answer_some ha).symm
    · rw [hsbrk]
      exact (Bool.or_false _).symm
  · have hlt := not_le.mp hroom
    rw [bump_of_lt hlt] at hnext ⊢
    have hpos : 0 ≤ used + incr.toInt := by
      have := h.high
      omega
    rw [if_pos ((sbrk_test ha h.high hpos).mpr hlt)] at hsbrk
    refine ⟨⟨h.low, h.high, ?_⟩, ?_, ?_⟩
    · rw [hsbrk]
      exact .inr ha
    · rw [hsbrk]
      rfl
    · rw [hsbrk]
      exact (Bool.or_true _).symm

theorem at_start : im.At 0 Sbrk.start := by
  have hheap := im.heap_bounds.2
  refine ⟨le_rfl, ?_, .inl ⟨rfl, rfl⟩⟩
  unfold heapRoom
  omega

/-! ## Runs -/

/-- A run of calls is a run of requests. -/
theorem sbrk_run_of {incrs : List Word} (h : im.At used s)
    (hbal : Balanced im.heapRoom used (incrs.map BitVec.toInt)) :
    im.At (usedAfter im.heapRoom used (incrs.map BitVec.toInt)) (refTrace im.sbrk s incrs).1 ∧
      (refTrace im.sbrk s incrs).2 =
        (refTrace (bump im.heapRoom) used (incrs.map BitVec.toInt)).2.map im.answer ∧
      (refTrace im.sbrk s incrs).1.enomem = (s.enomem ||
        (refTrace (bump im.heapRoom) used (incrs.map BitVec.toInt)).2.any Option.isNone) := by
  induction incrs generalizing used s with
  | nil => exact ⟨h, rfl, (Bool.or_false _).symm⟩
  | cons incr incrs ih =>
    have hstep := sbrk_step h hbal.next
    obtain ⟨hat, hanswers, henomem⟩ := ih hstep.at' hbal.tail
    refine ⟨hat, ?_, ?_⟩
    · show (im.sbrk s incr).2 :: (refTrace im.sbrk (im.sbrk s incr).1 incrs).2 = _
      rw [hstep.answer, hanswers]
      rfl
    · show (refTrace im.sbrk (im.sbrk s incr).1 incrs).1.enomem = _
      rw [henomem, hstep.enomem, Bool.or_assoc]
      rfl

/-- The blocks that the calls have granted, each with its address and its size. -/
def blocks (im : Image) (s : Sbrk) (incrs : List Word) : List (Word × Word) :=
  ((refTrace im.sbrk s incrs).2.zip incrs).filter fun b => b.1 ≠ -1

theorem answer_toNat (hlow : 0 ≤ used) (hhigh : used ≤ im.heapRoom) :
    ((im.answer (some used)).toNat : ℤ) = im.heap.toNat + used := by
  show ((im.heap + BitVec.ofInt 32 used).toNat : ℤ) = _
  unfold heapRoom at hhigh
  rw [maxHeap_toNat] at hhigh
  rw [BitVec.toNat_add, BitVec.toNat_ofInt]
  omega

theorem answer_ne (hlow : 0 ≤ used) (hhigh : used ≤ im.heapRoom) : im.answer (some used) ≠ -1 := by
  intro heq
  have h := answer_toNat hlow hhigh
  rw [heq] at h
  unfold heapRoom at hhigh
  rw [maxHeap_toNat] at hhigh
  have hmax : (-1 : Word).toNat = 2 ^ 32 - 1 := by decide
  omega

/-- They are the blocks of the requests. -/
theorem blocks_eq {incrs : List Word} (h : im.At used s)
    (hbal : Balanced im.heapRoom used (incrs.map BitVec.toInt)) :
    im.blocks s incrs = (granted im.heapRoom used (incrs.map BitVec.toInt)).map
      fun b => (im.answer (some b.1), BitVec.ofInt 32 b.2) := by
  induction incrs generalizing used s with
  | nil => rfl
  | cons incr incrs ih =>
    have hstep := sbrk_step h hbal.next
    have hrest := ih hstep.at' hbal.tail
    have hcons : im.blocks s (incr :: incrs) =
        (if (im.sbrk s incr).2 ≠ -1 then [((im.sbrk s incr).2, incr)] else []) ++
          im.blocks (im.sbrk s incr).1 incrs := by
      show List.filter _ (((im.sbrk s incr).2, incr) :: _) = _
      rw [List.filter_cons]
      by_cases hne : (im.sbrk s incr).2 ≠ -1
      · rw [if_pos hne, if_pos (decide_eq_true hne)]
        rfl
      · rw [if_neg hne, if_neg (by simpa using hne)]
        rfl
    rw [hcons, hrest, hstep.answer, List.map_cons]
    by_cases hroom : used + incr.toInt ≤ im.heapRoom
    · rw [granted_of_le hroom, bump_of_le hroom, if_pos (answer_ne h.low h.high), List.map_cons,
        BitVec.ofInt_toInt]
      rfl
    · have hlt := not_le.mp hroom
      have hrefused : ¬ im.answer none ≠ -1 := not_not_intro rfl
      rw [granted_of_lt hlt, bump_of_lt hlt, if_neg hrefused]
      rfl

/-- **The break.** For every linked program and every sequence of calls that never
    releases more than is in use: each answer is the old break, or `-1` if the new one would
    be beyond `_estack - _Min_Stack_Size`; a refused call leaves the break where it is; the
    break stays between `_end` and that bound; and `errno` is `ENOMEM` iff a call has been
    refused. No sum wraps. -/
theorem sbrk_run (im : Image) (incrs : List Word)
    (hbal : Balanced im.heapRoom 0 (incrs.map BitVec.toInt)) :
    im.At (usedAfter im.heapRoom 0 (incrs.map BitVec.toInt)) (refTrace im.sbrk .start incrs).1 ∧
      (refTrace im.sbrk .start incrs).2 =
        (refTrace (bump im.heapRoom) 0 (incrs.map BitVec.toInt)).2.map im.answer ∧
      (refTrace im.sbrk .start incrs).1.enomem =
        (refTrace (bump im.heapRoom) 0 (incrs.map BitVec.toInt)).2.any Option.isNone :=
  sbrk_run_of at_start hbal

/-- 256 bytes are granted, 128 KiB are not, and 64 bytes are given back. -/
theorem sbrk_run_small : (refTrace small.sbrk .start [0x100, 0x20000, -0x40]).2 =
      [0x20000018, -1, 0x20000118] ∧
    (refTrace small.sbrk .start [0x100, 0x20000, -0x40]).1.enomem = true := by
  obtain ⟨-, hanswers, henomem⟩ := sbrk_run small [0x100, 0x20000, -0x40] (by decide)
  rw [hanswers, henomem]
  decide

/-- **The blocks.** For every sequence of calls without releases, the blocks granted are
    apart from each other, from the static variables and from the stack. -/
theorem sbrk_disjoint (im : Image) (incrs : List Word) (hincrs : ∀ i ∈ incrs, 0 ≤ i.toInt) :
    (im.blocks .start incrs).Pairwise (fun a b => a.1.toNat + a.2.toNat ≤ b.1.toNat) ∧
      ∀ b ∈ im.blocks .start incrs, im.ebss.toNat ≤ b.1.toNat ∧
        b.1.toNat + b.2.toNat + minStackSize ≤ estack.toNat := by
  have hnonneg : ∀ i ∈ incrs.map BitVec.toInt, 0 ≤ i := by
    intro i hi
    obtain ⟨incr, hincr, rfl⟩ := List.mem_map.mp hi
    exact hincrs incr hincr
  have hblock : ∀ b ∈ granted im.heapRoom 0 (incrs.map BitVec.toInt),
      ((im.answer (some b.1)).toNat : ℤ) = im.heap.toNat + b.1 ∧
        ((BitVec.ofInt 32 b.2).toNat : ℤ) = b.2 := by
    intro b hb
    obtain ⟨hlow, hhigh⟩ := granted_within hnonneg b hb
    obtain ⟨incr, hincr, hsize⟩ := List.mem_map.mp (granted_size b hb)
    have hpos := hincrs incr hincr
    refine ⟨answer_toNat hlow (by omega), ?_⟩
    rw [← hsize, BitVec.ofInt_toInt]
    have hcond := BitVec.toInt_eq_toNat_cond incr
    split_ifs at hcond <;> omega
  rw [blocks_eq at_start (balanced_of_nonneg le_rfl hnonneg)]
  constructor
  · refine List.pairwise_map.mpr ((granted_pairwise hnonneg).imp_of_mem ?_)
    intro a b ha hb hab
    obtain ⟨haddr, hsize⟩ := hblock a ha
    obtain ⟨haddr', -⟩ := hblock b hb
    show (im.answer (some a.1)).toNat + (BitVec.ofInt 32 a.2).toNat ≤ (im.answer (some b.1)).toNat
    omega
  · intro b hb
    obtain ⟨g, hg, rfl⟩ := List.mem_map.mp hb
    obtain ⟨hlow, hhigh⟩ := granted_within hnonneg g hg
    obtain ⟨haddr, hsize⟩ := hblock g hg
    have hrest := im.rest
    have hstack : estack.toNat = maxHeap.toNat + minStackSize := by decide
    unfold heapRoom at hhigh
    show im.ebss.toNat ≤ (im.answer (some g.1)).toNat ∧
      (im.answer (some g.1)).toNat + (BitVec.ofInt 32 g.2).toNat + minStackSize ≤ estack.toNat
    omega

theorem sbrk_disjoint_small :
    (small.blocks .start [0x100, 0x20000, 0x40]).Pairwise
        (fun a b => a.1.toNat + a.2.toNat ≤ b.1.toNat) ∧
      ∀ b ∈ small.blocks .start [0x100, 0x20000, 0x40], small.ebss.toNat ≤ b.1.toNat ∧
        b.1.toNat + b.2.toNat + minStackSize ≤ estack.toNat :=
  sbrk_disjoint small [0x100, 0x20000, 0x40] (by simp)

end Image

end StepperSynth
