import Mathlib.Tactic

/-!
# Bit fields of a register

Read-modify-writes of the `n` bits from position `k` on, through the mask
`(2^n - 1) << k`. A field is read by `extractLsb'`.

* `getLsbD_writeField`: a write changes the bits of its field and no others.
* `extractLsb'_writeField_self`, `extractLsb'_writeField_of_disjoint`: what the
  same field and the disjoint ones read afterwards.
* `writeField_zero`, `or_writeField`: clearing through the mask, and setting
  what was cleared. `or_setWidth_shiftLeft`: setting without clearing.
* `and_mask_ushiftRight`, `and_mask_eq_zero_iff`: masking and shifting down reads
  the field, masking tests it. `merge_mask`: one field taken from another word.
* `eq_of_fields`: a register is its fields.
-/

namespace StepperSynth.Common

variable {w n m k j : ℕ}

/-- The bits of the field of width `n` at position `k`. -/
def fieldMask (w n k : ℕ) : BitVec w := (BitVec.allOnes n).setWidth w <<< k

/-- `x` with the field at position `k` set to `v`. -/
def writeField (x : BitVec w) (k : ℕ) (v : BitVec n) : BitVec w :=
  x &&& ~~~fieldMask w n k ||| v.setWidth w <<< k

theorem getLsbD_fieldMask (w n k i : ℕ) :
    (fieldMask w n k).getLsbD i = decide (i < w ∧ k ≤ i ∧ i < k + n) := by
  unfold fieldMask
  rw [BitVec.getLsbD_shiftLeft, BitVec.getLsbD_setWidth, BitVec.getLsbD_allOnes]
  by_cases hi : i < w
  · by_cases hk : i < k
    · simp [hk, Nat.not_le.mpr hk]
    · have hlt : i - k < n ↔ i < k + n := by omega
      have hw : i - k < w := by omega
      simp [hi, hk, hw, hlt, Nat.not_lt.mp hk]
  · simp [hi]

theorem getLsbD_setWidth_shiftLeft (v : BitVec n) (i : ℕ) :
    (v.setWidth w <<< k).getLsbD i = (decide (i < w ∧ k ≤ i) && v.getLsbD (i - k)) := by
  rw [BitVec.getLsbD_shiftLeft, BitVec.getLsbD_setWidth]
  by_cases hi : i < w
  · have hw : i - k < w := by omega
    by_cases hk : i < k
    · simp [hk, Nat.not_le.mpr hk]
    · simp [hi, hk, hw, Nat.not_lt.mp hk]
  · simp [hi]

/-- A field write changes the bits of its field only. -/
theorem getLsbD_writeField (h : k + n ≤ w) (x : BitVec w) (v : BitVec n) (i : ℕ) :
    (writeField x k v).getLsbD i =
      if k ≤ i ∧ i < k + n then v.getLsbD (i - k) else x.getLsbD i := by
  unfold writeField
  rw [BitVec.getLsbD_or, BitVec.getLsbD_and, BitVec.getLsbD_not, getLsbD_fieldMask,
    getLsbD_setWidth_shiftLeft]
  split_ifs with hi
  · have hw : i < w := by omega
    simp [hi.1, hi.2, hw]
  · by_cases hw : i < w
    · by_cases hk : k ≤ i
      · have hv : v.getLsbD (i - k) = false := BitVec.getLsbD_of_ge v _ (by omega)
        have hn : ¬ i < k + n := fun h' => hi ⟨hk, h'⟩
        simp [hw, hk, hn, hv]
      · simp [hw, hk]
    · simp [hw, BitVec.getLsbD_of_ge x i (by omega)]

/-- A field reads back what was written to it. -/
theorem extractLsb'_writeField_self (h : k + n ≤ w) (x : BitVec w) (v : BitVec n) :
    (writeField x k v).extractLsb' k n = v := by
  apply BitVec.eq_of_getLsbD_eq
  intro i hi
  rw [BitVec.getLsbD_extractLsb', getLsbD_writeField h, if_pos (by omega)]
  simp [hi]

/-- A field depends on its own bits only. -/
theorem extractLsb'_congr {x y : BitVec w} (h : ∀ i < n, x.getLsbD (k + i) = y.getLsbD (k + i)) :
    x.extractLsb' k n = y.extractLsb' k n := by
  apply BitVec.eq_of_getLsbD_eq
  intro i hi
  rw [BitVec.getLsbD_extractLsb', BitVec.getLsbD_extractLsb', h i hi]

/-- A field disjoint from the one written reads what it read before. -/
theorem extractLsb'_writeField_of_disjoint (h : k + n ≤ w) (hd : j + m ≤ k ∨ k + n ≤ j)
    (x : BitVec w) (v : BitVec n) :
    (writeField x k v).extractLsb' j m = x.extractLsb' j m := by
  apply BitVec.eq_of_getLsbD_eq
  intro i hi
  rw [BitVec.getLsbD_extractLsb', BitVec.getLsbD_extractLsb', getLsbD_writeField h,
    if_neg (by omega)]

/-- Clearing a field through its mask. -/
theorem writeField_zero (x : BitVec w) : x &&& ~~~fieldMask w n k = writeField x k (0#n) := by
  unfold writeField
  simp

/-- Setting the bits of a field that was cleared. -/
theorem or_writeField (x : BitVec w) (v : BitVec n) :
    writeField x k (0#n) ||| v.setWidth w <<< k = writeField x k v := by
  rw [← writeField_zero]
  rfl

/-- Setting bits of a field without clearing it first. -/
theorem or_setWidth_shiftLeft (h : k + n ≤ w) (x : BitVec w) (v : BitVec n) :
    x ||| v.setWidth w <<< k = writeField x k (x.extractLsb' k n ||| v) := by
  apply BitVec.eq_of_getLsbD_eq
  intro i hi
  rw [BitVec.getLsbD_or, getLsbD_setWidth_shiftLeft, getLsbD_writeField h, BitVec.getLsbD_or,
    BitVec.getLsbD_extractLsb']
  split_ifs with hk
  · have hlt : i - k < n := by omega
    have hadd : k + (i - k) = i := by omega
    simp [hi, hk.1, hlt, hadd]
  · by_cases hki : k ≤ i
    · have hv : v.getLsbD (i - k) = false := BitVec.getLsbD_of_ge v _ (by omega)
      simp [hv]
    · simp [hki]

/-- Masking a register and shifting down reads a field. -/
theorem and_mask_ushiftRight (h : k + n ≤ w) (x : BitVec w) :
    (x &&& fieldMask w n k) >>> k = (x.extractLsb' k n).setWidth w := by
  apply BitVec.eq_of_getLsbD_eq
  intro i hi
  rw [BitVec.getLsbD_ushiftRight, BitVec.getLsbD_and, getLsbD_fieldMask, BitVec.getLsbD_setWidth,
    BitVec.getLsbD_extractLsb']
  by_cases hn : i < n
  · have hw : k + i < w := by omega
    simp [hn, hi, hw]
  · simp [hn]

/-- A field copied to a wider word is 0 iff it was. -/
theorem setWidth_eq_zero_iff (h : n ≤ m) (v : BitVec n) : v.setWidth m = 0 ↔ v = 0 := by
  constructor
  · intro h0
    apply BitVec.eq_of_getLsbD_eq
    intro i hi
    have hbit := congrArg (fun u => u.getLsbD i) h0
    simpa [show i < m by omega] using hbit
  · rintro rfl
    exact BitVec.setWidth_zero m n

/-- A masked register is 0 iff the field is. -/
theorem and_mask_eq_zero_iff (h : k + n ≤ w) (x : BitVec w) :
    x &&& fieldMask w n k = 0 ↔ x.extractLsb' k n = 0 := by
  have hbits : ∀ i, (x &&& fieldMask w n k).getLsbD i =
      (decide (k ≤ i ∧ i < k + n) && (x.extractLsb' k n).getLsbD (i - k)) := by
    intro i
    rw [BitVec.getLsbD_and, getLsbD_fieldMask, BitVec.getLsbD_extractLsb']
    by_cases hi : k ≤ i ∧ i < k + n
    · have hw : i < w := by omega
      have hlt : i - k < n := by omega
      have hadd : k + (i - k) = i := by omega
      simp [hi, hw, hlt, hadd]
    · simp [hi]
  constructor
  · intro h0
    apply BitVec.eq_of_getLsbD_eq
    intro i hi
    have hbit := hbits (k + i)
    rw [h0] at hbit
    simpa [hi] using hbit.symm
  · intro h0
    apply BitVec.eq_of_getLsbD_eq
    intro i hi
    rw [hbits, h0]
    simp

/-- A word with the bits of a field taken from another. -/
theorem merge_mask (h : k + n ≤ w) (x y : BitVec w) :
    x &&& ~~~fieldMask w n k ||| y &&& fieldMask w n k = writeField x k (y.extractLsb' k n) := by
  apply BitVec.eq_of_getLsbD_eq
  intro i hi
  rw [getLsbD_writeField h, BitVec.getLsbD_or, BitVec.getLsbD_and, BitVec.getLsbD_not,
    BitVec.getLsbD_and, getLsbD_fieldMask, BitVec.getLsbD_extractLsb']
  split_ifs with hk
  · have hlt : i - k < n := by omega
    have hadd : k + (i - k) = i := by omega
    simp [hi, hk.1, hk.2, hlt, hadd]
  · simp [hi, hk]

/-- Registers that agree on all fields of width `n` are equal. -/
theorem eq_of_fields {x y : BitVec w} (hn : 0 < n)
    (h : ∀ i, n * i < w → x.extractLsb' (n * i) n = y.extractLsb' (n * i) n) : x = y := by
  apply BitVec.eq_of_getLsbD_eq
  intro i hi
  have hdiv : n * (i / n) + i % n = i := Nat.div_add_mod i n
  have hmod : i % n < n := Nat.mod_lt i hn
  have hbit := congrArg (fun v => v.getLsbD (i % n)) (h (i / n) (by omega))
  simpa only [BitVec.getLsbD_extractLsb', hmod, decide_true, Bool.true_and, hdiv] using hbit

end StepperSynth.Common
