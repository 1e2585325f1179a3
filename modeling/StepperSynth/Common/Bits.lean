import Mathlib.Tactic

/-!
# Single bits of a register

Read-modify-writes with a one-bit mask `1 << k`, as an access to bit `k`.

* `or_mask`, `and_not_mask`: setting and clearing through the mask is `writeBit`.
* `and_mask_ne_zero`: testing through the mask reads the bit.
* `getLsbD_writeBit`, `writeBit_comm`, `writeBit_self`: `writeBit` is a lens on
  each bit, and writes to different bits commute.
-/

namespace StepperSynth.Common

variable {w : ℕ}

/-- `x` with bit `k` set to `b`. -/
def writeBit (x : BitVec w) (k : ℕ) (b : Bool) : BitVec w :=
  if b then x ||| 1#w <<< k else x &&& ~~~(1#w <<< k)

theorem getLsbD_mask (k i : ℕ) : (1#w <<< k).getLsbD i = (decide (k < w) && decide (k = i)) := by
  rw [← BitVec.twoPow_eq, BitVec.getLsbD_twoPow]

theorem or_mask (x : BitVec w) (k : ℕ) : x ||| 1#w <<< k = writeBit x k true := rfl

theorem and_not_mask (x : BitVec w) (k : ℕ) : x &&& ~~~(1#w <<< k) = writeBit x k false := rfl

theorem getLsbD_writeBit {k : ℕ} (hk : k < w) (x : BitVec w) (b : Bool) (i : ℕ) :
    (writeBit x k b).getLsbD i = if i = k then b else x.getLsbD i := by
  cases b with
  | true =>
    rw [← or_mask, BitVec.getLsbD_or, getLsbD_mask]
    by_cases hi : i = k
    · simp [hi, hk]
    · simp [hi, Ne.symm hi]
  | false =>
    rw [← and_not_mask, BitVec.getLsbD_and, BitVec.getLsbD_not, getLsbD_mask]
    by_cases hi : i = k
    · simp [hi, hk]
    · by_cases hiw : i < w
      · simp [hi, Ne.symm hi, hiw]
      · simp [hi, BitVec.getLsbD_of_ge x i (by omega)]

theorem getLsbD_writeBit_self {k : ℕ} (hk : k < w) (x : BitVec w) (b : Bool) :
    (writeBit x k b).getLsbD k = b := by
  rw [getLsbD_writeBit hk, if_pos rfl]

theorem getLsbD_writeBit_ne {k i : ℕ} (hk : k < w) (hi : i ≠ k) (x : BitVec w) (b : Bool) :
    (writeBit x k b).getLsbD i = x.getLsbD i := by
  rw [getLsbD_writeBit hk, if_neg hi]

/-- Writing back the bit that is there changes nothing. -/
theorem writeBit_self {k : ℕ} (hk : k < w) (x : BitVec w) : writeBit x k (x.getLsbD k) = x := by
  apply BitVec.eq_of_getLsbD_eq
  intro i _
  rw [getLsbD_writeBit hk]
  split_ifs with hi
  · rw [hi]
  · rfl

theorem writeBit_comm {j k : ℕ} (hj : j < w) (hk : k < w) (hne : j ≠ k) (x : BitVec w)
    (a b : Bool) : writeBit (writeBit x j a) k b = writeBit (writeBit x k b) j a := by
  apply BitVec.eq_of_getLsbD_eq
  intro i _
  rw [getLsbD_writeBit hk, getLsbD_writeBit hj, getLsbD_writeBit hj, getLsbD_writeBit hk]
  split_ifs with h1 h2
  · exact absurd (h2.symm.trans h1) hne
  · rfl
  · rfl
  · rfl

theorem and_mask_ne_zero {k : ℕ} (hk : k < w) (x : BitVec w) :
    x &&& 1#w <<< k ≠ 0 ↔ x.getLsbD k = true := by
  rw [← BitVec.twoPow_eq, BitVec.and_twoPow]
  split_ifs with h
  · simp only [h, iff_true]
    intro h0
    have := congrArg (fun v => v.getLsbD k) h0
    simp [hk] at this
  · simp [h]

end StepperSynth.Common
