import Mathlib.Tactic

/-!
# Memory copied and filled by words

A memory of bytes, with little-endian accesses of four bytes. Addresses wrap.

* `extractLsb'_load`: the bytes of a word read.
* `copied`, `filled`: the memory after the first `n` bytes of a block have been copied or
  filled. `copied_step`, `filled_step`: one more word.
-/

namespace StepperSynth.Common

variable {w : ℕ}

/-- A memory of bytes. -/
abbrev Mem (w : ℕ) := BitVec w → BitVec 8

/-- The four bytes from `a` on. -/
def load (m : Mem w) (a : BitVec w) : BitVec 32 := m (a + 3) ++ m (a + 2) ++ m (a + 1) ++ m a

/-- `m` with the four bytes from `a` on replaced. -/
def store (m : Mem w) (a : BitVec w) (v : BitVec 32) : Mem w := fun x =>
  if (x - a).toNat < 4 then v.extractLsb' (8 * (x - a).toNat) 8 else m x

theorem extractLsb'_load (m : Mem w) (a : BitVec w) {i : ℕ} (hi : i < 4) :
    (load m a).extractLsb' (8 * i) 8 = m (a + BitVec.ofNat w i) := by
  apply BitVec.eq_of_getLsbD_eq
  intro k hk
  rw [BitVec.getLsbD_extractLsb', decide_eq_true hk, Bool.true_and]
  show (m (a + 3) ++ m (a + 2) ++ m (a + 1) ++ m a : BitVec (8 + 8 + 8 + 8)).getLsbD (8 * i + k) = _
  rw [BitVec.getLsbD_append, BitVec.getLsbD_append, BitVec.getLsbD_append]
  interval_cases i
  · rw [if_pos (by omega), Nat.mul_zero, Nat.zero_add, BitVec.add_zero]
  · rw [if_neg (by omega), if_pos (by omega)]
    congr 1
    omega
  · rw [if_neg (by omega), if_neg (by omega), if_pos (by omega)]
    congr 1
    omega
  · rw [if_neg (by omega), if_neg (by omega), if_neg (by omega)]
    congr 1
    omega

/-- The first `n` bytes from `dst` on are those from `src` on. -/
def copied (m : Mem w) (dst src : BitVec w) (n : ℕ) : Mem w := fun x =>
  if (x - dst).toNat < n then m (src + (x - dst)) else m x

/-- The first `n` bytes from `dst` on are 0. -/
def filled (m : Mem w) (dst : BitVec w) (n : ℕ) : Mem w := fun x =>
  if (x - dst).toNat < n then 0 else m x

theorem copied_zero (m : Mem w) (dst src : BitVec w) : copied m dst src 0 = m :=
  funext fun _ => if_neg (Nat.not_lt_zero _)

theorem filled_zero (m : Mem w) (dst : BitVec w) : filled m dst 0 = m :=
  funext fun _ => if_neg (Nat.not_lt_zero _)

/-- The word at `dst + n`, as offsets from `dst`. -/
theorem toNat_sub_add_lt {n : ℕ} (hn : n + 4 ≤ 2 ^ w) (x dst : BitVec w) :
    (x - (dst + BitVec.ofNat w n)).toNat < 4 ↔ n ≤ (x - dst).toNat ∧ (x - dst).toNat < n + 4 := by
  rw [← BitVec.sub_sub, BitVec.toNat_sub, BitVec.toNat_ofNat,
    Nat.mod_eq_of_lt (show n < 2 ^ w by omega)]
  have hy := (x - dst).isLt
  generalize (x - dst).toNat = y at hy ⊢
  by_cases hle : n ≤ y
  · have hsub : 2 ^ w - n + y = y - n + 2 ^ w := by omega
    rw [hsub, Nat.add_mod_right, Nat.mod_eq_of_lt (by omega)]
    omega
  · rw [Nat.mod_eq_of_lt (by omega)]
    omega

theorem add_sub_ofNat (n : ℕ) (x dst src : BitVec w) :
    src + BitVec.ofNat w n + BitVec.ofNat w (x - (dst + BitVec.ofNat w n)).toNat =
      src + (x - dst) := by
  rw [BitVec.ofNat_toNat, BitVec.setWidth_eq, ← BitVec.sub_sub, BitVec.add_assoc,
    BitVec.add_comm (BitVec.ofNat w n), BitVec.sub_add_cancel]

/-- One more word is copied. It has not been overwritten. -/
theorem copied_step (m : Mem w) {dst src : BitVec w} {n : ℕ} (hn : n + 4 ≤ 2 ^ w)
    (hsrc : ∀ i < n + 4, n ≤ (src + BitVec.ofNat w i - dst).toNat) :
    store (copied m dst src n) (dst + BitVec.ofNat w n)
      (load (copied m dst src n) (src + BitVec.ofNat w n)) = copied m dst src (n + 4) := by
  funext x
  unfold store
  by_cases hx : n ≤ (x - dst).toNat ∧ (x - dst).toNat < n + 4
  · have hword := (toNat_sub_add_lt hn x dst).mpr hx
    have hsrcx : ¬ (src + (x - dst) - dst).toNat < n := by
      have h := hsrc (x - dst).toNat hx.2
      rw [BitVec.ofNat_toNat, BitVec.setWidth_eq] at h
      omega
    rw [if_pos hword, extractLsb'_load _ _ hword, add_sub_ofNat]
    unfold copied
    rw [if_neg hsrcx, if_pos hx.2]
  · rw [if_neg (mt (toNat_sub_add_lt hn x dst).mp hx)]
    unfold copied
    have hiff : (x - dst).toNat < n ↔ (x - dst).toNat < n + 4 := by omega
    simp only [hiff]

/-- One more word is filled. -/
theorem filled_step (m : Mem w) (dst : BitVec w) {n : ℕ} (hn : n + 4 ≤ 2 ^ w) :
    store (filled m dst n) (dst + BitVec.ofNat w n) 0 = filled m dst (n + 4) := by
  funext x
  unfold store
  by_cases hx : n ≤ (x - dst).toNat ∧ (x - dst).toNat < n + 4
  · rw [if_pos ((toNat_sub_add_lt hn x dst).mpr hx)]
    unfold filled
    rw [if_pos hx.2]
    simp
  · rw [if_neg (mt (toNat_sub_add_lt hn x dst).mp hx)]
    unfold filled
    have hiff : (x - dst).toNat < n ↔ (x - dst).toNat < n + 4 := by omega
    simp only [hiff]

end StepperSynth.Common
