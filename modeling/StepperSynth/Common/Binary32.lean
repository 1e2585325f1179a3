import Mathlib

/-!
# Single precision arithmetic

Lean's `Float32` has a logical model: a bit pattern, unpacked, computed with and
packed again. For positive normal numbers this module says what multiplication,
division and conversion to an integer do to the values.

* `Describes`: what the residual bits of the rounding mean, kept by a shift.
* `unpack_pack`: packing a normal number loses nothing.
* `round_spec`: rounding to nearest has a relative error of at most `2 ^ -24`, and
  the digits do not depend on the exponent.
* `mul_spec`, `div_spec`, `toUInt32_spec`: the operations on values.
* `mul_scale`, `div_scale`: a factor of a power of 2 goes through unrounded.
* `Near`, `Near.mul`, `Near.div`: relative errors of a computation.
-/

open Float.Model Float.Model.UnpackedFloat

namespace StepperSynth.Common.Binary32

/-! ## Residual bits -/

/-- The mantissa is the integer part of `t`, the round bit tells whether the rest
    is a half or more, and the sticky bit whether `2 * t` is not an integer. -/
structure Describes (em : ExtendedMantissa) (t : ℝ) : Prop where
  le : (em.mantissa : ℝ) ≤ t
  lt : t < em.mantissa + 1
  round : em.roundBit = true ↔ em.mantissa + 1 / 2 ≤ t
  sticky : em.stickyBit = false ↔ ∃ k : ℤ, 2 * t = k

namespace Describes

variable {em : ExtendedMantissa} {t : ℝ}

/-- A number between two integers that are one apart is the lower one. -/
theorem eq_of_between {k m : ℤ} {t : ℝ} (hk : t = k) (hle : m ≤ t) (hlt : t < m + 1) : k = m := by
  rw [hk] at hle hlt
  have h1 : m ≤ k := by exact_mod_cast hle
  have h2 : k < m + 1 := by exact_mod_cast hlt
  omega

/-- Both residual bits are clear iff the number is an integer. -/
theorem exact_iff (h : Describes em t) :
    (em.roundBit || em.stickyBit) = false ↔ ∃ k : ℤ, t = k := by
  have hle := h.le
  have hlt := h.lt
  rw [Bool.or_eq_false_iff]
  constructor
  · rintro ⟨hr, hs⟩
    obtain ⟨k, hk⟩ := h.sticky.mp hs
    have hhalf : t < em.mantissa + 1 / 2 := by
      by_contra hc
      rw [h.round.mpr (not_lt.mp hc)] at hr
      cases hr
    have hk' : k = 2 * em.mantissa :=
      eq_of_between hk (by push_cast; linarith) (by push_cast; linarith)
    refine ⟨em.mantissa, ?_⟩
    rw [hk'] at hk
    push_cast at hk ⊢
    linarith
  · rintro ⟨k, rfl⟩
    have hk : k = em.mantissa := eq_of_between rfl (by exact_mod_cast hle) (by exact_mod_cast hlt)
    refine ⟨?_, h.sticky.mpr ⟨2 * k, by push_cast; ring⟩⟩
    rw [Bool.eq_false_iff, Ne, h.round, hk]
    push_cast
    linarith

theorem shiftRightOne (h : Describes em t) : Describes em.shiftRightOne (t / 2) := by
  have hle := h.le
  have hlt := h.lt
  have hdiv : (em.mantissa : ℝ) = 2 * (em.mantissa / 2 : ℕ) + (em.mantissa % 2 : ℕ) := by
    exact_mod_cast (Nat.div_add_mod em.mantissa 2).symm
  have hsticky : em.shiftRightOne.stickyBit = false ↔ ∃ k : ℤ, 2 * (t / 2) = k := by
    rw [mul_div_cancel₀ t two_ne_zero]
    exact h.exact_iff
  have hround : em.shiftRightOne.roundBit = (em.mantissa % 2 != 0) := rfl
  have hmantissa : em.shiftRightOne.mantissa = em.mantissa / 2 := rfl
  generalize em.mantissa / 2 = half at hdiv hmantissa
  rcases Nat.mod_two_eq_zero_or_one em.mantissa with h0 | h0
  · rw [h0] at hdiv hround
    push_cast at hdiv
    refine ⟨?_, ?_, ?_, hsticky⟩
    · rw [hmantissa]; linarith
    · rw [hmantissa]; linarith
    · rw [hmantissa, hround]
      exact ⟨nofun, fun hc => by linarith⟩
  · rw [h0] at hdiv hround
    push_cast at hdiv
    refine ⟨?_, ?_, ?_, hsticky⟩
    · rw [hmantissa]; linarith
    · rw [hmantissa]; linarith
    · rw [hmantissa, hround]
      exact ⟨fun _ => by linarith, fun _ => rfl⟩

theorem shiftRight (h : Describes em t) (n : ℕ) : Describes (em >>> n) (t / 2 ^ n) := by
  show Describes (n.repeat ExtendedMantissa.shiftRightOne em) _
  induction n with
  | zero => simpa [Nat.repeat] using h
  | succ n ih =>
    rw [pow_succ, ← div_div]
    exact ih.shiftRightOne

/-- Rounding to nearest is off by at most a half. -/
theorem roundedMantissa (h : Describes em t) : |(em.roundedMantissa : ℝ) - t| ≤ 1 / 2 ∧
    em.mantissa ≤ em.roundedMantissa ∧ em.roundedMantissa ≤ em.mantissa + 1 := by
  obtain ⟨m, r, s⟩ := em
  obtain ⟨hle, hlt, hround, hsticky⟩ := h
  simp only at hle hlt hround hsticky ⊢
  cases r with
  | false =>
    have hhalf : t < m + 1 / 2 := by
      by_contra hc
      exact absurd (hround.mpr (not_lt.mp hc)) (by decide)
    have hm : ExtendedMantissa.roundedMantissa ⟨m, false, s⟩ = m := by cases s <;> rfl
    rw [hm, abs_le]
    refine ⟨⟨by linarith, by linarith⟩, le_rfl, Nat.le_succ m⟩
  | true =>
    have hhalf := hround.mp rfl
    cases s with
    | true =>
      have hm : ExtendedMantissa.roundedMantissa ⟨m, true, true⟩ = m + 1 := rfl
      rw [hm, abs_le]
      push_cast
      refine ⟨⟨by linarith, by linarith⟩, Nat.le_succ m, le_rfl⟩
    | false =>
      -- a tie
      have hm : ExtendedMantissa.roundedMantissa ⟨m, true, false⟩ = m + m % 2 := rfl
      obtain ⟨k, hk⟩ := hsticky.mp rfl
      have hk' : k = 2 * m + 1 := eq_of_between hk (by push_cast; linarith) (by push_cast; linarith)
      rw [hk'] at hk
      rw [hm, abs_le]
      push_cast at hk ⊢
      rcases Nat.mod_two_eq_zero_or_one m with h0 | h0
      · rw [h0]
        refine ⟨⟨by push_cast; linarith, by push_cast; linarith⟩, by omega, by omega⟩
      · rw [h0]
        refine ⟨⟨by push_cast; linarith, by push_cast; linarith⟩, by omega, by omega⟩

/-- An integer part and a fraction, given the residual bits of the fraction. -/
theorem of_fraction {m : ℕ} {r s : Bool} {f : ℝ} (h0 : 0 ≤ f) (h1 : f < 1)
    (hr : r = true ↔ 1 / 2 ≤ f) (hs : s = false ↔ f = 0 ∨ f = 1 / 2) :
    Describes ⟨m, r, s⟩ (m + f) where
  le := by show (m : ℝ) ≤ m + f; linarith
  lt := by show (m : ℝ) + f < m + 1; linarith
  round := by
    rw [hr]
    show 1 / 2 ≤ f ↔ (m : ℝ) + 1 / 2 ≤ m + f
    constructor <;> intro h <;> linarith
  sticky := by
    rw [hs]
    constructor
    · rintro (rfl | rfl)
      · exact ⟨2 * m, by push_cast; ring⟩
      · exact ⟨2 * m + 1, by push_cast; ring⟩
    · rintro ⟨k, hk⟩
      rcases lt_or_ge f (1 / 2) with hf | hf
      · have hk' : k = 2 * m := eq_of_between hk (by push_cast; linarith) (by push_cast; linarith)
        rw [hk'] at hk
        push_cast at hk
        left
        linarith
      · have hk' : k = 2 * m + 1 :=
          eq_of_between hk (by push_cast; linarith) (by push_cast; linarith)
        rw [hk'] at hk
        push_cast at hk
        right
        linarith

/-- The accuracy of an exact result. -/
theorem exact (m : ℕ) : Describes (.ofMantissaAndAccuracy m .exact) m := by
  have h : Describes ⟨m, false, false⟩ (m + 0) :=
    of_fraction le_rfl zero_lt_one ⟨nofun, fun h => by norm_num at h⟩
      ⟨fun _ => Or.inl rfl, fun _ => rfl⟩
  rwa [add_zero] at h

/-- The accuracy of a quotient. -/
theorem fraction (m : ℕ) {num den : ℕ} (h : num < den) :
    Describes (.ofMantissaAndAccuracy m (accuracyOfFraction num den)) (m + num / den) := by
  have hden : (0 : ℝ) < den := by exact_mod_cast Nat.zero_lt_of_lt h
  have hlt : (num : ℝ) / den < 1 := (div_lt_one hden).mpr (by exact_mod_cast h)
  unfold accuracyOfFraction
  by_cases h0 : num = 0
  · rw [if_pos h0, h0]
    simpa using exact m
  · have hpos : (0 : ℝ) < num / den := div_pos (by exact_mod_cast Nat.pos_of_ne_zero h0) hden
    have hcmp : 2 * num = den ∨ 2 * num < den ∨ den < 2 * num := by omega
    rw [if_neg h0]
    rcases hcmp with hcmp | hcmp | hcmp
    · have hf : (num : ℝ) / den = 1 / 2 := by
        rw [div_eq_div_iff hden.ne' two_ne_zero, one_mul]
        exact_mod_cast (by omega : num * 2 = den)
      rw [Nat.compare_eq_eq.mpr hcmp, hf]
      exact of_fraction (by norm_num) (by norm_num) ⟨fun _ => le_rfl, fun _ => rfl⟩
        ⟨fun _ => Or.inr rfl, fun _ => rfl⟩
    · have hf : (num : ℝ) / den < 1 / 2 := by
        rw [div_lt_div_iff₀ hden two_pos, one_mul]
        exact_mod_cast (by omega : num * 2 < den)
      rw [Nat.compare_eq_lt.mpr hcmp]
      refine of_fraction hpos.le hlt ⟨nofun, fun hle => by linarith⟩ ⟨nofun, fun heq => ?_⟩
      rcases heq with heq | heq <;> linarith
    · have hf : 1 / 2 < (num : ℝ) / den := by
        rw [div_lt_div_iff₀ two_pos hden, one_mul]
        exact_mod_cast (by omega : den < num * 2)
      rw [Nat.compare_eq_gt.mpr hcmp]
      refine of_fraction hpos.le hlt ⟨fun _ => hf.le, fun _ => rfl⟩ ⟨nofun, fun heq => ?_⟩
      rcases heq with heq | heq <;> linarith

end Describes

/-! ## Normal numbers -/

/-- `x` is the positive normal number `m * 2 ^ e`. -/
structure Normal (x : Float32) (m : ℕ) (e : ℤ) : Prop where
  unpack : ∃ h, x.toModel.unpack = .finite .positive m e h
  le : 2 ^ 23 ≤ m
  lt : m < 2 ^ 24

/-- The mantissa as it is unpacked: the implicit bit in front. -/
theorem toNat_implicit {f : ℕ} (hf : f < 2 ^ 23) :
    (1#1 ++ BitVec.ofNat 23 (2 ^ 23 + f)).toNat = 2 ^ 23 + f := by
  have hlow : (BitVec.ofNat 23 (2 ^ 23 + f)).toNat = f := by
    rw [BitVec.toNat_ofNat]
    omega
  rw [BitVec.toNat_append, ← Nat.shiftLeft_add_eq_or_of_lt (BitVec.isLt _), hlow]
  rfl

theorem unpackSign_packComponents (e : BitVec 8) (m : BitVec 23) :
    unpackSign (packComponents Format.binary32 .positive e m) = 0#1 := by
  apply BitVec.eq_of_getLsbD_eq
  intro i hi
  obtain rfl : i = 0 := by omega
  have htop : (0#1 ++ e ++ m).getLsbD 31 = false := by
    rw [BitVec.getLsbD_append, BitVec.getLsbD_append]
    rfl
  unfold unpackSign packComponents
  rw [BitVec.getLsbD_cast, BitVec.getLsbD_extractLsb]
  exact (congrArg (_ && ·) htop).trans (Bool.and_false _)

/-- A normal number packed: `b` is its biased exponent. -/
theorem pack_normal {m b : ℕ} (h : 0 < m) (hm : 2 ^ 23 ≤ m ∧ m < 2 ^ 24) (hb : b < 255) :
    UnpackedFloat.pack Format.binary32 (.finite .positive m ((b : ℤ) - 150) h) =
      packComponents Format.binary32 .positive (BitVec.ofNat 8 b) (BitVec.ofNat 23 m) := by
  have hlog : m.log2 = 23 := (Nat.log2_eq_iff (by omega)).mpr ⟨hm.1, hm.2⟩
  have hbias : ((b : ℤ) - 150 + Format.binary32.exponentBias +
      Format.binary32.mantissaBitsWithoutImplicit).toNat = b := by
    show ((b : ℤ) - 150 + (127 : ℕ) + (23 : ℕ)).toNat = b
    omega
  unfold UnpackedFloat.pack
  simp only [hbias, hlog]
  rw [if_neg (by show ¬ 2 ^ 8 ≤ b + 1; omega)]
  exact if_pos rfl

/-- Packing a normal number whose exponent fits loses nothing. -/
theorem unpack_pack {m : ℕ} {e : ℤ} (h : 0 < m) (hm : 2 ^ 23 ≤ m ∧ m < 2 ^ 24)
    (he : -149 ≤ e ∧ e ≤ 104) :
    (Float32.Model.pack (.finite .positive m e h)).unpack = .finite .positive m e h := by
  obtain ⟨b, rfl⟩ : ∃ b : ℕ, e = (b : ℤ) - 150 := ⟨(e + 150).toNat, by omega⟩
  obtain ⟨f, rfl⟩ : ∃ f : ℕ, m = 2 ^ 23 + f := ⟨m - 2 ^ 23, by omega⟩
  have hexp : (BitVec.ofNat 8 b).toNat = b := by
    rw [BitVec.toNat_ofNat]
    omega
  have hinf : ¬ BitVec.ofNat 8 b = -1#8 := fun heq => by
    have hval := congrArg BitVec.toNat heq
    have h255 : (-1#8 : BitVec 8).toNat = 255 := rfl
    omega
  have hzero : ¬ BitVec.ofNat 8 b = 0#8 := fun heq => by
    have hval := congrArg BitVec.toNat heq
    rw [hexp, BitVec.toNat_zero] at hval
    omega
  show UnpackedFloat.unpack Format.binary32 (UnpackedFloat.pack Format.binary32 _) = _
  rw [pack_normal h hm (by omega)]
  unfold UnpackedFloat.unpack
  simp only [unpackMantissa_packComponents, unpackExponent_packComponents]
  rw [if_neg hinf, if_neg hzero, unpackSign_packComponents, UnpackedFloat.finite.injEq, hexp]
  exact ⟨rfl, toNat_implicit (by omega), rfl⟩

/-! ## Rounding -/

/-- The exponent of a mantissa of `24` bits or more, cut down to 24 bits. -/
theorem targetExponent_eq {m : ℕ} {e : ℤ} {k : ℕ} (hm : 2 ^ (23 + k) ≤ m ∧ m < 2 ^ (24 + k))
    (he : -149 ≤ e + k) : Format.binary32.targetExponent (totalExponent m e) = e + k := by
  have hlog : m.log2 = 23 + k := by
    rw [Nat.log2_eq_iff (by have := Nat.two_pow_pos (23 + k); omega)]
    exact ⟨hm.1, hm.2.trans_eq (by ring)⟩
  show max ((m.log2 : ℤ) + 1 + e - (24 : ℕ)) (-149) = e + k
  rw [hlog]
  push_cast
  omega

theorem shiftToTargetExponent_eq {m : ℕ} {e : ℤ} {k : ℕ} (acc : Accuracy)
    (hm : 2 ^ (23 + k) ≤ m ∧ m < 2 ^ (24 + k)) (he : -149 ≤ e + k) :
    shiftToTargetExponent Format.binary32 m e acc =
      (ExtendedMantissa.ofMantissaAndAccuracy m acc >>> k, e + k) := by
  unfold shiftToTargetExponent shiftToExponent
  have hk : (e + k - e).toNat = k := by omega
  simp only [targetExponent_eq hm he, hk]

/-- A mantissa that describes a number of 24 binary digits. -/
theorem Describes.bounds {em : ExtendedMantissa} {t : ℝ} (h : Describes em t)
    (hlo : 2 ^ 23 ≤ t) (hhi : t < 2 ^ 24) : 2 ^ 23 ≤ em.mantissa ∧ em.mantissa < 2 ^ 24 := by
  have hle := h.le
  have hlt := h.lt
  constructor
  · have : ((2 ^ 23 : ℕ) : ℝ) < ((em.mantissa + 1 : ℕ) : ℝ) := by push_cast; linarith
    exact Nat.lt_succ_iff.mp (by exact_mod_cast this)
  · have : (em.mantissa : ℝ) < ((2 ^ 24 : ℕ) : ℝ) := by push_cast; linarith
    exact_mod_cast this

/-- Rounding may carry into a 25th digit, which is then 0. -/
theorem renormalize {r : ℕ} (hr : 2 ^ 23 ≤ r ∧ r ≤ 2 ^ 24) :
    ∃ m d : ℕ, (2 ^ 23 ≤ m ∧ m < 2 ^ 24) ∧ d ≤ 1 ∧ m * 2 ^ d = r ∧ ∀ E : ℤ, -149 ≤ E →
      shiftToTargetExponent Format.binary32 r E .exact = (⟨m, false, false⟩, E + d) := by
  rcases hr.2.lt_or_eq with hlt | rfl
  · refine ⟨r, 0, ⟨hr.1, hlt⟩, zero_le_one, mul_one r, fun E hE => ?_⟩
    rw [shiftToTargetExponent_eq (k := 0) .exact ⟨hr.1, hlt⟩ (by simpa using hE)]
    rfl
  · refine ⟨2 ^ 23, 1, ⟨le_rfl, by norm_num⟩, le_rfl, by norm_num, fun E hE => ?_⟩
    rw [shiftToTargetExponent_eq (k := 1) .exact ⟨le_rfl, by norm_num⟩ (by push_cast; omega)]
    rfl

theorem mantissa_ofMantissaAndAccuracy (m : ℕ) (acc : Accuracy) :
    (ExtendedMantissa.ofMantissaAndAccuracy m acc).mantissa = m := by
  cases acc with
  | exact => rfl
  | inexact o => cases o <;> rfl

/-- A mantissa of `24 + k` digits is rounded to 24, or to the next power of 2. -/
theorem roundWithAccuracy_eq {m k : ℕ} {acc : Accuracy} {t : ℝ}
    (hm : 2 ^ (23 + k) ≤ m ∧ m < 2 ^ (24 + k))
    (ht : Describes (.ofMantissaAndAccuracy m acc) t) :
    ∃ (m' d : ℕ) (h : 0 < m'), (2 ^ 23 ≤ m' ∧ m' < 2 ^ 24) ∧ d ≤ 1 ∧
      |(m' : ℝ) * 2 ^ d - t / 2 ^ k| ≤ 1 / 2 ∧
      ∀ e : ℤ, -149 ≤ e + k → roundWithAccuracy Format.binary32 .positive m e acc =
        .finite .positive m' (e + k + d) h := by
  have hk : (0 : ℝ) < 2 ^ k := pow_pos two_pos k
  have hle := ht.le
  have hlt := ht.lt
  rw [mantissa_ofMantissaAndAccuracy] at hle hlt
  have hlo : (2 : ℝ) ^ 23 ≤ t / 2 ^ k := by
    rw [le_div_iff₀ hk, ← pow_add]
    exact le_trans (by exact_mod_cast hm.1) hle
  have hhi : t / 2 ^ k < 2 ^ 24 := by
    have hsucc : ((m + 1 : ℕ) : ℝ) ≤ 2 ^ (24 + k) := by exact_mod_cast hm.2
    rw [div_lt_iff₀ hk, ← pow_add]
    push_cast at hsucc
    linarith
  have hd := ht.shiftRight k
  obtain ⟨herr, hge, hle'⟩ := hd.roundedMantissa
  have hbounds := hd.bounds hlo hhi
  obtain ⟨m', d, hm', hd1, hval, hshift⟩ := renormalize (r := ExtendedMantissa.roundedMantissa
    (ExtendedMantissa.ofMantissaAndAccuracy m acc >>> k)) ⟨hbounds.1.trans hge, by omega⟩
  have hpos : 0 < m' := by omega
  refine ⟨m', d, hpos, hm', hd1, ?_, fun e he => ?_⟩
  · rw [← hval] at herr
    exact_mod_cast herr
  · unfold roundWithAccuracy
    simp only [shiftToTargetExponent_eq acc hm he, hshift _ he]
    exact dif_neg hpos.ne'

/-- `x` is positive, normal, and its value is `v`. -/
def HasValue (x : Float32) (v : ℝ) : Prop := ∃ m e, Normal x m e ∧ v = m * 2 ^ e

theorem HasValue.pos {x : Float32} {v : ℝ} (h : HasValue x v) : 0 < v := by
  obtain ⟨m, e, hx, rfl⟩ := h
  have hm : 0 < m := by have := hx.le; omega
  exact mul_pos (by exact_mod_cast hm) (zpow_pos two_pos _)

theorem HasValue.unique {x : Float32} {v w : ℝ} (h : HasValue x v) (h' : HasValue x w) : v = w := by
  obtain ⟨m, e, ⟨⟨_, hx⟩, -, -⟩, rfl⟩ := h
  obtain ⟨m', e', ⟨⟨_, hx'⟩, -, -⟩, rfl⟩ := h'
  rw [hx] at hx'
  injection hx' with _ hm he
  rw [hm, he]

/-- The numbers at least a factor of 2 away from both ends of the normal range. -/
def InRange (q : ℝ) : Prop := 2 ^ (-125 : ℤ) ≤ q ∧ q < 2 ^ (127 : ℤ)

/-- Rounding to nearest: the result `v` for `t` has a relative error of at most
    `2 ^ -24`, and that for `t * 2 ^ e` is `v * 2 ^ e`. -/
theorem round_spec {m : ℕ} {acc : Accuracy} {t : ℝ} (hm : 2 ^ 23 ≤ m)
    (ht : Describes (.ofMantissaAndAccuracy m acc) t) :
    ∃ v, |v - t| ≤ 2 ^ (-24 : ℤ) * t ∧ ∀ e : ℤ, InRange (t * 2 ^ e) →
      HasValue ⟨.pack (roundWithAccuracy Format.binary32 .positive m e acc)⟩ (v * 2 ^ e) := by
  obtain ⟨k, hk⟩ : ∃ k, m.log2 = 23 + k := by
    have := (Nat.le_log2 (by omega)).mpr hm
    exact ⟨m.log2 - 23, by omega⟩
  obtain ⟨hlo, hhi⟩ := (Nat.log2_eq_iff (by omega)).mp hk
  have hhi : m < 2 ^ (24 + k) := hhi.trans_eq (by ring)
  obtain ⟨m', d, h', hm', hd, herr, hround⟩ := roundWithAccuracy_eq ⟨hlo, hhi⟩ ht
  have hle := ht.le
  have hlt := ht.lt
  rw [mantissa_ofMantissaAndAccuracy] at hle hlt
  -- `2 ^ (23 + k) ≤ t < 2 ^ (24 + k)`
  have htlo : (2 : ℝ) ^ (23 + k) ≤ t := le_trans (by exact_mod_cast hlo) hle
  have hthi : t < 2 ^ (24 + k) := by
    have hsucc : ((m + 1 : ℕ) : ℝ) ≤ 2 ^ (24 + k) := by exact_mod_cast hhi
    push_cast at hsucc
    linarith
  have hk0 : (0 : ℝ) < 2 ^ k := pow_pos two_pos k
  refine ⟨m' * 2 ^ d * 2 ^ k, ?_, fun e hr => ?_⟩
  · have hscale : (m' : ℝ) * 2 ^ d * 2 ^ k - t = (m' * 2 ^ d - t / 2 ^ k) * 2 ^ k := by
      rw [sub_mul, div_mul_cancel₀ t hk0.ne']
    have hulp : (1 : ℝ) / 2 * 2 ^ k = 2 ^ (-24 : ℤ) * 2 ^ (23 + k) := by
      rw [pow_add]
      norm_num
      ring
    rw [hscale, abs_mul, abs_of_pos hk0]
    calc |(m' : ℝ) * 2 ^ d - t / 2 ^ k| * 2 ^ k ≤ 1 / 2 * 2 ^ k :=
          mul_le_mul_of_nonneg_right herr hk0.le
      _ = 2 ^ (-24 : ℤ) * 2 ^ (23 + k) := hulp
      _ ≤ 2 ^ (-24 : ℤ) * t := mul_le_mul_of_nonneg_left htlo (zpow_pos two_pos _).le
  · have he0 : (0 : ℝ) < 2 ^ e := zpow_pos two_pos _
    have hmin : -149 ≤ e + k := by
      have hlt : (2 : ℝ) ^ (-125 : ℤ) < 2 ^ ((24 + k : ℕ) + e : ℤ) := by
        rw [zpow_add₀ two_ne_zero, zpow_natCast]
        exact lt_of_le_of_lt hr.1 (mul_lt_mul_of_pos_right hthi he0)
      have := (zpow_lt_zpow_iff_right₀ one_lt_two).mp hlt
      omega
    have hmax : e + k ≤ 103 := by
      have hlt : (2 : ℝ) ^ ((23 + k : ℕ) + e : ℤ) < 2 ^ (127 : ℤ) := by
        rw [zpow_add₀ two_ne_zero, zpow_natCast]
        exact lt_of_le_of_lt (mul_le_mul_of_nonneg_right htlo he0.le) hr.2
      have := (zpow_lt_zpow_iff_right₀ one_lt_two).mp hlt
      omega
    refine ⟨m', e + k + d, ⟨⟨h', ?_⟩, hm'.1, hm'.2⟩, ?_⟩
    · rw [hround e hmin]
      exact unpack_pack h' hm' (by omega)
    · rw [zpow_add₀ two_ne_zero, zpow_add₀ two_ne_zero, zpow_natCast, zpow_natCast]
      ring

/-! ## The operations -/

section Operations

variable {x x' y y' : Float32} {m₁ m₂ : ℕ} {e₁ e₂ : ℤ}

theorem mul_eq (hx : Normal x m₁ e₁) (hy : Normal y m₂ e₂) :
    x * y = ⟨.pack (roundWithAccuracy Format.binary32 .positive (m₁ * m₂) (e₁ + e₂) .exact)⟩ := by
  obtain ⟨h₁, hx⟩ := hx.unpack
  obtain ⟨h₂, hy⟩ := hy.unpack
  show Float32.ofModel (.pack (UnpackedFloat.mul Format.binary32 x.toModel.unpack
    y.toModel.unpack)) = _
  rw [hx, hy]
  rfl

/-- The digits of a product depend on the digits of the factors only. -/
theorem mul_digits (m₁ m₂ : ℕ) (hm₁ : 2 ^ 23 ≤ m₁) (hm₂ : 2 ^ 23 ≤ m₂) :
    ∃ v : ℝ, |v - m₁ * m₂| ≤ 2 ^ (-24 : ℤ) * (m₁ * m₂) ∧
      ∀ x y e₁ e₂, Normal x m₁ e₁ → Normal y m₂ e₂ → InRange (m₁ * m₂ * 2 ^ (e₁ + e₂)) →
        HasValue (x * y) (v * 2 ^ (e₁ + e₂)) := by
  obtain ⟨v, herr, hv⟩ := round_spec (by nlinarith) (Describes.exact (m₁ * m₂))
  push_cast at herr hv
  refine ⟨v, herr, fun x y e₁ e₂ hx hy hr => ?_⟩
  rw [mul_eq hx hy]
  exact hv _ hr

/-- The digits of the quotient `m₁ / m₂`, of which 24 or 25 are kept. -/
theorem divCore_eq (hm₁ : 2 ^ 23 ≤ m₁ ∧ m₁ < 2 ^ 24) (hm₂ : 2 ^ 23 ≤ m₂ ∧ m₂ < 2 ^ 24)
    (he : -125 ≤ e₁ - e₂) : divCore Format.binary32 m₁ e₁ m₂ e₂ =
      (m₁ * 2 ^ 24 / m₂, e₁ - e₂ - 24, accuracyOfFraction (m₁ * 2 ^ 24 % m₂) m₂) := by
  have hlog : ∀ m : ℕ, 2 ^ 23 ≤ m ∧ m < 2 ^ 24 → m.log2 = 23 := fun m hm =>
    (Nat.log2_eq_iff (by omega)).mpr hm
  have htarget : min (e₁ - e₂) (Format.binary32.targetExponent
      (totalExponent m₁ e₁ - totalExponent m₂ e₂)) = e₁ - e₂ - 24 := by
    show min (e₁ - e₂) (max ((m₁.log2 + 1 + e₁ : ℤ) - (m₂.log2 + 1 + e₂) - (24 : ℕ)) (-149)) = _
    rw [hlog m₁ hm₁, hlog m₂ hm₂]
    push_cast
    omega
  have hshift : (e₁ - e₂ - (e₁ - e₂ - 24)).toNat = 24 := by omega
  unfold divCore
  simp only [htarget, hshift, Nat.shiftLeft_eq]

/-- A quotient in range comes from exponents that are not far apart. -/
theorem le_sub_of_inRange (hm₁ : m₁ < 2 ^ 24) (hm₂ : 2 ^ 23 ≤ m₂)
    (hr : InRange ((m₁ : ℝ) / m₂ * 2 ^ (e₁ - e₂))) : -125 ≤ e₁ - e₂ := by
  have hm₂0 : (0 : ℝ) < m₂ := by exact_mod_cast (by omega : 0 < m₂)
  have hlt : (m₁ : ℝ) / m₂ < 2 := by
    rw [div_lt_iff₀ hm₂0]
    exact_mod_cast (by omega : m₁ < 2 * m₂)
  have hpow : (2 : ℝ) ^ (-125 : ℤ) < 2 ^ (1 + (e₁ - e₂)) := by
    rw [zpow_add₀ two_ne_zero, zpow_one]
    exact lt_of_le_of_lt hr.1 (mul_lt_mul_of_pos_right hlt (zpow_pos two_pos _))
  have := (zpow_lt_zpow_iff_right₀ one_lt_two).mp hpow
  omega

theorem div_eq (hx : Normal x m₁ e₁) (hy : Normal y m₂ e₂) (he : -125 ≤ e₁ - e₂) :
    x / y = ⟨.pack (roundWithAccuracy Format.binary32 .positive (m₁ * 2 ^ 24 / m₂)
      (e₁ - e₂ - 24) (accuracyOfFraction (m₁ * 2 ^ 24 % m₂) m₂))⟩ := by
  have hcore := divCore_eq ⟨hx.le, hx.lt⟩ ⟨hy.le, hy.lt⟩ he
  obtain ⟨h₁, hx⟩ := hx.unpack
  obtain ⟨h₂, hy⟩ := hy.unpack
  show Float32.ofModel (.pack (UnpackedFloat.div Format.binary32 x.toModel.unpack
    y.toModel.unpack)) = _
  rw [hx, hy]
  unfold UnpackedFloat.div
  simp only [hcore]
  rfl

/-- The digits of a quotient depend on the digits of its operands only. -/
theorem div_digits (m₁ m₂ : ℕ) (hm₁ : 2 ^ 23 ≤ m₁ ∧ m₁ < 2 ^ 24)
    (hm₂ : 2 ^ 23 ≤ m₂ ∧ m₂ < 2 ^ 24) :
    ∃ v : ℝ, |v - m₁ / m₂| ≤ 2 ^ (-24 : ℤ) * (m₁ / m₂) ∧
      ∀ x y e₁ e₂, Normal x m₁ e₁ → Normal y m₂ e₂ → InRange (m₁ / m₂ * 2 ^ (e₁ - e₂)) →
        HasValue (x / y) (v * 2 ^ (e₁ - e₂)) := by
  have hm₂0 : (0 : ℝ) < m₂ := by exact_mod_cast (by omega : 0 < m₂)
  have hquot : 2 ^ 23 ≤ m₁ * 2 ^ 24 / m₂ := by
    rw [Nat.le_div_iff_mul_le (by omega)]
    nlinarith
  have hval : ((m₁ * 2 ^ 24 / m₂ : ℕ) : ℝ) + ((m₁ * 2 ^ 24 % m₂ : ℕ) : ℝ) / m₂ =
      m₁ / m₂ * 2 ^ 24 := by
    have hmod : ((m₁ * 2 ^ 24 / m₂ : ℕ) : ℝ) * m₂ + ((m₁ * 2 ^ 24 % m₂ : ℕ) : ℝ) =
        m₁ * 2 ^ 24 := by exact_mod_cast Nat.div_add_mod' (m₁ * 2 ^ 24) m₂
    rw [← mul_left_inj' hm₂0.ne', add_mul, div_mul_cancel₀ _ hm₂0.ne', hmod]
    field_simp
  have hd := Describes.fraction (m₁ * 2 ^ 24 / m₂) (Nat.mod_lt (m₁ * 2 ^ 24) (by omega : 0 < m₂))
  rw [hval] at hd
  obtain ⟨v, herr, hv⟩ := round_spec hquot hd
  have h24 : ∀ (u : ℝ) (e : ℤ), u * 2 ^ 24 * 2 ^ (e - 24) = u * 2 ^ e := by
    intro u e
    rw [zpow_sub₀ two_ne_zero]
    field_simp
  refine ⟨v / 2 ^ 24, ?_, fun x y e₁ e₂ hx hy hr => ?_⟩
  · have hp : (0 : ℝ) < 2 ^ 24 := by norm_num
    have hsub : v / 2 ^ 24 - m₁ / m₂ = (v - m₁ / m₂ * 2 ^ 24) / 2 ^ 24 := by
      rw [sub_div, mul_div_cancel_right₀ _ hp.ne']
    rw [hsub, abs_div, abs_of_pos hp, div_le_iff₀ hp, mul_assoc]
    exact herr
  · rw [div_eq hx hy (le_sub_of_inRange hm₁.2 hm₂.1 hr)]
    have h := hv (e₁ - e₂ - 24) (by rw [h24]; exact hr)
    rwa [← h24, div_mul_cancel₀ v (by norm_num)]

/-- A product: correctly rounded. -/
theorem mul_spec {v w : ℝ} (hx : HasValue x v) (hy : HasValue y w) (hr : InRange (v * w)) :
    ∃ u, HasValue (x * y) u ∧ |u - v * w| ≤ 2 ^ (-24 : ℤ) * (v * w) := by
  obtain ⟨m₁, e₁, hx, rfl⟩ := hx
  obtain ⟨m₂, e₂, hy, rfl⟩ := hy
  obtain ⟨u, herr, hu⟩ := mul_digits m₁ m₂ hx.le hy.le
  have hp : (0 : ℝ) < 2 ^ (e₁ + e₂) := zpow_pos two_pos _
  have hval : (m₁ : ℝ) * 2 ^ e₁ * (m₂ * 2 ^ e₂) = m₁ * m₂ * 2 ^ (e₁ + e₂) := by
    rw [zpow_add₀ two_ne_zero]
    ring
  rw [hval] at hr ⊢
  refine ⟨u * 2 ^ (e₁ + e₂), hu x y e₁ e₂ hx hy hr, ?_⟩
  rw [← sub_mul, abs_mul, abs_of_pos hp, ← mul_assoc]
  exact mul_le_mul_of_nonneg_right herr hp.le

/-- A quotient: correctly rounded. -/
theorem div_spec {v w : ℝ} (hx : HasValue x v) (hy : HasValue y w) (hr : InRange (v / w)) :
    ∃ u, HasValue (x / y) u ∧ |u - v / w| ≤ 2 ^ (-24 : ℤ) * (v / w) := by
  obtain ⟨m₁, e₁, hx, rfl⟩ := hx
  obtain ⟨m₂, e₂, hy, rfl⟩ := hy
  obtain ⟨u, herr, hu⟩ := div_digits m₁ m₂ ⟨hx.le, hx.lt⟩ ⟨hy.le, hy.lt⟩
  have hp : (0 : ℝ) < 2 ^ (e₁ - e₂) := zpow_pos two_pos _
  have hval : (m₁ : ℝ) * 2 ^ e₁ / (m₂ * 2 ^ e₂) = m₁ / m₂ * 2 ^ (e₁ - e₂) := by
    rw [zpow_sub₀ two_ne_zero, mul_div_mul_comm]
  rw [hval] at hr ⊢
  refine ⟨u * 2 ^ (e₁ - e₂), hu x y e₁ e₂ hx hy hr, ?_⟩
  rw [← sub_mul, abs_mul, abs_of_pos hp, ← mul_assoc]
  exact mul_le_mul_of_nonneg_right herr hp.le

/-- A factor of a power of 2 goes through a product. -/
theorem mul_scale {m : ℕ} {e j : ℤ} {v : ℝ} (hx : HasValue x v) (hy : Normal y m e)
    (hy' : Normal y' m (e + j)) (hr : InRange (v * (m * 2 ^ e)))
    (hr' : InRange (v * (m * 2 ^ e) * 2 ^ j)) :
    ∃ u, HasValue (x * y) u ∧ HasValue (x * y') (u * 2 ^ j) := by
  obtain ⟨m₁, e₁, hx, rfl⟩ := hx
  obtain ⟨u, -, hu⟩ := mul_digits m₁ m hx.le hy.le
  have hval : (m₁ : ℝ) * 2 ^ e₁ * (m * 2 ^ e) = m₁ * m * 2 ^ (e₁ + e) := by
    rw [zpow_add₀ two_ne_zero]
    ring
  have hexp : ∀ c : ℝ, c * 2 ^ (e₁ + (e + j)) = c * 2 ^ (e₁ + e) * 2 ^ j := fun c => by
    rw [← add_assoc, zpow_add₀ two_ne_zero _ j, mul_assoc]
  rw [hval] at hr hr'
  refine ⟨u * 2 ^ (e₁ + e), hu x y e₁ e hx hy hr, ?_⟩
  rw [← hexp]
  exact hu x y' e₁ (e + j) hx hy' (by rwa [hexp])

/-- A factor of a power of 2 in the divisor goes through a quotient. -/
theorem div_scale {m : ℕ} {e j : ℤ} {v : ℝ} (hx : HasValue x v) (hy : Normal y m e)
    (hy' : Normal y' m (e + j)) (hr : InRange (v / (m * 2 ^ e)))
    (hr' : InRange (v / (m * 2 ^ e) / 2 ^ j)) :
    ∃ u, HasValue (x / y) u ∧ HasValue (x / y') (u / 2 ^ j) := by
  obtain ⟨m₁, e₁, hx, rfl⟩ := hx
  obtain ⟨u, -, hu⟩ := div_digits m₁ m ⟨hx.le, hx.lt⟩ ⟨hy.le, hy.lt⟩
  have hval : (m₁ : ℝ) * 2 ^ e₁ / (m * 2 ^ e) = m₁ / m * 2 ^ (e₁ - e) := by
    rw [zpow_sub₀ two_ne_zero, mul_div_mul_comm]
  have hexp : ∀ c : ℝ, c * 2 ^ (e₁ - (e + j)) = c * 2 ^ (e₁ - e) / 2 ^ j := fun c => by
    rw [← sub_sub, zpow_sub₀ two_ne_zero _ j, mul_div_assoc]
  rw [hval] at hr hr'
  refine ⟨u * 2 ^ (e₁ - e), hu x y e₁ e hx hy hr, ?_⟩
  rw [← hexp]
  exact hu x y' e₁ (e + j) hx hy' (by rwa [hexp])

/-- Multiplication by a power of 2 is exact. -/
theorem two_pow_mul {m : ℕ} {e : ℤ} (hx : Normal x (2 ^ 23) e₁) (hy : Normal y m e)
    (he : -149 ≤ e₁ + e + 23 ∧ e₁ + e + 23 ≤ 104) : Normal (x * y) m (e₁ + e + 23) := by
  have hm : 2 ^ (23 + 23) ≤ 2 ^ 23 * m ∧ 2 ^ 23 * m < 2 ^ (24 + 23) := by
    have hle := hy.le
    have hlt := hy.lt
    omega
  obtain ⟨m', d, h, hm', hd, herr, hround⟩ := roundWithAccuracy_eq hm (Describes.exact (2 ^ 23 * m))
  have hexact : ((2 ^ 23 * m : ℕ) : ℝ) / 2 ^ 23 = m := by
    rw [div_eq_iff (by norm_num), mul_comm]
    push_cast
    ring
  rw [hexact] at herr
  -- the rounded integer is a half or less from the integer `m`
  have hint : m' * 2 ^ d = m := by
    rw [abs_le] at herr
    have h1 : ((m' * 2 ^ d : ℕ) : ℝ) < ((m + 1 : ℕ) : ℝ) := by push_cast; linarith
    have h2 : ((m : ℕ) : ℝ) < ((m' * 2 ^ d + 1 : ℕ) : ℝ) := by push_cast; linarith
    have h1' : m' * 2 ^ d < m + 1 := by exact_mod_cast h1
    have h2' : m < m' * 2 ^ d + 1 := by exact_mod_cast h2
    omega
  have hd0 : d = 0 := by
    have hlt := hy.lt
    interval_cases d
    · rfl
    · omega
  subst hd0
  rw [pow_zero, mul_one] at hint
  subst hint
  rw [mul_eq hx hy]
  refine ⟨⟨h, ?_⟩, hm'.1, hm'.2⟩
  rw [hround _ (by push_cast; omega)]
  simpa using unpack_pack h hm' he

end Operations

/-- The integer part of a normal number. -/
theorem roundToInt_eq (m : ℕ) (e : ℤ) :
    roundToInt .positive m e = (⌊(m : ℝ) * 2 ^ e⌋₊ : ℤ) := by
  obtain ⟨a, b, rfl, hab⟩ : ∃ a b : ℕ, e = (a : ℤ) - b ∧ (a = 0 ∨ b = 0) :=
    ⟨e.toNat, (-e).toNat, by omega, by omega⟩
  have ha : ((a : ℤ) - b - 0).toNat = a := by omega
  have hb : (0 - ((a : ℤ) - b - a)).toNat = b := by omega
  have hd := (Describes.exact (m * 2 ^ a)).shiftRight b
  have hval : ((m * 2 ^ a : ℕ) : ℝ) / 2 ^ b = (m : ℝ) * 2 ^ ((a : ℤ) - b) := by
    rw [zpow_sub₀ two_ne_zero, zpow_natCast, zpow_natCast]
    push_cast
    ring
  rw [hval] at hd
  have hfloor : ⌊(m : ℝ) * 2 ^ ((a : ℤ) - b)⌋₊ =
      (ExtendedMantissa.ofMantissaAndAccuracy (m * 2 ^ a) .exact >>> b).mantissa :=
    (Nat.floor_eq_iff (le_trans (Nat.cast_nonneg _) hd.le)).mpr ⟨hd.le, hd.lt⟩
  rw [hfloor]
  unfold roundToInt decreaseExponent shiftToExponent
  simp only [ha, hb, Nat.shiftLeft_eq]
  rfl

/-- Conversion to an integer drops the fraction. -/
theorem toUInt32_spec {x : Float32} {v : ℝ} (hx : HasValue x v) (hv : v < 2 ^ 32) :
    x.toUInt32.toNat = ⌊v⌋₊ := by
  obtain ⟨m, e, ⟨⟨h, hx⟩, -, -⟩, rfl⟩ := hx
  have hlt : ⌊(m : ℝ) * 2 ^ e⌋₊ < UInt32.size := by
    rw [Nat.floor_lt (mul_nonneg (Nat.cast_nonneg _) (zpow_pos two_pos _).le)]
    exact_mod_cast hv
  have hto : x.toUInt32 = UInt32.ofNatClamp (roundToInt .positive m e).toNat := by
    show (UnpackedFloat.toUInt32 x.toModel.unpack) = _
    rw [hx]
    rfl
  rw [hto, roundToInt_eq, Int.toNat_natCast]
  unfold UInt32.ofNatClamp
  rw [dif_pos hlt]
  rfl

/-! ## Relative errors -/

/-- `v` is `q` up to a relative error of `ε`. -/
def RelErr (ε v q : ℝ) : Prop := |v - q| ≤ ε * q

section RelErr

variable {ε δ u v w p q : ℝ}

theorem RelErr.mono (h : RelErr ε v q) (hε : ε ≤ δ) (hq : 0 ≤ q) : RelErr δ v q :=
  le_trans h (mul_le_mul_of_nonneg_right hε hq)

theorem relErr_iff : RelErr ε v q ↔ (1 - ε) * q ≤ v ∧ v ≤ (1 + ε) * q := by
  unfold RelErr
  rw [abs_le]
  constructor
  · rintro ⟨h1, h2⟩
    constructor <;> linarith
  · rintro ⟨h1, h2⟩
    constructor <;> linarith

theorem RelErr.trans (h : RelErr ε v q) (h' : RelErr δ u v) (hδ : 0 ≤ δ) :
    RelErr (ε + δ + ε * δ) u q := by
  have hsum : |u - q| ≤ |u - v| + |v - q| := abs_sub_le u v q
  have hv := (relErr_iff.mp h).2
  have hmul : δ * v ≤ δ * ((1 + ε) * q) := mul_le_mul_of_nonneg_left hv hδ
  unfold RelErr at *
  linarith

theorem RelErr.mul (h : RelErr ε v p) (h' : RelErr δ w q) (hp : 0 ≤ p) (hw : 0 ≤ w) (hε : 0 ≤ ε) :
    RelErr (ε + δ + ε * δ) (v * w) (p * q) := by
  have hw' := (relErr_iff.mp h').2
  have hsplit : v * w - p * q = (v - p) * w + p * (w - q) := by ring
  have h1 : |(v - p) * w| ≤ ε * p * ((1 + δ) * q) := by
    rw [abs_mul, abs_of_nonneg hw]
    exact mul_le_mul h hw' hw (mul_nonneg hε hp)
  have h2 : |p * (w - q)| ≤ p * (δ * q) := by
    rw [abs_mul, abs_of_nonneg hp]
    exact mul_le_mul_of_nonneg_left h' hp
  show |v * w - p * q| ≤ _
  rw [hsplit]
  refine (abs_add_le _ _).trans ((add_le_add h1 h2).trans_eq ?_)
  ring

theorem RelErr.inv (h : RelErr δ w q) (hw : 0 < w) (hq : 0 < q) (hδ : δ ≤ 1 / 2) (hδ0 : 0 ≤ δ) :
    RelErr (2 * δ) w⁻¹ q⁻¹ := by
  obtain ⟨h1, h2⟩ := relErr_iff.mp h
  rw [relErr_iff, ← div_eq_mul_inv, ← div_eq_mul_inv, ← one_div, div_le_div_iff₀ hq hw,
    div_le_div_iff₀ hw hq]
  constructor <;> nlinarith

end RelErr

/-- `x` is the positive number `q` up to a relative error of `ε`. -/
def Near (ε : ℝ) (x : Float32) (q : ℝ) : Prop := ∃ v, HasValue x v ∧ RelErr ε v q

/-- Twice as far from the ends as `InRange`. -/
def WellInRange (q : ℝ) : Prop := 2 ^ (-124 : ℤ) ≤ q ∧ q ≤ 2 ^ (126 : ℤ)

theorem RelErr.inRange {ε v q : ℝ} (h : RelErr ε v q) (hε : ε ≤ 1 / 2) (hq : WellInRange q) :
    InRange v := by
  have hpos : 0 < q := lt_of_lt_of_le (zpow_pos two_pos _) hq.1
  obtain ⟨h1, h2⟩ := relErr_iff.mp (h.mono hε hpos.le)
  have hlo : (2 : ℝ) ^ (-124 : ℤ) = 2 * 2 ^ (-125 : ℤ) := by norm_num
  have hhi : (2 : ℝ) ^ (127 : ℤ) = 2 * 2 ^ (126 : ℤ) := by norm_num
  obtain ⟨hq1, hq2⟩ := hq
  rw [hlo] at hq1
  constructor
  · linarith
  · rw [hhi]
    linarith

section Near

variable {x y : Float32} {ε δ p q : ℝ}

theorem Near.mono (h : Near ε x q) (hε : ε ≤ δ) (hq : 0 ≤ q) : Near δ x q := by
  obtain ⟨v, hv, herr⟩ := h
  exact ⟨v, hv, herr.mono hε hq⟩

/-- The error of a product. -/
theorem Near.mul (hx : Near ε x p) (hy : Near δ y q) (hp : 0 ≤ p) (hε : 0 ≤ ε)
    (hsmall : ε + δ + ε * δ ≤ 1 / 2) (hr : WellInRange (p * q)) :
    Near (ε + δ + ε * δ + 2 ^ (-23 : ℤ)) (x * y) (p * q) := by
  obtain ⟨v, hv, hverr⟩ := hx
  obtain ⟨w, hw, hwerr⟩ := hy
  have hvw := hverr.mul hwerr hp hw.pos.le hε
  obtain ⟨u, hu, huerr⟩ := mul_spec hv hw (hvw.inRange hsmall hr)
  have hpq : 0 ≤ p * q := (lt_of_lt_of_le (zpow_pos two_pos _) hr.1).le
  have h23 : (2 : ℝ) ^ (-23 : ℤ) = 2 * 2 ^ (-24 : ℤ) := by norm_num
  have h24 : (0 : ℝ) < 2 ^ (-24 : ℤ) := zpow_pos two_pos _
  refine ⟨u, hu, (hvw.trans huerr h24.le).mono ?_ hpq⟩
  rw [h23]
  nlinarith

/-- The error of a quotient. -/
theorem Near.div (hx : Near ε x p) (hy : Near δ y q) (hp : 0 ≤ p) (hq : 0 < q) (hε : 0 ≤ ε)
    (hδ : 0 ≤ δ) (hsmall : ε + 2 * δ + ε * (2 * δ) ≤ 1 / 2) (hr : WellInRange (p / q)) :
    Near (ε + 2 * δ + ε * (2 * δ) + 2 ^ (-23 : ℤ)) (x / y) (p / q) := by
  obtain ⟨v, hv, hverr⟩ := hx
  obtain ⟨w, hw, hwerr⟩ := hy
  have hδ' : δ ≤ 1 / 2 := by nlinarith [mul_nonneg hε hδ]
  have hvw := hverr.mul (hwerr.inv hw.pos hq hδ' hδ) hp (inv_pos.mpr hw.pos).le hε
  rw [← div_eq_mul_inv, ← div_eq_mul_inv] at hvw
  obtain ⟨u, hu, huerr⟩ := div_spec hv hw (hvw.inRange hsmall hr)
  have hpq : 0 ≤ p / q := (lt_of_lt_of_le (zpow_pos two_pos _) hr.1).le
  have h23 : (2 : ℝ) ^ (-23 : ℤ) = 2 * 2 ^ (-24 : ℤ) := by norm_num
  have h24 : (0 : ℝ) < 2 ^ (-24 : ℤ) := zpow_pos two_pos _
  refine ⟨u, hu, (hvw.trans huerr h24.le).mono ?_ hpq⟩
  rw [h23]
  nlinarith

end Near

end StepperSynth.Common.Binary32
