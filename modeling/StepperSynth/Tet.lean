import Mathlib
import StepperSynth.Basic
import StepperSynth.Common.Binary32

/-!
# Equal temperament

Model of `12tet.cpp` on `Float32`. The function `powf` of the C library is a
parameter: `PowfAccurate` says how close it has to be for the twelve arguments
of the table.

* `near_tUs`: the period before the conversion to an integer.
* `notePeriod_bounds`: the period of a note is that of equal temperament, cut to
  whole microseconds.
* `notePeriod_lt`, `half_notePeriod_lt`: a higher note has a shorter period, also
  after the division by 2 of the generator.
* `notePeriod_octaves`: `j` octaves up, the period is exactly divided by `2 ^ j`.
-/

namespace StepperSynth

open Common.Binary32

/-! ## Model -/

/-- `MIDI::Notes::SYNTH_BASE_NOTE`, which is `A4` (`config.hpp` line 8, `midi.hpp` line 42). -/
def synthBaseNote : Byte := 69

/-- `SYNTH_BASE_FREQ` (`config.hpp` line 9). -/
def synthBaseFreq : Float32 := 440.0

/-- `g_note_powers_table` (`12tet.cpp` lines 8–13). -/
def gNotePowersTable (powf : Float32 → Float32 → Float32) (i : Fin 12) : Float32 :=
  powf 2 (Float32.ofNat i / 12)

/-- `t_us` before it is returned (lines 29–38). -/
def tUs (powf : Float32 → Float32 → Float32) (note : Byte) : Float32 :=
  let dist : ℤ := (synthBaseNote.toNat : ℤ) - note.toNat
  let cWhole : UInt32 := 1 <<< UInt32.ofNat (dist.natAbs / 12)
  let cSub := gNotePowersTable powf ⟨dist.natAbs % 12, Nat.mod_lt _ (by decide)⟩
  let tUs := 1e6 / synthBaseFreq
  if 0 ≤ dist then tUs * (cWhole.toFloat32 * cSub) else tUs / (cWhole.toFloat32 * cSub)

/-- Model of `notePeriodUs12tet` (lines 15–41). -/
def notePeriodUs12tet (powf : Float32 → Float32 → Float32) (note : Byte) : Word :=
  (tUs powf note).toUInt32.toBitVec

/-! ## The table -/

/-- What the period of a note depends on: `powf(2, i / 12)` is `2 ^ (i / 12)` up
    to 4 units in the last place. -/
structure PowfAccurate (powf : Float32 → Float32 → Float32) : Prop where
  table : ∀ i : Fin 12, Near (2 ^ (-21 : ℤ)) (gNotePowersTable powf i) (2 ^ ((i : ℝ) / 12))

/-! ## An accurate `powf` -/

/-- The bits of the floats next to `2 ^ (i / 12)`. -/
def powers : List UInt32 :=
  [0x3f800000, 0x3f879c7d, 0x3f8facd6, 0x3f9837f0, 0x3fa14518, 0x3faadc08,
   0x3fb504f3, 0x3fbfc887, 0x3fcb2ff5, 0x3fd744fd, 0x3fe411f0, 0x3ff1a1bf]

/-- `powf(2, y)` for the arguments of the table, rounded to nearest. -/
def roundedPowf (_ y : Float32) : Float32 :=
  Float32.ofBits (powers.getD (y * 12 + 0.5).toUInt32.toNat 0)

/-- The digits of the table. -/
def digits (i : Fin 12) : ℕ := (powers.getD i 0).toNat - 0x3f800000 + 2 ^ 23

theorem roundedPowf_normal (i : Fin 12) :
    Normal (gNotePowersTable roundedPowf i) (digits i) (-23) := by
  fin_cases i <;> exact ⟨⟨by decide, rfl⟩, by decide, by decide⟩

theorem rpow_twelfth (i : Fin 12) : ((2 : ℝ) ^ ((i : ℝ) / 12)) ^ 12 = 2 ^ (i : ℕ) := by
  rw [← Real.rpow_natCast, ← Real.rpow_mul zero_le_two]
  norm_num

/-- A bound on `2 ^ (i / 12)` is one on whole numbers. -/
theorem mul_rpow_le {a b : ℕ} {i : Fin 12} (h : a ^ 12 * 2 ^ (i : ℕ) ≤ b ^ 12) :
    (a : ℝ) * 2 ^ ((i : ℝ) / 12) ≤ b := by
  refine le_of_pow_le_pow_left₀ (n := 12) (by norm_num) (Nat.cast_nonneg b) ?_
  rw [mul_pow, rpow_twelfth]
  exact_mod_cast h

theorem le_mul_rpow {a b : ℕ} {i : Fin 12} (h : b ^ 12 ≤ a ^ 12 * 2 ^ (i : ℕ)) :
    (b : ℝ) ≤ a * 2 ^ ((i : ℝ) / 12) := by
  refine le_of_pow_le_pow_left₀ (n := 12) (by norm_num) (by positivity) ?_
  rw [mul_pow, rpow_twelfth]
  exact_mod_cast h

theorem powfAccurate_roundedPowf : PowfAccurate roundedPowf := by
  refine ⟨fun i => ⟨_, ⟨_, _, roundedPowf_normal i, rfl⟩, relErr_iff.mpr ?_⟩⟩
  have hlo : ∀ i : Fin 12, ((2 ^ 21 - 1) * 2 ^ 23) ^ 12 * 2 ^ (i : ℕ) ≤
      (digits i * 2 ^ 21) ^ 12 := by decide
  have hhi : ∀ i : Fin 12, (digits i * 2 ^ 21) ^ 12 ≤
      ((2 ^ 21 + 1) * 2 ^ 23) ^ 12 * 2 ^ (i : ℕ) := by decide
  have h1 := mul_rpow_le (hlo i)
  have h2 := le_mul_rpow (hhi i)
  norm_num at h1 h2 ⊢
  constructor <;> linarith

/-! ## Before the conversion -/

/-- `c_whole * c_sub`: the factor for `k` octaves and `i` semitones. -/
def factor (powf : Float32 → Float32 → Float32) (k : ℕ) (i : Fin 12) : Float32 :=
  ((1 : UInt32) <<< UInt32.ofNat k).toFloat32 * gNotePowersTable powf i

/-- The period of a note in equal temperament, in microseconds. -/
noncomputable def tetPeriod (note : ℝ) : ℝ := 10 ^ 6 / 440 * (2 : ℕ) ^ ((69 - note) / 12)

theorem tetPeriod_eq (note : ℝ) : tetPeriod note = 10 ^ 6 / 440 * 2 ^ ((69 - note) / 12) := by
  rw [tetPeriod, Nat.cast_ofNat]

theorem cWhole_normal {k : ℕ} (hk : k < 16) :
    Normal ((1 : UInt32) <<< UInt32.ofNat k).toFloat32 (2 ^ 23) ((k : ℤ) - 23) := by
  refine ⟨?_, le_rfl, by norm_num⟩
  interval_cases k <;> exact ⟨by decide, rfl⟩

theorem near_base : Near (2 ^ (-24 : ℤ)) (1e6 / synthBaseFreq) (10 ^ 6 / 440) := by
  refine ⟨9309091 * 2 ^ (-12 : ℤ), ⟨9309091, -12, ⟨⟨by decide, rfl⟩, by norm_num, by norm_num⟩,
    by norm_num⟩, ?_⟩
  unfold RelErr
  norm_num [abs_le]

theorem wellInRange_of {q : ℝ} (h1 : 1 / 2 ^ 10 ≤ q) (h2 : q ≤ 2 ^ 30) : WellInRange q := by
  constructor
  · exact le_trans (by norm_num) h1
  · exact le_trans h2 (by norm_num)

/-- A power of 2 with an exponent below 1. -/
theorem frac_bounds (i : Fin 12) : (1 : ℝ) ≤ 2 ^ ((i : ℝ) / 12) ∧ (2 : ℝ) ^ ((i : ℝ) / 12) < 2 := by
  have h0 : (0 : ℝ) ≤ (i : ℝ) / 12 := by positivity
  have h1 : (i : ℝ) / 12 < 1 := by
    rw [div_lt_one (by norm_num)]
    exact_mod_cast i.isLt
  refine ⟨Real.one_le_rpow one_le_two h0, ?_⟩
  calc (2 : ℝ) ^ ((i : ℝ) / 12) < 2 ^ (1 : ℝ) := Real.rpow_lt_rpow_of_exponent_lt one_lt_two h1
    _ = 2 := Real.rpow_one 2

/-- A number of octaves and semitones. -/
theorem interval_bounds {k : ℕ} (hk : k < 16) (i : Fin 12) :
    (1 : ℝ) ≤ 2 ^ k * 2 ^ ((i : ℝ) / 12) ∧ (2 : ℝ) ^ k * 2 ^ ((i : ℝ) / 12) ≤ 2 ^ 16 := by
  obtain ⟨h1, h2⟩ := frac_bounds i
  have hlo : (1 : ℝ) ≤ 2 ^ k := one_le_pow₀ one_le_two
  have hhi : (2 : ℝ) ^ k ≤ 2 ^ 15 := pow_le_pow_right₀ one_le_two (by omega)
  constructor <;> nlinarith

section Accurate

variable {powf : Float32 → Float32 → Float32}

theorem near_factor (hpowf : PowfAccurate powf) {k : ℕ} (hk : k < 16) (i : Fin 12) :
    Near (2 ^ (-21 : ℤ) + 2 ^ (-23 : ℤ)) (factor powf k i) (2 ^ k * 2 ^ ((i : ℝ) / 12)) := by
  have hwhole : Near 0 ((1 : UInt32) <<< UInt32.ofNat k).toFloat32 (2 ^ k) := by
    refine ⟨_, ⟨_, _, cWhole_normal hk, rfl⟩, ?_⟩
    have hval : ((2 ^ 23 : ℕ) : ℝ) * 2 ^ ((k : ℤ) - 23) = 2 ^ k := by
      rw [zpow_sub₀ two_ne_zero, zpow_natCast]
      push_cast
      field_simp
      norm_num
    rw [hval]
    show |(2 : ℝ) ^ k - 2 ^ k| ≤ 0 * 2 ^ k
    simp
  obtain ⟨h1, h2⟩ := interval_bounds hk i
  have h := hwhole.mul (hpowf.table i) (by positivity) le_rfl (by norm_num)
    (wellInRange_of (by linarith) (by linarith))
  exact h.mono (by norm_num) (by positivity)

/-- The distance of a note from `A4` in octaves and semitones. -/
theorem exists_dist (note : Byte) : ∃ (k : ℕ) (i : Fin 12), k < 16 ∧
    (note.toNat + (12 * k + i) = 69 ∨ 69 < note.toNat ∧ note.toNat = 69 + (12 * k + i)) := by
  have hn : note.toNat < 256 := note.isLt
  let d := ((69 : ℤ) - note.toNat).natAbs
  have hd : 12 * (d / 12) + d % 12 = d := Nat.div_add_mod d 12
  have hdef : d = ((69 : ℤ) - note.toNat).natAbs := rfl
  exact ⟨d / 12, ⟨d % 12, Nat.mod_lt _ (by decide)⟩, by omega, by dsimp only; omega⟩

theorem tUs_of_le {note : Byte} {k : ℕ} {i : Fin 12} (h : note.toNat + (12 * k + i) = 69) :
    tUs powf note = 1e6 / synthBaseFreq * factor powf k i := by
  have hbase : synthBaseNote.toNat = 69 := rfl
  have hi : (i : ℕ) < 12 := i.isLt
  have habs : ((synthBaseNote.toNat : ℤ) - note.toNat).natAbs = 12 * k + i := by omega
  have hdiv : (12 * k + i) / 12 = k := by omega
  have hmod : (12 * k + i) % 12 = i := by omega
  unfold tUs factor
  simp only [habs, hdiv, hmod]
  exact if_pos (by omega)

theorem tUs_of_lt {note : Byte} {k : ℕ} {i : Fin 12} (hlt : 69 < note.toNat)
    (h : note.toNat = 69 + (12 * k + i)) :
    tUs powf note = 1e6 / synthBaseFreq / factor powf k i := by
  have hbase : synthBaseNote.toNat = 69 := rfl
  have hi : (i : ℕ) < 12 := i.isLt
  have habs : ((synthBaseNote.toNat : ℤ) - note.toNat).natAbs = 12 * k + i := by omega
  have hdiv : (12 * k + i) / 12 = k := by omega
  have hmod : (12 * k + i) % 12 = i := by omega
  unfold tUs factor
  simp only [habs, hdiv, hmod]
  exact if_neg (by omega)

/-- The period before the conversion. -/
theorem near_tUs (hpowf : PowfAccurate powf) (note : Byte) :
    Near (2 ^ (-19 : ℤ)) (tUs powf note) (tetPeriod note.toNat) := by
  obtain ⟨k, i, hk, hdist⟩ := exists_dist note
  have hfactor := near_factor hpowf hk i
  obtain ⟨h1, h2⟩ := interval_bounds hk i
  have hpow : (2 : ℝ) ^ k * 2 ^ ((i : ℝ) / 12) = 2 ^ (((12 * k + i : ℕ) : ℝ) / 12) := by
    rw [← Real.rpow_natCast, ← Real.rpow_add two_pos]
    push_cast
    congr 1
    ring
  rw [tetPeriod_eq]
  rcases hdist with hle | ⟨hlt, heq⟩
  · have hsub : (69 : ℝ) - note.toNat = ((12 * k + i : ℕ) : ℝ) := by
      rw [sub_eq_iff_eq_add', ← Nat.cast_add, hle, Nat.cast_ofNat]
    rw [tUs_of_le hle, hsub, ← hpow]
    refine (near_base.mul hfactor (by norm_num) (by positivity) (by norm_num)
      (wellInRange_of ?_ ?_)).mono (by norm_num) (by positivity)
    · nlinarith
    · nlinarith
  · have hsub : (69 : ℝ) - note.toNat = -((12 * k + i : ℕ) : ℝ) := by
      rw [heq, Nat.cast_add, Nat.cast_ofNat]
      ring
    rw [tUs_of_lt hlt heq, hsub, neg_div, Real.rpow_neg zero_le_two, ← hpow, ← div_eq_mul_inv]
    refine (near_base.div hfactor (by norm_num) (by positivity) (by positivity) (by positivity)
      (by norm_num) (wellInRange_of ?_ ?_)).mono (by norm_num) (by positivity)
    · rw [le_div_iff₀ (by positivity)]
      nlinarith
    · rw [div_le_iff₀ (by positivity)]
      nlinarith

/-! ## The period -/

/-- A semitone is more than a seventeenth. -/
theorem tetPeriod_step {a b : ℝ} (h : a + 1 ≤ b) : 18 / 17 * tetPeriod b ≤ tetPeriod a := by
  have hsemitone : (18 / 17 : ℝ) ≤ 2 ^ ((1 : ℝ) / 12) := by
    have hpow : (18 / 17 : ℝ) ^ ((12 : ℕ) : ℝ) ≤ 2 := by
      rw [Real.rpow_natCast]
      norm_num
    calc (18 / 17 : ℝ) = ((18 / 17) ^ ((12 : ℕ) : ℝ)) ^ ((1 : ℝ) / 12) := by
          rw [← Real.rpow_mul (by norm_num)]
          norm_num
      _ ≤ 2 ^ ((1 : ℝ) / 12) := Real.rpow_le_rpow (by positivity) hpow (by norm_num)
  have hsplit : (2 : ℝ) ^ ((69 - b) / 12) * 2 ^ ((1 : ℝ) / 12) ≤ 2 ^ ((69 - a) / 12) := by
    rw [← Real.rpow_add two_pos]
    exact Real.rpow_le_rpow_of_exponent_le one_le_two (by linarith)
  have hpos : (0 : ℝ) < 2 ^ ((69 - b) / 12) := Real.rpow_pos_of_pos two_pos _
  rw [tetPeriod_eq, tetPeriod_eq]
  nlinarith

/-- The highest MIDI note. -/
theorem le_tetPeriod {a : ℝ} (h : a ≤ 127) : 79 ≤ tetPeriod a := by
  have hpow : (2 : ℝ) ^ ((58 : ℝ) / 12) ≤ 1782 / 1000 * 2 ^ 4 := by
    have h12 : ((2 : ℝ) ^ ((58 : ℝ) / 12)) ^ (12 : ℕ) ≤ (1782 / 1000 * 2 ^ 4) ^ 12 := by
      rw [← Real.rpow_natCast, ← Real.rpow_mul zero_le_two]
      norm_num
    exact le_of_pow_le_pow_left₀ (by norm_num) (by norm_num) h12
  have hle : (2 : ℝ) ^ (-((58 : ℝ) / 12)) ≤ 2 ^ ((69 - a) / 12) :=
    Real.rpow_le_rpow_of_exponent_le one_le_two (by linarith)
  rw [Real.rpow_neg zero_le_two] at hle
  have hinv : (1782 / 1000 * 2 ^ 4 : ℝ)⁻¹ ≤ ((2 : ℝ) ^ ((58 : ℝ) / 12))⁻¹ :=
    inv_anti₀ (Real.rpow_pos_of_pos two_pos _) hpow
  rw [tetPeriod_eq]
  norm_num at hinv
  linarith

/-- The lowest note. -/
theorem tetPeriod_le {a : ℝ} (h : 0 ≤ a) : tetPeriod a ≤ 124000 := by
  have hpow : (2 : ℝ) ^ ((69 : ℝ) / 12) ≤ 54 := by
    have h12 : ((2 : ℝ) ^ ((69 : ℝ) / 12)) ^ 12 ≤ 54 ^ 12 := by
      rw [← Real.rpow_natCast, ← Real.rpow_mul zero_le_two]
      norm_num
    exact le_of_pow_le_pow_left₀ (by norm_num) (by norm_num) h12
  have hle : (2 : ℝ) ^ ((69 - a) / 12) ≤ 2 ^ ((69 : ℝ) / 12) :=
    Real.rpow_le_rpow_of_exponent_le one_le_two (by linarith)
  rw [tetPeriod_eq]
  linarith

/-- The conversion is in range, so it drops the fraction. -/
theorem notePeriod_eq_floor {note : Byte} {v : ℝ} (hv : HasValue (tUs powf note) v)
    (herr : RelErr (2 ^ (-19 : ℤ)) v (tetPeriod note.toNat)) :
    (notePeriodUs12tet powf note).toNat = ⌊v⌋₊ := by
  have hmax := tetPeriod_le (Nat.cast_nonneg note.toNat)
  have hle := (relErr_iff.mp herr).2
  norm_num at hle
  exact toUInt32_spec hv (by norm_num; linarith)

theorem lt_notePeriod (hpowf : PowfAccurate powf) (note : Byte) :
    (1 - 2 ^ (-19 : ℤ)) * tetPeriod note.toNat - 1 < (notePeriodUs12tet powf note).toNat := by
  obtain ⟨v, hv, herr⟩ := near_tUs hpowf note
  rw [notePeriod_eq_floor hv herr]
  have hfloor := Nat.sub_one_lt_floor v
  have hlo := (relErr_iff.mp herr).1
  linarith

theorem notePeriod_le (hpowf : PowfAccurate powf) (note : Byte) :
    (notePeriodUs12tet powf note).toNat ≤ (1 + 2 ^ (-19 : ℤ)) * tetPeriod note.toNat := by
  obtain ⟨v, hv, herr⟩ := near_tUs hpowf note
  rw [notePeriod_eq_floor hv herr]
  exact (Nat.floor_le hv.pos.le).trans (relErr_iff.mp herr).2

/-- **The period of a note.** For every note and every `powf` that is accurate to 4
    units in the last place on the twelve arguments of the table,
    `notePeriodUs12tet` returns the period of equal temperament cut to whole
    microseconds: it is less than one below that period, and not above it, up to a
    relative error of `2 ^ -19`. -/
theorem notePeriod_bounds (hpowf : PowfAccurate powf) (note : Byte) :
    (1 - 2 ^ (-19 : ℤ)) * tetPeriod note.toNat - 1 < (notePeriodUs12tet powf note).toNat ∧
      (notePeriodUs12tet powf note).toNat ≤ (1 + 2 ^ (-19 : ℤ)) * tetPeriod note.toNat :=
  ⟨lt_notePeriod hpowf note, notePeriod_le hpowf note⟩

theorem notePeriod_bounds_middle :
    (1 - 2 ^ (-19 : ℤ)) * tetPeriod (60 : Byte).toNat - 1 <
        (notePeriodUs12tet roundedPowf 60).toNat ∧
      (notePeriodUs12tet roundedPowf 60).toNat ≤
        (1 + 2 ^ (-19 : ℤ)) * tetPeriod (60 : Byte).toNat :=
  notePeriod_bounds powfAccurate_roundedPowf 60

/-- No period is so short that the generator would take it for 0. -/
theorem le_notePeriod (hpowf : PowfAccurate powf) {note : Byte} (h : note < 128) :
    78 ≤ (notePeriodUs12tet powf note).toNat := by
  have hle : note.toNat ≤ 127 := Nat.le_of_lt_succ h
  have hmin : 79 ≤ tetPeriod note.toNat := le_tetPeriod (by exact_mod_cast hle)
  have hlo := lt_notePeriod hpowf note
  norm_num at hlo
  have hreal : (77 : ℝ) < (notePeriodUs12tet powf note).toNat := by linarith
  exact_mod_cast hreal

theorem notePeriod_le_max (hpowf : PowfAccurate powf) (note : Byte) :
    (notePeriodUs12tet powf note).toNat ≤ 125000 := by
  have hmax := tetPeriod_le (Nat.cast_nonneg note.toNat)
  have hhi := notePeriod_le hpowf note
  norm_num at hhi
  have hreal : ((notePeriodUs12tet powf note).toNat : ℝ) ≤ 125000 := by linarith
  exact_mod_cast hreal

/-- Higher notes have shorter periods, by 4 or more. -/
theorem notePeriod_lt (hpowf : PowfAccurate powf) {a b : Byte} (hab : a < b) (hb : b < 128) :
    (notePeriodUs12tet powf b).toNat + 4 ≤ (notePeriodUs12tet powf a).toNat := by
  have hlt : a.toNat < b.toNat := hab
  have hle : b.toNat ≤ 127 := Nat.le_of_lt_succ hb
  have hstep : 18 / 17 * tetPeriod b.toNat ≤ tetPeriod a.toNat :=
    tetPeriod_step (by exact_mod_cast hlt)
  have hmin : 79 ≤ tetPeriod b.toNat := le_tetPeriod (by exact_mod_cast hle)
  have hlo := lt_notePeriod hpowf a
  have hhi := notePeriod_le hpowf b
  norm_num at hlo hhi
  have hreal : ((notePeriodUs12tet powf b).toNat : ℝ) + 3 < (notePeriodUs12tet powf a).toNat := by
    linarith
  exact_mod_cast hreal

/-- **No two notes sound alike.** Of two MIDI notes the higher one has the smaller
    half-period, which is what the generator is given, and no half-period is below 39. -/
theorem half_notePeriod_lt (hpowf : PowfAccurate powf) {a b : Byte} (hab : a < b) (hb : b < 128) :
    39 ≤ notePeriodUs12tet powf b / 2 ∧
      notePeriodUs12tet powf b / 2 < notePeriodUs12tet powf a / 2 := by
  have hlt := notePeriod_lt hpowf hab hb
  have hle := le_notePeriod hpowf hb
  rw [BitVec.le_def, BitVec.lt_def, BitVec.toNat_udiv, BitVec.toNat_udiv]
  show 39 ≤ _ / 2 ∧ _ / 2 < _ / 2
  omega

theorem half_notePeriod_lt_middle :
    39 ≤ notePeriodUs12tet roundedPowf 61 / 2 ∧
      notePeriodUs12tet roundedPowf 61 / 2 < notePeriodUs12tet roundedPowf 60 / 2 :=
  half_notePeriod_lt powfAccurate_roundedPowf (by decide) (by decide)

/-- The full wave of a MIDI note, two half-periods: less than half a semitone off. -/
theorem wave_bounds (hpowf : PowfAccurate powf) {note : Byte} (h : note < 128) :
    2 ^ (-(1 : ℝ) / 24) * tetPeriod note.toNat < 2 * (notePeriodUs12tet powf note / 2).toNat ∧
      2 * (notePeriodUs12tet powf note / 2).toNat < 2 ^ ((1 : ℝ) / 24) * tetPeriod note.toNat := by
  have hle : note.toNat ≤ 127 := Nat.le_of_lt_succ h
  have hmin : 79 ≤ tetPeriod note.toNat := le_tetPeriod (by exact_mod_cast hle)
  have hlo := lt_notePeriod hpowf note
  have hhi := notePeriod_le hpowf note
  norm_num at hlo hhi
  -- a half-period is cut to whole microseconds once more
  obtain ⟨hcut, hcut'⟩ : (notePeriodUs12tet powf note).toNat ≤
      2 * (notePeriodUs12tet powf note / 2).toNat + 1 ∧
      2 * (notePeriodUs12tet powf note / 2).toNat ≤ (notePeriodUs12tet powf note).toNat := by
    rw [BitVec.toNat_udiv]
    show _ ≤ 2 * (_ / 2) + 1 ∧ 2 * (_ / 2) ≤ _
    omega
  have hcutR : ((notePeriodUs12tet powf note).toNat : ℝ) ≤
      2 * ((notePeriodUs12tet powf note / 2).toNat : ℝ) + 1 := by exact_mod_cast hcut
  have hcutR' : 2 * ((notePeriodUs12tet powf note / 2).toNat : ℝ) ≤
      (notePeriodUs12tet powf note).toNat := by exact_mod_cast hcut'
  have hdown : (2 : ℝ) ^ (-(1 : ℝ) / 24) ≤ 973 / 1000 := by
    have h24 : ((2 : ℝ) ^ (-(1 : ℝ) / 24)) ^ 24 ≤ (973 / 1000) ^ 24 := by
      rw [← Real.rpow_natCast, ← Real.rpow_mul zero_le_two]
      norm_num [Real.rpow_neg_one]
    exact le_of_pow_le_pow_left₀ (by norm_num) (by norm_num) h24
  have hup : 1001 / 1000 ≤ (2 : ℝ) ^ ((1 : ℝ) / 24) := by
    have h24 : (1001 / 1000 : ℝ) ^ 24 ≤ ((2 : ℝ) ^ ((1 : ℝ) / 24)) ^ 24 := by
      rw [← Real.rpow_natCast (2 ^ _), ← Real.rpow_mul zero_le_two]
      norm_num
    exact le_of_pow_le_pow_left₀ (by norm_num) (by positivity) h24
  constructor
  · calc (2 : ℝ) ^ (-(1 : ℝ) / 24) * tetPeriod note.toNat
        ≤ 973 / 1000 * tetPeriod note.toNat := mul_le_mul_of_nonneg_right hdown (by linarith)
      _ < 2 * (notePeriodUs12tet powf note / 2).toNat := by linarith
  · calc (2 * (notePeriodUs12tet powf note / 2).toNat : ℝ)
        < 1001 / 1000 * tetPeriod note.toNat := by linarith
      _ ≤ 2 ^ ((1 : ℝ) / 24) * tetPeriod note.toNat :=
          mul_le_mul_of_nonneg_right hup (by linarith)

/-! ## Octaves -/

/-- The digits of a factor do not depend on the number of octaves. -/
theorem factor_normal (hpowf : PowfAccurate powf) (i : Fin 12) : ∃ (m : ℕ) (e : ℤ),
    ∀ k : ℕ, k < 16 → Normal (factor powf k i) m (e + k) ∧
      1 / 2 ≤ (m : ℝ) * 2 ^ (e + k) ∧ (m : ℝ) * 2 ^ (e + k) ≤ 2 ^ 17 := by
  obtain ⟨v, ⟨m, e, hm, rfl⟩, herr⟩ := hpowf.table i
  obtain ⟨h1, h2⟩ := frac_bounds i
  obtain ⟨hlo, hhi⟩ := relErr_iff.mp herr
  norm_num at hlo hhi
  have hmlo : ((2 : ℝ) ^ 23) ≤ m := by exact_mod_cast hm.le
  have hmhi : (m : ℝ) < 2 ^ 24 := by exact_mod_cast hm.lt
  have he0 : (0 : ℝ) < 2 ^ e := zpow_pos two_pos _
  have hemin : -25 < e := by
    have hpow : (2 : ℝ) ^ (-25 : ℤ) < 2 ^ e := by
      norm_num
      nlinarith
    exact (zpow_lt_zpow_iff_right₀ one_lt_two).mp hpow
  have hemax : e < -20 := by
    have hpow : (2 : ℝ) ^ e < 2 ^ (-20 : ℤ) := by
      norm_num
      nlinarith
    exact (zpow_lt_zpow_iff_right₀ one_lt_two).mp hpow
  refine ⟨m, e, fun k hk => ⟨?_, ?_⟩⟩
  · have h := two_pow_mul (cWhole_normal hk) hm (by omega)
    rwa [show (k : ℤ) - 23 + e + 23 = e + k by ring] at h
  · have hk1 : (1 : ℝ) ≤ 2 ^ k := one_le_pow₀ one_le_two
    have hk2 : (2 : ℝ) ^ k ≤ 2 ^ 15 := pow_le_pow_right₀ one_le_two (by omega)
    rw [zpow_add₀ two_ne_zero, zpow_natCast, ← mul_assoc]
    constructor <;> nlinarith

theorem inRange_of {q : ℝ} (h1 : 1 / 2 ^ 10 ≤ q) (h2 : q ≤ 2 ^ 30) : InRange q := by
  constructor
  · exact le_trans (by norm_num) h1
  · exact lt_of_le_of_lt h2 (by norm_num)

/-- `j` octaves up, the period before the conversion is divided by `2 ^ j`. -/
theorem tUs_octaves (hpowf : PowfAccurate powf) {a b : Byte} (j : ℕ)
    (hab : b.toNat = a.toNat + 12 * j) (hside : b.toNat ≤ 69 ∨ 69 < a.toNat) :
    ∃ u, HasValue (tUs powf b) u ∧ HasValue (tUs powf a) (u * 2 ^ j) := by
  obtain ⟨k, i, hk, hdist⟩ := exists_dist a
  obtain ⟨l, i', hl, hdist'⟩ := exists_dist b
  obtain ⟨v, hv, hverr⟩ := near_base
  obtain ⟨m, e, hfactor⟩ := factor_normal hpowf i
  obtain ⟨hvlo, hvhi⟩ := relErr_iff.mp hverr
  norm_num at hvlo hvhi
  have hi : (i : ℕ) < 12 := i.isLt
  have hi' : (i' : ℕ) < 12 := i'.isLt
  have hexp : ∀ k : ℕ, (m : ℝ) * 2 ^ (e + (k + j : ℕ)) = m * 2 ^ (e + k) * 2 ^ j := fun k => by
    rw [Nat.cast_add, ← add_assoc, zpow_add₀ two_ne_zero, zpow_natCast, mul_assoc]
  rcases hdist with hle | ⟨hlt, heq⟩
  · -- both are `A4` or below, and `a` is further away
    obtain hle' | ⟨hlt', -⟩ := hdist'
    · have hkl : k = l + j := by omega
      have hii : i' = i := by omega
      subst hkl hii
      obtain ⟨hb, hb1, hb2⟩ := hfactor l hl
      obtain ⟨ha, ha1, ha2⟩ := hfactor (l + j) hk
      rw [hexp] at ha1 ha2
      rw [Nat.cast_add, ← add_assoc] at ha
      obtain ⟨u, hu, hu'⟩ := mul_scale hv hb ha
        (inRange_of (by nlinarith) (by nlinarith))
        (inRange_of (by rw [zpow_natCast]; nlinarith) (by rw [zpow_natCast]; nlinarith))
      refine ⟨u, ?_, ?_⟩
      · rwa [tUs_of_le hle']
      · rwa [tUs_of_le hle, ← zpow_natCast]
    · omega
  · -- both are above `A4`, and `b` is further away
    obtain hle' | ⟨hlt', heq'⟩ := hdist'
    · omega
    · have hkl : l = k + j := by omega
      have hii : i' = i := by omega
      subst hkl hii
      obtain ⟨ha, ha1, ha2⟩ := hfactor k hk
      obtain ⟨hb, hb1, hb2⟩ := hfactor (k + j) hl
      rw [hexp] at hb1 hb2
      rw [Nat.cast_add, ← add_assoc] at hb
      have hj0 : (0 : ℝ) < 2 ^ j := by positivity
      have ha0 : (0 : ℝ) < m * 2 ^ (e + k) := by linarith
      have hb0 : (0 : ℝ) < m * 2 ^ (e + k) * 2 ^ j := by positivity
      obtain ⟨u, hu, hu'⟩ := div_scale hv ha hb
        (inRange_of (by rw [le_div_iff₀ ha0]; nlinarith) (by rw [div_le_iff₀ ha0]; nlinarith))
        (inRange_of (by rw [div_div, zpow_natCast, le_div_iff₀ hb0]; nlinarith)
          (by rw [div_div, zpow_natCast, div_le_iff₀ hb0]; nlinarith))
      rw [zpow_natCast] at hu'
      refine ⟨u / 2 ^ j, ?_, ?_⟩
      · rwa [tUs_of_lt hlt' heq']
      · rwa [tUs_of_lt hlt heq, div_mul_cancel₀ _ hj0.ne']

/-- **Octaves are exact.** For two notes `j` octaves apart, both `A4` or below or both
    above, the period of the higher one is that of the lower one divided by `2 ^ j` in
    whole microseconds: rounding adds nothing. -/
theorem notePeriod_octaves (hpowf : PowfAccurate powf) {a b : Byte} (j : ℕ)
    (hab : b.toNat = a.toNat + 12 * j) (hside : b.toNat ≤ 69 ∨ 69 < a.toNat) :
    (notePeriodUs12tet powf b).toNat = (notePeriodUs12tet powf a).toNat / 2 ^ j := by
  obtain ⟨u, hu, hu'⟩ := tUs_octaves hpowf j hab hside
  obtain ⟨v, hv, herr⟩ := near_tUs hpowf b
  obtain ⟨v', hv', herr'⟩ := near_tUs hpowf a
  rw [notePeriod_eq_floor hv herr, notePeriod_eq_floor hv' herr', hv.unique hu, hv'.unique hu']
  have hdiv : u = u * 2 ^ j / ((2 ^ j : ℕ) : ℝ) := by
    push_cast
    field_simp
  rw [hdiv, Nat.floor_div_natCast, ← hdiv]

theorem notePeriod_octaves_a0 :
    (notePeriodUs12tet roundedPowf 69).toNat = (notePeriodUs12tet roundedPowf 21).toNat / 2 ^ 4 :=
  notePeriod_octaves powfAccurate_roundedPowf 4 (by decide) (by decide)

end Accurate

end StepperSynth
