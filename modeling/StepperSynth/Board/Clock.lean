import StepperSynth.Board.Delays
import StepperSynth.Common.Bits

/-!
# The PLL and the core clock

`pllSetup` for all factors, and `SystemCoreClockUpdate` (`system_stm32f4xx.c`), which
reads the factors back.

* `Shows`, `modifyReg_shows`: the bits of the registers that the hardware leaves alone.
* `waitFor_shows`: a loop ends if the hardware does what the code has asked for.
* `pllFactors_eq`: the writes to `PLLCFGR` are writes to separate fields.
* `pllSetup_clock`: what `pllSetup` leaves in the registers, and the clock that
  `SystemCoreClockUpdate` reads there.
-/

namespace StepperSynth

open Common

/-! ## `SystemCoreClockUpdate` -/

/-- `AHBPrescTable` (line 138). -/
def ahbPrescTable : List Byte := [0, 0, 0, 0, 0, 0, 0, 0, 1, 2, 3, 4, 6, 7, 8, 9]

/-- `HSE_VALUE` (line 51). The build does not define another value. -/
def hseValue : Word := 25000000

/-- `HSI_VALUE` (line 55). -/
def hsiValue : Word := 16000000

/-- `SystemCoreClock >>= n`. -/
def shiftSystemCoreClock (n : Byte) : BoardM Unit :=
  EStateM.modifyGet fun b => ((), { b with systemCoreClock := b.systemCoreClock >>> n.toNat })

/-- `pllvco` (lines 242–254). -/
def pllVco (hw : Hardware) (hseValue : Word) : BoardM Word := do
  let pllcfgr ← readReg hw .rccPllcfgr
  let pllsource := (pllcfgr &&& rccPllcfgrPllsrc) >>> 22
  let pllcfgr ← readReg hw .rccPllcfgr
  let pllm := pllcfgr &&& rccPllcfgrPllm
  if pllm = 0 then throw .divByZero
  else if pllsource ≠ 0 then do
    let pllcfgr ← readReg hw .rccPllcfgr
    pure (hseValue / pllm * ((pllcfgr &&& rccPllcfgrPlln) >>> 6))
  else do
    let pllcfgr ← readReg hw .rccPllcfgr
    pure (hsiValue / pllm * ((pllcfgr &&& rccPllcfgrPlln) >>> 6))

/-- The switch of `SystemCoreClockUpdate` (lines 227–262). -/
def selectedClock (hw : Hardware) (hseValue : Word) : BoardM Unit := do
  let cfgr ← readReg hw .rccCfgr
  let tmp := cfgr &&& rccCfgrSwsMsk
  if tmp = 0x00 then setSystemCoreClock hsiValue
  else if tmp = 0x04 then setSystemCoreClock hseValue
  else if tmp = 0x08 then do
    let pllvco ← pllVco hw hseValue
    let pllcfgr ← readReg hw .rccPllcfgr
    let pllp := ((pllcfgr &&& rccPllcfgrPllp) >>> 16 + 1) * 2
    setSystemCoreClock (pllvco / pllp)
  else setSystemCoreClock hsiValue

/-- Model of `SystemCoreClockUpdate` (lines 222–268), for a value of `HSE_VALUE`. -/
def systemCoreClockUpdate (hw : Hardware) (hseValue : Word) : BoardM Unit := do
  selectedClock hw hseValue
  let cfgr ← readReg hw .rccCfgr
  let tmp := ahbPrescTable.getD ((cfgr &&& rccCfgrHpre) >>> 4).toNat 0
  shiftSystemCoreClock tmp

/-! ## The bits that the hardware leaves alone -/

/-- The registers are those of `regs`, apart from the status bits. -/
def Board.Shows (regs : Reg → Word) (b : Board) : Prop :=
  ∀ r k, (statusBits r).getLsbD k = false → (b.regs r).getLsbD k = (regs r).getLsbD k

/-- The function works bit by bit. -/
def Bitwise (f : Word → Word) : Prop :=
  ∀ x y k, x.getLsbD k = y.getLsbD k → (f x).getLsbD k = (f y).getLsbD k

theorem bitwise_or (a : Word) : Bitwise (· ||| a) := by
  intro x y k h
  simp only [BitVec.getLsbD_or, h]

theorem bitwise_and (a : Word) : Bitwise (· &&& a) := by
  intro x y k h
  simp only [BitVec.getLsbD_and, h]

section Accesses

variable {hw : Hardware} {regs : Reg → Word} {b : Board} {E : BoardFault → Board → Prop}

open Board (Shows)

theorem shown_getLsbD (hw : Hardware) (b : Board) {r : Reg} {k : ℕ}
    (hk : (statusBits r).getLsbD k = false) : (b.shown hw r).getLsbD k = (b.regs r).getLsbD k := by
  unfold Board.shown
  rw [BitVec.getLsbD_or, BitVec.getLsbD_and, BitVec.getLsbD_and, BitVec.getLsbD_not, hk]
  by_cases hlt : k < 32
  · simp [hlt]
  · simp [BitVec.getLsbD_of_ge _ k (by omega : 32 ≤ k)]

theorem readReg_shows (r : Reg) : Triple (Shows regs) (readReg hw r)
    (fun v b => (∀ k, (statusBits r).getLsbD k = false → v.getLsbD k = (regs r).getLsbD k) ∧
      Shows regs b) E :=
  Triple.modifyGet fun b hb => ⟨fun k hk => (shown_getLsbD hw b hk).trans (hb r k hk), hb⟩

/-- A read-modify-write, as seen in these bits. -/
theorem modifyReg_shows (r : Reg) {f : Word → Word} (hf : Bitwise f) :
    Triple (Shows regs) (modifyReg hw r f)
      (fun _ => Shows (Function.update regs r (f (regs r)))) E := by
  refine Triple.bind (readReg_shows r) fun v => Triple.of_and fun hv => ?_
  refine Triple.modifyGet fun b hb r' k hk => ?_
  show (Function.update b.regs r (f v) r').getLsbD k = _
  by_cases hr : r' = r
  · subst hr
    rw [Function.update_self, Function.update_self]
    exact hf _ _ k (hv k hk)
  · rw [Function.update_of_ne hr, Function.update_of_ne hr]
    exact hb r' k hk

theorem assertThat_bind_of_true {c : Prop} [Decidable c] {α : Type} (f : Unit → BoardM α) (hc : c)
    (b : Board) : (assertThat c >>= f) b = f () b := by
  unfold assertThat
  rw [if_pos hc]
  rfl

theorem assertThat_bind_of_false {c : Prop} [Decidable c] {α : Type} (f : Unit → BoardM α)
    (hc : ¬ c) (b : Board) : (assertThat c >>= f) b = .error .assertion b := by
  unfold assertThat
  rw [if_neg hc]
  rfl

theorem assertThat_shows {c : Prop} [Decidable c] (hc : c) :
    Triple (Shows regs) (assertThat c) (fun _ => Shows regs) E := by
  unfold assertThat
  rw [if_pos hc]
  exact Triple.pure fun _ hb => hb

/-! ## The loops that wait -/

/-- The code has asked for what the loop waits for. -/
def Wait.asked (v : Word) : Wait → Prop
  | .pllOff => v &&& rccCrPllon = 0
  | .hseReady => v &&& rccCrHseon ≠ 0
  | .pllReady => v &&& rccCrHseon ≠ 0 ∧ v &&& rccCrPllon ≠ 0
  | .pllSelected => v &&& 0x3 = rccCfgrSwPll

/-- The hardware does what it is asked for within `tests` reads. -/
def Hardware.Ready (hw : Hardware) (tests : ℕ) : Prop :=
  ∀ (w : Wait) (b : Board), w.asked (b.regs w.reg) →
    ∃ k < tests, w.cond ({ b with accesses := b.accesses + k }.shown hw w.reg) = false

/-- A loop ends in the round in which its condition fails. -/
theorem waitFor_of_cond (w : Wait) (n : ℕ) :
    Triple (fun b => (∃ k < n, w.cond ({ b with accesses := b.accesses + k }.shown hw w.reg) =
      false) ∧ Shows regs b) (waitFor hw w n) (fun _ => Shows regs) E := by
  induction n with
  | zero =>
    refine Triple.throw fun b hb => ?_
    obtain ⟨⟨k, hk, -⟩, -⟩ := hb
    exact absurd hk (Nat.not_lt_zero k)
  | succ n ih =>
    refine Triple.bind (Q := fun v b => (w.cond v = true →
      ∃ k < n, w.cond ({ b with accesses := b.accesses + k }.shown hw w.reg) = false) ∧
      Shows regs b) ?_ fun v => ?_
    · refine Triple.modifyGet fun b hb => ⟨fun hcond => ?_, hb.2⟩
      obtain ⟨k, hk, hfalse⟩ := hb.1
      cases k with
      | zero =>
        have hnow : w.cond (b.shown hw w.reg) = false := hfalse
        rw [hcond] at hnow
        cases hnow
      | succ k =>
        refine ⟨k, by omega, ?_⟩
        rw [Nat.add_right_comm]
        exact hfalse
    · split_ifs with hcond
      · exact ih.imp (fun b hb => ⟨hb.1 hcond, hb.2⟩) (fun _ _ hb => hb) fun _ _ he => he
      · exact Triple.pure fun b hb => hb.2

/-- A loop ends with the registers as they were, unless it is kept waiting. -/
theorem waitFor_returns (w : Wait) (n : ℕ) :
    Triple (Shows regs) (waitFor hw w n) (fun _ => Shows regs) (fun e _ => e = .waiting) := by
  induction n with
  | zero => exact Triple.throw fun _ _ => rfl
  | succ n ih =>
    refine Triple.bind (readReg_shows w.reg) fun v => Triple.of_and fun _ => ?_
    split_ifs
    · exact ih
    · exact Triple.pure fun _ hb => hb

/-- A loop is kept waiting only by hardware that does not do what it is asked for. -/
theorem waitFor_shows {tests : ℕ} {asked : Prop} (w : Wait)
    (hasked : asked → ∀ b, Shows regs b → w.asked (b.regs w.reg)) :
    Triple (Shows regs) (waitFor hw w tests) (fun _ => Shows regs)
      (fun e _ => e = .waiting ∧ ¬ (hw.Ready tests ∧ asked)) := by
  by_cases hready : hw.Ready tests ∧ asked
  · refine (waitFor_of_cond w tests).imp (fun b hb => ⟨?_, hb⟩) (fun _ _ hb => hb) fun _ _ he => he
    exact hready.1 w b (hasked hready.2 b hb)
  · exact (waitFor_returns w tests).imp (fun _ hb => hb) (fun _ _ hb => hb)
      fun _ _ he => ⟨he, hready⟩

end Accesses

/-! ## `PLLCFGR` -/

/-- What the writes to `PLLCFGR` (lines 39–48) make of it. -/
def pllFactors (m n p q x : Word) : Word :=
  let x := x &&& ~~~(rccPllcfgrPllm ||| rccPllcfgrPlln ||| rccPllcfgrPllp ||| rccPllcfgrPllq)
  let x := x ||| (p / 2 - 1) <<< rccPllcfgrPllpPos
  let x := x ||| m <<< rccPllcfgrPllmPos
  let x := x ||| n <<< rccPllcfgrPllnPos
  let x := x ||| q <<< rccPllcfgrPllqPos
  x &&& ~~~rccPllcfgrPllsrc ||| rccPllcfgrPllsrc

/-- The asserts of `pllSetup` (lines 30–34). -/
def PllRange (m n p q : Word) : Prop :=
  p % 2 = 0 ∧ (2 ≤ p ∧ p ≤ 8) ∧ (2 ≤ m ∧ m ≤ 63) ∧ (50 ≤ n ∧ n ≤ 432) ∧ 2 ≤ q ∧ q ≤ 15

instance (m n p q : Word) : Decidable (PllRange m n p q) := inferInstanceAs (Decidable (_ ∧ _))

section Factors

variable {m n p q : Word}

/-- A value that fits in a field is the field's value. -/
theorem setWidth_setWidth_of_lt {w k : ℕ} {v : BitVec w} (h : v.toNat < 2 ^ k) :
    (v.setWidth k).setWidth w = v := by
  apply BitVec.eq_of_toNat_eq
  rw [BitVec.toNat_setWidth, BitVec.toNat_setWidth, Nat.mod_eq_of_lt h, Nat.mod_eq_of_lt v.isLt]

theorem rccPllcfgrPllm_eq : rccPllcfgrPllm = fieldMask 32 6 0 := rfl

theorem rccPllcfgrPlln_eq : rccPllcfgrPlln = fieldMask 32 9 6 := rfl

theorem rccPllcfgrPllp_eq : rccPllcfgrPllp = fieldMask 32 2 16 := rfl

theorem rccPllcfgrPllsrc_eq : rccPllcfgrPllsrc = fieldMask 32 1 22 := rfl

theorem rccPllcfgrPllq_eq : rccPllcfgrPllq = fieldMask 32 4 24 := rfl

/-- `PLLCFGR` with the four factors cleared. -/
def clearedFactors (x : Word) : Word :=
  writeField (writeField (writeField (writeField x 0 0#6) 6 0#9) 16 0#2) 24 0#4

theorem clear_factors (x : Word) :
    x &&& ~~~(rccPllcfgrPllm ||| rccPllcfgrPlln ||| rccPllcfgrPllp ||| rccPllcfgrPllq) =
      clearedFactors x := by
  unfold clearedFactors
  rw [rccPllcfgrPllm_eq, rccPllcfgrPlln_eq, rccPllcfgrPllp_eq, rccPllcfgrPllq_eq, BitVec.not_or,
    BitVec.not_or, BitVec.not_or, ← BitVec.and_assoc, ← BitVec.and_assoc, ← BitVec.and_assoc,
    writeField_zero, writeField_zero, writeField_zero, writeField_zero]

theorem toNat_pllp (hp : 2 ≤ p) : (p / 2 - 1).toNat = p.toNat / 2 - 1 := by
  have hhalf : (p / 2).toNat = p.toNat / 2 := BitVec.toNat_udiv
  have hp' : 2 ≤ p.toNat := BitVec.le_def.mp hp
  generalize p / 2 = half at hhalf ⊢
  bv_omega

theorem double_pllp (heven : p % 2 = 0) : (p / 2 - 1 + 1) * 2 = p := by
  have hmod : p.toNat % 2 = 0 := by
    have h : (p % 2).toNat = p.toNat % 2 := BitVec.toNat_umod
    rw [heven] at h
    exact h.symm
  have htwo : (2 : Word).toNat = 2 := rfl
  apply BitVec.eq_of_toNat_eq
  rw [BitVec.sub_add_cancel, BitVec.toNat_mul, BitVec.toNat_udiv, htwo,
    Nat.div_mul_cancel (Nat.dvd_of_mod_eq_zero hmod), Nat.mod_eq_of_lt p.isLt]

/-- A field that is still 0 is set to a value that fits in it. -/
theorem or_of_field_eq_zero {v x : Word} {j k : ℕ} (hj : k + j ≤ 32) (hv : v.toNat < 2 ^ j)
    (hx : x.extractLsb' k j = 0#j) : x ||| v <<< k = writeField x k (v.setWidth j) := by
  have h := or_setWidth_shiftLeft hj x (v.setWidth j)
  rwa [setWidth_setWidth_of_lt hv, hx, BitVec.zero_or] at h

/-- The writes go to the fields `PLLP`, `PLLM`, `PLLN`, `PLLQ` and `PLLSRC`. -/
theorem pllFactors_eq (hrange : PllRange m n p q) (x : Word) :
    pllFactors m n p q x = writeField (writeField (writeField (writeField (writeField
      (clearedFactors x) 16 ((p / 2 - 1).setWidth 2)) 0 (m.setWidth 6)) 6 (n.setWidth 9)) 24
      (q.setWidth 4)) 22 1#1 := by
  obtain ⟨-, ⟨hp, hp'⟩, ⟨-, hm⟩, ⟨-, hn⟩, ⟨-, hq⟩⟩ := hrange
  have hpbits : (p / 2 - 1).toNat < 2 ^ 2 := by
    rw [toNat_pllp hp]
    bv_omega
  have hmbits : m.toNat < 2 ^ 6 := by bv_omega
  have hnbits : n.toNat < 2 ^ 9 := by bv_omega
  have hqbits : q.toNat < 2 ^ 4 := by bv_omega
  unfold pllFactors
  simp only [rccPllcfgrPllpPos, rccPllcfgrPllmPos, rccPllcfgrPllnPos, rccPllcfgrPllqPos]
  rw [clear_factors]
  unfold clearedFactors
  rw [or_of_field_eq_zero (by omega) hpbits, or_of_field_eq_zero (by omega) hmbits,
    or_of_field_eq_zero (by omega) hnbits, or_of_field_eq_zero (by omega) hqbits,
    rccPllcfgrPllsrc_eq, writeField_zero]
  · exact or_writeField _ 1#1
  all_goals
    simp (disch := omega) only [extractLsb'_writeField_self, extractLsb'_writeField_of_disjoint]

/-- Reading a field through its mask gives back what was written. -/
theorem read_field {k j : ℕ} {v y : Word} (hj : k + j ≤ 32) (hv : v.toNat < 2 ^ j)
    (hy : y.extractLsb' k j = v.setWidth j) : (y &&& fieldMask 32 j k) >>> k = v := by
  rw [and_mask_ushiftRight hj, hy, setWidth_setWidth_of_lt hv]

/-- The factors are read back as they were given. -/
theorem pllFactors_read (hrange : PllRange m n p q) (x : Word) :
    pllFactors m n p q x &&& rccPllcfgrPllm = m ∧
      (pllFactors m n p q x &&& rccPllcfgrPlln) >>> 6 = n ∧
      ((pllFactors m n p q x &&& rccPllcfgrPllp) >>> 16 + 1) * 2 = p ∧
      (pllFactors m n p q x &&& rccPllcfgrPllq) >>> 24 = q ∧
      (pllFactors m n p q x &&& rccPllcfgrPllsrc) >>> 22 = 1 := by
  rw [pllFactors_eq hrange]
  obtain ⟨heven, ⟨hp, hp'⟩, ⟨-, hm⟩, ⟨-, hn⟩, ⟨-, hq⟩⟩ := hrange
  refine ⟨?_, ?_, ?_, ?_, ?_⟩
  · rw [rccPllcfgrPllm_eq, ← BitVec.ushiftRight_zero (_ &&& _)]
    refine read_field (by omega) (by bv_omega) ?_
    simp (disch := omega) only [extractLsb'_writeField_self, extractLsb'_writeField_of_disjoint]
  · rw [rccPllcfgrPlln_eq]
    refine read_field (by omega) (by bv_omega) ?_
    simp (disch := omega) only [extractLsb'_writeField_self, extractLsb'_writeField_of_disjoint]
  · rw [rccPllcfgrPllp_eq, read_field (v := p / 2 - 1) (by omega), double_pllp heven]
    · rw [toNat_pllp hp]
      bv_omega
    · simp (disch := omega) only [extractLsb'_writeField_self, extractLsb'_writeField_of_disjoint]
  · rw [rccPllcfgrPllq_eq]
    refine read_field (by omega) (by bv_omega) ?_
    simp (disch := omega) only [extractLsb'_writeField_self, extractLsb'_writeField_of_disjoint]
  · rw [rccPllcfgrPllsrc_eq]
    refine read_field (v := 1) (by omega) (by decide) ?_
    exact extractLsb'_writeField_self (by omega) _ _

/-- The other bits stay. -/
theorem pllFactors_other (hrange : PllRange m n p q) (x : Word) {k : ℕ}
    (hk : k = 15 ∨ 18 ≤ k ∧ k < 22 ∨ k = 23 ∨ 28 ≤ k) :
    (pllFactors m n p q x).getLsbD k = x.getLsbD k := by
  rw [pllFactors_eq hrange]
  unfold clearedFactors
  rw [getLsbD_writeField (by omega), if_neg (by omega), getLsbD_writeField (by omega),
    if_neg (by omega), getLsbD_writeField (by omega), if_neg (by omega),
    getLsbD_writeField (by omega), if_neg (by omega), getLsbD_writeField (by omega),
    if_neg (by omega), getLsbD_writeField (by omega), if_neg (by omega),
    getLsbD_writeField (by omega), if_neg (by omega), getLsbD_writeField (by omega),
    if_neg (by omega), getLsbD_writeField (by omega), if_neg (by omega)]

end Factors

/-! ## `pllSetup` -/

/-- What `pllSetup` makes of the registers. -/
def pllRegs (m n p q : Word) (regs : Reg → Word) : Reg → Word
  | .rccCr => regs .rccCr &&& ~~~rccCrPllon ||| rccCrHseon ||| rccCrPllon
  | .rccPllcfgr => pllFactors m n p q (regs .rccPllcfgr)
  | .rccCfgr => regs .rccCfgr ||| rccCfgrSwPll
  | r => regs r

section Setup

variable {hw : Hardware} {regs : Reg → Word} {b : Board} {m n p q : Word} {tests : ℕ}

open Board (Shows)

theorem Board.Shows.and (h : Shows regs b) {r : Reg} {mask : Word}
    (hmask : mask &&& statusBits r = 0) : b.regs r &&& mask = regs r &&& mask := by
  apply BitVec.eq_of_getLsbD_eq
  intro k _
  have hbit : (mask &&& statusBits r).getLsbD k = false := by
    rw [hmask]
    exact BitVec.getLsbD_zero
  rw [BitVec.getLsbD_and] at hbit ⊢
  rw [BitVec.getLsbD_and]
  cases hs : (statusBits r).getLsbD k with
  | false => rw [h r k hs]
  | true =>
    rw [hs, Bool.and_true] at hbit
    rw [hbit, Bool.and_false, Bool.and_false]

/-- `SW` is the PLL if it was not the oscillator before. -/
theorem select_sw {x : Word} (hx : x &&& 1 = 0) : (x ||| rccCfgrSwPll) &&& 0x3 = rccCfgrSwPll := by
  have hbit : (x.extractLsb' 0 2).getLsbD 0 = false := by
    have hzero : ¬ x.getLsbD 0 = true := fun h =>
      (and_mask_ne_zero (k := 0) (by omega) x).mpr h hx
    simpa using hzero
  have hsel : ∀ y : BitVec 2, y.getLsbD 0 = false → y ||| 0b10 = 0b10 := by decide
  have hwrite : x ||| rccCfgrSwPll = writeField x 0 (x.extractLsb' 0 2 ||| 0b10) :=
    or_setWidth_shiftLeft (k := 0) (by omega) x (0b10 : BitVec 2)
  have hread := and_mask_ushiftRight (n := 2) (k := 0) (by omega) (x ||| rccCfgrSwPll)
  rw [BitVec.ushiftRight_zero, hwrite, extractLsb'_writeField_self (by omega), hsel _ hbit] at hread
  rw [hwrite, hsel _ hbit]
  exact hread

/-- A bit that was set is set. -/
theorem cr_ne_zero {x : Word} {k : ℕ} (hk : k < 32) (h : x.getLsbD k = true) :
    x &&& (1 : Word) <<< k ≠ 0 :=
  (and_mask_ne_zero hk x).mpr h

theorem pllSetup_shows (hrange : PllRange m n p q) :
    Triple (Shows regs) (pllSetup hw tests m n p q) (fun _ => Shows (pllRegs m n p q regs))
      (fun e _ => e = .waiting ∧ ¬ (hw.Ready tests ∧ regs .rccCfgr &&& 1 = 0)) := by
  obtain ⟨heven, hp, hm, hn, hq⟩ := hrange
  unfold pllSetup
  refine Triple.bind (assertThat_shows heven) fun _ => ?_
  refine Triple.bind (assertThat_shows hp) fun _ => ?_
  refine Triple.bind (assertThat_shows hm) fun _ => ?_
  refine Triple.bind (assertThat_shows hn) fun _ => ?_
  refine Triple.bind (assertThat_shows hq) fun _ => ?_
  refine Triple.bind (modifyReg_shows _ (bitwise_and _)) fun _ => ?_
  refine Triple.bind (waitFor_shows .pllOff fun _ b hb => ?_) fun _ => ?_
  · show b.regs .rccCr &&& rccCrPllon = 0
    rw [hb.and (by decide), Function.update_self, BitVec.and_assoc]
    simp
  refine Triple.bind (modifyReg_shows _ (bitwise_and _)) fun _ => ?_
  refine Triple.bind (modifyReg_shows _ (bitwise_or _)) fun _ => ?_
  refine Triple.bind (modifyReg_shows _ (bitwise_or _)) fun _ => ?_
  refine Triple.bind (modifyReg_shows _ (bitwise_or _)) fun _ => ?_
  refine Triple.bind (modifyReg_shows _ (bitwise_or _)) fun _ => ?_
  refine Triple.bind (modifyReg_shows _ (bitwise_and _)) fun _ => ?_
  refine Triple.bind (modifyReg_shows _ (bitwise_or _)) fun _ => ?_
  refine Triple.bind (modifyReg_shows _ (bitwise_or _)) fun _ => ?_
  refine Triple.bind (waitFor_shows .hseReady fun _ b hb => ?_) fun _ => ?_
  · show b.regs .rccCr &&& rccCrHseon ≠ 0
    rw [hb.and (by decide), Function.update_self]
    exact cr_ne_zero (by omega) (by simp [rccCrHseon])
  refine Triple.bind (modifyReg_shows _ (bitwise_or _)) fun _ => ?_
  refine Triple.bind (waitFor_shows .pllReady fun _ b hb => ?_) fun _ => ?_
  · show b.regs .rccCr &&& rccCrHseon ≠ 0 ∧ b.regs .rccCr &&& rccCrPllon ≠ 0
    rw [hb.and (by decide), hb.and (by decide), Function.update_self, Function.update_self]
    exact ⟨cr_ne_zero (by omega) (by simp [rccCrHseon]),
      cr_ne_zero (by omega) (by simp [rccCrPllon])⟩
  refine Triple.bind (modifyReg_shows _ (bitwise_or _)) fun _ => ?_
  refine (waitFor_shows .pllSelected fun hsw b hb => ?_).imp (fun _ hb => hb) (fun _ b hb => ?_)
    fun _ _ he => he
  · show b.regs .rccCfgr &&& 0x3 = rccCfgrSwPll
    rw [hb.and (by decide), Function.update_self]
    exact select_sw hsw
  · intro r k hk
    rw [hb r k hk]
    cases r <;> rfl

/-! ## The clock -/

theorem readPllcfgr_shows {E : BoardFault → Board → Prop} :
    Triple (Shows regs) (readReg hw .rccPllcfgr) (fun v b => v = regs .rccPllcfgr ∧ Shows regs b)
      E := by
  refine (readReg_shows .rccPllcfgr).imp (fun _ hb => hb) (fun v b hb => ⟨?_, hb.2⟩)
    fun _ _ he => he
  exact BitVec.eq_of_getLsbD_eq fun k _ => hb.1 k BitVec.getLsbD_zero

/-- The factors give the frequency of the PLL's oscillator. -/
theorem pllVco_shows (hrange : PllRange m n p q) {x : Word}
    (hregs : regs .rccPllcfgr = pllFactors m n p q x) (hse : Word) :
    Triple (Shows regs) (pllVco hw hse) (fun v b => v = hse / m * n ∧ Shows regs b)
      (fun _ _ => False) := by
  obtain ⟨hm, hn, -, -, hsrc⟩ := pllFactors_read hrange x
  have hpos : m ≠ 0 := by
    rintro rfl
    exact absurd hrange.2.2.1.1 (by decide)
  refine Triple.bind readPllcfgr_shows fun v₁ => Triple.of_and fun hv₁ => ?_
  refine Triple.bind readPllcfgr_shows fun v₂ => Triple.of_and fun hv₂ => ?_
  rw [hv₁, hv₂, hregs, hm, hsrc]
  simp only [if_neg hpos]
  refine Triple.bind readPllcfgr_shows fun v₃ => Triple.of_and fun hv₃ => ?_
  rw [hv₃, hregs, hn]
  exact Triple.pure fun b hb => ⟨rfl, hb⟩

/-- The bits by which `AHBPrescTable` shifts the clock. -/
def ahbShift (cfgr : Word) : ℕ := (ahbPrescTable.getD (cfgr.extractLsb' 4 4).toNat 0).toNat

theorem statusBits_cfgr {k : ℕ} (hk : 4 ≤ k) : (statusBits .rccCfgr).getLsbD k = false := by
  show (fieldMask 32 2 2).getLsbD k = false
  rw [getLsbD_fieldMask]
  exact decide_eq_false (by omega)

theorem shown_hpre (hb : Shows regs b) :
    ahbPrescTable.getD ((b.shown hw .rccCfgr &&& rccCfgrHpre) >>> 4).toNat 0 =
      ahbPrescTable.getD ((regs .rccCfgr).extractLsb' 4 4).toNat 0 := by
  have hfield : (b.shown hw .rccCfgr).extractLsb' 4 4 = (regs .rccCfgr).extractLsb' 4 4 :=
    extractLsb'_congr fun i _ => by
      have hstatus := statusBits_cfgr (show 4 ≤ 4 + i by omega)
      rw [shown_getLsbD hw b hstatus, hb _ _ hstatus]
  rw [rccCfgrHpre_eq, and_mask_ushiftRight (by omega), hfield, BitVec.toNat_setWidth,
    Nat.mod_eq_of_lt]
  exact lt_trans (BitVec.isLt _) (by decide)

theorem selectedClock_pll (hrange : PllRange m n p q) {x : Word}
    (hregs : regs .rccPllcfgr = pllFactors m n p q x) (hse : Word) :
    Triple (fun b => b.shown hw .rccCfgr &&& rccCfgrSwsMsk = rccCfgrSwsPll ∧ Shows regs b)
      (selectedClock hw hse)
      (fun _ b => b.systemCoreClock = hse / m * n / p ∧ Shows regs b) (fun _ _ => False) := by
  obtain ⟨-, -, hp, -, -⟩ := pllFactors_read hrange x
  refine Triple.bind (Q := fun v b => v &&& rccCfgrSwsMsk = rccCfgrSwsPll ∧ Shows regs b)
    (Triple.modifyGet fun b hb => hb) fun v => Triple.of_and fun hv => ?_
  rw [hv]
  refine Triple.bind (pllVco_shows hrange hregs hse) fun vco => Triple.of_and fun hvco => ?_
  refine Triple.bind readPllcfgr_shows fun v' => Triple.of_and fun hv' => ?_
  rw [hv', hregs, hp, hvco]
  exact Triple.modifyGet fun b hb => ⟨rfl, hb⟩

/-- `SystemCoreClockUpdate` after `pllSetup`. -/
theorem systemCoreClockUpdate_pll (hrange : PllRange m n p q) {x : Word}
    (hregs : regs .rccPllcfgr = pllFactors m n p q x) (hse : Word) :
    Triple (fun b => b.shown hw .rccCfgr &&& rccCfgrSwsMsk = rccCfgrSwsPll ∧ Shows regs b)
      (systemCoreClockUpdate hw hse)
      (fun _ b => b.systemCoreClock = (hse / m * n / p) >>> ahbShift (regs .rccCfgr) ∧
        Shows regs b) (fun _ _ => False) := by
  refine Triple.bind (selectedClock_pll hrange hregs hse) fun _ => ?_
  refine Triple.bind (Q := fun v b => ahbPrescTable.getD ((v &&& rccCfgrHpre) >>> 4).toNat 0 =
      ahbPrescTable.getD ((regs .rccCfgr).extractLsb' 4 4).toNat 0 ∧
      b.systemCoreClock = hse / m * n / p ∧ Shows regs b) ?_ fun v => Triple.of_and fun hv => ?_
  · exact Triple.modifyGet fun b hb => ⟨shown_hpre hb.2, hb⟩
  rw [hv]
  refine Triple.modifyGet fun b hb => ⟨?_, hb.2⟩
  show b.systemCoreClock >>> _ = _
  rw [hb.1]
  rfl

/-! ## All factors -/

/-- The bits that `pllSetup` may change. -/
def PllBit : Reg → ℕ → Prop
  | .rccCr, k => k = 16 ∨ k = 24
  | .rccPllcfgr, k => k < 15 ∨ 16 ≤ k ∧ k < 18 ∨ k = 22 ∨ 24 ≤ k ∧ k < 28
  | .rccCfgr, k => k = 1
  | _, _ => False

theorem pllRegs_other (hrange : PllRange m n p q) (regs : Reg → Word) {r : Reg} {k : ℕ}
    (hk : ¬ PllBit r k) : (pllRegs m n p q regs r).getLsbD k = (regs r).getLsbD k := by
  cases r with
  | rccCr =>
    obtain ⟨h16, h24⟩ := not_or.mp hk
    show (writeBit (writeBit (writeBit (regs .rccCr) 24 false) 16 true) 24 true).getLsbD k = _
    rw [getLsbD_writeBit_ne (by omega) h24, getLsbD_writeBit_ne (by omega) h16,
      getLsbD_writeBit_ne (by omega) h24]
  | rccPllcfgr =>
    by_cases hlt : k < 32
    · refine pllFactors_other hrange _ ?_
      unfold PllBit at hk
      omega
    · rw [BitVec.getLsbD_of_ge _ _ (by omega), BitVec.getLsbD_of_ge _ _ (by omega)]
  | rccCfgr => exact getLsbD_writeBit_ne (by omega) hk (regs .rccCfgr) true
  | _ => rfl

/-- What `pllSetup` leaves behind. The bits `HSEON`, `PLLON`, `PLLSRC` and `SW[1]` are set. -/
structure PllDone (hw : Hardware) (m n p q : Word) (b b' : Board) : Prop where
  /-- `PLLCFGR` holds the factors, and selects the external oscillator. -/
  factors : b'.regs .rccPllcfgr &&& rccPllcfgrPllm = m ∧
    (b'.regs .rccPllcfgr &&& rccPllcfgrPlln) >>> 6 = n ∧
    ((b'.regs .rccPllcfgr &&& rccPllcfgrPllp) >>> 16 + 1) * 2 = p ∧
    (b'.regs .rccPllcfgr &&& rccPllcfgrPllq) >>> 24 = q ∧
    (b'.regs .rccPllcfgr &&& rccPllcfgrPllsrc) >>> 22 = 1
  /-- The oscillator and the PLL are on. -/
  on : b'.regs .rccCr &&& rccCrHseon ≠ 0 ∧ b'.regs .rccCr &&& rccCrPllon ≠ 0
  /-- The PLL is asked for as the system clock. -/
  sw : b'.regs .rccCfgr &&& rccCfgrSwPll ≠ 0
  /-- No other bit has changed, except by the hardware. -/
  other : ∀ r k, ¬ PllBit r k → (statusBits r).getLsbD k = false →
    (b'.regs r).getLsbD k = (b.regs r).getLsbD k
  /-- While `SWS` shows the PLL, `SystemCoreClockUpdate` computes for any `HSE_VALUE` the
      frequency that the factors stand for, divided by the prescaler that was there
      before. -/
  clock : ∀ hse, b'.shown hw .rccCfgr &&& rccCfgrSwsMsk = rccCfgrSwsPll →
    ∃ b'', systemCoreClockUpdate hw hse b' = .ok () b'' ∧
      b''.systemCoreClock = (hse / m * n / p) >>> ahbShift (b.regs .rccCfgr)

theorem pllDone_of_shows (hrange : PllRange m n p q) {b b' : Board}
    (hb' : Shows (pllRegs m n p q b.regs) b') : PllDone hw m n p q b b' := by
  have hpll : b'.regs .rccPllcfgr = pllFactors m n p q (b.regs .rccPllcfgr) :=
    BitVec.eq_of_getLsbD_eq fun k _ => hb' .rccPllcfgr k BitVec.getLsbD_zero
  refine ⟨?_, ⟨?_, ?_⟩, ?_, fun r k hk hs => (hb' r k hs).trans (pllRegs_other hrange _ hk),
    fun hse hsel => ?_⟩
  · rw [hpll]
    exact pllFactors_read hrange _
  · rw [hb'.and (by decide)]
    exact cr_ne_zero (by omega) (by simp [pllRegs, rccCrHseon])
  · rw [hb'.and (by decide)]
    exact cr_ne_zero (by omega) (by simp [pllRegs, rccCrPllon])
  · rw [hb'.and (by decide)]
    exact cr_ne_zero (k := 1) (by omega) (by simp [pllRegs, rccCfgrSwPll])
  · have hends := systemCoreClockUpdate_pll hrange rfl hse b' ⟨hsel, hb'⟩
    have hshift : ahbShift (pllRegs m n p q b.regs .rccCfgr) = ahbShift (b.regs .rccCfgr) := by
      have hfield : (pllRegs m n p q b.regs .rccCfgr).extractLsb' 4 4 =
          (b.regs .rccCfgr).extractLsb' 4 4 :=
        extractLsb'_congr fun i _ => pllRegs_other hrange _ (by unfold PllBit; omega)
      unfold ahbShift
      rw [hfield]
    cases hres : systemCoreClockUpdate hw hse b' with
    | ok u b'' =>
      rw [hres] at hends
      exact ⟨b'', rfl, hends.1.trans (by rw [hshift])⟩
    | error e b'' =>
      rw [hres] at hends
      exact hends.elim

/-- A factor out of range stops `pllSetup` before its first access. -/
theorem pllSetup_assertion (hrange : ¬ PllRange m n p q) (b : Board) :
    pllSetup hw tests m n p q b = .error .assertion b := by
  unfold pllSetup
  by_cases heven : p % 2 = 0
  case neg => exact assertThat_bind_of_false _ heven b
  rw [assertThat_bind_of_true _ heven]
  by_cases hp : 2 ≤ p ∧ p ≤ 8
  case neg => exact assertThat_bind_of_false _ hp b
  rw [assertThat_bind_of_true _ hp]
  by_cases hm : 2 ≤ m ∧ m ≤ 63
  case neg => exact assertThat_bind_of_false _ hm b
  rw [assertThat_bind_of_true _ hm]
  by_cases hn : 50 ≤ n ∧ n ≤ 432
  case neg => exact assertThat_bind_of_false _ hn b
  rw [assertThat_bind_of_true _ hn]
  exact assertThat_bind_of_false _ (fun hq => hrange ⟨heven, hp, hm, hn, hq⟩) b

/-- **The PLL.** For all factors, and any content of the registers. If the factors are not
    as the asserts of `pllSetup` say, it stops there and no register has changed. If they
    are, it can only be kept waiting, by hardware that does not do what it is asked for or
    by the external oscillator being the system clock already. When it returns, each factor
    is in its field, `PLLSRC`, `HSEON`, `PLLON` and `SW[1]` are set, and all other bits are
    as before, apart from those that the hardware owns; and while `SWS` shows the PLL,
    `SystemCoreClockUpdate` gives `HSE_VALUE / m * n / p`, divided by the AHB prescaler. -/
theorem pllSetup_clock (hw : Hardware) (tests : ℕ) (m n p q : Word) (b : Board) :
    (¬ PllRange m n p q → pllSetup hw tests m n p q b = .error .assertion b) ∧
      (PllRange m n p q → Ends (fun _ b' => PllDone hw m n p q b b')
        (fun e _ => e = .waiting ∧ ¬ (hw.Ready tests ∧ b.regs .rccCfgr &&& 1 = 0))
        (pllSetup hw tests m n p q b)) := by
  constructor
  · exact fun hrange => pllSetup_assertion hrange b
  · intro hrange
    exact (pllSetup_shows hrange).imp (fun _ hb => hb)
      (fun _ _ hb' => pllDone_of_shows hrange hb') (fun _ _ he => he) b fun _ _ _ => rfl

end Setup

/-- Hardware whose flags follow the bits that ask for them at once. -/
def obedient : Hardware := fun _ r v => if r = .rccCfgr then v <<< 2 else v <<< 1

theorem obedient_cr (b : Board) {k : ℕ} (hk : k + 1 < 32)
    (hm : statusBits .rccCr &&& (1 : Word) <<< (k + 1) = (1 : Word) <<< (k + 1)) :
    b.shown obedient .rccCr &&& (1 : Word) <<< (k + 1) ≠ 0 ↔
      b.regs .rccCr &&& (1 : Word) <<< k ≠ 0 := by
  rw [shown_and b hm]
  show b.regs .rccCr <<< 1 &&& (1 : Word) <<< (k + 1) ≠ 0 ↔ b.regs .rccCr &&& (1 : Word) <<< k ≠ 0
  have hshift : (b.regs .rccCr <<< 1).getLsbD (k + 1) = (b.regs .rccCr).getLsbD k := by
    rw [BitVec.getLsbD_shiftLeft]
    simp [hk]
  have hleft := and_mask_ne_zero hk (b.regs .rccCr <<< 1)
  have hright := and_mask_ne_zero (show k < 32 by omega) (b.regs .rccCr)
  rw [hshift] at hleft
  exact hleft.trans hright.symm

theorem obedient_ready : obedient.Ready 1 := by
  intro w b hasked
  refine ⟨0, Nat.one_pos, ?_⟩
  cases w with
  | pllOff =>
    have hiff := obedient_cr b (k := 24) (by omega) (by decide)
    exact decide_eq_false fun hrdy => hiff.mp hrdy hasked
  | hseReady =>
    have hiff := obedient_cr b (k := 16) (by omega) (by decide)
    exact decide_eq_false fun hrdy => hiff.mpr hasked hrdy
  | pllReady =>
    have hiff := obedient_cr b (k := 24) (by omega) (by decide)
    exact decide_eq_false fun hrdy => hiff.mpr hasked.2 hrdy
  | pllSelected =>
    have hsws : b.shown obedient .rccCfgr &&& rccCfgrSwsMsk = rccCfgrSwsPll := by
      rw [shown_and b (by decide)]
      show b.regs .rccCfgr <<< 2 &&& (0x3 : Word) <<< 2 = rccCfgrSwsPll
      rw [← BitVec.shiftLeft_and_distrib, show b.regs .rccCfgr &&& 0x3 = rccCfgrSwPll from hasked]
      decide
    exact decide_eq_false (not_not_intro hsws)

theorem mainFactors_range : PllRange 8 336 2 7 := by decide

/-- The clock that `boardInit` writes to `SystemCoreClock` itself. -/
example : synthHseFrequency / 8 * 336 / 2 = synthSysclkFrequency := by decide

/-- The factors of `boardInit` after a reset: 168 MHz from a crystal of 8 MHz. -/
theorem pllSetup_clock_main :
    ∃ u b', pllSetup obedient 1 8 336 2 7 (Board.entry fun _ => 0) = .ok u b' ∧
      PllDone obedient 8 336 2 7 (Board.entry fun _ => 0) b' := by
  have hreturns : ∀ b : Board, b.regs .rccCfgr &&& 1 = 0 →
      ∃ u b', pllSetup obedient 1 8 336 2 7 b = .ok u b' ∧ PllDone obedient 8 336 2 7 b b' :=
    fun b hb => ((pllSetup_clock obedient 1 8 336 2 7 b).2 mainFactors_range).returns
      fun e s he => he.2 ⟨obedient_ready, hb⟩
  have hsw : (Board.entry fun _ => 0).regs .rccCfgr &&& 1 = 0 := by decide
  exact hreturns _ hsw

end StepperSynth
