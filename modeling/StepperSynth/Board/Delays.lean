import StepperSynth.Board.Init

/-!
# The delays of `boardInit`

Which calls of `errata_2_2_13` divide by zero. Of the configuration register only
the fields `HPRE` and `PPRE1` matter, and only the two writes to `PPRE1` change
them.

* `dummyReads_spec`, `dummyReads_endless`: the loop makes `cycles` rounds if its
  8-bit counter can reach `cycles`, and never ends otherwise.
* `errata_spec`: a delay divides by the field its mask selects.
* `boardInit_spec`: the calls of a run, for all values of the two fields at entry.
* `delays_safe_iff`: all delays are safe iff both fields are nonzero at entry.
-/

namespace StepperSynth

open Common

/-- The fields of `CFGR` that the delays depend on, and the calls so far. -/
structure Board.At (hpre : BitVec 4) (ppre1 : BitVec 3) (calls : List ErrataCall) (b : Board) :
    Prop where
  hpre : (b.regs .rccCfgr).extractLsb' 4 4 = hpre
  ppre1 : (b.regs .rccCfgr).extractLsb' 10 3 = ppre1
  calls : b.calls = calls

open Board (At)

variable {hw : Hardware} {h : BitVec 4} {p : BitVec 3} {cs : List ErrataCall}
  {E : BoardFault → Board → Prop}

/-! ## The fields through their masks -/

theorem rccCfgrSwsMsk_eq : rccCfgrSwsMsk = fieldMask 32 2 2 := rfl

theorem rccCfgrHpre_eq : rccCfgrHpre = fieldMask 32 4 4 := rfl

theorem rccCfgrPpre1_eq : rccCfgrPpre1 = fieldMask 32 3 10 := rfl

theorem rccCfgrPpre2_eq : rccCfgrPpre2 = fieldMask 32 3 13 := rfl

theorem read_hpre {v : Word} (hv : v.extractLsb' 4 4 = h) :
    ((v &&& rccCfgrHpre) >>> rccCfgrHprePos).setWidth 8 = h.setWidth 8 := by
  rw [rccCfgrHpre_eq, rccCfgrHprePos, and_mask_ushiftRight (by omega), hv]
  exact BitVec.setWidth_setWidth_of_le _ (by omega)

theorem read_ppre1 {v : Word} (hv : v.extractLsb' 10 3 = p) :
    ((v &&& rccCfgrPpre1) >>> rccCfgrPpre1Pos).setWidth 8 = p.setWidth 8 := by
  rw [rccCfgrPpre1_eq, rccCfgrPpre1Pos, and_mask_ushiftRight (by omega), hv]
  exact BitVec.setWidth_setWidth_of_le _ (by omega)

/-! ## Accesses -/

/-- The hardware does not touch the prescaler fields. -/
theorem shown_cfgr {b : Board} (hb : At h p cs b) :
    (b.shown hw .rccCfgr).extractLsb' 4 4 = h ∧ (b.shown hw .rccCfgr).extractLsb' 10 3 = p := by
  unfold Board.shown
  rw [show statusBits .rccCfgr = fieldMask 32 2 2 from rccCfgrSwsMsk_eq, merge_mask (by omega),
    extractLsb'_writeField_of_disjoint (by omega) (by omega),
    extractLsb'_writeField_of_disjoint (by omega) (by omega)]
  exact ⟨hb.hpre, hb.ppre1⟩

theorem readReg_spec (r : Reg) : Triple (At h p cs) (readReg hw r) (fun _ => At h p cs) E :=
  Triple.modifyGet fun _ hb => ⟨hb.hpre, hb.ppre1, hb.calls⟩

theorem readCfgr_spec : Triple (At h p cs) (readReg hw .rccCfgr)
    (fun v b => (v.extractLsb' 4 4 = h ∧ v.extractLsb' 10 3 = p) ∧ At h p cs b) E :=
  Triple.modifyGet fun _ hb => ⟨shown_cfgr hb, ⟨hb.hpre, hb.ppre1, hb.calls⟩⟩

theorem writeReg_spec {r : Reg} (hr : r ≠ .rccCfgr) (v : Word) :
    Triple (At h p cs) (writeReg r v) (fun _ => At h p cs) E := by
  refine Triple.modifyGet fun b hb => ?_
  have hcfgr : Function.update b.regs r v .rccCfgr = b.regs .rccCfgr :=
    Function.update_of_ne hr.symm _ _
  exact ⟨(congrArg _ hcfgr).trans hb.hpre, (congrArg _ hcfgr).trans hb.ppre1, hb.calls⟩

theorem writeCfgr_spec {h' : BitVec 4} {p' : BitVec 3} {v : Word} (hh : v.extractLsb' 4 4 = h')
    (hp : v.extractLsb' 10 3 = p') :
    Triple (At h p cs) (writeReg .rccCfgr v) (fun _ => At h' p' cs) E := by
  refine Triple.modifyGet fun b hb => ?_
  have hcfgr : Function.update b.regs .rccCfgr v .rccCfgr = v := Function.update_self _ _ _
  exact ⟨(congrArg _ hcfgr).trans hh, (congrArg _ hcfgr).trans hp, hb.calls⟩

/-- A write to a register other than `CFGR`. -/
theorem modifyReg_spec {r : Reg} (hr : r ≠ .rccCfgr) (f : Word → Word) :
    Triple (At h p cs) (modifyReg hw r f) (fun _ => At h p cs) E :=
  Triple.bind (readReg_spec r) fun v => writeReg_spec hr (f v)

/-- A write to `CFGR`. -/
theorem modifyCfgr_spec {h' : BitVec 4} {p' : BitVec 3} {f : Word → Word}
    (hf : ∀ v : Word, v.extractLsb' 4 4 = h → v.extractLsb' 10 3 = p →
      (f v).extractLsb' 4 4 = h' ∧ (f v).extractLsb' 10 3 = p') :
    Triple (At h p cs) (modifyReg hw .rccCfgr f) (fun _ => At h' p' cs) E := by
  refine Triple.bind readCfgr_spec fun v => Triple.of_and fun hv => ?_
  obtain ⟨hhpre, hppre⟩ := hf v hv.1 hv.2
  exact writeCfgr_spec hhpre hppre

theorem setSystemCoreClock_spec (v : Word) :
    Triple (At h p cs) (setSystemCoreClock v) (fun _ => At h p cs) E :=
  Triple.modifyGet fun _ hb => ⟨hb.hpre, hb.ppre1, hb.calls⟩

theorem assertThat_spec {c : Prop} [Decidable c] (hc : c) :
    Triple (At h p cs) (assertThat c) (fun _ => At h p cs) E := by
  unfold assertThat
  rw [if_pos hc]
  exact Triple.pure fun _ hb => hb

theorem waitFor_spec (w : Wait) (n : ℕ) :
    Triple (At h p cs) (waitFor hw w n) (fun _ => At h p cs)
      (fun e b => e = .waiting ∧ b.calls = cs) := by
  induction n with
  | zero => exact Triple.throw fun _ hb => ⟨rfl, hb.calls⟩
  | succ n ih =>
    refine Triple.bind (readReg_spec w.reg) fun v => ?_
    split_ifs
    · exact ih
    · exact Triple.pure fun _ hb => hb

/-! ## A delay -/

/-- The record of a call that read these fields. -/
def errataCall (reg : Reg) (hpre ppre : Byte) : ErrataCall :=
  let call : ErrataCall := { reg := reg, hpre := hpre, ppre := ppre, reads := none }
  if ppre = 0 then call else { call with reads := some call.cycles.toNat }

theorem writeDummy_spec (v : Word) :
    Triple (At h p cs) (writeDummy v) (fun _ => At h p cs) E :=
  Triple.modifyGet fun _ hb => ⟨hb.hpre, hb.ppre1, hb.calls⟩

theorem dummyReads_of_le (reg : Reg) {cycles : Word} (hc : cycles.toNat < 2 ^ 8) (n : ℕ) (i : Byte)
    (hi : i.toNat ≤ cycles.toNat) (hn : cycles.toNat - i.toNat < n) :
    Triple (At h p cs) (dummyReads hw reg cycles n i)
      (fun r b => r = some (cycles.toNat - i.toNat) ∧ At h p cs b) E := by
  induction n generalizing i with
  | zero => omega
  | succ n ih =>
    unfold dummyReads
    by_cases hlt : i.toNat < cycles.toNat
    · have hcond : i.setWidth 32 < cycles := by bv_omega
      have hnext : (i + 1).toNat = i.toNat + 1 := by bv_omega
      rw [if_pos hcond]
      refine Triple.bind (readReg_spec reg) fun v => ?_
      refine Triple.bind (writeDummy_spec v) fun _ => ?_
      refine Triple.bind (ih (i + 1) (by omega) (by omega)) fun r => Triple.of_and fun hr =>
        Triple.pure fun b hb => ⟨?_, hb⟩
      rw [hr, hnext, Option.map_some]
      exact congrArg some (by omega)
    · have hcond : ¬ i.setWidth 32 < cycles := by bv_omega
      have hzero : cycles.toNat - i.toNat = 0 := by omega
      rw [if_neg hcond, hzero]
      exact Triple.pure fun b hb => ⟨rfl, hb⟩

/-- If the counter can reach `cycles`, the loop makes `cycles` rounds. -/
theorem dummyReads_spec (reg : Reg) {cycles : Word} (hc : cycles.toNat < 2 ^ 8) :
    Triple (At h p cs) (dummyReads hw reg cycles (2 ^ 8) 0)
      (fun r b => r = some cycles.toNat ∧ At h p cs b) E :=
  dummyReads_of_le reg hc (2 ^ 8) 0 (Nat.zero_le _) hc

/-- Otherwise it wraps below `cycles`, and the loop never ends. -/
theorem dummyReads_endless (reg : Reg) {cycles : Word} (hc : 2 ^ 8 ≤ cycles.toNat) (n : ℕ)
    (i : Byte) : Triple (At h p cs) (dummyReads hw reg cycles n i)
      (fun r b => r = none ∧ At h p cs b) E := by
  induction n generalizing i with
  | zero => exact Triple.pure fun b hb => ⟨rfl, hb⟩
  | succ n ih =>
    have hcond : i.setWidth 32 < cycles := by bv_omega
    unfold dummyReads
    rw [if_pos hcond]
    refine Triple.bind (readReg_spec reg) fun v => ?_
    refine Triple.bind (writeDummy_spec v) fun _ => ?_
    refine Triple.bind (ih (i + 1)) fun r => Triple.of_and fun hr =>
      Triple.pure fun b hb => ⟨?_, hb⟩
    rw [hr]
    rfl

/-- The quotient of a four-bit field is small, so the counter reaches `cycles`. -/
theorem cycles_lt (reg : Reg) (h : BitVec 4) (d : Byte) (n : Option ℕ) :
    (ErrataCall.cycles ⟨reg, h.setWidth 8, d, n⟩).toNat < 2 ^ 8 := by
  have hh : (h.setWidth 8 : Byte).toNat < 16 := by
    rw [BitVec.toNat_setWidth]
    omega
  have hq : ((h.setWidth 8 : Byte) / d).toNat < 16 := by
    rw [BitVec.toNat_udiv]
    exact lt_of_le_of_lt (Nat.div_le_self _ _) hh
  show (1 + ((h.setWidth 8 : Byte) / d).setWidth 32 : Word).toNat < 2 ^ 8
  generalize (h.setWidth 8 : Byte) / d = quot at hq
  bv_omega

/-- A delay divides by the field its mask selects. -/
theorem errata_spec (reg : Reg) {preMsk : Word} {prePos : ℕ} {d : Byte}
    (hd : ∀ v : Word, v.extractLsb' 4 4 = h → v.extractLsb' 10 3 = p →
      ((v &&& preMsk) >>> prePos).setWidth 8 = d) :
    Triple (At h p cs) (errata_2_2_13 hw reg preMsk prePos)
      (fun _ b => d ≠ 0 ∧ At h p (cs ++ [errataCall reg (h.setWidth 8) d]) b)
      (fun e b => e = .divByZero ∧ d = 0 ∧ b.calls = cs ++ [errataCall reg (h.setWidth 8) d]) := by
  refine Triple.bind readCfgr_spec fun v₁ => Triple.of_and fun hv₁ => ?_
  refine Triple.bind readCfgr_spec fun v₂ => Triple.of_and fun hv₂ => ?_
  rw [read_hpre hv₁.1, hd v₂ hv₂.1 hv₂.2]
  unfold errataCall
  simp only
  by_cases h0 : d = 0
  · rw [if_pos h0, if_pos h0]
    exact Triple.bind (Triple.modifyGet fun b hb => congrArg (· ++ _) hb.calls) fun _ =>
      Triple.throw fun _ hb => ⟨rfl, h0, hb⟩
  · rw [if_neg h0, if_neg h0]
    refine Triple.bind (dummyReads_spec reg (cycles_lt reg h d none)) fun r =>
      Triple.of_and fun hr => ?_
    rw [hr, if_neg (Option.some_ne_none _)]
    exact Triple.bind (Triple.modifyGet fun b hb => ⟨h0, hb.hpre, hb.ppre1,
      congrArg (· ++ _) hb.calls⟩) fun _ => Triple.pure fun _ hb => hb

/-- A delay for a register of the AHB bus is given the field `HPRE` again. -/
theorem errata_hpre (reg : Reg) :
    Triple (At h p cs) (errata_2_2_13 hw reg rccCfgrHpre rccCfgrHprePos)
      (fun _ b => h ≠ 0 ∧ At h p (cs ++ [errataCall reg (h.setWidth 8) (h.setWidth 8)]) b)
      (fun e b => e = .divByZero ∧ h = 0 ∧
        b.calls = cs ++ [errataCall reg (h.setWidth 8) (h.setWidth 8)]) := by
  have hzero : (h.setWidth 8 : Byte) = 0 ↔ h = 0 := setWidth_eq_zero_iff (by omega) h
  simp only [Ne, ← hzero]
  exact errata_spec reg fun v hv _ => read_hpre hv

/-- A delay for a register of the APB1 bus is given the field `PPRE1`. -/
theorem errata_ppre1 (reg : Reg) :
    Triple (At h p cs) (errata_2_2_13 hw reg rccCfgrPpre1 rccCfgrPpre1Pos)
      (fun _ b => p ≠ 0 ∧ At h p (cs ++ [errataCall reg (h.setWidth 8) (p.setWidth 8)]) b)
      (fun e b => e = .divByZero ∧ p = 0 ∧
        b.calls = cs ++ [errataCall reg (h.setWidth 8) (p.setWidth 8)]) := by
  have hzero : (p.setWidth 8 : Byte) = 0 ↔ p = 0 := setWidth_eq_zero_iff (by omega) p
  simp only [Ne, ← hzero]
  exact errata_spec reg fun v _ hv => read_ppre1 hv

/-! ## `pllSetup` and `boardInit` -/

/-- A field apart from `HPRE` and `PPRE1` is written without touching the two. -/
theorem writeField_keeps {n k : ℕ} (hk : k + n ≤ 4 ∨ 13 ≤ k ∧ k + n ≤ 32) {v : Word}
    (hv : v.extractLsb' 4 4 = h ∧ v.extractLsb' 10 3 = p) (x : BitVec n) :
    (writeField v k x).extractLsb' 4 4 = h ∧ (writeField v k x).extractLsb' 10 3 = p := by
  rw [extractLsb'_writeField_of_disjoint (by omega) (by omega),
    extractLsb'_writeField_of_disjoint (by omega) (by omega)]
  exact hv

/-- A write to `PPRE1` does not touch `HPRE`. -/
theorem writeField_ppre1 {v : Word} (hh : v.extractLsb' 4 4 = h) (x : BitVec 3) :
    (writeField v 10 x).extractLsb' 4 4 = h ∧ (writeField v 10 x).extractLsb' 10 3 = x := by
  rw [extractLsb'_writeField_of_disjoint (by omega) (by omega),
    extractLsb'_writeField_self (by omega)]
  exact ⟨hh, rfl⟩

theorem clear_ppre1 : Triple (At h p cs) (modifyReg hw .rccCfgr (· &&& ~~~rccCfgrPpre1))
    (fun _ => At h 0 cs) E :=
  modifyCfgr_spec fun v hh _ => by
    rw [rccCfgrPpre1_eq, writeField_zero]
    exact writeField_ppre1 hh 0

theorem set_ppre1 : Triple (At h 0 cs) (modifyReg hw .rccCfgr (· ||| 0b101 <<< rccCfgrPpre1Pos))
    (fun _ => At h 0b101 cs) E :=
  modifyCfgr_spec fun v hh hp => by
    show (v ||| (0b101 : BitVec 3).setWidth 32 <<< 10).extractLsb' 4 4 = h ∧
      (v ||| (0b101 : BitVec 3).setWidth 32 <<< 10).extractLsb' 10 3 = 0b101
    rw [or_setWidth_shiftLeft (by omega), hp]
    exact writeField_ppre1 hh _

theorem clear_ppre2 : Triple (At h p cs) (modifyReg hw .rccCfgr (· &&& ~~~rccCfgrPpre2))
    (fun _ => At h p cs) E :=
  modifyCfgr_spec fun v hh hp => by
    rw [rccCfgrPpre2_eq, writeField_zero]
    exact writeField_keeps (by omega) ⟨hh, hp⟩ 0

theorem set_ppre2 : Triple (At h p cs) (modifyReg hw .rccCfgr (· ||| 0b100 <<< rccCfgrPpre2Pos))
    (fun _ => At h p cs) E :=
  modifyCfgr_spec fun v hh hp => by
    show (v ||| (0b100 : BitVec 3).setWidth 32 <<< 13).extractLsb' 4 4 = h ∧
      (v ||| (0b100 : BitVec 3).setWidth 32 <<< 13).extractLsb' 10 3 = p
    rw [or_setWidth_shiftLeft (by omega)]
    exact writeField_keeps (by omega) ⟨hh, hp⟩ _

theorem select_pll : Triple (At h p cs) (modifyReg hw .rccCfgr (· ||| rccCfgrSwPll))
    (fun _ => At h p cs) E :=
  modifyCfgr_spec fun v hh hp => by
    show (v ||| (0b10 : BitVec 2).setWidth 32 <<< 0).extractLsb' 4 4 = h ∧
      (v ||| (0b10 : BitVec 2).setWidth 32 <<< 0).extractLsb' 10 3 = p
    rw [or_setWidth_shiftLeft (by omega)]
    exact writeField_keeps (by omega) ⟨hh, hp⟩ _

/-- `pllSetup` leaves the prescalers alone, and can only be held up by a wait. -/
theorem pllSetup_spec {tests : ℕ} (hwait : ∀ w,
    Triple (At h p cs) (waitFor hw w tests) (fun _ => At h p cs) E) :
    Triple (At h p cs) (pllSetup hw tests (synthHseFrequency / mhz) (synthSysclkFrequency / mhz * 2)
      2 (synthSysclkFrequency / mhz / 24)) (fun _ => At h p cs) E := by
  have hcr : Reg.rccCr ≠ .rccCfgr := by decide
  have hpll : Reg.rccPllcfgr ≠ .rccCfgr := by decide
  unfold pllSetup
  refine Triple.bind (assertThat_spec (by decide)) fun _ => ?_
  refine Triple.bind (assertThat_spec (by decide)) fun _ => ?_
  refine Triple.bind (assertThat_spec (by decide)) fun _ => ?_
  refine Triple.bind (assertThat_spec (by decide)) fun _ => ?_
  refine Triple.bind (assertThat_spec (by decide)) fun _ => ?_
  refine Triple.bind (modifyReg_spec hcr _) fun _ => ?_
  refine Triple.bind (hwait .pllOff) fun _ => ?_
  refine Triple.bind (modifyReg_spec hpll _) fun _ => ?_
  refine Triple.bind (modifyReg_spec hpll _) fun _ => ?_
  refine Triple.bind (modifyReg_spec hpll _) fun _ => ?_
  refine Triple.bind (modifyReg_spec hpll _) fun _ => ?_
  refine Triple.bind (modifyReg_spec hpll _) fun _ => ?_
  refine Triple.bind (modifyReg_spec hpll _) fun _ => ?_
  refine Triple.bind (modifyReg_spec hpll _) fun _ => ?_
  refine Triple.bind (modifyReg_spec hcr _) fun _ => ?_
  refine Triple.bind (hwait .hseReady) fun _ => ?_
  refine Triple.bind (modifyReg_spec hcr _) fun _ => ?_
  refine Triple.bind (hwait .pllReady) fun _ => ?_
  refine Triple.bind select_pll fun _ => ?_
  exact hwait .pllSelected

/-- The four calls, for the fields `HPRE` and `PPRE1` at entry. -/
def delays (h : BitVec 4) (p : BitVec 3) : List ErrataCall :=
  [errataCall .rccApb1enr (h.setWidth 8) (p.setWidth 8),
    errataCall .rccAhb1enr (h.setWidth 8) (h.setWidth 8),
    errataCall .rccAhb2enr (h.setWidth 8) (h.setWidth 8),
    errataCall .rccApb1enr (h.setWidth 8) ((0b101 : BitVec 3).setWidth 8)]

/-- Why a run of `boardInit` has not returned; `mayWait` tells whether the
    hardware can keep it waiting. -/
inductive Stopped (mayWait : Prop) (h : BitVec 4) (p : BitVec 3) : BoardFault → Board → Prop
  /-- The first delay divides by `PPRE1`. -/
  | first {b : Board} (hp : p = 0) (hb : b.calls = (delays h p).take 1) :
    Stopped mayWait h p .divByZero b
  /-- The PLL is not ready yet. -/
  | pll {b : Board} (hw : mayWait) (hp : p ≠ 0) (hb : b.calls = (delays h p).take 1) :
    Stopped mayWait h p .waiting b
  /-- The second delay divides by `HPRE`. -/
  | second {b : Board} (hp : p ≠ 0) (hh : h = 0) (hb : b.calls = (delays h p).take 2) :
    Stopped mayWait h p .divByZero b

/-- The runs of `boardInit`. -/
theorem boardInit_spec {tests : ℕ} {mayWait : Prop} (hwait : ∀ cs w,
    Triple (At h 0b101 cs) (waitFor hw w tests) (fun _ => At h 0b101 cs)
      (fun e b => mayWait ∧ e = .waiting ∧ b.calls = cs)) :
    Triple (At h p []) (boardInit hw tests)
      (fun clk b => (p ≠ 0 ∧ h ≠ 0 ∧ clk.apb1tim = PWMGenerator.mainClock) ∧
        b.calls = delays h p)
      (Stopped mayWait h p) := by
  have hapb1 : Reg.rccApb1enr ≠ .rccCfgr := by decide
  have hahb1 : Reg.rccAhb1enr ≠ .rccCfgr := by decide
  have hahb2 : Reg.rccAhb2enr ≠ .rccCfgr := by decide
  have hflash : Reg.flashAcr ≠ .rccCfgr := by decide
  unfold boardInit
  refine Triple.bind (assertThat_spec (by decide)) fun _ => ?_
  refine Triple.bind (modifyReg_spec hapb1 _) fun _ => ?_
  refine Triple.bind ((errata_ppre1 .rccApb1enr).imp (fun _ hb => hb) (fun _ _ hb => hb) ?_)
    fun _ => Triple.of_and fun hp => ?_
  · rintro e b ⟨rfl, hp, hb⟩
    exact .first hp hb
  refine Triple.bind (modifyReg_spec (by decide) _) fun _ => ?_
  refine Triple.bind (modifyReg_spec hflash _) fun _ => ?_
  refine Triple.bind (modifyReg_spec hflash _) fun _ => ?_
  refine Triple.bind (modifyReg_spec hflash _) fun _ => ?_
  refine Triple.bind clear_ppre1 fun _ => ?_
  refine Triple.bind set_ppre1 fun _ => ?_
  refine Triple.bind clear_ppre2 fun _ => ?_
  refine Triple.bind set_ppre2 fun _ => ?_
  refine Triple.bind ((pllSetup_spec (hwait _)).imp (fun _ hb => hb) (fun _ _ hb => hb) ?_)
    fun _ => ?_
  · rintro e b ⟨hw, rfl, hb⟩
    exact .pll hw hp hb
  refine Triple.bind (setSystemCoreClock_spec _) fun _ => ?_
  refine Triple.bind (modifyReg_spec hahb1 _) fun _ => ?_
  refine Triple.bind (modifyReg_spec hahb1 _) fun _ => ?_
  refine Triple.bind ((errata_hpre .rccAhb1enr).imp (fun _ hb => hb) (fun _ _ hb => hb) ?_)
    fun _ => Triple.of_and fun hh => ?_
  · rintro e b ⟨rfl, hh, hb⟩
    exact .second hp hh hb
  refine Triple.bind (modifyReg_spec hahb2 _) fun _ => ?_
  refine Triple.bind ((errata_hpre .rccAhb2enr).imp (fun _ hb => hb) (fun _ _ hb => hb) ?_)
    fun _ => Triple.of_and fun _ => ?_
  · rintro e b ⟨-, h0, -⟩
    exact absurd h0 hh
  refine Triple.bind (modifyReg_spec hapb1 _) fun _ => ?_
  refine Triple.bind ((errata_ppre1 .rccApb1enr).imp (fun _ hb => hb) (fun _ _ hb => hb) ?_)
    fun _ => Triple.of_and fun _ => ?_
  · rintro e b ⟨-, h0, -⟩
    exact absurd h0 (by decide)
  exact Triple.pure fun b hb => ⟨⟨hp, hh, rfl⟩, hb.calls⟩

/-! ## Safety -/

/-- The call divides by a nonzero field, and its loop ends after exactly `cycles`
    dummy reads. -/
def ErrataCall.Safe (c : ErrataCall) : Prop := c.ppre ≠ 0 ∧ c.reads = some c.cycles.toNat

instance (c : ErrataCall) : Decidable c.Safe := inferInstanceAs (Decidable (_ ∧ _))

/-- All calls so far are safe. -/
def Board.DelaysSafe (b : Board) : Prop := ∀ c ∈ b.calls, c.Safe

instance (b : Board) : Decidable b.DelaysSafe := inferInstanceAs (Decidable (∀ c ∈ b.calls, _))

theorem errataCall_safe_iff (reg : Reg) (hpre ppre : Byte) :
    (errataCall reg hpre ppre).Safe ↔ ppre ≠ 0 := by
  unfold errataCall ErrataCall.Safe
  simp only
  split_ifs with h0
  · simp [h0]
  · exact ⟨fun hs => hs.1, fun hne => ⟨hne, rfl⟩⟩

theorem delays_safe_of_ne {h : BitVec 4} {p : BitVec 3} (hp : p ≠ 0) (hh : h ≠ 0) :
    ∀ c ∈ delays h p, c.Safe := by
  have hp8 : (p.setWidth 8 : Byte) ≠ 0 := (setWidth_eq_zero_iff (by omega) p).not.mpr hp
  have hh8 : (h.setWidth 8 : Byte) ≠ 0 := (setWidth_eq_zero_iff (by omega) h).not.mpr hh
  intro c hc
  simp only [delays, List.mem_cons, List.not_mem_nil, or_false] at hc
  rcases hc with rfl | rfl | rfl | rfl
  · exact (errataCall_safe_iff _ _ _).mpr hp8
  · exact (errataCall_safe_iff _ _ _).mpr hh8
  · exact (errataCall_safe_iff _ _ _).mpr hh8
  · exact (errataCall_safe_iff _ _ _).mpr (by decide)

/-- Status bits that change at every access: the flags of `CR`, and `SWS`
    between 0 and 2. -/
def blinking : Hardware := fun n _ _ => if n % 2 = 0 then 0 else 0x02020008

/-- Masks within the status bits see only the hardware. -/
theorem shown_and (b : Board) {r : Reg} {m : Word} (hm : statusBits r &&& m = m) :
    b.shown hw r &&& m = hw b.accesses r (b.regs r) &&& m := by
  unfold Board.shown
  apply BitVec.eq_of_getLsbD_eq
  intro i hi
  have hbit := congrArg (fun v => v.getLsbD i) hm
  simp only [BitVec.getLsbD_and, BitVec.getLsbD_or, BitVec.getLsbD_not] at hbit ⊢
  cases hmi : m.getLsbD i with
  | true =>
    rw [hmi, Bool.and_true] at hbit
    simp [hbit]
  | false => simp

/-- The accesses at which these status bits end the loop. -/
def Wait.phase : Wait → ℕ
  | .pllOff => 0
  | _ => 1

theorem cond_blinking (w : Wait) (b : Board) (hb : b.accesses % 2 = w.phase) :
    w.cond (b.shown blinking w.reg) = false := by
  have heven : b.accesses % 2 = 0 → ∀ r, blinking b.accesses r (b.regs r) = 0 :=
    fun h0 _ => if_pos h0
  have hodd : b.accesses % 2 = 1 → ∀ r, blinking b.accesses r (b.regs r) = 0x02020008 :=
    fun h1 _ => if_neg (by omega)
  cases w with
  | pllOff =>
    show decide (b.shown blinking .rccCr &&& rccCrPllrdy ≠ 0) = false
    rw [shown_and b (by decide), heven hb]
    decide
  | hseReady =>
    show decide (b.shown blinking .rccCr &&& rccCrHserdy = 0) = false
    rw [shown_and b (by decide), hodd hb]
    decide
  | pllReady =>
    show decide (b.shown blinking .rccCr &&& rccCrPllrdy = 0) = false
    rw [shown_and b (by decide), hodd hb]
    decide
  | pllSelected =>
    show decide (b.shown blinking .rccCfgr &&& rccCfgrSwsMsk ≠ rccCfgrSwsPll) = false
    rw [shown_and b (by decide), hodd hb]
    decide

/-- A test that fails is followed by one that does not. -/
theorem readWait_spec (w : Wait) : Triple (At h p cs) (readReg blinking w.reg)
    (fun v b => At h p cs b ∧ (w.cond v = true → b.accesses % 2 = w.phase)) E := by
  refine Triple.modifyGet fun b hb => ⟨⟨hb.hpre, hb.ppre1, hb.calls⟩, fun hcond => ?_⟩
  have hphase : ¬ b.accesses % 2 = w.phase := by
    intro hphase
    rw [cond_blinking w b hphase] at hcond
    cases hcond
  have hlt : w.phase < 2 := by cases w <;> decide
  show (b.accesses + 1) % 2 = w.phase
  omega

/-- No loop waits longer than two tests for these. -/
theorem waitFor_blinking (w : Wait) :
    Triple (At h p cs) (waitFor blinking w 2) (fun _ => At h p cs)
      (fun e b => False ∧ e = .waiting ∧ b.calls = cs) := by
  refine Triple.bind (readWait_spec w) fun v => ?_
  split_ifs with hcond
  · -- the second test
    refine Triple.bind (Q := fun v b => w.cond v = false ∧ At h p cs b) ?_ fun v' =>
      Triple.of_and fun hcond' => ?_
    · exact Triple.modifyGet fun b hb => ⟨cond_blinking w b (hb.2 hcond), hb.1.hpre, hb.1.ppre1,
        hb.1.calls⟩
    · rw [if_neg (by rw [hcond']; decide)]
      exact Triple.pure fun _ hb => hb
  · exact Triple.pure fun _ hb => hb.1

/-- Nonzero fields make all calls safe. -/
theorem safe_of_ne (tests : ℕ) (hp : p ≠ 0) (hh : h ≠ 0) :
    Triple (At h p []) (boardInit hw tests) (fun _ => Board.DelaysSafe)
      (fun _ => Board.DelaysSafe) := by
  have hwait : ∀ cs w, Triple (At h 0b101 cs) (waitFor hw w tests) (fun _ => At h 0b101 cs)
      (fun e b => True ∧ e = .waiting ∧ b.calls = cs) := fun cs w =>
    (waitFor_spec w tests).imp (fun _ hb => hb) (fun _ _ hb => hb) fun _ _ hb => ⟨trivial, hb⟩
  refine (boardInit_spec hwait).imp (fun _ hb => hb) ?_ ?_
  · rintro clk b ⟨-, hb⟩ c hc
    rw [hb] at hc
    exact delays_safe_of_ne hp hh c hc
  · rintro e b hstop c hc
    cases hstop with
    | first hp0 hb => exact absurd hp0 hp
    | pll _ _ hb =>
      rw [hb] at hc
      exact delays_safe_of_ne hp hh c (List.mem_of_mem_take hc)
    | second _ hh0 hb => exact absurd hh0 hh

/-- If the hardware becomes ready, a zero field makes a call unsafe. -/
theorem ne_of_safe : Triple (At h p []) (boardInit blinking 2)
    (fun _ b => b.DelaysSafe → p ≠ 0 ∧ h ≠ 0) (fun _ b => b.DelaysSafe → p ≠ 0 ∧ h ≠ 0) := by
  refine (boardInit_spec fun cs w => waitFor_blinking w).imp (fun _ hb => hb) ?_ ?_
  · rintro clk b ⟨⟨hp, hh, -⟩, -⟩ -
    exact ⟨hp, hh⟩
  · rintro e b hstop hsafe
    cases hstop with
    | first hp hb =>
      have hcall := hsafe (errataCall .rccApb1enr (h.setWidth 8) (p.setWidth 8)) (by
        rw [hb]
        exact List.mem_cons_self)
      rw [errataCall_safe_iff, Ne, setWidth_eq_zero_iff (by omega)] at hcall
      exact absurd hp hcall
    | pll hw _ _ => exact hw.elim
    | second _ hh hb =>
      have hcall := hsafe (errataCall .rccAhb1enr (h.setWidth 8) (h.setWidth 8)) (by
        rw [hb]
        exact List.mem_cons_of_mem _ List.mem_cons_self)
      rw [errataCall_safe_iff, Ne, setWidth_eq_zero_iff (by omega)] at hcall
      exact absurd hh hcall

/-- **When the delays are safe.** For every content of the registers at entry:
    whatever the hardware shows in its status bits and however long it keeps the
    loops of `pllSetup` waiting, every call of `errata_2_2_13` divides by a
    nonzero value and makes exactly `cycles` dummy reads, if and only if the
    fields `PPRE1` and `HPRE` of `CFGR` are both nonzero at entry. -/
theorem delays_safe_iff (regs : Reg → Word) :
    (∀ hw tests, (finalState (boardInit hw tests (Board.entry regs))).DelaysSafe) ↔
      regs .rccCfgr &&& rccCfgrPpre1 ≠ 0 ∧ regs .rccCfgr &&& rccCfgrHpre ≠ 0 := by
  have hentry : At ((regs .rccCfgr).extractLsb' 4 4) ((regs .rccCfgr).extractLsb' 10 3) []
      (Board.entry regs) := ⟨rfl, rfl, rfl⟩
  rw [rccCfgrPpre1_eq, rccCfgrHpre_eq, Ne, Ne, and_mask_eq_zero_iff (by omega),
    and_mask_eq_zero_iff (by omega)]
  constructor
  · intro hsafe
    exact Triple.final ne_of_safe hentry (hsafe blinking 2)
  · intro hne hw tests
    exact Triple.final (safe_of_ne tests hne.1 hne.2) hentry

/-- After a reset, when the prescaler fields are 0, the first delay divides by 0. -/
theorem delays_unsafe_reset :
    ¬ (finalState (boardInit blinking 2 (Board.entry fun _ => 0))).DelaysSafe := by
  decide

end StepperSynth
