import StepperSynth.Board.Clock

/-!
# What `boardInit` leaves behind

* `errata_steady`: a delay writes no register.
* `stages_eq`, `boardInit_shows`: the registers after `boardInit`.
* `boardInit_done`: every run of `boardInit`, and whether the clocks it returns are those
  that `SystemCoreClockUpdate` reads in the registers, for two values of `HSE_VALUE`.
-/

namespace StepperSynth

open Common
open Board (Shows)

/-- `APBPrescTable` (`system_stm32f4xx.c` line 139). -/
def apbPrescTable : List Byte := [0, 0, 0, 0, 1, 2, 3, 4]

/-- The bits by which `APBPrescTable` shifts the clock of a bus with this prescaler. -/
def apbShift (ppre : BitVec 3) : ℕ := (apbPrescTable.getD ppre.toNat 0).toNat

/-- What `boardInit` makes of the registers. -/
def boardRegs (regs : Reg → Word) : Reg → Word
  | .rccCr => writeBit (writeBit (regs .rccCr) 16 true) 24 true
  | .rccPllcfgr => writeField (writeField (writeField (writeField (writeField
      (regs .rccPllcfgr) 0 8#6) 6 336#9) 16 0#2) 22 1#1) 24 7#4
  | .rccCfgr => writeBit (writeField (writeField (regs .rccCfgr) 10 0b101#3) 13 0b100#3) 1 true
  | .rccAhb1enr => writeBit (writeBit (regs .rccAhb1enr) 0 true) 2 true
  | .rccAhb2enr => writeBit (regs .rccAhb2enr) 7 true
  | .rccApb1enr => writeBit (writeBit (writeBit (regs .rccApb1enr) 28 true) 0 true) 1 true
  | .pwrCr => writeBit (regs .pwrCr) 14 true
  | .flashAcr => writeField (writeBit (writeBit (writeBit (regs .flashAcr) 8 true) 9 true) 10
      true) 0 5#3

section Setup

variable {hw : Hardware} {regs : Reg → Word} {b : Board} {tests : ℕ}
  {E : BoardFault → Board → Prop}

/-! ## The delays -/

/-- What is said of the registers and of `SystemCoreClock` only. -/
def Steady (P : Board → Prop) : Prop :=
  ∀ b n d cs, P b → P { b with accesses := n, dummy := d, calls := cs }

variable {P : Board → Prop}

theorem readReg_steady (hP : Steady P) (r : Reg) :
    Triple P (readReg hw r) (fun _ => P) E :=
  Triple.modifyGet fun b hb => hP b _ b.dummy b.calls hb

theorem writeDummy_steady (hP : Steady P) (v : Word) :
    Triple P (writeDummy v) (fun _ => P) E :=
  Triple.modifyGet fun b hb => hP b b.accesses _ b.calls hb

theorem logCall_steady (hP : Steady P) (c : ErrataCall) :
    Triple P (logCall c) (fun _ => P) E :=
  Triple.modifyGet fun b hb => hP b b.accesses b.dummy _ hb

theorem dummyReads_steady (hP : Steady P) (reg : Reg) (cycles : Word) (n : ℕ) (i : Byte) :
    Triple P (dummyReads hw reg cycles n i) (fun _ => P) E := by
  induction n generalizing i with
  | zero => exact Triple.pure fun _ hb => hb
  | succ n ih =>
    unfold dummyReads
    split_ifs
    · refine Triple.bind (readReg_steady hP reg) fun v => ?_
      refine Triple.bind (writeDummy_steady hP v) fun _ => ?_
      exact Triple.bind (ih (i + 1)) fun _ => Triple.pure fun _ hb => hb
    · exact Triple.pure fun _ hb => hb

/-- A delay writes no register, and does not wait for the hardware. -/
theorem errata_steady {φ : Prop} (hP : Steady P) (reg : Reg) (preMsk : Word) (prePos : ℕ) :
    Triple P (errata_2_2_13 hw reg preMsk prePos) (fun _ => P) (fun e _ => e = .waiting → φ) := by
  refine Triple.bind (readReg_steady hP .rccCfgr) fun v₁ => ?_
  refine Triple.bind (readReg_steady hP .rccCfgr) fun v₂ => ?_
  simp only
  split_ifs
  · exact Triple.bind (logCall_steady hP _) fun _ => Triple.throw fun _ _ => nofun
  · refine Triple.bind (dummyReads_steady hP reg _ _ 0) fun reads => ?_
    refine Triple.bind (logCall_steady hP _) fun _ => ?_
    split_ifs
    · exact Triple.throw fun _ _ => nofun
    · exact Triple.pure fun _ hb => hb

/-! ## The registers -/

/-- The registers before `pllSetup`. -/
def prescaledRegs (regs : Reg → Word) : Reg → Word
  | .rccApb1enr => regs .rccApb1enr ||| rccApb1enrPwren
  | .pwrCr => regs .pwrCr ||| 1 <<< pwrCrVosPos
  | .flashAcr => (regs .flashAcr ||| (flashAcrDcen ||| flashAcrIcen ||| flashAcrPrften)) &&&
      ~~~flashAcrLatencyMsk ||| flashAcrLatency5ws
  | .rccCfgr => (regs .rccCfgr &&& ~~~rccCfgrPpre1 ||| 0b101 <<< rccCfgrPpre1Pos) &&&
      ~~~rccCfgrPpre2 ||| 0b100 <<< rccCfgrPpre2Pos
  | r => regs r

/-- The registers after the peripheral clocks have been enabled. -/
def enabledRegs (regs : Reg → Word) : Reg → Word
  | .rccAhb1enr => regs .rccAhb1enr ||| rccAhb1enrGpioaen ||| rccAhb1enrGpiocen
  | .rccAhb2enr => regs .rccAhb2enr ||| rccAhb2enrOtgfsen
  | .rccApb1enr => regs .rccApb1enr ||| (rccApb1enrTim2en ||| rccApb1enrTim3en)
  | r => regs r

theorem ppre_eq {x : Word} :
    (x &&& ~~~rccCfgrPpre1 ||| 0b101 <<< rccCfgrPpre1Pos) &&& ~~~rccCfgrPpre2 |||
        0b100 <<< rccCfgrPpre2Pos = writeField (writeField x 10 0b101#3) 13 0b100#3 := by
  rw [rccCfgrPpre1_eq, rccCfgrPpre2_eq, writeField_zero, writeField_zero]
  show (writeField (writeField x 10 0#3 ||| (0b101#3).setWidth 32 <<< 10) 13 0#3 |||
    (0b100#3).setWidth 32 <<< 13) = _
  rw [or_writeField x 0b101#3, or_writeField _ 0b100#3]

theorem cr_eq (x : Word) : x &&& ~~~rccCrPllon ||| rccCrHseon ||| rccCrPllon =
    writeBit (writeBit x 16 true) 24 true := by
  show writeBit (writeBit (writeBit x 24 false) 16 true) 24 true = _
  apply BitVec.eq_of_getLsbD_eq
  intro k _
  simp (disch := omega) only [getLsbD_writeBit]
  split_ifs <;> rfl

theorem pllcfgr_eq (x : Word) : pllFactors 8 336 2 7 x =
    writeField (writeField (writeField (writeField (writeField x 0 8#6) 6 336#9) 16 0#2) 22 1#1)
      24 7#4 := by
  rw [pllFactors_eq mainFactors_range]
  unfold clearedFactors
  apply BitVec.eq_of_getLsbD_eq
  intro k _
  simp (disch := omega) only [getLsbD_writeField]
  split_ifs <;> first | rfl | omega

theorem flashAcr_eq (x : Word) :
    (x ||| (flashAcrDcen ||| flashAcrIcen ||| flashAcrPrften)) &&& ~~~flashAcrLatencyMsk |||
        flashAcrLatency5ws =
      writeField (writeBit (writeBit (writeBit x 8 true) 9 true) 10 true) 0 5#3 := by
  have hset : x ||| (flashAcrDcen ||| flashAcrIcen ||| flashAcrPrften) =
      writeBit (writeBit (writeBit x 8 true) 9 true) 10 true := by
    show _ = x ||| flashAcrPrften ||| flashAcrIcen ||| flashAcrDcen
    rw [BitVec.or_comm flashAcrDcen, BitVec.or_comm _ flashAcrPrften, BitVec.or_assoc,
      BitVec.or_assoc]
  have hmask : flashAcrLatencyMsk = fieldMask 32 3 0 := rfl
  rw [hset, hmask, writeField_zero]
  exact or_writeField _ 5#3

/-- The stages together. -/
theorem stages_eq : enabledRegs (pllRegs 8 336 2 7 (prescaledRegs regs)) = boardRegs regs := by
  funext r
  cases r with
  | rccCr => exact cr_eq _
  | rccPllcfgr => exact pllcfgr_eq _
  | rccCfgr => exact congrArg (· ||| rccCfgrSwPll) ppre_eq
  | flashAcr => exact flashAcr_eq _
  | rccApb1enr => exact (BitVec.or_assoc _ _ _).symm
  | _ => rfl

/-- A read-modify-write does not touch `SystemCoreClock`. -/
theorem modifyReg_set {v : Word} (r : Reg) {f : Word → Word} (hf : Bitwise f) :
    Triple (fun b => b.systemCoreClock = v ∧ Shows regs b) (modifyReg hw r f)
      (fun _ b => b.systemCoreClock = v ∧ Shows (Function.update regs r (f (regs r))) b) E := by
  have hclock : Triple (fun b => b.systemCoreClock = v) (modifyReg hw r f)
      (fun _ b => b.systemCoreClock = v) E :=
    Triple.bind (Triple.modifyGet fun _ hb => hb) fun _ => Triple.modifyGet fun _ hb => hb
  exact (hclock.and (modifyReg_shows (E := E) r hf)).imp (fun _ hb => hb) (fun _ _ hb => hb)
    fun _ _ he => he.1

/-- The prescalers are apart from the system clock switch. -/
theorem prescaled_sw (hsw : regs .rccCfgr &&& 1 = 0) : prescaledRegs regs .rccCfgr &&& 1 = 0 := by
  have hbit : (prescaledRegs regs .rccCfgr).getLsbD 0 = (regs .rccCfgr).getLsbD 0 := by
    show ((_ &&& ~~~rccCfgrPpre2) ||| 0b100 <<< rccCfgrPpre2Pos : Word).getLsbD 0 = _
    rw [ppre_eq, getLsbD_writeField (by omega), if_neg (by omega), getLsbD_writeField (by omega),
      if_neg (by omega)]
  have hbefore := and_mask_ne_zero (k := 0) (by omega) (regs .rccCfgr)
  have hafter := and_mask_ne_zero (k := 0) (by omega) (prescaledRegs regs .rccCfgr)
  rw [hbit] at hafter
  exact not_not.mp fun h => hbefore.mpr (hafter.mp h) hsw

/-- The clocks of the buses and of their timers are those of the core and of the prescalers
    that `boardInit` sets. -/
structure Clocks.Agree (clk : Clocks) : Prop where
  sys : clk.sys = synthSysclkFrequency
  ahb : clk.ahb1 = clk.sys ∧ clk.ahb2 = clk.sys
  apb : clk.apb1 = clk.sys >>> apbShift 0b101 ∧ clk.apb2 = clk.sys >>> apbShift 0b100
  timers : clk.apb1tim = 2 * clk.apb1 ∧ clk.apb2tim = 2 * clk.apb2

theorem boardInit_shows :
    Triple (Shows regs) (boardInit hw tests)
      (fun clk b => clk.Agree ∧ b.systemCoreClock = synthSysclkFrequency ∧
        Shows (boardRegs regs) b)
      (fun e _ => e = .waiting → ¬ (hw.Ready tests ∧ regs .rccCfgr &&& 1 = 0)) := by
  have hshows : ∀ regs', Steady (Shows regs') := fun _ _ _ _ _ hb => hb
  have hset : ∀ v regs', Steady fun b => b.systemCoreClock = v ∧ Shows regs' b :=
    fun _ _ _ _ _ _ hb => hb
  have hpll : Triple (Shows (prescaledRegs regs)) (pllSetup hw tests 8 336 2 7)
      (fun _ => Shows (pllRegs 8 336 2 7 (prescaledRegs regs)))
      (fun e _ => e = .waiting ∧ ¬ (hw.Ready tests ∧ prescaledRegs regs .rccCfgr &&& 1 = 0)) :=
    pllSetup_shows mainFactors_range
  unfold boardInit
  refine Triple.bind (assertThat_shows (by decide)) fun _ => ?_
  refine Triple.bind (modifyReg_shows _ (bitwise_or _)) fun _ => ?_
  refine Triple.bind (errata_steady (hshows _) _ _ _) fun _ => ?_
  refine Triple.bind (modifyReg_shows _ (bitwise_or _)) fun _ => ?_
  refine Triple.bind (modifyReg_shows _ (bitwise_or _)) fun _ => ?_
  refine Triple.bind (modifyReg_shows _ (bitwise_and _)) fun _ => ?_
  refine Triple.bind (modifyReg_shows _ (bitwise_or _)) fun _ => ?_
  refine Triple.bind (modifyReg_shows _ (bitwise_and _)) fun _ => ?_
  refine Triple.bind (modifyReg_shows _ (bitwise_or _)) fun _ => ?_
  refine Triple.bind (modifyReg_shows _ (bitwise_and _)) fun _ => ?_
  refine Triple.bind (modifyReg_shows _ (bitwise_or _)) fun _ => ?_
  refine Triple.bind (hpll.imp (fun b hb r k hk => ?_) (fun _ _ hb => hb) fun e _ he _ => ?_)
    fun _ => ?_
  · rw [hb r k hk]
    cases r <;> rfl
  · exact fun hready => he.2 ⟨hready.1, prescaled_sw hready.2⟩
  refine Triple.bind (Triple.modifyGet fun b hb => ⟨rfl, hb⟩ :
    Triple _ (setSystemCoreClock synthSysclkFrequency) (fun _ b =>
      b.systemCoreClock = synthSysclkFrequency ∧
        Shows (pllRegs 8 336 2 7 (prescaledRegs regs)) b) _) fun _ => ?_
  refine Triple.bind (modifyReg_set _ (bitwise_or _)) fun _ => ?_
  refine Triple.bind (modifyReg_set _ (bitwise_or _)) fun _ => ?_
  refine Triple.bind (errata_steady (hset _ _) _ _ _) fun _ => ?_
  refine Triple.bind (modifyReg_set _ (bitwise_or _)) fun _ => ?_
  refine Triple.bind (errata_steady (hset _ _) _ _ _) fun _ => ?_
  refine Triple.bind (modifyReg_set _ (bitwise_or _)) fun _ => ?_
  refine Triple.bind (errata_steady (hset _ _) _ _ _) fun _ => ?_
  refine Triple.pure fun b hb => ⟨⟨rfl, ⟨rfl, rfl⟩, ⟨?_, ?_⟩, ⟨?_, ?_⟩⟩, hb.1, fun r k hk => ?_⟩
  case refine_5 =>
    rw [hb.2 r k hk, ← stages_eq]
    cases r <;> rfl
  all_goals decide

/-! ## Every run -/

/-- What `boardInit` leaves behind. -/
structure BoardDone (hw : Hardware) (regs : Reg → Word) (clk : Clocks) (b : Board) : Prop where
  /-- The registers, apart from the bits that the hardware owns. -/
  bits : b.Shows (boardRegs regs)
  core : b.systemCoreClock = clk.sys
  ahb : clk.ahb1 = clk.sys ∧ clk.ahb2 = clk.sys
  /-- The bus clocks are as the prescalers in `CFGR` say. -/
  apb : clk.apb1 = clk.sys >>> apbShift ((b.regs .rccCfgr).extractLsb' 10 3) ∧
    clk.apb2 = clk.sys >>> apbShift ((b.regs .rccCfgr).extractLsb' 13 3)
  /-- A timer of a divided bus counts twice as fast. -/
  timers : clk.apb1tim = 2 * clk.apb1 ∧ clk.apb2tim = 2 * clk.apb2
  /-- While `SWS` shows the PLL, `SystemCoreClockUpdate` with the `HSE_VALUE` of its file
      takes the PLL to run at 525 MHz, and never agrees with the core clock. -/
  clock : b.shown hw .rccCfgr &&& rccCfgrSwsMsk = rccCfgrSwsPll →
    ∃ b', systemCoreClockUpdate hw hseValue b = .ok () b' ∧
      b'.systemCoreClock = (525000000 : Word) >>> ahbShift (regs .rccCfgr) ∧
      b'.systemCoreClock ≠ clk.sys
  /-- With `HSE_VALUE` defined as `SYNTH_HSE_FREQUENCY` it agrees, if `HPRE` was not set to
      divide. -/
  clockHse : b.shown hw .rccCfgr &&& rccCfgrSwsMsk = rccCfgrSwsPll →
    ∃ b', systemCoreClockUpdate hw synthHseFrequency b = .ok () b' ∧
      (b'.systemCoreClock = clk.sys ↔ ((regs .rccCfgr).extractLsb' 4 4).toNat < 8)

/-- Above `SWS`, `CFGR` has the two prescalers and is as before elsewhere. -/
theorem boardRegs_cfgr {k n : ℕ} (hk : 4 ≤ k) : (boardRegs regs .rccCfgr).extractLsb' k n =
    (writeField (writeField (regs .rccCfgr) 10 0b101#3) 13 0b100#3).extractLsb' k n :=
  extractLsb'_congr fun i _ =>
    getLsbD_writeBit_ne (show 1 < 32 by omega) (show k + i ≠ 1 by omega) _ true

theorem cfgr_fields (hb : Shows (boardRegs regs) b) :
    (b.regs .rccCfgr).extractLsb' 10 3 = 0b101#3 ∧
      (b.regs .rccCfgr).extractLsb' 13 3 = 0b100#3 := by
  have hfield : ∀ k, 4 ≤ k →
      (b.regs .rccCfgr).extractLsb' k 3 = (boardRegs regs .rccCfgr).extractLsb' k 3 :=
    fun k hk => extractLsb'_congr fun i _ => hb _ _ (statusBits_cfgr (by omega))
  rw [hfield 10 (by omega), hfield 13 (by omega), boardRegs_cfgr (by omega),
    boardRegs_cfgr (by omega), extractLsb'_writeField_self (by omega),
    extractLsb'_writeField_of_disjoint (by omega) (by omega),
    extractLsb'_writeField_self (by omega)]
  exact ⟨rfl, rfl⟩

theorem ahbShift_boardRegs : ahbShift (boardRegs regs .rccCfgr) = ahbShift (regs .rccCfgr) := by
  unfold ahbShift
  rw [boardRegs_cfgr (by omega), extractLsb'_writeField_of_disjoint (by omega) (by omega),
    extractLsb'_writeField_of_disjoint (by omega) (by omega)]

/-- `AHBPrescTable` has a zero for each value that does not divide. -/
theorem shifted_eq_iff (hpre : BitVec 4) :
    (synthHseFrequency / 8 * 336 / 2) >>> (ahbPrescTable.getD hpre.toNat 0).toNat =
      synthSysclkFrequency ↔ hpre.toNat < 8 := by
  have hmain : synthHseFrequency / 8 * 336 / 2 = synthSysclkFrequency := by decide
  rw [hmain]
  revert hpre
  decide

/-- No prescaler divides 525 MHz down to the core clock. -/
theorem shifted_ne (hpre : BitVec 4) :
    (525000000 : Word) >>> (ahbPrescTable.getD hpre.toNat 0).toNat ≠ synthSysclkFrequency := by
  revert hpre
  decide

/-- `SystemCoreClockUpdate` after `boardInit`, while `SWS` shows the PLL. -/
theorem updated_clock (hb : Shows (boardRegs regs) b)
    (hsel : b.shown hw .rccCfgr &&& rccCfgrSwsMsk = rccCfgrSwsPll) (hse : Word) :
    ∃ b', systemCoreClockUpdate hw hse b = .ok () b' ∧
      b'.systemCoreClock = (hse / 8 * 336 / 2) >>> ahbShift (regs .rccCfgr) := by
  have hends := systemCoreClockUpdate_pll mainFactors_range (pllcfgr_eq _).symm hse b ⟨hsel, hb⟩
  obtain ⟨u, b', hrun, hclock, -⟩ := hends.returns fun _ _ he => he
  exact ⟨b', hrun, by rw [hclock, ahbShift_boardRegs]⟩

theorem boardDone_of_shows {clk : Clocks} (hclk : clk.Agree)
    (hcore : b.systemCoreClock = synthSysclkFrequency) (hb : Shows (boardRegs regs) b) :
    BoardDone hw regs clk b := by
  obtain ⟨hppre1, hppre2⟩ := cfgr_fields hb
  refine ⟨hb, hcore.trans hclk.sys.symm, hclk.ahb, ?_, hclk.timers, fun hsel => ?_, fun hsel => ?_⟩
  · rw [hppre1, hppre2]
    exact hclk.apb
  · obtain ⟨b', hrun, hclock⟩ := updated_clock hb hsel hseValue
    have hpll : hseValue / 8 * 336 / 2 = 525000000 := by decide
    rw [hpll] at hclock
    refine ⟨b', hrun, hclock, ?_⟩
    rw [hclock, hclk.sys]
    exact shifted_ne _
  · obtain ⟨b', hrun, hclock⟩ := updated_clock hb hsel synthHseFrequency
    refine ⟨b', hrun, ?_⟩
    rw [hclock, hclk.sys]
    exact shifted_eq_iff _

end Setup

/-- **`boardInit`.** For every content of the registers at entry and whatever the hardware
    does: `boardInit` stops only at a division by zero, with `PPRE1` or `HPRE` zero at entry,
    or because the hardware does not do what it is asked for or the external oscillator is
    the system clock already. When it returns, every bit of the registers is as
    `boardRegs` says, apart from those that the hardware owns; the clocks it returns are as
    the prescalers say; and `SystemCoreClockUpdate` would not give the same core clock with
    the `HSE_VALUE` of its file, which is 25 MHz. With `HSE_VALUE = SYNTH_HSE_FREQUENCY`,
    8 MHz, it would, if and only if `HPRE` was not set to divide at entry. -/
theorem boardInit_done (hw : Hardware) (tests : ℕ) (regs : Reg → Word) :
    Ends (BoardDone hw regs)
      (fun e _ => (e = .divByZero ∧ ((regs .rccCfgr).extractLsb' 10 3 = 0 ∨
          (regs .rccCfgr).extractLsb' 4 4 = 0)) ∨
        (e = .waiting ∧ ¬ (hw.Ready tests ∧ regs .rccCfgr &&& 1 = 0)))
      (boardInit hw tests (Board.entry regs)) := by
  have hwait : ∀ cs w,
      Triple (Board.At ((regs .rccCfgr).extractLsb' 4 4) 0b101 cs) (waitFor hw w tests)
        (fun _ => Board.At ((regs .rccCfgr).extractLsb' 4 4) 0b101 cs)
        (fun e b => True ∧ e = .waiting ∧ b.calls = cs) := fun cs w =>
    (waitFor_spec w tests).imp (fun _ hb => hb) (fun _ _ hb => hb) fun _ _ hb => ⟨trivial, hb⟩
  refine (((boardInit_spec hwait).and boardInit_shows).imp (fun _ hb => hb) (fun clk b hb => ?_)
    fun e b he => ?_) (Board.entry regs) ⟨⟨rfl, rfl, rfl⟩, fun _ _ _ => rfl⟩
  · exact boardDone_of_shows hb.2.1 hb.2.2.1 hb.2.2.2
  · obtain ⟨hstop, hready⟩ := he
    cases hstop with
    | first hp _ => exact .inl ⟨rfl, .inl hp⟩
    | pll _ _ _ => exact .inr ⟨rfl, hready rfl⟩
    | second _ hh _ => exact .inl ⟨rfl, .inr hh⟩

/-- Both prescalers set, but neither to divide. -/
theorem boardInit_done_warm :
    ∃ clk b', boardInit obedient 1 (Board.entry fun _ => 0x410) = .ok clk b' ∧
      BoardDone obedient (fun _ => 0x410) clk b' := by
  have hreturns : ∀ regs : Reg → Word, (regs .rccCfgr).extractLsb' 10 3 ≠ 0 →
      (regs .rccCfgr).extractLsb' 4 4 ≠ 0 → regs .rccCfgr &&& 1 = 0 →
      ∃ clk b', boardInit obedient 1 (Board.entry regs) = .ok clk b' ∧
        BoardDone obedient regs clk b' := by
    intro regs hppre hhpre hsw
    refine (boardInit_done obedient 1 regs).returns fun e b he => ?_
    rcases he with ⟨-, h | h⟩ | ⟨-, h⟩
    · exact hppre h
    · exact hhpre h
    · exact h ⟨obedient_ready, hsw⟩
  exact hreturns _ (by decide) (by decide) (by decide)

end StepperSynth
