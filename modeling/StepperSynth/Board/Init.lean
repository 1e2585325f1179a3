import StepperSynth.Common.Fields
import StepperSynth.Common.Triple
import StepperSynth.Pwm.Generator

/-!
# `boardInit`

Model of `board.cpp`: the clock setup and the delays of `errata_2_2_13` after the
clock enables. The registers are a memory; the bits that the hardware owns are
shown by an arbitrary `Hardware` at every read. A delay divides by a prescaler
field and records what it did.
-/

namespace StepperSynth

open Common

/-! ## Registers -/

/-- The registers that `board.cpp` accesses. -/
inductive Reg
  | rccCr
  | rccPllcfgr
  | rccCfgr
  | rccAhb1enr
  | rccAhb2enr
  | rccApb1enr
  | pwrCr
  | flashAcr
  deriving DecidableEq, Repr

/-! The masks and positions of `stm32f407xx.h`. -/

def rccCfgrSwPll : Word := 2
def rccCfgrSwsMsk : Word := 0x3 <<< 2
def rccCfgrSwsPll : Word := 8
def rccCfgrHprePos : ℕ := 4
def rccCfgrHpre : Word := 0xF <<< 4
def rccCfgrPpre1Pos : ℕ := 10
def rccCfgrPpre1 : Word := 0x7 <<< 10
def rccCfgrPpre2Pos : ℕ := 13
def rccCfgrPpre2 : Word := 0x7 <<< 13
def rccCrHseon : Word := 1 <<< 16
def rccCrHserdy : Word := 1 <<< 17
def rccCrPllon : Word := 1 <<< 24
def rccCrPllrdy : Word := 1 <<< 25
def rccPllcfgrPllmPos : ℕ := 0
def rccPllcfgrPllm : Word := 0x3F <<< 0
def rccPllcfgrPllnPos : ℕ := 6
def rccPllcfgrPlln : Word := 0x1FF <<< 6
def rccPllcfgrPllpPos : ℕ := 16
def rccPllcfgrPllp : Word := 0x3 <<< 16
def rccPllcfgrPllsrc : Word := 1 <<< 22
def rccPllcfgrPllqPos : ℕ := 24
def rccPllcfgrPllq : Word := 0xF <<< 24
def rccAhb1enrGpioaen : Word := 1 <<< 0
def rccAhb1enrGpiocen : Word := 1 <<< 2
def rccAhb2enrOtgfsen : Word := 1 <<< 7
def rccApb1enrTim2en : Word := 1 <<< 0
def rccApb1enrTim3en : Word := 1 <<< 1
def rccApb1enrPwren : Word := 1 <<< 28
def pwrCrVosPos : ℕ := 14
def flashAcrLatencyMsk : Word := 0x7 <<< 0
def flashAcrLatency5ws : Word := 5
def flashAcrPrften : Word := 1 <<< 8
def flashAcrIcen : Word := 1 <<< 9
def flashAcrDcen : Word := 1 <<< 10

/-- The bits of a register that the hardware sets by itself. -/
def statusBits : Reg → Word
  | .rccCr => rccCrHserdy ||| rccCrPllrdy
  | .rccCfgr => rccCfgrSwsMsk
  | _ => 0

/-- What the hardware shows in the status bits at the `n`-th access, of a
    register whose other bits are as written last. -/
abbrev Hardware := ℕ → Reg → Word → Word

/-- What a call of `errata_2_2_13` did: the register it was given, the two fields
    it read, and the number of dummy reads its loop made. There is no such number
    if the division is by zero, or if the loop does not end. -/
structure ErrataCall where
  reg : Reg
  hpre : Byte
  ppre : Byte
  reads : Option ℕ
  deriving DecidableEq, Repr

/-- `cycles` (line 18). -/
def ErrataCall.cycles (c : ErrataCall) : Word := 1 + (c.hpre / c.ppre).setWidth 32

/-- The memory of registers and the two static variables, with the number of
    accesses and the calls of `errata_2_2_13` so far. -/
structure Board where
  regs : Reg → Word
  dummy : Word
  systemCoreClock : Word
  accesses : ℕ
  calls : List ErrataCall

/-- The board when `boardInit` is called. -/
def Board.entry (regs : Reg → Word) : Board where
  regs := regs
  dummy := 0
  systemCoreClock := 0
  accesses := 0
  calls := []

/-- Why `boardInit` has not returned. -/
inductive BoardFault
  /-- A failed `assert`. -/
  | assertion
  /-- A division by zero. -/
  | divByZero
  /-- A delay loop that does not end. -/
  | endless
  /-- The hardware has not shown the status waited for yet. -/
  | waiting
  deriving DecidableEq, Repr

/-- Code that accesses the registers. -/
abbrev BoardM := EStateM BoardFault Board

/-! ## Accesses -/

/-- The value of a register. -/
def Board.shown (hw : Hardware) (b : Board) (r : Reg) : Word :=
  b.regs r &&& ~~~statusBits r ||| hw b.accesses r (b.regs r) &&& statusBits r

/-- A read. -/
def readReg (hw : Hardware) (r : Reg) : BoardM Word :=
  EStateM.modifyGet fun b => (b.shown hw r, { b with accesses := b.accesses + 1 })

/-- A write. -/
def writeReg (r : Reg) (v : Word) : BoardM Unit :=
  EStateM.modifyGet fun b => ((), { b with regs := Function.update b.regs r v })

/-- `reg |= v` and the like: a read and a write. -/
def modifyReg (hw : Hardware) (r : Reg) (f : Word → Word) : BoardM Unit := do
  let v ← readReg hw r
  writeReg r (f v)

/-- `assert(c)`. -/
def assertThat (c : Prop) [Decidable c] : BoardM Unit :=
  if c then pure () else throw .assertion

/-- The loops of `pllSetup` that wait for the hardware. -/
inductive Wait
  /-- `while (RCC->CR & RCC_CR_PLLRDY)` (line 37). -/
  | pllOff
  /-- `while (!(RCC->CR & RCC_CR_HSERDY))` (line 51). -/
  | hseReady
  /-- `while (!(RCC->CR & RCC_CR_PLLRDY))` (line 54). -/
  | pllReady
  /-- `while ((RCC->CFGR & RCC_CFGR_SWS_Msk) != RCC_CFGR_SWS_PLL)` (line 57). -/
  | pllSelected
  deriving DecidableEq, Repr

/-- The register a loop reads. -/
def Wait.reg : Wait → Reg
  | .pllSelected => .rccCfgr
  | _ => .rccCr

/-- The loop goes on. -/
def Wait.cond (v : Word) : Wait → Bool
  | .pllOff => v &&& rccCrPllrdy ≠ 0
  | .hseReady => v &&& rccCrHserdy = 0
  | .pllReady => v &&& rccCrPllrdy = 0
  | .pllSelected => v &&& rccCfgrSwsMsk ≠ rccCfgrSwsPll

/-- A loop that waits, for the first `n` tests of its condition. -/
def waitFor (hw : Hardware) (w : Wait) : ℕ → BoardM Unit
  | 0 => throw .waiting
  | n + 1 => do
    let v ← readReg hw w.reg
    if w.cond v then waitFor hw w n else pure ()

/-! ## `errata_2_2_13` -/

/-- `dummy = v`. -/
def writeDummy (v : Word) : BoardM Unit :=
  EStateM.modifyGet fun b => ((), { b with dummy := v })

/-- `for (uint8_t i = …; i < cycles; ++i) dummy = *reg;` (line 21): the number of
    rounds, if the loop ends within `n` tests of its condition. -/
def dummyReads (hw : Hardware) (reg : Reg) (cycles : Word) : ℕ → Byte → BoardM (Option ℕ)
  | 0, _ => pure none
  | n + 1, i =>
    if i.setWidth 32 < cycles then do
      let v ← readReg hw reg
      writeDummy v
      let rounds ← dummyReads hw reg cycles n (i + 1)
      pure (rounds.map (· + 1))
    else pure (some 0)

/-- The call is recorded. -/
def logCall (c : ErrataCall) : BoardM Unit :=
  EStateM.modifyGet fun b => ((), { b with calls := b.calls ++ [c] })

/-- Model of `errata_2_2_13` (lines 12–22). The counter has `2^8` values, so a
    loop that has not ended after as many tests never ends. -/
def errata_2_2_13 (hw : Hardware) (reg : Reg) (preMsk : Word) (prePos : ℕ) : BoardM Unit := do
  let cfgr ← readReg hw .rccCfgr
  let hpre : Byte := ((cfgr &&& rccCfgrHpre) >>> rccCfgrHprePos).setWidth 8
  let cfgr ← readReg hw .rccCfgr
  let ppre : Byte := ((cfgr &&& preMsk) >>> prePos).setWidth 8
  let call : ErrataCall := { reg := reg, hpre := hpre, ppre := ppre, reads := none }
  if ppre = 0 then
    logCall call
    throw .divByZero
  else
    let reads ← dummyReads hw reg call.cycles (2 ^ 8) 0
    logCall { call with reads := reads }
    if reads = none then throw .endless else pure ()

/-! ## `pllSetup` and `boardInit` -/

/-- `SYNTH_HSE_FREQUENCY_MHZ` (`config.hpp` line 12). -/
def synthHseFrequencyMhz : Word := 8

/-- `SYNTH_SYSCLK_FREQUENCY_MHZ` (`config.hpp` line 13). -/
def synthSysclkFrequencyMhz : Word := 168

/-- `SYNTH_HSE_FREQUENCY` (line 10). -/
def synthHseFrequency : Word := synthHseFrequencyMhz * mhz

/-- `SYNTH_SYSCLK_FREQUENCY` (line 9). -/
def synthSysclkFrequency : Word := synthSysclkFrequencyMhz * mhz

/-- Model of `pllSetup` (lines 29–58). -/
def pllSetup (hw : Hardware) (tests : ℕ) (m n p q : Word) : BoardM Unit := do
  assertThat (p % 2 = 0)
  assertThat (2 ≤ p ∧ p ≤ 8)
  assertThat (2 ≤ m ∧ m ≤ 63)
  assertThat (50 ≤ n ∧ n ≤ 432)
  assertThat (2 ≤ q ∧ q ≤ 15)
  modifyReg hw .rccCr (· &&& ~~~rccCrPllon)
  waitFor hw .pllOff tests
  modifyReg hw .rccPllcfgr
    (· &&& ~~~(rccPllcfgrPllm ||| rccPllcfgrPlln ||| rccPllcfgrPllp ||| rccPllcfgrPllq))
  modifyReg hw .rccPllcfgr (· ||| (p / 2 - 1) <<< rccPllcfgrPllpPos)
  modifyReg hw .rccPllcfgr (· ||| m <<< rccPllcfgrPllmPos)
  modifyReg hw .rccPllcfgr (· ||| n <<< rccPllcfgrPllnPos)
  modifyReg hw .rccPllcfgr (· ||| q <<< rccPllcfgrPllqPos)
  modifyReg hw .rccPllcfgr (· &&& ~~~rccPllcfgrPllsrc)
  modifyReg hw .rccPllcfgr (· ||| rccPllcfgrPllsrc)
  modifyReg hw .rccCr (· ||| rccCrHseon)
  waitFor hw .hseReady tests
  modifyReg hw .rccCr (· ||| rccCrPllon)
  waitFor hw .pllReady tests
  modifyReg hw .rccCfgr (· ||| rccCfgrSwPll)
  waitFor hw .pllSelected tests

/-- `SystemCoreClock = v`. -/
def setSystemCoreClock (v : Word) : BoardM Unit :=
  EStateM.modifyGet fun b => ((), { b with systemCoreClock := v })

/-- `Clocks` (`board.hpp` lines 5–13). -/
structure Clocks where
  sys : Word
  ahb1 : Word
  ahb2 : Word
  apb1 : Word
  apb1tim : Word
  apb2 : Word
  apb2tim : Word
  deriving DecidableEq, Repr

/-- Model of `boardInit` (lines 60–119), with each loop that waits cut off after
    `tests` tests of its condition. -/
def boardInit (hw : Hardware) (tests : ℕ) : BoardM Clocks := do
  assertThat (synthSysclkFrequencyMhz ≤ 168)
  -- PWR
  modifyReg hw .rccApb1enr (· ||| rccApb1enrPwren)
  errata_2_2_13 hw .rccApb1enr rccCfgrPpre1 rccCfgrPpre1Pos
  modifyReg hw .pwrCr (· ||| 1 <<< pwrCrVosPos)
  -- flash
  modifyReg hw .flashAcr (· ||| (flashAcrDcen ||| flashAcrIcen ||| flashAcrPrften))
  modifyReg hw .flashAcr (· &&& ~~~flashAcrLatencyMsk)
  modifyReg hw .flashAcr (· ||| flashAcrLatency5ws)
  -- prescalers
  modifyReg hw .rccCfgr (· &&& ~~~rccCfgrPpre1)
  modifyReg hw .rccCfgr (· ||| 0b101 <<< rccCfgrPpre1Pos)
  modifyReg hw .rccCfgr (· &&& ~~~rccCfgrPpre2)
  modifyReg hw .rccCfgr (· ||| 0b100 <<< rccCfgrPpre2Pos)
  pllSetup hw tests (synthHseFrequency / mhz) (synthSysclkFrequency / mhz * 2) 2
    (synthSysclkFrequency / mhz / 24)
  setSystemCoreClock synthSysclkFrequency
  -- peripheral clocks
  modifyReg hw .rccAhb1enr (· ||| rccAhb1enrGpioaen)
  modifyReg hw .rccAhb1enr (· ||| rccAhb1enrGpiocen)
  errata_2_2_13 hw .rccAhb1enr rccCfgrHpre rccCfgrHprePos
  modifyReg hw .rccAhb2enr (· ||| rccAhb2enrOtgfsen)
  errata_2_2_13 hw .rccAhb2enr rccCfgrHpre rccCfgrHprePos
  modifyReg hw .rccApb1enr (· ||| (rccApb1enrTim2en ||| rccApb1enrTim3en))
  errata_2_2_13 hw .rccApb1enr rccCfgrPpre1 rccCfgrPpre1Pos
  pure {
    sys := synthSysclkFrequency
    ahb1 := synthSysclkFrequency
    ahb2 := synthSysclkFrequency
    apb1 := synthSysclkFrequency / 4
    apb1tim := synthSysclkFrequency / 2
    apb2 := synthSysclkFrequency / 2
    apb2tim := synthSysclkFrequency }

end StepperSynth
