import StepperSynth.Common.Machine
import StepperSynth.Pwm.Registers

/-!
# `PWMGenerator`

Model of `pwm_generator.cpp`: the constructor, `start`, `setChannelPeriod` and
`isr`. `setChannelPeriod` is split after its assert, and its enable branch into
the register accesses it makes in order.

* `setChannelPeriod_ok`: the assert holds exactly for the channels in use.
* `make_ok`: what the constructor leaves in the registers.
-/

namespace StepperSynth

/-- `MHZ` (`common.hpp` line 4). -/
def mhz : Word := 1000000

/-- `PWMGenerator::Pin` (`pwm_generator.hpp` lines 9–13). -/
structure Pin where
  port : GpioPort
  pin : Byte
  af : Byte
  deriving DecidableEq, Repr

/-- Model of `configureAFPin` (`pwm_generator.cpp` lines 6–25). -/
def configureAFPin (gpio : Gpio) (p : Pin) : Except Fault Gpio :=
  let afrInd := p.pin.toNat / 8
  let afPos := 4 * (p.pin.toNat % 8)
  let pos := p.pin.toNat * 2
  if h : afrInd < 2 then
    let r := gpio p.port
    let afr := r.afr ⟨afrInd, h⟩ &&& ~~~((0b1111 : Word) <<< afPos)
    let afr := afr ||| p.af.setWidth 32 <<< afPos
    let moder := r.moder &&& ~~~((0b11 : Word) <<< pos)
    let r : GpioRegs :=
      { afr := Function.update r.afr ⟨afrInd, h⟩ afr
        ospeedr := r.ospeedr &&& ~~~((0b11 : Word) <<< pos)
        pupdr := r.pupdr &&& ~~~((0b11 : Word) <<< pos)
        moder := moder ||| (0b10 : Word) <<< pos }
    .ok (Function.update gpio p.port r)
  else .error .afrIndex

/-- `PWMGenerator` (`pwm_generator.hpp` lines 7–37) with the timer it points to.
    The assert of the constructor bounds `m_num_channels`, and nothing writes it
    afterwards. -/
structure PWMGenerator where
  tim : Tim
  mNumChannels : ℕ
  mPeriodsUs : Ch → Word
  num_le : mNumChannels ≤ kMaxNumChannels

namespace PWMGenerator

/-! ## The constructor -/

/-- The bits `OCxM` and `CCxS` of a channel, and `0b011` in its `OCxM`: output
    toggle mode. `pos` is 0 for the first channel of the register and 8 for
    the second. -/
def toggleMode (ccmr : Word) (pos : ℕ) : Word :=
  ccmr &&& ~~~((0x7 : Word) <<< (pos + 4) ||| (0x3 : Word) <<< pos) ||| (0b011 : Word) <<< (pos + 4)

/-- What the constructor writes to the timer (`pwm_generator.cpp` lines 34–61). -/
def setupTim (tim : Tim) (clock : Word) : Tim :=
  let tim := { tim with psc := clock / mhz - 1, arr := ~~~0 }
  let tim := tim.writeEgrUg
  let tim := tim.writeSr (~~~1)
  { tim with
    ccmr1 := toggleMode (toggleMode tim.ccmr1 0) 8
    ccmr2 := toggleMode (toggleMode tim.ccmr2 0) 8 }

/-- Model of the constructor (lines 27–66). -/
def make (tim : Tim) (gpio : Gpio) (clock : Word) (pins : Ch → Pin) (numChannels : ℕ) :
    Except Fault (PWMGenerator × Gpio) :=
  if h : numChannels ≤ kMaxNumChannels then
    let g : PWMGenerator :=
      { tim := setupTim tim clock, mNumChannels := numChannels, mPeriodsUs := fun _ => 0
        num_le := h }
    let used := (List.finRange numChannels).map fun i => pins (i.castLE h)
    match used.foldlM configureAFPin gpio with
    | .error e => .error e
    | .ok gpio => .ok (g, gpio)
  else .error .numChannelsRange

/-- Model of `PWMGenerator::start` (lines 68–71). -/
def start (g : PWMGenerator) : PWMGenerator :=
  { g with tim := { g.tim with cr1 := g.tim.cr1 ||| 1 } }

/-! ## `setChannelPeriod` -/

/-- `*tim_ccrx_ptr = v`. -/
def writeCcr (g : PWMGenerator) (ch : Ch) (v : Word) : PWMGenerator :=
  { g with tim := g.tim.writeCcr ch v }

/-- `m_periods_us[ch] = period`. -/
def writePeriod (g : PWMGenerator) (ch : Ch) (period : Word) : PWMGenerator :=
  { g with mPeriodsUs := Function.update g.mPeriodsUs ch period }

/-- `m_tim->CCER |= tim_ccer_ccxe_msk`. -/
def enableCc (g : PWMGenerator) (ch : Ch) : PWMGenerator :=
  { g with tim := { g.tim with ccer := g.tim.ccer ||| Tim.ccxeMsk ch } }

/-- `m_tim->CCER &= ~tim_ccer_ccxe_msk`. -/
def disableCc (g : PWMGenerator) (ch : Ch) : PWMGenerator :=
  { g with tim := { g.tim with ccer := g.tim.ccer &&& ~~~Tim.ccxeMsk ch } }

/-- `m_tim->SR = ~tim_sr_ccxif_msk`. -/
def clearFlag (g : PWMGenerator) (ch : Ch) : PWMGenerator :=
  { g with tim := g.tim.writeSr (~~~Tim.ccxifMsk ch) }

/-- `m_tim->DIER |= tim_dier_ccxie_msk`. -/
def enableIrq (g : PWMGenerator) (ch : Ch) : PWMGenerator :=
  { g with tim := { g.tim with dier := g.tim.dier ||| Tim.ccxieMsk ch } }

/-- `m_tim->DIER &= ~tim_dier_ccxie_msk`. -/
def disableIrq (g : PWMGenerator) (ch : Ch) : PWMGenerator :=
  { g with tim := { g.tim with dier := g.tim.dier &&& ~~~Tim.ccxieMsk ch } }

/-- The enable branch (lines 94–102); `period` is already halved. -/
def enableBranch (g : PWMGenerator) (ch : Ch) (period : Word) : PWMGenerator :=
  let g := g.writeCcr ch (g.tim.cnt + period)
  let g := g.writePeriod ch period
  let g := g.enableCc ch
  let g := g.clearFlag ch
  g.enableIrq ch

/-- The disable branch (lines 105–110). -/
def disableBranch (g : PWMGenerator) (ch : Ch) : PWMGenerator :=
  let g := g.disableIrq ch
  let g := g.disableCc ch
  g.writePeriod ch 0

/-- `setChannelPeriod` after its assert (lines 76–114). -/
def setPeriodBody (g : PWMGenerator) (ch : Ch) (period : Word) : PWMGenerator :=
  let period := period / 2
  if g.mPeriodsUs ch = 0 ∧ period ≠ 0 then g.enableBranch ch period
  else if g.mPeriodsUs ch ≠ 0 ∧ period = 0 then g.disableBranch ch
  else g.writePeriod ch period

/-- Model of `PWMGenerator::setChannelPeriod` (lines 73–115). -/
def setChannelPeriod (g : PWMGenerator) (ch : ℕ) (period : Word) : Except Fault PWMGenerator :=
  if h : ch < g.mNumChannels then .ok (g.setPeriodBody ⟨ch, h.trans_le g.num_le⟩ period)
  else .error .channelRange

/-! ## `isr` -/

/-- The body of the loop of `isr` (lines 119–132). -/
def isrBody (g : PWMGenerator) (ch : Ch) : PWMGenerator :=
  if g.tim.sr &&& Tim.ccxifMsk ch ≠ 0 then
    let g := g.writeCcr ch (g.tim.ccr ch + g.mPeriodsUs ch)
    g.clearFlag ch
  else g

/-- The channels in use. -/
def channels (g : PWMGenerator) : List Ch :=
  (List.finRange g.mNumChannels).map (Fin.castLE g.num_le)

/-- Model of `PWMGenerator::isr` (lines 117–134). -/
def isr (g : PWMGenerator) : PWMGenerator := g.channels.foldl isrBody g

/-! ## Runs -/

/-- What can happen to a running generator. -/
inductive Op
  | tick
  | isr
  | setChannelPeriod (ch : ℕ) (period : Word)
  deriving DecidableEq, Repr

/-- One count of the timer. -/
def tick (g : PWMGenerator) : PWMGenerator := { g with tim := g.tim.tick }

/-- One operation. -/
def step (g : PWMGenerator) : Op → Except Fault PWMGenerator
  | .tick => .ok g.tick
  | .isr => .ok g.isr
  | .setChannelPeriod ch period => g.setChannelPeriod ch period

/-- The calls respect the assert of `setChannelPeriod`. -/
def Op.Valid (numChannels : ℕ) : Op → Prop
  | .setChannelPeriod ch _ => ch < numChannels
  | _ => True

theorem setChannelPeriod_ok (g : PWMGenerator) (ch : Ch) (h : ch < g.mNumChannels)
    (period : Word) : g.setChannelPeriod ch period = .ok (g.setPeriodBody ch period) :=
  dif_pos h

theorem setChannelPeriod_error (g : PWMGenerator) {ch : ℕ} (h : ¬ ch < g.mNumChannels)
    (period : Word) : g.setChannelPeriod ch period = .error .channelRange :=
  dif_neg h

theorem mem_channels (g : PWMGenerator) (ch : Ch) : ch ∈ g.channels ↔ ch < g.mNumChannels := by
  unfold channels
  rw [List.mem_map]
  constructor
  · rintro ⟨i, -, rfl⟩
    exact i.isLt
  · intro h
    exact ⟨⟨ch, h⟩, List.mem_finRange _, rfl⟩

/-- The constructor leaves the capture/compare registers, their flags and their
    enable bits as they are. -/
theorem make_ok {tim : Tim} {gpio gpio' : Gpio} {clock : Word} {pins : Ch → Pin} {n : ℕ}
    {g : PWMGenerator} (h : make tim gpio clock pins n = .ok (g, gpio')) :
    g.mNumChannels = n ∧ (∀ ch, g.mPeriodsUs ch = 0) ∧ g.tim.dier = tim.dier ∧
      g.tim.ccer = tim.ccer ∧ g.tim.ccr = tim.ccr := by
  unfold make at h
  split_ifs at h with hn
  simp only at h
  split at h
  · cases h
  · cases h
    exact ⟨rfl, fun _ => rfl, rfl, rfl, rfl⟩

/-! ## The generator of `main` -/

/-- `pins` (`main.cpp` lines 104–109): `TIM2_CH1` to `TIM2_CH4` on port A. -/
def mainPins : Ch → Pin := fun ch => ⟨.gpioA, BitVec.ofNat 8 ch, 1⟩

/-- `clk.apb1tim` (`board.cpp` line 79). -/
def mainClock : Word := 84000000

/-- The timer as the constructor of `main` leaves it after a reset. -/
def mainInit : PWMGenerator where
  tim := setupTim Tim.reset mainClock
  mNumChannels := synthNumVoices
  mPeriodsUs := fun _ => 0
  num_le := le_rfl

theorem make_main (gpio : Gpio) :
    ∃ gpio', make Tim.reset gpio mainClock mainPins synthNumVoices = .ok (mainInit, gpio') :=
  ⟨_, rfl⟩

end PWMGenerator

end StepperSynth
