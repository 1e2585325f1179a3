import StepperSynth.Basic

/-!
# Registers

The registers of `GPIO_TypeDef` and `TIM_TypeDef` (`stm32f407xx.h`) that
`pwm_generator.cpp` accesses, and what the timer does by itself.

* Writing `v` to `SR` clears exactly the flags whose bit in `v` is 0.
* `CCR1 … CCR4` are consecutive words, so `&CCR1 + ch` is entry `ch` of `ccr`.
* A tick increments `CNT`, which wraps at `2^32` since `ARR` is `~0`; a channel
  whose `CCR` equals the new value gets its flag, and toggles its output if its
  `CCxE` bit is set.
-/

namespace StepperSynth

/-! ## GPIO -/

/-- `GPIOA … GPIOI`. -/
inductive GpioPort
  | gpioA
  | gpioB
  | gpioC
  | gpioD
  | gpioE
  | gpioF
  | gpioG
  | gpioH
  | gpioI
  deriving DecidableEq, Repr

/-- The registers of one port. -/
structure GpioRegs where
  moder : Word
  ospeedr : Word
  pupdr : Word
  afr : Fin 2 → Word
  deriving DecidableEq

/-- All ports. -/
abbrev Gpio := GpioPort → GpioRegs

/-! ## Timer -/

/-- `PWMGenerator::kMaxNumChannels` (`pwm_generator.hpp` line 16). -/
abbrev kMaxNumChannels : ℕ := 4

/-- A capture/compare channel, numbered from 0. -/
abbrev Ch := Fin kMaxNumChannels

/-- The registers of the timer, and the levels of its outputs. -/
structure Tim where
  cr1 : Word
  dier : Word
  sr : Word
  ccmr1 : Word
  ccmr2 : Word
  ccer : Word
  cnt : Word
  psc : Word
  arr : Word
  ccr : Ch → Word
  out : Ch → Bool
  deriving DecidableEq

/-- The registers after a reset. -/
def Tim.reset : Tim where
  cr1 := 0
  dier := 0
  sr := 0
  ccmr1 := 0
  ccmr2 := 0
  ccer := 0
  cnt := 0
  psc := 0
  arr := 0xFFFFFFFF
  ccr := fun _ => 0
  out := fun _ => false

namespace Tim

/-- `TIM_CCER_CCxE_Msk` as the code computes it: `1 << (ch * 4)`. -/
def ccxeMsk (ch : Ch) : Word := 1 <<< (ch * 4 : ℕ)

/-- `TIM_DIER_CCxIE_Msk` as the code computes it: `1 << (ch + 1)`. -/
def ccxieMsk (ch : Ch) : Word := 1 <<< (ch + 1 : ℕ)

/-- `TIM_SR_CCxIF_Msk` as the code computes it: `1 << (ch + 1)`. -/
def ccxifMsk (ch : Ch) : Word := 1 <<< (ch + 1 : ℕ)

/-- `SR = v`. -/
def writeSr (t : Tim) (v : Word) : Tim := { t with sr := t.sr &&& v }

/-- `EGR = TIM_EGR_UG`: the counter restarts and `UIF` (bit 0 of `SR`) is set. -/
def writeEgrUg (t : Tim) : Tim := { t with cnt := 0, sr := t.sr ||| 1 }

/-- `*(&CCR1 + ch) = v`. -/
def writeCcr (t : Tim) (ch : Ch) (v : Word) : Tim := { t with ccr := Function.update t.ccr ch v }

/-- One count of the timer. -/
def tick (t : Tim) : Tim :=
  let cnt := t.cnt + 1
  { t with
    cnt := cnt
    sr := (List.finRange kMaxNumChannels).foldl
      (fun sr ch => if t.ccr ch = cnt then sr ||| ccxifMsk ch else sr) t.sr
    out := fun ch =>
      if t.ccr ch = cnt ∧ t.ccer &&& ccxeMsk ch ≠ 0 then !t.out ch else t.out ch }

end Tim

end StepperSynth
