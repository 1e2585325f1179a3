import StepperSynth.Pwm.Pins

/-!
# The USB pins

Model of what `usbInit` (`usb.cpp` lines 7–17) does to the port registers. It
sets bits of the fields of PA11 and PA12 without clearing them first.

* `table_usbInit`: it writes the cells of these two pins.
* `usbInit_after_reset`: from cleared fields they are high speed `AF10` pins.
* `make_keeps_usbPins`: the pin setup of `main` that follows keeps them.
-/

namespace StepperSynth

open Common

/-- Model of `usbInit` (lines 9–17), the port registers. -/
def usbInit (gpio : Gpio) : Gpio :=
  let r := gpio .gpioA
  let moder := r.moder ||| (0b10 : Word) <<< 22
  let moder := moder ||| (0b10 : Word) <<< 24
  let afr1 := r.afr 1 ||| (10 : Word) <<< 12
  let afr1 := afr1 ||| (10 : Word) <<< 16
  Function.update gpio .gpioA
    { moder := moder
      ospeedr := r.ospeedr ||| ((0b11 : Word) <<< 22 ||| (0b11 : Word) <<< 24)
      pupdr := r.pupdr &&& ~~~((0x3 : Word) <<< 22 ||| (0x3 : Word) <<< 24)
      afr := Function.update r.afr 1 afr1 }

/-- What `usbInit` makes of the configuration of a pin. -/
def usbPin (c : PinConfig) : PinConfig := ⟨c.af ||| 10, 0b11, 0b00, c.mode ||| 0b10⟩

/-- Bits set in two disjoint fields of width `n`. -/
theorem or_two_fields {n j k : ℕ} (hj : j + n ≤ 32) (hk : k + n ≤ 32) (hd : j + n ≤ k)
    (x : Word) (v : BitVec n) :
    x ||| v.setWidth 32 <<< j ||| v.setWidth 32 <<< k =
      writeField (writeField x j (x.extractLsb' j n ||| v)) k (x.extractLsb' k n ||| v) := by
  rw [or_setWidth_shiftLeft hk, or_setWidth_shiftLeft hj,
    extractLsb'_writeField_of_disjoint hj (Or.inr hd)]

/-- Two disjoint fields of width `n` cleared together. -/
theorem and_not_two_fields {n j k : ℕ} (x : Word) :
    x &&& ~~~(fieldMask 32 n j ||| fieldMask 32 n k) =
      writeField (writeField x j (0#n)) k (0#n) := by
  rw [BitVec.not_or, ← BitVec.and_assoc, writeField_zero, writeField_zero]

/-- `usbInit` writes the fields of PA11 and PA12. -/
theorem usbInit_eq (gpio : Gpio) :
    usbInit gpio = Function.update gpio .gpioA
      (((gpio .gpioA).writePin 11 (usbPin ((gpio .gpioA).pin 11))).writePin 12
        (usbPin ((gpio .gpioA).pin 12))) := by
  have hmoder := or_two_fields (n := 2) (j := 22) (k := 24) (by omega) (by omega) (by omega)
    (gpio .gpioA).moder 0b10
  have hafr := or_two_fields (n := 4) (j := 12) (k := 16) (by omega) (by omega) (by omega)
    ((gpio .gpioA).afr 1) 10
  have hospeedr := or_two_fields (n := 2) (j := 22) (k := 24) (by omega) (by omega) (by omega)
    (gpio .gpioA).ospeedr 0b11
  have hpupdr := and_not_two_fields (n := 2) (j := 22) (k := 24) (gpio .gpioA).pupdr
  have hones : ∀ x : BitVec 2, x ||| 0b11 = 0b11 := by decide
  rw [hones, hones, BitVec.or_assoc] at hospeedr
  have h11 : afrIndex 11 = 1 := rfl
  have h12 : afrIndex 12 = 1 := rfl
  refine congrArg (Function.update gpio .gpioA) ?_
  unfold GpioRegs.writePin GpioRegs.pin usbPin
  simp only [h11, h12, Function.update_self, Function.update_idem]
  rw [GpioRegs.mk.injEq]
  refine ⟨hmoder, hospeedr, hpupdr, ?_⟩
  exact congrArg (Function.update _ _) hafr

/-- `usbInit` writes the cells of PA11 and PA12. -/
theorem table_usbInit (gpio : Gpio) :
    (usbInit gpio).table =
      Function.update (Function.update gpio.table (.gpioA, 11) (usbPin (gpio.table (.gpioA, 11))))
        (.gpioA, 12) (usbPin (gpio.table (.gpioA, 12))) := by
  have h11 := table_writePin gpio (.gpioA, 11) (usbPin (gpio.table (.gpioA, 11)))
  rw [← h11, ← table_writePin, usbInit_eq, Function.update_idem, Function.update_self]
  rfl

/-- After a reset, when the fields of PA11 and PA12 are 0, they are made high
    speed `AF10` pins without pulls. -/
theorem usbInit_after_reset (gpio : Gpio) {i : Fin 16} (hi : i = 11 ∨ i = 12)
    (hreset : (gpio .gpioA).pin i = ⟨0, 0, 0, 0⟩) :
    (usbInit gpio .gpioA).pin i = ⟨10, 0b11, 0b00, 0b10⟩ := by
  show (usbInit gpio).table (.gpioA, i) = _
  have hcell : (usbInit gpio).table (.gpioA, i) = usbPin (gpio.table (.gpioA, i)) := by
    rw [table_usbInit]
    rcases hi with rfl | rfl
    · rw [Function.update_of_ne (by decide), Function.update_self]
    · rw [Function.update_self]
  rw [hcell]
  show usbPin ((gpio .gpioA).pin i) = _
  rw [hreset]
  rfl

/-- The pin setup of `main`, which comes after `usbInit`, keeps what it set. -/
theorem make_keeps_usbPins (gpio : Gpio) :
    ∃ g gpio', PWMGenerator.make Tim.reset (usbInit gpio) PWMGenerator.mainClock
        PWMGenerator.mainPins synthNumVoices = .ok (g, gpio') ∧
      ∀ i : Fin 16, i = 11 ∨ i = 12 → (gpio' .gpioA).pin i = (usbInit gpio .gpioA).pin i := by
  have hmain : ∀ i : Ch, (PWMGenerator.mainPins i).pin.toNat < 4 ∧
      (PWMGenerator.mainPins i).af.toNat < 16 := by decide
  have hpins : ∀ p ∈ (List.finRange synthNumVoices).map fun i =>
      PWMGenerator.mainPins (i.castLE le_rfl), p.pin.toNat < 4 ∧ p.Valid := by
    intro p hp
    obtain ⟨i, -, rfl⟩ := List.mem_map.mp hp
    obtain ⟨hpin, haf⟩ := hmain (i.castLE le_rfl)
    exact ⟨hpin, ⟨by omega, haf⟩⟩
  obtain ⟨gpio', hloop, htable⟩ := table_configureAFPins (usbInit gpio) fun p hp => (hpins p hp).2
  obtain ⟨g, hmake⟩ := make_of_loop le_rfl hloop Tim.reset PWMGenerator.mainClock
  refine ⟨g, gpio', hmake, fun i hi => ?_⟩
  show gpio'.table (.gpioA, i) = (usbInit gpio).table (.gpioA, i)
  rw [htable]
  apply writeAll_of_notMem
  intro p hp hkey
  obtain ⟨hlt, hvalid⟩ := hpins p hp
  have hval : (i : ℕ) = p.pin.toNat := by rw [← hvalid.key_val, hkey]
  have hi4 : 4 ≤ (i : ℕ) := by
    rcases hi with rfl | rfl
    · decide
    · decide
  omega

end StepperSynth
