import StepperSynth.Common.Cells
import StepperSynth.Common.Fields
import StepperSynth.Pwm.Generator

/-!
# The pins of the generator

The registers of a port hold one configuration for each of its 16 pins, spread
over five words. `Gpio.table` reads the registers of all ports as a table of
`PinConfig`, one cell a pin.

* `table_injective`: the table is all there is in the registers.
* `table_configureAFPin`: `configureAFPin` writes the cell of its pin.
* `table_configureAFPins`: so the loop of the constructor is a list of writes.
* `pins_configured`: what the loop leaves, in any order of the list.
-/

namespace StepperSynth

open Common

/-! ## The registers as a table -/

/-- What the registers of a port say about one of its pins. -/
structure PinConfig where
  af : BitVec 4
  ospeed : BitVec 2
  pupd : BitVec 2
  mode : BitVec 2
  deriving DecidableEq, Repr

/-- Half of the pins of a port have their `AF` field in `AFR[0]`, half in `AFR[1]`. -/
def afrIndex (i : Fin 16) : Fin 2 := ⟨i / 8, by omega⟩

/-- The fields of pin `i`. -/
def GpioRegs.pin (r : GpioRegs) (i : Fin 16) : PinConfig where
  af := (r.afr (afrIndex i)).extractLsb' (4 * (i % 8 : ℕ)) 4
  ospeed := r.ospeedr.extractLsb' (2 * (i : ℕ)) 2
  pupd := r.pupdr.extractLsb' (2 * (i : ℕ)) 2
  mode := r.moder.extractLsb' (2 * (i : ℕ)) 2

/-- All pins of all ports. -/
def Gpio.table (gpio : Gpio) (k : GpioPort × Fin 16) : PinConfig := (gpio k.1).pin k.2

theorem GpioRegs.eq_of_pin {r s : GpioRegs} (h : ∀ i, r.pin i = s.pin i) : r = s := by
  have hword : ∀ {x y : Word}, (∀ i : Fin 16, x.extractLsb' (2 * (i : ℕ)) 2 =
      y.extractLsb' (2 * (i : ℕ)) 2) → x = y := by
    intro x y hxy
    apply eq_of_fields (n := 2) (by omega)
    intro i hi
    exact hxy ⟨i, by omega⟩
  have hafr : r.afr = s.afr := by
    funext j
    apply eq_of_fields (n := 4) (by omega)
    intro i hi
    -- field `i` of `AFR[j]` belongs to pin `8 * j + i`
    have hpin := congrArg PinConfig.af (h ⟨8 * j + i, by omega⟩)
    have hj : afrIndex ⟨8 * j + i, by omega⟩ = j := Fin.ext (by show (8 * j + i) / 8 = _; omega)
    have hi8 : (8 * j + i) % 8 = i := by omega
    simpa only [GpioRegs.pin, hj, hi8] using hpin
  have hmoder : r.moder = s.moder := hword fun i => congrArg PinConfig.mode (h i)
  have hospeedr : r.ospeedr = s.ospeedr := hword fun i => congrArg PinConfig.ospeed (h i)
  have hpupdr : r.pupdr = s.pupdr := hword fun i => congrArg PinConfig.pupd (h i)
  cases r
  cases s
  simp only [GpioRegs.mk.injEq]
  exact ⟨hmoder, hospeedr, hpupdr, hafr⟩

/-- The registers hold nothing but the configurations of the pins. -/
theorem table_injective : Function.Injective Gpio.table := by
  intro g g' h
  funext port
  exact GpioRegs.eq_of_pin fun i => congrFun h (port, i)

/-! ## `configureAFPin` -/

/-- The entry names a pin of its port and an alternate function. -/
structure Pin.Valid (p : Pin) : Prop where
  pin_lt : p.pin.toNat < 16
  af_lt : p.af.toNat < 16

/-- The cell of a pin. -/
def Pin.key (p : Pin) : GpioPort × Fin 16 := (p.port, Fin.ofNat 16 p.pin.toNat)

/-- What the cell is set to: the alternate function, low speed, no pulls. -/
def Pin.config (p : Pin) : PinConfig := ⟨p.af.setWidth 4, 0b00, 0b00, 0b10⟩

theorem Pin.Valid.key_val {p : Pin} (hp : p.Valid) : (p.key.2 : ℕ) = p.pin.toNat :=
  Nat.mod_eq_of_lt hp.pin_lt

theorem Pin.Valid.key_ne {p q : Pin} (hp : p.Valid) (hq : q.Valid)
    (hne : (p.port, p.pin) ≠ (q.port, q.pin)) : p.key ≠ q.key := by
  intro h
  obtain ⟨hport, hpin⟩ := Prod.mk.inj h
  have hval : p.pin.toNat = q.pin.toNat := by
    rw [← hp.key_val, ← hq.key_val]
    exact congrArg Fin.val hpin
  exact hne (Prod.ext hport (BitVec.eq_of_toNat_eq hval))

/-- The registers of a port with the fields of one pin written. -/
def GpioRegs.writePin (r : GpioRegs) (i : Fin 16) (c : PinConfig) : GpioRegs where
  moder := writeField r.moder (2 * (i : ℕ)) c.mode
  ospeedr := writeField r.ospeedr (2 * (i : ℕ)) c.ospeed
  pupdr := writeField r.pupdr (2 * (i : ℕ)) c.pupd
  afr := Function.update r.afr (afrIndex i)
    (writeField (r.afr (afrIndex i)) (4 * (i % 8 : ℕ)) c.af)

theorem GpioRegs.pin_writePin_self (r : GpioRegs) (i : Fin 16) (c : PinConfig) :
    (r.writePin i c).pin i = c := by
  have h2 : 2 * (i : ℕ) + 2 ≤ 32 := by omega
  have h4 : 4 * (i % 8 : ℕ) + 4 ≤ 32 := by omega
  unfold GpioRegs.pin GpioRegs.writePin
  simp only [Function.update_self, extractLsb'_writeField_self h2, extractLsb'_writeField_self h4]

theorem GpioRegs.pin_writePin_ne (r : GpioRegs) {i j : Fin 16} (h : j ≠ i) (c : PinConfig) :
    (r.writePin i c).pin j = r.pin j := by
  have hne : (j : ℕ) ≠ i := Fin.val_ne_of_ne h
  have h2 : 2 * (i : ℕ) + 2 ≤ 32 := by omega
  have hd : 2 * (j : ℕ) + 2 ≤ 2 * i ∨ 2 * (i : ℕ) + 2 ≤ 2 * j := by omega
  have hafr : ((r.writePin i c).pin j).af = (r.pin j).af := by
    unfold GpioRegs.pin GpioRegs.writePin
    by_cases hij : afrIndex j = afrIndex i
    · -- the two pins share a word, where their fields are disjoint
      have hdiv : (j : ℕ) / 8 = i / 8 := congrArg Fin.val hij
      have h4 : 4 * (i % 8 : ℕ) + 4 ≤ 32 := by omega
      have hd4 : 4 * (j % 8 : ℕ) + 4 ≤ 4 * (i % 8) ∨ 4 * (i % 8 : ℕ) + 4 ≤ 4 * (j % 8) := by omega
      simp only [hij, Function.update_self, extractLsb'_writeField_of_disjoint h4 hd4]
    · simp only [Function.update_of_ne hij]
  have hafr' := hafr
  unfold GpioRegs.pin GpioRegs.writePin at hafr' ⊢
  simp only [PinConfig.mk.injEq, extractLsb'_writeField_of_disjoint h2 hd, and_true]
  exact hafr'

/-- `configureAFPin` returns for a valid entry, having written the fields of
    its pin. -/
theorem configureAFPin_ok (gpio : Gpio) {p : Pin} (hp : p.Valid) :
    configureAFPin gpio p =
      .ok (Function.update gpio p.port ((gpio p.port).writePin p.key.2 p.config)) := by
  have hpin := hp.pin_lt
  have hindex : p.pin.toNat / 8 < 2 := by omega
  have hafr : afrIndex p.key.2 = ⟨p.pin.toNat / 8, hindex⟩ := Fin.ext (by
    show (p.key.2 : ℕ) / 8 = _
    rw [hp.key_val])
  have haf : p.af.setWidth 32 = (p.af.setWidth 4).setWidth 32 := by
    have := hp.af_lt
    bv_omega
  have hmask4 : (0b1111 : Word) = (BitVec.allOnes 4).setWidth 32 := rfl
  have hmask2 : (0b11 : Word) = (BitVec.allOnes 2).setWidth 32 := rfl
  have hmode : (0b10 : Word) = (0b10 : BitVec 2).setWidth 32 := rfl
  unfold configureAFPin GpioRegs.writePin
  simp only
  rw [dif_pos hindex, hafr, hp.key_val, Nat.mul_comm p.pin.toNat 2, haf, hmask4, hmask2, hmode]
  have h4 := fun x : Word => writeField_zero (n := 4) (k := 4 * (p.pin.toNat % 8)) x
  have h2 := fun x : Word => writeField_zero (n := 2) (k := 2 * p.pin.toNat) x
  unfold fieldMask at h4 h2
  rw [h4, h2, h2, h2, or_writeField, or_writeField]
  rfl

/-- Writing the fields of one pin is a write to its cell. -/
theorem table_writePin (gpio : Gpio) (k : GpioPort × Fin 16) (c : PinConfig) :
    Gpio.table (Function.update gpio k.1 ((gpio k.1).writePin k.2 c)) =
      Function.update gpio.table k c := by
  funext k'
  unfold Gpio.table
  by_cases hk : k' = k
  · rw [hk, Function.update_self, Function.update_self, GpioRegs.pin_writePin_self]
  · rw [Function.update_of_ne hk]
    by_cases hport : k'.1 = k.1
    · have hi : k'.2 ≠ k.2 := fun h => hk (Prod.ext hport h)
      rw [hport, Function.update_self, GpioRegs.pin_writePin_ne _ hi]
    · rw [Function.update_of_ne hport]

/-- `configureAFPin` is a write to the cell of its pin. -/
theorem table_configureAFPin (gpio : Gpio) {p : Pin} (hp : p.Valid) :
    ∃ gpio', configureAFPin gpio p = .ok gpio' ∧
      gpio'.table = writeCell Pin.key Pin.config gpio.table p :=
  ⟨_, configureAFPin_ok gpio hp, table_writePin gpio p.key p.config⟩

/-- The loop of the constructor is a list of writes. -/
theorem table_configureAFPins (gpio : Gpio) {pins : List Pin} (hpins : ∀ p ∈ pins, p.Valid) :
    ∃ gpio', pins.foldlM configureAFPin gpio = .ok gpio' ∧
      gpio'.table = writeAll Pin.key Pin.config gpio.table pins := by
  induction pins generalizing gpio with
  | nil => exact ⟨gpio, rfl, rfl⟩
  | cons p pins ih =>
    obtain ⟨g₁, h₁, ht₁⟩ := table_configureAFPin gpio (hpins p List.mem_cons_self)
    obtain ⟨g₂, h₂, ht₂⟩ := ih g₁ fun q hq => hpins q (List.mem_cons_of_mem _ hq)
    refine ⟨g₂, ?_, ?_⟩
    · rw [List.foldlM_cons, h₁]
      exact h₂
    · rw [ht₂, ht₁, writeAll_cons]

/-- The constructor returns the port registers that its loop returns. -/
theorem make_of_loop {gpio gpio' : Gpio} {pins : Ch → Pin} {n : ℕ} (hn : n ≤ kMaxNumChannels)
    (hloop : ((List.finRange n).map fun i => pins (i.castLE hn)).foldlM configureAFPin gpio =
      .ok gpio') (tim : Tim) (clock : Word) :
    ∃ g, PWMGenerator.make tim gpio clock pins n = .ok (g, gpio') := by
  refine ⟨⟨PWMGenerator.setupTim tim clock, n, fun _ => 0, hn⟩, ?_⟩
  unfold PWMGenerator.make
  simp only
  rw [dif_pos hn, hloop]

/-! ## The loop of the constructor -/

/-- The port registers before and after the entries of `pins` are configured. -/
structure PinsConfigured (pins : List Pin) (gpio gpio' : Gpio) : Prop where
  /-- The fields of the listed pins. -/
  listed : ∀ p ∈ pins, ∀ i : Fin 16, (i : ℕ) = p.pin.toNat →
    ((gpio' p.port).pin i).af.toNat = p.af.toNat ∧ ((gpio' p.port).pin i).ospeed = 0b00 ∧
      ((gpio' p.port).pin i).pupd = 0b00 ∧ ((gpio' p.port).pin i).mode = 0b10
  /-- The fields of the other pins. -/
  others : ∀ port, ∀ i : Fin 16, (∀ p ∈ pins, ¬ (p.port = port ∧ p.pin.toNat = i)) →
    (gpio' port).pin i = (gpio port).pin i

theorem pinsConfigured_of_table {pins : List Pin} {gpio gpio' : Gpio}
    (hpins : ∀ p ∈ pins, p.Valid) (hkeys : pins.Pairwise fun p q => p.key ≠ q.key)
    (htable : gpio'.table = writeAll Pin.key Pin.config gpio.table pins) :
    PinsConfigured pins gpio gpio' := by
  constructor
  · intro p hp i hi
    have hkey : (p.port, i) = p.key := Prod.ext rfl (Fin.ext (hi.trans (hpins p hp).key_val.symm))
    have hcell : (gpio' p.port).pin i = p.config := by
      show gpio'.table (p.port, i) = _
      rw [htable, hkey, writeAll_of_mem Pin.key Pin.config hkeys hp]
    rw [hcell]
    refine ⟨?_, rfl, rfl, rfl⟩
    show (p.af.setWidth 4).toNat = _
    rw [BitVec.toNat_setWidth, Nat.mod_eq_of_lt (hpins p hp).af_lt]
  · intro port i hother
    have hkey : ∀ p ∈ pins, p.key ≠ (port, i) := by
      intro p hp h
      refine hother p hp ⟨congrArg Prod.fst h, ?_⟩
      rw [← (hpins p hp).key_val, h]
    show gpio'.table (port, i) = gpio.table (port, i)
    rw [htable, writeAll_of_notMem Pin.key Pin.config hkey]

/-- **Pin setup touches only its own pins.** For every content of the registers
    and every list of at most `kMaxNumChannels` entries with `pin < 16` and
    `af < 16` that name distinct pins, the loop of the constructor ends with the
    fields of each listed pin set and every field of every other pin as it was,
    whatever the order of the list. -/
theorem pins_configured (gpio : Gpio) (pins : List Pin) (hlen : pins.length ≤ kMaxNumChannels)
    (hpins : ∀ p ∈ pins, p.pin.toNat < 16 ∧ p.af.toNat < 16)
    (hne : pins.Pairwise fun p q => (p.port, p.pin) ≠ (q.port, q.pin)) :
    ∃ gpio', pins.foldlM configureAFPin gpio = .ok gpio' ∧ PinsConfigured pins gpio gpio' ∧
      (∀ pins', pins.Perm pins' → pins'.foldlM configureAFPin gpio = .ok gpio') ∧
      ∀ (tim : Tim) (clock : Word) (arr : Ch → Pin),
        (List.finRange pins.length).map (fun i => arr (i.castLE hlen)) = pins →
          ∃ g, PWMGenerator.make tim gpio clock arr pins.length = .ok (g, gpio') := by
  have hvalid : ∀ p ∈ pins, p.Valid := fun p hp => ⟨(hpins p hp).1, (hpins p hp).2⟩
  have hkeys : pins.Pairwise fun p q => p.key ≠ q.key :=
    hne.imp_of_mem fun hp hq h => (hvalid _ hp).key_ne (hvalid _ hq) h
  obtain ⟨gpio', hloop, htable⟩ := table_configureAFPins gpio hvalid
  refine ⟨gpio', hloop, pinsConfigured_of_table hvalid hkeys htable, fun pins' hperm => ?_,
    fun tim clock arr harr => make_of_loop hlen (by rw [harr, hloop]) tim clock⟩
  obtain ⟨g₂, hloop₂, htable₂⟩ :=
    table_configureAFPins gpio fun p hp => hvalid p (hperm.mem_iff.mpr hp)
  have heq : g₂ = gpio' := table_injective (by
    rw [htable₂, htable, writeAll_perm Pin.key Pin.config hperm hkeys])
  rw [hloop₂, heq]

/-- Pins on both sides of the border between `AFR[0]` and `AFR[1]`, and the same
    pin number on another port, with every bit of the registers set before. -/
theorem pins_configured_border :
    ∃ gpio', [⟨.gpioA, 7, 1⟩, ⟨.gpioA, 8, 2⟩, ⟨.gpioB, 8, 15⟩].foldlM configureAFPin
        (fun _ => ⟨~~~0, ~~~0, ~~~0, fun _ => ~~~0⟩) = .ok gpio' ∧
      PinsConfigured [⟨.gpioA, 7, 1⟩, ⟨.gpioA, 8, 2⟩, ⟨.gpioB, 8, 15⟩]
        (fun _ => ⟨~~~0, ~~~0, ~~~0, fun _ => ~~~0⟩) gpio' := by
  obtain ⟨gpio', hloop, hpins, -⟩ := pins_configured (fun _ => ⟨~~~0, ~~~0, ~~~0, fun _ => ~~~0⟩)
    [⟨.gpioA, 7, 1⟩, ⟨.gpioA, 8, 2⟩, ⟨.gpioB, 8, 15⟩] (by decide) (by decide) (by decide)
  exact ⟨gpio', hloop, hpins⟩

end StepperSynth
