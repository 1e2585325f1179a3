import StepperSynth.Basic
import StepperSynth.Common.Memory

/-!
# `Reset_Handler`

Model of the two loops of `startup_stm32f407xx.s` that make the static variables: `.data`
is copied from flash, and `.bss` is filled with 0. The section bounds are those of
`linker_script.ld`.

* `Image`: what the linker script says about the bounds.
* `copy_loop`, `fill_loop`: the loops, word by word.
* `startup_memory`: the memory when the static constructors run.
-/

namespace StepperSynth

open Common

/-! ## The linker script -/

/-- `_estack`, the end of `SRAM1`. -/
def estack : Word := 0x2001C000

/-- `_Min_Heap_Size`. -/
def minHeapSize : ℕ := 0x200

/-- `_Min_Stack_Size`. -/
def minStackSize : ℕ := 0x400

/-- The symbols of a linked program. `.data` and `.bss` are in `SRAM1` and have word
    bounds, what is copied is in `FLASH`, and `._user_heap_stack` has found room. -/
structure Image where
  sidata : Word
  sdata : Word
  edata : Word
  sbss : Word
  ebss : Word
  heap : Word
  sram : 0x20000000 ≤ sdata.toNat
  data : sdata.toNat ≤ edata.toNat
  gap : edata.toNat ≤ sbss.toNat
  bss : sbss.toNat ≤ ebss.toNat
  rest : ebss.toNat ≤ heap.toNat
  fits : heap.toNat + minHeapSize + minStackSize ≤ estack.toNat
  flash : 0x08000000 ≤ sidata.toNat
  load : sidata.toNat + (edata.toNat - sdata.toNat) ≤ 0x08100000
  dataWords : 4 ∣ edata.toNat - sdata.toNat
  bssWords : 4 ∣ ebss.toNat - sbss.toNat

/-! ## Model -/

/-- The registers of the core that the loops use, and the memory. -/
structure Cpu where
  r0 : Word
  r1 : Word
  r2 : Word
  r3 : Word
  r4 : Word
  mem : Mem 32

/-- Where the core is; `libcInitArray` is the call after the loops. -/
inductive Label
  | copyDataInit
  | loopCopyDataInit
  | fillZerobss
  | loopFillZerobss
  | libcInitArray
  deriving DecidableEq, Repr

namespace Image

/-- The instructions from a label to the next jump. `bcc` is taken if the comparison is
    unsigned lower. -/
def block (im : Image) : Cpu × Label → Cpu × Label
  | (c, .copyDataInit) =>
    let c := { c with r4 := Common.load c.mem (c.r2 + c.r3) }
    let c := { c with mem := store c.mem (c.r0 + c.r3) c.r4 }
    let c := { c with r3 := c.r3 + 4 }
    (c, .loopCopyDataInit)
  | (c, .loopCopyDataInit) =>
    let c := { c with r4 := c.r0 + c.r3 }
    if c.r4 < c.r1 then (c, .copyDataInit)
    else
      let c := { c with r2 := im.sbss }
      let c := { c with r4 := im.ebss }
      let c := { c with r3 := 0 }
      (c, .loopFillZerobss)
  | (c, .fillZerobss) =>
    let c := { c with mem := store c.mem c.r2 c.r3 }
    let c := { c with r2 := c.r2 + 4 }
    (c, .loopFillZerobss)
  | (c, .loopFillZerobss) =>
    if c.r2 < c.r4 then (c, .fillZerobss) else (c, .libcInitArray)
  | (c, .libcInitArray) => (c, .libcInitArray)

/-- The core after the call of `SystemInit`, which writes no memory of the program. -/
def reset (im : Image) (c : Cpu) : Cpu × Label :=
  ({ c with r0 := im.sdata, r1 := im.edata, r2 := im.sidata, r3 := 0 }, .loopCopyDataInit)

variable (im : Image)

/-- The sizes of `.data` and `.bss`. -/
def dataSize : ℕ := im.edata.toNat - im.sdata.toNat

def bssSize : ℕ := im.ebss.toNat - im.sbss.toNat

/-! ## The loops -/

/-- What is copied is not in `.data`. -/
theorem source_apart {n i : ℕ} (hn : n < im.dataSize) (hi : i < n + 4) :
    n ≤ (im.sidata + BitVec.ofNat 32 i - im.sdata).toNat := by
  have := im.sram
  have := im.data
  have := im.gap
  have := im.bss
  have := im.rest
  have := im.fits
  have := im.flash
  have := im.load
  have hwords := im.dataWords
  unfold dataSize at hn
  unfold estack at *
  obtain ⟨nd, hnd⟩ := hwords
  bv_omega

/-- The copy, from the word at `n` on. -/
theorem copy_loop {m : Mem 32} (words : ℕ) :
    ∀ (n : ℕ) (c : Cpu), n + 4 * words = im.dataSize → c.r0 = im.sdata → c.r1 = im.edata →
      c.r2 = im.sidata → c.r3 = BitVec.ofNat 32 n → c.mem = copied m im.sdata im.sidata n →
      ∃ k c', im.block^[k] (c, .loopCopyDataInit) = (c', .loopFillZerobss) ∧ c'.r2 = im.sbss ∧
        c'.r3 = 0 ∧ c'.r4 = im.ebss ∧ c'.mem = copied m im.sdata im.sidata im.dataSize := by
  have hdata := im.data
  have hgap := im.gap
  have hbss := im.bss
  have hrest := im.rest
  have hroom := im.fits
  have hsize : im.dataSize = im.edata.toNat - im.sdata.toNat := rfl
  unfold estack at hroom
  induction words with
  | zero =>
    intro n c hn h0 h1 h2 h3 hmem
    refine ⟨1, _, if_neg ?_, rfl, rfl, rfl, ?_⟩
    · show ¬ c.r0 + c.r3 < c.r1
      rw [h0, h1, h3]
      bv_omega
    · rw [← hn]
      exact hmem
  | succ words ih =>
    intro n c hn h0 h1 h2 h3 hmem
    have htest : im.block (c, .loopCopyDataInit) =
        ({ c with r4 := c.r0 + c.r3 }, .copyDataInit) := by
      refine if_pos ?_
      show c.r0 + c.r3 < c.r1
      rw [h0, h1, h3]
      bv_omega
    have hbound : n + 4 ≤ 2 ^ 32 := by
      have := im.edata.isLt
      omega
    -- the word at `n`
    have hstep := copied_step m hbound fun i hi => im.source_apart (by omega) hi
    obtain ⟨k, c', hk, h'⟩ := ih (n + 4) (im.block ({ c with r4 := c.r0 + c.r3 }, .copyDataInit)).1
      (by omega) h0 h1 h2 (by
        show c.r3 + 4 = _
        rw [h3]
        bv_omega) (by
        show store c.mem (c.r0 + c.r3) (Common.load c.mem (c.r2 + c.r3)) = _
        rw [h0, h2, h3, hmem]
        exact hstep)
    refine ⟨k + 2, c', ?_, h'⟩
    rw [Function.iterate_succ_apply, htest, Function.iterate_succ_apply]
    exact hk

/-- The fill, from the word at `n` on. -/
theorem fill_loop {m : Mem 32} (words : ℕ) :
    ∀ (n : ℕ) (c : Cpu), n + 4 * words = im.bssSize → c.r2 = im.sbss + BitVec.ofNat 32 n →
      c.r3 = 0 → c.r4 = im.ebss → c.mem = filled m im.sbss n →
      ∃ k c', im.block^[k] (c, .loopFillZerobss) = (c', .libcInitArray) ∧
        c'.mem = filled m im.sbss im.bssSize := by
  have hbss := im.bss
  have hsize : im.bssSize = im.ebss.toNat - im.sbss.toNat := rfl
  induction words with
  | zero =>
    intro n c hn h2 h3 h4 hmem
    refine ⟨1, c, if_neg ?_, ?_⟩
    · show ¬ c.r2 < c.r4
      rw [h2, h4]
      bv_omega
    · rw [← hn]
      exact hmem
  | succ words ih =>
    intro n c hn h2 h3 h4 hmem
    have htest : im.block (c, .loopFillZerobss) = (c, .fillZerobss) := by
      refine if_pos ?_
      show c.r2 < c.r4
      rw [h2, h4]
      bv_omega
    have hbound : n + 4 ≤ 2 ^ 32 := by
      have := im.ebss.isLt
      omega
    have hstep := filled_step m im.sbss hbound
    obtain ⟨k, c', hk, h'⟩ := ih (n + 4) (im.block (c, .fillZerobss)).1 (by omega) (by
        show c.r2 + 4 = _
        rw [h2]
        bv_omega) h3 h4 (by
        show store c.mem c.r2 c.r3 = _
        rw [h2, h3, hmem]
        exact hstep)
    refine ⟨k + 2, c', ?_, h'⟩
    rw [Function.iterate_succ_apply, htest, Function.iterate_succ_apply]
    exact hk

theorem mem_data (x : Word) : (x - im.sdata).toNat < im.dataSize ↔ im.sdata ≤ x ∧ x < im.edata := by
  have hdata := im.data
  unfold dataSize
  constructor
  · intro h
    constructor <;> bv_omega
  · rintro ⟨hle, hlt⟩
    bv_omega

theorem mem_bss (x : Word) : (x - im.sbss).toNat < im.bssSize ↔ im.sbss ≤ x ∧ x < im.ebss := by
  have hbss := im.bss
  unfold bssSize
  constructor
  · intro h
    constructor <;> bv_omega
  · rintro ⟨hle, hlt⟩
    bv_omega

/-- **The static variables.** For every linked program and every content of the memory:
    the loops end, and then `.data` has the bytes that are in flash for it, `.bss` is 0,
    and every other byte is as it was. -/
theorem startup_memory (c : Cpu) :
    ∃ k c', im.block^[k] (im.reset c) = (c', .libcInitArray) ∧ ∀ x : Word,
      c'.mem x =
        if im.sdata ≤ x ∧ x < im.edata then c.mem (im.sidata + (x - im.sdata))
        else if im.sbss ≤ x ∧ x < im.ebss then 0 else c.mem x := by
  obtain ⟨nd, hnd⟩ := im.dataWords
  obtain ⟨nb, hnb⟩ := im.bssWords
  obtain ⟨k, c₁, hk, h2, h3, h4, hmem⟩ := im.copy_loop nd 0 (im.reset c).1
    (by rw [Nat.zero_add]; exact hnd.symm) rfl rfl rfl rfl (copied_zero _ _ _).symm
  obtain ⟨j, c₂, hj, hmem₂⟩ := im.fill_loop nb 0 c₁ (by rw [Nat.zero_add]; exact hnb.symm)
    (by rw [h2]; simp) h3 h4 (filled_zero _ _).symm
  refine ⟨j + k, c₂, ?_, fun x => ?_⟩
  · rw [Function.iterate_add_apply]
    exact (congrArg im.block^[j] hk).trans hj
  · have hapart : im.sdata ≤ x ∧ x < im.edata → ¬ (im.sbss ≤ x ∧ x < im.ebss) := by
      rintro ⟨-, hx⟩ ⟨hx', -⟩
      have hgap := im.gap
      bv_omega
    have hcopied : c₁.mem x =
        if im.sdata ≤ x ∧ x < im.edata then c.mem (im.sidata + (x - im.sdata)) else c.mem x := by
      rw [hmem]
      unfold copied
      simp only [im.mem_data]
      rfl
    rw [hmem₂]
    unfold filled
    simp only [im.mem_bss]
    by_cases hx : im.sdata ≤ x ∧ x < im.edata
    · rw [if_neg (hapart hx), if_pos hx, hcopied, if_pos hx]
    · rw [if_neg hx, hcopied, if_neg hx]

/-- A program with 8 bytes of `.data` and 16 of `.bss`. -/
def small : Image where
  sidata := 0x08001000
  sdata := 0x20000000
  edata := 0x20000008
  sbss := 0x20000008
  ebss := 0x20000018
  heap := 0x20000018
  sram := by decide
  data := by decide
  gap := by decide
  bss := by decide
  rest := by decide
  fits := by decide
  flash := by decide
  load := by decide
  dataWords := by decide
  bssWords := by decide

theorem startup_memory_small :
    ∃ k c', small.block^[k] (small.reset ⟨0, 0, 0, 0, 0, fun x => x.setWidth 8⟩) =
        (c', .libcInitArray) ∧ ∀ x : Word, c'.mem x =
      if small.sdata ≤ x ∧ x < small.edata then
        (small.sidata + (x - small.sdata)).setWidth 8
      else if small.sbss ≤ x ∧ x < small.ebss then 0 else x.setWidth 8 :=
  small.startup_memory _

end Image

end StepperSynth
