import StepperSynth.Common.Stutter
import StepperSynth.Pwm.Enables
import StepperSynth.Pwm.Latency

/-!
# One access at a time

`setChannelPeriod` runs in a task and `isr` in an interrupt. Here each access of a
register or of `m_periods_us` is a step of its own, in source order; the timer may
count between any two of them, and the interrupt may come between any two accesses
of the task. The read and the write of a `|=` are two steps, so a value can get old
in between.

* `setStep`, `isrStep`: one access of the task and of the interrupt.
* `Inv`, `inv_step`: what holds between any two accesses.
* `flag_run`: the flag of a channel is as the last match or the last clear left it.
* `interleaved_enables`: no update of `CCER`, `DIER`, `SR` or a period is lost, and a
  channel that interrupts is fully enabled.
* `interleaved_edges`: the edges of an enabled channel obey the law of whole `isr` runs,
  and its flag is set from each match to the next clear by `isr`.
-/

namespace StepperSynth

open Common

/-! ## Model -/

/-- Where `setChannelPeriod` is (`pwm_generator.cpp` lines 94–114): the next access,
    with what has been read for it. `half` is `period` after line 79. -/
inductive SetPc
  | idle
  | enableTest (ch : Ch) (half : Word)
  | readCnt (ch : Ch) (half : Word)
  | writeCcr (ch : Ch) (half value : Word)
  | writePeriod (ch : Ch) (half : Word)
  | readCcer (ch : Ch)
  | writeCcer (ch : Ch) (value : Word)
  | writeSr (ch : Ch)
  | readDier (ch : Ch)
  | writeDier (ch : Ch) (value : Word)
  | disableTest (ch : Ch) (half : Word)
  | readDierOff (ch : Ch)
  | writeDierOff (ch : Ch) (value : Word)
  | readCcerOff (ch : Ch)
  | writeCcerOff (ch : Ch) (value : Word)
  | clearPeriod (ch : Ch)
  | update (ch : Ch) (half : Word)

/-- Where `isr` is (lines 118–133), with what has been read. -/
inductive IsrPc
  | idle
  | readSr (ch : ℕ)
  | readCcr (ch : Ch)
  | writeCcr (ch : Ch) (half value : Word)
  | clearSr (ch : Ch)

namespace PWMGenerator

/-- `m_tim->CCER = v`. -/
def writeCcer (g : PWMGenerator) (v : Word) : PWMGenerator :=
  { g with tim := { g.tim with ccer := v } }

theorem ch_lt (g : PWMGenerator) {ch : ℕ} (h : ch < g.mNumChannels) : ch < kMaxNumChannels :=
  h.trans_le g.num_le

/-- `m_tim->DIER = v`. -/
def writeDier (g : PWMGenerator) (v : Word) : PWMGenerator :=
  { g with tim := { g.tim with dier := v } }

end PWMGenerator

/-- One access of `setChannelPeriod`. -/
def setStep (g : PWMGenerator) : SetPc → PWMGenerator × SetPc
  | .idle => (g, .idle)
  | .enableTest ch half =>
    (g, if g.mPeriodsUs ch = 0 ∧ half ≠ 0 then .readCnt ch half else .disableTest ch half)
  | .readCnt ch half => (g, .writeCcr ch half (g.tim.cnt + half))
  | .writeCcr ch half v => (g.writeCcr ch v, .writePeriod ch half)
  | .writePeriod ch half => (g.writePeriod ch half, .readCcer ch)
  | .readCcer ch => (g, .writeCcer ch (g.tim.ccer ||| Tim.ccxeMsk ch))
  | .writeCcer ch v => (g.writeCcer v, .writeSr ch)
  | .writeSr ch => (g.clearFlag ch, .readDier ch)
  | .readDier ch => (g, .writeDier ch (g.tim.dier ||| Tim.ccxieMsk ch))
  | .writeDier _ v => (g.writeDier v, .idle)
  | .disableTest ch half =>
    (g, if g.mPeriodsUs ch ≠ 0 ∧ half = 0 then .readDierOff ch else .update ch half)
  | .readDierOff ch => (g, .writeDierOff ch (g.tim.dier &&& ~~~Tim.ccxieMsk ch))
  | .writeDierOff ch v => (g.writeDier v, .readCcerOff ch)
  | .readCcerOff ch => (g, .writeCcerOff ch (g.tim.ccer &&& ~~~Tim.ccxeMsk ch))
  | .writeCcerOff ch v => (g.writeCcer v, .clearPeriod ch)
  | .clearPeriod ch => (g.writePeriod ch 0, .idle)
  | .update ch half => (g.writePeriod ch half, .idle)

/-- One access of `isr`. -/
def isrStep (g : PWMGenerator) : IsrPc → PWMGenerator × IsrPc
  | .idle => (g, .idle)
  | .readSr ch =>
    if h : ch < g.mNumChannels then
      let c : Ch := ⟨ch, g.ch_lt h⟩
      (g, if g.tim.sr &&& Tim.ccxifMsk c ≠ 0 then .readCcr c else .readSr (ch + 1))
    else (g, .idle)
  | .readCcr ch => (g, .writeCcr ch (g.mPeriodsUs ch) (g.tim.ccr ch + g.mPeriodsUs ch))
  | .writeCcr ch _ v => (g.writeCcr ch v, .clearSr ch)
  | .clearSr ch => (g.clearFlag ch, .readSr (ch + 1))

/-- The generator with the task and the interrupt that use it. `asked` is a record of
    the periods last passed to `setChannelPeriod`. -/
structure Driver where
  gen : PWMGenerator
  task : SetPc
  isr : IsrPc
  asked : Ch → Word

/-- What can happen next. -/
inductive Access
  | tick
  | call (ch : ℕ) (period : Word)
  | task
  | interrupt
  | isr
  deriving DecidableEq

namespace Driver

/-- The task runs only while the interrupt does not, and calls `setChannelPeriod` only
    when the last call has returned. The interrupt comes when the timer asks for it. -/
def step (d : Driver) : Access → Except Fault Driver
  | .tick => .ok { d with gen := d.gen.tick }
  | .call ch period =>
    match d.task, d.isr with
    | .idle, .idle =>
      if h : ch < d.gen.mNumChannels then
        let c : Ch := ⟨ch, d.gen.ch_lt h⟩
        .ok { d with task := .enableTest c (period / 2), asked := Function.update d.asked c period }
      else .error .channelRange
    | _, _ => .ok d
  | .task =>
    match d.isr with
    | .idle => .ok { d with gen := (setStep d.gen d.task).1, task := (setStep d.gen d.task).2 }
    | _ => .ok d
  | .interrupt =>
    match d.isr with
    | .idle => .ok (if d.gen.tim.sr &&& d.gen.tim.dier ≠ 0 then { d with isr := .readSr 0 } else d)
    | _ => .ok d
  | .isr => .ok { d with gen := (isrStep d.gen d.isr).1, isr := (isrStep d.gen d.isr).2 }

/-- The calls respect the assert of `setChannelPeriod`. -/
def Valid (numChannels : ℕ) : Access → Prop
  | .call ch _ => ch < numChannels
  | _ => True

end Driver

/-! ## Nothing in between -/

section Alone

variable (g : PWMGenerator) (ch : Ch)

/-- The accesses of a call in a row are `setChannelPeriod`. -/
theorem setStep_alone (period : Word) :
    ∃ k, (fun s => setStep s.1 s.2)^[k] (g, .enableTest ch (period / 2)) =
      (g.setPeriodBody ch period, .idle) := by
  unfold PWMGenerator.setPeriodBody
  by_cases hon : g.mPeriodsUs ch = 0 ∧ period / 2 ≠ 0
  · refine ⟨9, ?_⟩
    have htest : setStep g (.enableTest ch (period / 2)) = (g, .readCnt ch (period / 2)) :=
      congrArg (g, ·) (if_pos hon)
    rw [Function.iterate_succ_apply, htest, if_pos hon]
    rfl
  · have htest : setStep g (.enableTest ch (period / 2)) = (g, .disableTest ch (period / 2)) :=
      congrArg (g, ·) (if_neg hon)
    by_cases hoff : g.mPeriodsUs ch ≠ 0 ∧ period / 2 = 0
    · refine ⟨7, ?_⟩
      have htest' : setStep g (.disableTest ch (period / 2)) = (g, .readDierOff ch) :=
        congrArg (g, ·) (if_pos hoff)
      rw [Function.iterate_succ_apply, htest, Function.iterate_succ_apply, htest', if_neg hon,
        if_pos hoff]
      rfl
    · refine ⟨3, ?_⟩
      have htest' : setStep g (.disableTest ch (period / 2)) = (g, .update ch (period / 2)) :=
        congrArg (g, ·) (if_neg hoff)
      rw [Function.iterate_succ_apply, htest, Function.iterate_succ_apply, htest', if_neg hon,
        if_neg hoff]
      rfl

/-- One pass of the loop of `isr`. -/
theorem isrStep_body (h : ch < g.mNumChannels) :
    ∃ k, (fun s => isrStep s.1 s.2)^[k] (g, .readSr ch) = (g.isrBody ch, .readSr (ch + 1)) := by
  unfold PWMGenerator.isrBody
  by_cases hflag : g.tim.sr &&& Tim.ccxifMsk ch ≠ 0
  · refine ⟨4, ?_⟩
    have hread : isrStep g (.readSr ch) = (g, .readCcr ch) :=
      (dif_pos h).trans (congrArg (g, ·) (if_pos hflag))
    rw [Function.iterate_succ_apply, hread, if_pos hflag]
    rfl
  · refine ⟨1, ?_⟩
    have hread : isrStep g (.readSr ch) = (g, .readSr (ch + 1)) :=
      (dif_pos h).trans (congrArg (g, ·) (if_neg hflag))
    rw [Function.iterate_succ_apply, hread, if_neg hflag]
    rfl

theorem isrStep_loop (l : List Ch) :
    ∀ (g : PWMGenerator) (start : ℕ), l.map Fin.val = List.range' start l.length →
      start + l.length = g.mNumChannels →
      ∃ k, (fun s => isrStep s.1 s.2)^[k] (g, .readSr start) =
        (l.foldl PWMGenerator.isrBody g, .idle) := by
  induction l with
  | nil =>
    rintro g start - hlen
    refine ⟨1, ?_⟩
    have hdone : isrStep g (.readSr start) = (g, .idle) := dif_neg (by simp at hlen; omega)
    rw [Function.iterate_succ_apply, hdone]
    rfl
  | cons c l ih =>
    intro g start hmap hlen
    rw [List.map_cons, List.length_cons, List.range'_succ, List.cons.injEq] at hmap
    obtain ⟨rfl, hmap⟩ := hmap
    rw [List.length_cons] at hlen
    obtain ⟨k, hk⟩ := isrStep_body g c (by omega)
    have hnum : (g.isrBody c).mNumChannels = g.mNumChannels := by
      rw [PWMGenerator.isrBody_eq_put]
      rfl
    obtain ⟨j, hj⟩ := ih (g.isrBody c) (c + 1) hmap (by rw [hnum]; omega)
    refine ⟨j + k, ?_⟩
    rw [Function.iterate_add_apply, hk, hj, List.foldl_cons]

/-- The accesses of an interrupt in a row are `isr`. -/
theorem isrStep_alone :
    ∃ k, (fun s => isrStep s.1 s.2)^[k] (g, .readSr 0) = (g.isr, .idle) := by
  refine isrStep_loop g.channels g 0 ?_ ?_
  · unfold PWMGenerator.channels
    rw [List.map_map, List.length_map, List.length_finRange, ← List.range_eq_range',
      ← List.map_coe_finRange_eq_range]
    rfl
  · unfold PWMGenerator.channels
    rw [List.length_map, List.length_finRange, Nat.zero_add]

end Alone

/-! ## The enable bits and the periods -/

/-- The registers that only the task writes. -/
structure Enables where
  ccer : Word
  dier : Word
  periods : Ch → Word

namespace Enables

def ccxe (e : Enables) (ch : Ch) : Bool := e.ccer.getLsbD (ch * 4)

def ccxie (e : Enables) (ch : Ch) : Bool := e.dier.getLsbD (ch + 1)

/-- The enable bits of a channel say whether it has a period. -/
def Agree (e : Enables) (ch : Ch) : Prop :=
  e.ccxe ch = decide (e.periods ch ≠ 0) ∧ e.ccxie ch = decide (e.periods ch ≠ 0)

/-- The period of a channel, and its enable bits. -/
def Stage (e : Enables) (ch : Ch) (period : Word) (ccxe ccxie : Bool) : Prop :=
  e.periods ch = period ∧ e.ccxe ch = ccxe ∧ e.ccxie ch = ccxie

def setCcxe (e : Enables) (ch : Ch) (b : Bool) : Enables :=
  { e with ccer := writeBit e.ccer (ch * 4) b }

def setCcxie (e : Enables) (ch : Ch) (b : Bool) : Enables :=
  { e with dier := writeBit e.dier (ch + 1) b }

def setPeriod (e : Enables) (ch : Ch) (period : Word) : Enables :=
  { e with periods := Function.update e.periods ch period }

section Set

variable (e : Enables) (ch c : Ch) (b : Bool) (p : Word)

@[simp] theorem setCcxe_ccxe : (e.setCcxe ch b).ccxe c = if c = ch then b else e.ccxe c := by
  unfold ccxe setCcxe
  rw [getLsbD_writeBit (PWMGenerator.ccBit_lt ch)]
  have hiff : ((c : ℕ) * 4 = ch * 4) ↔ c = ch := by
    rw [Fin.ext_iff]
    omega
  simp only [hiff]

@[simp] theorem setCcxie_ccxie : (e.setCcxie ch b).ccxie c = if c = ch then b else e.ccxie c := by
  unfold ccxie setCcxie
  rw [getLsbD_writeBit (PWMGenerator.irqBit_lt ch)]
  have hiff : ((c : ℕ) + 1 = ch + 1) ↔ c = ch := by
    rw [Fin.ext_iff]
    omega
  simp only [hiff]

@[simp] theorem setCcxe_ccxie : (e.setCcxe ch b).ccxie c = e.ccxie c := rfl

@[simp] theorem setCcxe_periods : (e.setCcxe ch b).periods = e.periods := rfl

@[simp] theorem setCcxie_ccxe : (e.setCcxie ch b).ccxe c = e.ccxe c := rfl

@[simp] theorem setCcxie_periods : (e.setCcxie ch b).periods = e.periods := rfl

@[simp] theorem setPeriod_ccxe : (e.setPeriod ch p).ccxe c = e.ccxe c := rfl

@[simp] theorem setPeriod_ccxie : (e.setPeriod ch p).ccxie c = e.ccxie c := rfl

@[simp] theorem setPeriod_periods :
    (e.setPeriod ch p).periods c = if c = ch then p else e.periods c := by
  unfold setPeriod
  simp only [Function.update_apply]

end Set

end Enables

/-! ## The invariant -/

namespace SetPc

/-- The channel that the task is at. -/
def channel : SetPc → Option Ch
  | idle => none
  | enableTest ch _ | readCnt ch _ | writeCcr ch _ _ | writePeriod ch _ | readCcer ch
  | writeCcer ch _ | writeSr ch | readDier ch | writeDier ch _ | disableTest ch _
  | readDierOff ch | writeDierOff ch _ | readCcerOff ch | writeCcerOff ch _ | clearPeriod ch
  | update ch _ => some ch

/-- What holds of the channel that the task is at, when `half` is half of the period asked
    for. What a `|=` has read is still in the register. -/
def Local (e : Enables) (half : Ch → Word) : SetPc → Prop
  | idle => True
  | enableTest ch h => h = half ch ∧ e.Agree ch
  | readCnt ch h | writeCcr ch h _ | writePeriod ch h =>
    h = half ch ∧ half ch ≠ 0 ∧ e.Stage ch 0 false false
  | readCcer ch => half ch ≠ 0 ∧ e.Stage ch (half ch) false false
  | writeCcer ch v => half ch ≠ 0 ∧ e.Stage ch (half ch) false false ∧
      v = writeBit e.ccer (ch * 4) true
  | writeSr ch | readDier ch => half ch ≠ 0 ∧ e.Stage ch (half ch) true false
  | writeDier ch v => half ch ≠ 0 ∧ e.Stage ch (half ch) true false ∧
      v = writeBit e.dier (ch + 1) true
  | disableTest ch h => h = half ch ∧ e.Agree ch ∧ (e.periods ch = 0 → h = 0)
  | update ch h => h = half ch ∧ e.Agree ch ∧ (e.periods ch = 0 ↔ h = 0)
  | readDierOff ch => half ch = 0 ∧ ∃ p ≠ 0, e.Stage ch p true true
  | writeDierOff ch v => half ch = 0 ∧ (∃ p ≠ 0, e.Stage ch p true true) ∧
      v = writeBit e.dier (ch + 1) false
  | readCcerOff ch => half ch = 0 ∧ ∃ p ≠ 0, e.Stage ch p true false
  | writeCcerOff ch v => half ch = 0 ∧ (∃ p ≠ 0, e.Stage ch p true false) ∧
      v = writeBit e.ccer (ch * 4) false
  | clearPeriod ch => half ch = 0 ∧ ∃ p ≠ 0, e.Stage ch p false false

end SetPc

/-- What holds between any two accesses of the task. -/
structure Settled (e : Enables) (half : Ch → Word) (pc : SetPc) : Prop where
  here : pc.Local e half
  others : ∀ c, pc.channel ≠ some c → e.Agree c ∧ e.periods c = half c

section Settled

variable {e e' : Enables} {half : Ch → Word} {pc pc' : SetPc} {ch : Ch}

/-- The task writes to its channel only. -/
def Elsewhere (e e' : Enables) (ch : Ch) : Prop :=
  ∀ c, c ≠ ch → e'.ccxe c = e.ccxe c ∧ e'.ccxie c = e.ccxie c ∧ e'.periods c = e.periods c

theorem Settled.other (h : Settled e half pc) (hpc : pc.channel = some ch)
    (hsame : Elsewhere e e' ch) {c : Ch} (hc : c ≠ ch) : e'.Agree c ∧ e'.periods c = half c := by
  obtain ⟨hcc, hirq, hper⟩ := hsame c hc
  obtain ⟨⟨hagree, hagree'⟩, hhalf⟩ := h.others c (by simpa [hpc] using Ne.symm hc)
  unfold Enables.Agree
  rw [hcc, hirq, hper]
  exact ⟨⟨hagree, hagree'⟩, hhalf⟩

/-- The task goes on with its channel. -/
theorem Settled.move (h : Settled e half pc) (hpc : pc.channel = some ch)
    (hsame : Elsewhere e e' ch) (hpc' : pc'.channel = some ch) (hlocal : pc'.Local e' half) :
    Settled e' half pc' := by
  refine ⟨hlocal, fun c hc => h.other hpc hsame ?_⟩
  rintro rfl
  exact hc hpc'

/-- The task is done with its channel. -/
theorem Settled.finish (h : Settled e half pc) (hpc : pc.channel = some ch)
    (hsame : Elsewhere e e' ch) (hdone : e'.Agree ch ∧ e'.periods ch = half ch) :
    Settled e' half .idle := by
  refine ⟨trivial, fun c _ => ?_⟩
  by_cases hc : c = ch
  · rwa [hc]
  · exact h.other hpc hsame hc

theorem elsewhere_rfl : Elsewhere e e ch := fun _ _ => ⟨rfl, rfl, rfl⟩

theorem elsewhere_setCcxe (b : Bool) : Elsewhere e (e.setCcxe ch b) ch := by
  intro c hc
  simp [hc]

theorem elsewhere_setCcxie (b : Bool) : Elsewhere e (e.setCcxie ch b) ch := by
  intro c hc
  simp [hc]

theorem elsewhere_setPeriod (p : Word) : Elsewhere e (e.setPeriod ch p) ch := by
  intro c hc
  simp [hc]

end Settled

namespace PWMGenerator

def enables (g : PWMGenerator) : Enables := ⟨g.tim.ccer, g.tim.dier, g.mPeriodsUs⟩

/-- The interrupt does not write them. -/
theorem isrStep_enables (g : PWMGenerator) (pc : IsrPc) : (isrStep g pc).1.enables = g.enables := by
  cases pc with
  | readSr ch =>
    unfold isrStep
    simp only
    split_ifs <;> rfl
  | _ => rfl

end PWMGenerator

/-- What one access of the task does to the registers that only it writes. -/
theorem settled_setStep {g : PWMGenerator} {pc : SetPc} {half : Ch → Word}
    (h : Settled g.enables half pc) : Settled (setStep g pc).1.enables half (setStep g pc).2 := by
  have hlocal := h.here
  cases pc with
  | idle => exact h
  | enableTest ch x =>
    obtain ⟨rfl, hagree⟩ := hlocal
    show Settled g.enables half (if _ then _ else _)
    split_ifs with hif
    · refine h.move rfl elsewhere_rfl rfl ⟨rfl, hif.2, hif.1, ?_, ?_⟩
      · rw [hagree.1]
        exact decide_eq_false (not_not_intro hif.1)
      · rw [hagree.2]
        exact decide_eq_false (not_not_intro hif.1)
    · refine h.move rfl elsewhere_rfl rfl ⟨rfl, hagree, fun hzero => ?_⟩
      by_contra hne
      exact hif ⟨hzero, hne⟩
  | readCnt ch x => exact h.move rfl elsewhere_rfl rfl hlocal
  | writeCcr ch x v => exact h.move rfl elsewhere_rfl rfl hlocal
  | writePeriod ch x =>
    obtain ⟨rfl, hne, hper, hcc, hirq⟩ := hlocal
    show Settled (g.enables.setPeriod ch (half ch)) half _
    exact h.move rfl (elsewhere_setPeriod _) rfl ⟨hne, by simp [Enables.Stage, hcc, hirq]⟩
  | readCcer ch => exact h.move rfl elsewhere_rfl rfl ⟨hlocal.1, hlocal.2, rfl⟩
  | writeCcer ch v =>
    obtain ⟨hne, ⟨hper, hcc, hirq⟩, rfl⟩ := hlocal
    show Settled (g.enables.setCcxe ch true) half _
    exact h.move rfl (elsewhere_setCcxe true) rfl ⟨hne, by simp [Enables.Stage, hper, hirq]⟩
  | writeSr ch => exact h.move rfl elsewhere_rfl rfl hlocal
  | readDier ch => exact h.move rfl elsewhere_rfl rfl ⟨hlocal.1, hlocal.2, rfl⟩
  | writeDier ch v =>
    obtain ⟨hne, ⟨hper, hcc, hirq⟩, rfl⟩ := hlocal
    show Settled (g.enables.setCcxie ch true) half _
    exact h.finish rfl (elsewhere_setCcxie true) (by simpa [Enables.Agree, hper, hcc] using hne)
  | disableTest ch x =>
    obtain ⟨rfl, hagree, hzero⟩ := hlocal
    show Settled g.enables half (if _ then _ else _)
    split_ifs with hif
    · refine h.move rfl elsewhere_rfl rfl ⟨hif.2, g.enables.periods ch, hif.1, rfl, ?_, ?_⟩
      · rw [hagree.1]
        exact decide_eq_true hif.1
      · rw [hagree.2]
        exact decide_eq_true hif.1
    · refine h.move rfl elsewhere_rfl rfl ⟨rfl, hagree, hzero, fun hhalf => ?_⟩
      by_contra hne
      exact hif ⟨hne, hhalf⟩
  | readDierOff ch => exact h.move rfl elsewhere_rfl rfl ⟨hlocal.1, hlocal.2, rfl⟩
  | writeDierOff ch v =>
    obtain ⟨hzero, ⟨p, hp, hper, hcc, hirq⟩, rfl⟩ := hlocal
    show Settled (g.enables.setCcxie ch false) half _
    exact h.move rfl (elsewhere_setCcxie false) rfl
      ⟨hzero, p, hp, by simp [Enables.Stage, hper, hcc]⟩
  | readCcerOff ch => exact h.move rfl elsewhere_rfl rfl ⟨hlocal.1, hlocal.2, rfl⟩
  | writeCcerOff ch v =>
    obtain ⟨hzero, ⟨p, hp, hper, hcc, hirq⟩, rfl⟩ := hlocal
    show Settled (g.enables.setCcxe ch false) half _
    exact h.move rfl (elsewhere_setCcxe false) rfl
      ⟨hzero, p, hp, by simp [Enables.Stage, hper, hirq]⟩
  | clearPeriod ch =>
    obtain ⟨hzero, p, hp, hper, hcc, hirq⟩ := hlocal
    show Settled (g.enables.setPeriod ch 0) half _
    exact h.finish rfl (elsewhere_setPeriod 0) (by simp [Enables.Agree, hcc, hirq, hzero])
  | update ch x =>
    obtain ⟨rfl, ⟨hcc, hirq⟩, hiff⟩ := hlocal
    show Settled (g.enables.setPeriod ch (half ch)) half _
    exact h.finish rfl (elsewhere_setPeriod _) (by simpa [Enables.Agree, hcc, hirq] using hiff)

namespace Driver

/-- Half of the period last asked for. -/
def half (d : Driver) (ch : Ch) : Word := d.asked ch / 2

/-- What holds between any two accesses, with `n` channels. -/
structure Inv (n : ℕ) (d : Driver) : Prop where
  num : d.gen.mNumChannels = n
  settled : Settled d.gen.enables d.half d.task
  range : ∀ ch, d.task.channel = some ch → ch < n
  dier : ∀ k, d.gen.tim.dier.getLsbD k = true → ∃ ch : Ch, ch < n ∧ k = (ch + 1 : ℕ)

variable {n : ℕ} {d : Driver}

theorem setStep_num (g : PWMGenerator) (pc : SetPc) :
    (setStep g pc).1.mNumChannels = g.mNumChannels := by
  cases pc <;> rfl

theorem setStep_channel (g : PWMGenerator) (pc : SetPc) {ch : Ch}
    (h : (setStep g pc).2.channel = some ch) : pc.channel = some ch := by
  cases pc with
  | enableTest c x =>
    unfold setStep at h
    simp only at h
    split_ifs at h <;> exact h
  | disableTest c x =>
    unfold setStep at h
    simp only at h
    split_ifs at h <;> exact h
  | _ => first | exact h | cases h

/-- The task sets `CCxIE` of its own channel only. -/
theorem setStep_dier (h : d.Inv n) {k : ℕ}
    (hk : (setStep d.gen d.task).1.tim.dier.getLsbD k = true) :
    ∃ ch : Ch, ch < n ∧ k = (ch + 1 : ℕ) := by
  have hlocal := h.settled.here
  have hrange := h.range
  cases hpc : d.task with
  | writeDier ch v =>
    rw [hpc] at hk hlocal hrange
    obtain ⟨-, -, rfl⟩ := hlocal
    by_cases hkc : k = (ch + 1 : ℕ)
    · exact ⟨ch, hrange ch rfl, hkc⟩
    · exact h.dier k (by rwa [← getLsbD_writeBit_ne (PWMGenerator.irqBit_lt ch) hkc _ true])
  | writeDierOff ch v =>
    rw [hpc] at hk hlocal hrange
    obtain ⟨-, -, rfl⟩ := hlocal
    by_cases hkc : k = (ch + 1 : ℕ)
    · exact ⟨ch, hrange ch rfl, hkc⟩
    · exact h.dier k (by rwa [← getLsbD_writeBit_ne (PWMGenerator.irqBit_lt ch) hkc _ false])
  | _ =>
    rw [hpc] at hk
    exact h.dier k hk

theorem isrStep_num (g : PWMGenerator) (pc : IsrPc) :
    (isrStep g pc).1.mNumChannels = g.mNumChannels := by
  cases pc with
  | readSr ch =>
    unfold isrStep
    simp only
    split_ifs <;> rfl
  | _ => rfl

/-- The task asks for a period of a channel. -/
theorem inv_call (h : d.Inv n) (htask : d.task = .idle) {ch : Ch} (hch : ch < n) (period : Word)
    (i : IsrPc) :
    Inv n ⟨d.gen, .enableTest ch (period / 2), i, Function.update d.asked ch period⟩ := by
  have hothers := h.settled.others
  rw [htask] at hothers
  have hhalf : Driver.half ⟨d.gen, .enableTest ch (period / 2), i,
      Function.update d.asked ch period⟩ = Function.update d.half ch (period / 2) := by
    funext c
    unfold Driver.half
    by_cases hc : c = ch <;> simp [hc]
  refine ⟨h.num, ?_, ?_, h.dier⟩
  · rw [hhalf]
    refine ⟨⟨?_, (hothers ch nofun).1⟩, fun c hc => ?_⟩
    · rw [Function.update_self]
    · have hne : c ≠ ch := by
        rintro rfl
        exact hc rfl
      rw [Function.update_of_ne hne]
      exact hothers c nofun
  · intro c hc
    cases hc
    exact hch

theorem inv_step (h : d.Inv n) {a : Access} (ha : Valid n a) :
    ∃ d', d.step a = .ok d' ∧ d'.Inv n := by
  cases a with
  | tick => exact ⟨_, rfl, h.num, h.settled, h.range, h.dier⟩
  | call ch period =>
    unfold step
    cases htask : d.task with
    | idle =>
      cases hisr : d.isr with
      | idle =>
        have hch : ch < d.gen.mNumChannels := h.num ▸ ha
        simp only [dif_pos hch]
        let c : Ch := ⟨ch, d.gen.ch_lt hch⟩
        exact ⟨_, rfl, inv_call h htask (show (c : ℕ) < n from ha) period _⟩
      | _ => exact ⟨d, rfl, h⟩
    | _ => exact ⟨d, rfl, h⟩
  | task =>
    unfold step
    cases hisr : d.isr with
    | idle =>
      refine ⟨_, rfl, (setStep_num _ _).trans h.num, settled_setStep h.settled, ?_, ?_⟩
      · exact fun ch hch => h.range ch (setStep_channel _ _ hch)
      · exact fun k hk => setStep_dier h hk
    | _ => exact ⟨d, rfl, h⟩
  | interrupt =>
    unfold step
    cases hisr : d.isr with
    | idle =>
      refine ⟨_, rfl, ?_⟩
      split_ifs
      · exact ⟨h.num, h.settled, h.range, h.dier⟩
      · exact h
    | _ => exact ⟨d, rfl, h⟩
  | isr =>
    have henables := d.gen.isrStep_enables d.isr
    refine ⟨_, rfl, (isrStep_num _ _).trans h.num, ?_, h.range, fun k hk => ?_⟩
    · show Settled (isrStep d.gen d.isr).1.enables d.half d.task
      rw [henables]
      exact h.settled
    · exact h.dier k (by rwa [← show _ = d.gen.tim.dier from congrArg Enables.dier henables])

/-- Between two calls of the constructed generator. -/
def start (g : PWMGenerator) : Driver := ⟨g, .idle, .idle, fun _ => 0⟩

theorem inv_start {g : PWMGenerator} (hnum : g.mNumChannels = n) (hper : ∀ ch, g.mPeriodsUs ch = 0)
    (hdier : g.tim.dier = 0) (hccer : g.tim.ccer = 0) : (start g).Inv n := by
  refine ⟨hnum, ⟨trivial, fun ch _ => ⟨⟨?_, ?_⟩, ?_⟩⟩, nofun, fun k hk => ?_⟩
  · show g.tim.ccer.getLsbD _ = decide (g.mPeriodsUs ch ≠ 0)
    simp [hccer, hper]
  · show g.tim.dier.getLsbD _ = decide (g.mPeriodsUs ch ≠ 0)
    simp [hdier, hper]
  · show g.mPeriodsUs ch = 0 / 2
    rw [hper]
    rfl
  · have hk' : g.tim.dier.getLsbD k = true := hk
    simp [hdier] at hk'

/-! ## The flags -/

/-- What sets or clears the flag of a channel. -/
inductive FlagEvent
  /-- The counter reaches the compare value. -/
  | matched
  /-- `setChannelPeriod` clears the flag. -/
  | clearedByTask
  /-- `isr` clears the flag. -/
  | clearedByIsr
  deriving DecidableEq

/-- The task clears a flag with the write of `SR`. -/
def taskEvent (c : Ch) : SetPc → Option FlagEvent
  | .writeSr ch => if ch = c then some .clearedByTask else none
  | _ => none

/-- So does the interrupt. -/
def isrEvent (c : Ch) : IsrPc → Option FlagEvent
  | .clearSr ch => if ch = c then some .clearedByIsr else none
  | _ => none

/-- What an access does to the flag of channel `c`. -/
def flagEvent (c : Ch) (d : Driver) : Access → Option FlagEvent
  | .tick => if d.gen.tim.ccr c = d.gen.tim.cnt + 1 then some .matched else none
  | .task =>
    match d.isr with
    | .idle => taskEvent c d.task
    | _ => none
  | .isr => isrEvent c d.isr
  | _ => none

/-- What happens to the flag of channel `c` in a run. -/
def flagEvents (c : Ch) (d : Driver) (as : List Access) : List FlagEvent :=
  seen step (flagEvent c) d as

/-- The flag after an event, if there is one. -/
def flagAfter (flag : Bool) : Option FlagEvent → Bool
  | none => flag
  | some e => e = .matched

theorem flagAfter_getLast? (flag : Bool) (e : Option FlagEvent) (es : List FlagEvent) :
    flagAfter (flagAfter flag e) es.getLast? = flagAfter flag (e.toList ++ es).getLast? := by
  cases e with
  | none => rfl
  | some e =>
    rw [Option.toList_some, List.singleton_append, List.getLast?_cons]
    cases es.getLast? <;> rfl

/-- The write of `SR` clears the flag of its own channel only. -/
theorem clearFlag_flag (g : PWMGenerator) (ch c : Ch) :
    ((g.clearFlag ch).view c).flag = if ch = c then false else (g.view c).flag := by
  show (writeBit g.tim.sr (ch + 1) false).getLsbD (c + 1) = _
  split_ifs with heq
  · rw [heq, getLsbD_writeBit_self (PWMGenerator.irqBit_lt c)]
  · exact getLsbD_writeBit_ne (PWMGenerator.irqBit_lt ch)
      (PWMGenerator.irqBit_ne (Ne.symm heq)) _ false

theorem tick_flag (g : PWMGenerator) (c : Ch) : (g.tick.view c).flag =
    flagAfter (g.view c).flag (if g.tim.ccr c = g.tim.cnt + 1 then some .matched else none) := by
  rw [PWMGenerator.view_tick]
  show (if g.tim.ccr c = g.tim.cnt + 1 then _ else _ : Channel).flag = _
  split_ifs <;> rfl

theorem setStep_flag (g : PWMGenerator) (pc : SetPc) (c : Ch) :
    ((setStep g pc).1.view c).flag = flagAfter (g.view c).flag (taskEvent c pc) := by
  cases pc with
  | writeSr ch =>
    show ((g.clearFlag ch).view c).flag = flagAfter _ (if ch = c then _ else _)
    rw [clearFlag_flag]
    split_ifs <;> rfl
  | _ => rfl

theorem isrStep_flag (g : PWMGenerator) (pc : IsrPc) (c : Ch) :
    ((isrStep g pc).1.view c).flag = flagAfter (g.view c).flag (isrEvent c pc) := by
  cases pc with
  | readSr ch =>
    unfold isrStep
    simp only
    split_ifs <;> rfl
  | clearSr ch =>
    show ((g.clearFlag ch).view c).flag = flagAfter _ (if ch = c then _ else _)
    rw [clearFlag_flag]
    split_ifs <;> rfl
  | _ => rfl

/-- One access. -/
theorem flag_step {c : Ch} {a : Access} {d' : Driver} (h : d.step a = .ok d') :
    (d'.gen.view c).flag = flagAfter (d.gen.view c).flag (d.flagEvent c a) := by
  cases a with
  | tick =>
    cases h
    exact tick_flag d.gen c
  | call ch period =>
    unfold step at h
    simp only at h
    split at h
    · split_ifs at h
      cases h
      rfl
    · cases h
      rfl
  | task =>
    unfold step at h
    unfold flagEvent
    cases hisr : d.isr with
    | idle =>
      simp only [hisr] at h
      cases h
      exact setStep_flag d.gen d.task c
    | _ =>
      simp only [hisr] at h
      cases h
      rfl
  | interrupt =>
    unfold step at h
    simp only at h
    split at h
    · cases h
      split_ifs <;> rfl
    · cases h
      rfl
  | isr =>
    cases h
    exact isrStep_flag d.gen d.isr c

/-- A run: the last event decides. -/
theorem flag_run {c : Ch} {as : List Access} {d' : Driver} (h : run step d as = .ok d') :
    (d'.gen.view c).flag = flagAfter (d.gen.view c).flag (flagEvents c d as).getLast? := by
  induction as generalizing d with
  | nil =>
    cases h
    rfl
  | cons a as ih =>
    cases hs : step d a with
    | error e =>
      rw [run, hs] at h
      cases h
    | ok t =>
      rw [run_cons_ok hs] at h
      rw [ih h, flag_step hs, flagEvents, flagEvents, seen_cons hs, flagAfter_getLast?]

theorem flag_iff (g : PWMGenerator) (c : Ch) :
    g.tim.sr &&& Tim.ccxifMsk c ≠ 0 ↔ (g.view c).flag = true :=
  and_mask_ne_zero (PWMGenerator.irqBit_lt c) _

theorem flag_start (g : PWMGenerator) (c : Ch) :
    ((start g).gen.view c).flag = decide (g.tim.sr &&& Tim.ccxifMsk c ≠ 0) := by
  rw [Bool.eq_iff_iff, decide_eq_true_iff, flag_iff]
  rfl

/-! ## No lost update -/

/-- What is so between any two accesses. -/
structure Safe (n : ℕ) (d : Driver) : Prop where
  /-- A channel interrupts only while it is enabled and has a period. -/
  enabled : ∀ ch, d.gen.tim.dier &&& Tim.ccxieMsk ch ≠ 0 →
    d.gen.tim.ccer &&& Tim.ccxeMsk ch ≠ 0 ∧ d.gen.mPeriodsUs ch ≠ 0
  /-- The interrupt is there for the flag of such a channel, which the loop of `isr` reads. -/
  raised : d.gen.tim.sr &&& d.gen.tim.dier ≠ 0 → ∃ ch : Ch, ch < n ∧
    d.gen.tim.sr &&& Tim.ccxifMsk ch ≠ 0 ∧ d.gen.tim.ccer &&& Tim.ccxeMsk ch ≠ 0 ∧
    d.gen.mPeriodsUs ch ≠ 0
  /-- Where the task is not, everything is as last asked for. -/
  kept : ∀ ch, d.task.channel ≠ some ch → d.gen.mPeriodsUs ch = d.asked ch / 2 ∧
    (d.gen.tim.ccer &&& Tim.ccxeMsk ch ≠ 0 ↔ d.asked ch / 2 ≠ 0) ∧
    (d.gen.tim.dier &&& Tim.ccxieMsk ch ≠ 0 ↔ d.asked ch / 2 ≠ 0)

/-- Wherever the task is, its channel is as it should be or does not interrupt. -/
theorem local_cases {e : Enables} {half : Ch → Word} {pc : SetPc} {ch : Ch}
    (h : pc.Local e half) (hch : pc.channel = some ch) : e.Agree ch ∨ e.ccxie ch = false := by
  have hon : ∀ {p : Word}, p ≠ 0 → e.Stage ch p true true → e.Agree ch := by
    rintro p hp ⟨rfl, hcc, hirq⟩
    exact ⟨hcc.trans (decide_eq_true hp).symm, hirq.trans (decide_eq_true hp).symm⟩
  cases pc with
  | idle => cases hch
  | enableTest c x => cases hch; exact .inl h.2
  | disableTest c x => cases hch; exact .inl h.2.1
  | update c x => cases hch; exact .inl h.2.1
  | readCnt c x => cases hch; exact .inr h.2.2.2.2
  | writeCcr c x v => cases hch; exact .inr h.2.2.2.2
  | writePeriod c x => cases hch; exact .inr h.2.2.2.2
  | readCcer c => cases hch; exact .inr h.2.2.2
  | writeCcer c v => cases hch; exact .inr h.2.1.2.2
  | writeSr c => cases hch; exact .inr h.2.2.2
  | readDier c => cases hch; exact .inr h.2.2.2
  | writeDier c v => cases hch; exact .inr h.2.1.2.2
  | readDierOff c =>
    cases hch
    obtain ⟨-, p, hp, hstage⟩ := h
    exact .inl (hon hp hstage)
  | writeDierOff c v =>
    cases hch
    obtain ⟨-, ⟨p, hp, hstage⟩, -⟩ := h
    exact .inl (hon hp hstage)
  | readCcerOff c =>
    cases hch
    obtain ⟨-, p, -, hstage⟩ := h
    exact .inr hstage.2.2
  | writeCcerOff c v =>
    cases hch
    obtain ⟨-, ⟨p, -, hstage⟩, -⟩ := h
    exact .inr hstage.2.2
  | clearPeriod c =>
    cases hch
    obtain ⟨-, p, -, hstage⟩ := h
    exact .inr hstage.2.2

/-- While `CCxIE` is set, wherever the task is. -/
theorem Inv.of_ccxie (h : d.Inv n) {ch : Ch} (hirq : d.gen.enables.ccxie ch = true) :
    d.gen.enables.ccxe ch = true ∧ d.gen.enables.periods ch ≠ 0 := by
  have hagree : d.gen.enables.Agree ch := by
    by_cases hat : d.task.channel = some ch
    · rcases local_cases h.settled.here hat with hagree | hoff
      · exact hagree
      · rw [hoff] at hirq
        cases hirq
    · exact (h.settled.others ch hat).1
  obtain ⟨hcc, hirq'⟩ := hagree
  rw [hirq'] at hirq
  exact ⟨hcc.trans hirq, of_decide_eq_true hirq⟩

theorem ccxe_iff (g : PWMGenerator) (ch : Ch) :
    g.tim.ccer &&& Tim.ccxeMsk ch ≠ 0 ↔ g.enables.ccxe ch = true :=
  and_mask_ne_zero (PWMGenerator.ccBit_lt ch) _

theorem ccxie_iff (g : PWMGenerator) (ch : Ch) :
    g.tim.dier &&& Tim.ccxieMsk ch ≠ 0 ↔ g.enables.ccxie ch = true :=
  and_mask_ne_zero (PWMGenerator.irqBit_lt ch) _

theorem Inv.safe (h : d.Inv n) : d.Safe n := by
  refine ⟨fun ch hirq => ?_, fun hraised => ?_, fun ch hch => ?_⟩
  · rw [ccxe_iff]
    exact h.of_ccxie ((ccxie_iff _ _).mp hirq)
  · obtain ⟨k, hk⟩ : ∃ k, (d.gen.tim.sr &&& d.gen.tim.dier).getLsbD k = true := by
      by_contra hnone
      push Not at hnone
      refine hraised (BitVec.eq_of_getLsbD_eq fun k _ => ?_)
      simpa using hnone k
    rw [BitVec.getLsbD_and, Bool.and_eq_true] at hk
    obtain ⟨ch, hch, rfl⟩ := h.dier k hk.2
    obtain ⟨hcc, hper⟩ := h.of_ccxie hk.2
    refine ⟨ch, hch, ?_, (ccxe_iff _ _).mpr hcc, hper⟩
    exact (and_mask_ne_zero (PWMGenerator.irqBit_lt ch) _).mpr hk.1
  · obtain ⟨⟨hcc, hirq⟩, hhalf⟩ := h.settled.others ch hch
    have hhalf' : d.gen.enables.periods ch = d.asked ch / 2 := hhalf
    refine ⟨hhalf, ?_, ?_⟩
    · rw [ccxe_iff, hcc, hhalf', decide_eq_true_iff]
    · rw [ccxie_iff, hirq, hhalf', decide_eq_true_iff]

/-- **No lost update.** Take any run from a constructed generator with `DIER` and `CCER`
    clear, with the timer, the interrupt and the task interleaved access by access, and
    calls for channels in use. No assert fails, and at every moment: `CCxIE` is set only for
    a channel that has its `CCxE` set and a period; the interrupt is raised only by the flag
    of such a channel in use; each channel that the task is not at has the period last asked
    for, with its two enable bits as that period says; and the flag of each channel is as
    the last match or the last clear of this channel left it, whatever was written to `SR`
    for the others. -/
theorem interleaved_enables {tim : Tim} {gpio gpio' : Gpio} {clock : Word} {pins : Ch → Pin}
    {g : PWMGenerator} (hmake : PWMGenerator.make tim gpio clock pins n = .ok (g, gpio'))
    (hdier : tim.dier = 0) (hccer : tim.ccer = 0) (as : List Access) (has : ∀ a ∈ as, Valid n a) :
    ∃ d, run step (start g) as = .ok d ∧ d.Safe n ∧ ∀ c,
      (d.gen.tim.sr &&& Tim.ccxifMsk c ≠ 0 ↔
        flagAfter (g.tim.sr &&& Tim.ccxifMsk c ≠ 0) (flagEvents c (start g) as).getLast?) := by
  obtain ⟨hnum, hper, hdier', hccer', -⟩ := PWMGenerator.make_ok hmake
  have hstart : (start g).Inv n := inv_start hnum hper (hdier'.trans hdier) (hccer'.trans hccer)
  have hstep : ∀ d a, Valid n a → Inv n d → ∃ d', step d a = .ok d' ∧ d'.Inv n :=
    fun _ _ ha h => inv_step h ha
  obtain ⟨d, hrun, hd⟩ := run_invariant hstep hstart as has
  refine ⟨d, hrun, hd.safe, fun c => ?_⟩
  rw [flag_iff, flag_run hrun, flag_start g c]

/-- Two interrupts in the middle of a call for channel 1, one of them for channel 0. -/
theorem interleaved_enables_mid :
    ∃ d, run step (start PWMGenerator.mainInit)
      [.call 0 2, .task, .task, .task, .task, .task, .task, .task, .task, .task, .call 1 6, .task,
        .task, .tick, .interrupt, .isr, .isr, .tick, .isr, .isr, .isr, .isr, .isr, .isr, .task,
        .interrupt, .task] = .ok d ∧ d.Safe 4 ∧ ∀ c,
      (d.gen.tim.sr &&& Tim.ccxifMsk c ≠ 0 ↔
        flagAfter (PWMGenerator.mainInit.tim.sr &&& Tim.ccxifMsk c ≠ 0)
          (flagEvents c (start PWMGenerator.mainInit)
            [.call 0 2, .task, .task, .task, .task, .task, .task, .task, .task, .task, .call 1 6,
              .task, .task, .tick, .interrupt, .isr, .isr, .tick, .isr, .isr, .isr, .isr, .isr,
              .isr, .task, .interrupt, .task]).getLast?) := by
  obtain ⟨gpio', hmake⟩ := PWMGenerator.make_main fun _ => ⟨0, 0, 0, fun _ => 0⟩
  exact interleaved_enables hmake rfl rfl _ (by simp [Valid])

/-! ## The edges -/

/-- The time in ticks after an access. -/
def after (now : ℕ) : Access → ℕ
  | .tick => now + 1
  | _ => now

/-- A match of channel `c`, or a write of its compare value by `isr`. -/
def pulse (c : Ch) (now : ℕ) (d : Driver) : Access → Option Pulse
  | .tick => if d.gen.tim.ccr c = d.gen.tim.cnt + 1 then some (.edge (now + 1)) else none
  | .isr =>
    match d.isr with
    | .writeCcr ch half _ => if ch = c then some (.service now half.toNat) else none
    | _ => none
  | _ => none

/-- The matches and services of channel `c` in a run. -/
def pulses (c : Ch) : ℕ → Driver → List Access → List Pulse
  | _, _, [] => []
  | now, d, a :: as =>
    match d.step a with
    | .error _ => []
    | .ok d' => (d.pulse c now a).toList ++ pulses c (after now a) d' as

/-- What the program counters say about a channel in a phase. -/
def IsrAt (c : Ch) (ccr : Word) (φ : Phase) : IsrPc → Prop
  | .readCcr ch => ch = c → ∃ last, φ = .pending last
  | .writeCcr ch half v => ch = c → (∃ last, φ = .pending last) ∧ v = ccr + half
  | _ => True

/-- The task is at the channel only to give it another period. -/
def TaskAt (c : Ch) (pc : SetPc) : Prop :=
  pc.channel = some c →
    ∃ half ≠ 0, pc = .enableTest c half ∨ pc = .disableTest c half ∨ pc = .update c half

/-- Where a channel is between two accesses. A flag is left over from a service only while
    `isr` is about to clear it. -/
structure AtPhase (c : Ch) (now : ℕ) (d : Driver) (φ : Phase) : Prop where
  counts : Counts now d.gen.tim.cnt (d.gen.tim.ccr c) φ
  flag : (d.gen.view c).flag = true → (∃ last, φ = .pending last) ∨ d.isr = .clearSr c
  isr : IsrAt c (d.gen.tim.ccr c) φ d.isr
  task : TaskAt c d.task
  on : d.gen.mPeriodsUs c ≠ 0

variable {c : Ch} {now : ℕ} {φ : Phase}

/-! ### The timer -/

/-- A tick: the channel stays in its phase, or emits the edge that is due. -/
theorem atPhase_tick (h : d.AtPhase c now φ) :
    (d.gen.tim.ccr c = d.gen.tim.cnt + 1 ∧
        (φ = .waiting (now + 1) ∨ ∃ last, φ = .pending last ∧ now + 1 = last + 2 ^ 32) ∧
        AtPhase c (now + 1) { d with gen := d.gen.tick } (.pending (now + 1))) ∨
      (d.gen.tim.ccr c ≠ d.gen.tim.cnt + 1 ∧
        AtPhase c (now + 1) { d with gen := d.gen.tick } φ) := by
  by_cases hm : d.gen.tim.ccr c = d.gen.tim.cnt + 1
  · left
    obtain ⟨hφ, hcounts⟩ := h.counts.tick_match hm
    refine ⟨hm, hφ, hcounts, fun _ => .inl ⟨_, rfl⟩, ?_, h.task, h.on⟩
    show IsrAt c (d.gen.tim.ccr c) _ d.isr
    have hisr := h.isr
    cases hpc : d.isr with
    | readCcr ch => exact fun _ => ⟨_, rfl⟩
    | writeCcr ch half v =>
      rw [hpc] at hisr
      exact fun hch => ⟨⟨_, rfl⟩, (hisr hch).2⟩
    | _ => trivial
  · right
    refine ⟨hm, h.counts.tick_no_match hm, fun hflag => h.flag ?_, h.isr, h.task, h.on⟩
    have hsame : (d.gen.view c).tick = { d.gen.view c with cnt := d.gen.tim.cnt + 1 } := if_neg hm
    have hflag' : (d.gen.tick.view c).flag = true := hflag
    rwa [PWMGenerator.view_tick, hsame] at hflag'

/-! ### The task -/

/-- Another channel does not see the task. -/
theorem setStep_frame (g : PWMGenerator) {pc : SetPc} (hpc : pc.channel ≠ some c) :
    (setStep g pc).1.tim.cnt = g.tim.cnt ∧ (setStep g pc).1.tim.ccr c = g.tim.ccr c ∧
      ((setStep g pc).1.view c).flag = (g.view c).flag ∧
      (setStep g pc).1.mPeriodsUs c = g.mPeriodsUs c := by
  have hne : ∀ {ch : Ch}, pc.channel = some ch → c ≠ ch := by
    rintro ch hch rfl
    exact hpc hch
  cases pc with
  | writeCcr ch half v => exact ⟨rfl, Function.update_of_ne (hne rfl) _ _, rfl, rfl⟩
  | writePeriod ch half => exact ⟨rfl, rfl, rfl, Function.update_of_ne (hne rfl) _ _⟩
  | writeSr ch =>
    refine ⟨rfl, rfl, ?_, rfl⟩
    exact getLsbD_writeBit_ne (PWMGenerator.irqBit_lt ch) (PWMGenerator.irqBit_ne (hne rfl)) _ false
  | clearPeriod ch => exact ⟨rfl, rfl, rfl, Function.update_of_ne (hne rfl) _ _⟩
  | update ch half => exact ⟨rfl, rfl, rfl, Function.update_of_ne (hne rfl) _ _⟩
  | _ => exact ⟨rfl, rfl, rfl, rfl⟩

theorem atPhase_task (h : d.AtPhase c now φ) :
    AtPhase c now { d with gen := (setStep d.gen d.task).1, task := (setStep d.gen d.task).2 }
      φ := by
  by_cases hat : d.task.channel = some c
  · obtain ⟨half, hhalf, hpc | hpc | hpc⟩ := h.task hat
    · have hif : ¬ (d.gen.mPeriodsUs c = 0 ∧ half ≠ 0) := fun hand => h.on hand.1
      have hstep : setStep d.gen d.task = (d.gen, .disableTest c half) := by
        rw [hpc]
        exact congrArg (d.gen, ·) (if_neg hif)
      rw [hstep]
      exact ⟨h.counts, h.flag, h.isr, fun _ => ⟨half, hhalf, .inr (.inl rfl)⟩, h.on⟩
    · have hif : ¬ (d.gen.mPeriodsUs c ≠ 0 ∧ half = 0) := fun hand => hhalf hand.2
      have hstep : setStep d.gen d.task = (d.gen, .update c half) := by
        rw [hpc]
        exact congrArg (d.gen, ·) (if_neg hif)
      rw [hstep]
      exact ⟨h.counts, h.flag, h.isr, fun _ => ⟨half, hhalf, .inr (.inr rfl)⟩, h.on⟩
    · rw [hpc]
      refine ⟨h.counts, h.flag, h.isr, nofun, ?_⟩
      show Function.update d.gen.mPeriodsUs c half c ≠ 0
      rwa [Function.update_self]
  · obtain ⟨hcnt, hccr, hflag, hper⟩ := setStep_frame d.gen hat
    refine ⟨?_, fun hf => h.flag (hflag ▸ hf), ?_, ?_, ?_⟩
    · show Counts now (setStep d.gen d.task).1.tim.cnt ((setStep d.gen d.task).1.tim.ccr c) φ
      rw [hcnt, hccr]
      exact h.counts
    · show IsrAt c ((setStep d.gen d.task).1.tim.ccr c) φ d.isr
      rw [hccr]
      exact h.isr
    · exact fun hch => absurd (setStep_channel _ _ hch) hat
    · show (setStep d.gen d.task).1.mPeriodsUs c ≠ 0
      rw [hper]
      exact h.on

theorem atPhase_call (h : d.AtPhase c now φ) {ch : Ch} {period : Word}
    (hcall : ch = c → 2 ≤ period) (i : IsrPc) (hi : i = d.isr) :
    AtPhase c now ⟨d.gen, .enableTest ch (period / 2), i, Function.update d.asked ch period⟩ φ := by
  subst hi
  refine ⟨h.counts, h.flag, h.isr, fun hch => ?_, h.on⟩
  cases hch
  exact ⟨_, Channel.half_ne_zero (hcall rfl), .inl rfl⟩

/-! ### The interrupt -/

theorem AtPhase.pending (h : d.AtPhase c now φ) (hflag : (d.gen.view c).flag = true)
    (hisr : d.isr ≠ .clearSr c) : ∃ last, φ = .pending last :=
  (h.flag hflag).resolve_right hisr

/-- An access of `isr`, unless it writes the compare value of the channel. -/
theorem atPhase_isr (h : d.AtPhase c now φ) (hw : ∀ half v, d.isr ≠ .writeCcr c half v) :
    AtPhase c now { d with gen := (isrStep d.gen d.isr).1, isr := (isrStep d.gen d.isr).2 } φ := by
  cases hpc : d.isr with
  | idle => exact ⟨h.counts, fun hf => .inl (h.pending hf (hpc ▸ nofun)), trivial, h.task, h.on⟩
  | readSr ch =>
    have hpending := fun hf => h.pending hf (hpc ▸ nofun)
    unfold isrStep
    simp only
    split_ifs with hch hflag
    · refine ⟨h.counts, fun hf => .inl (hpending hf), fun heq => hpending ?_, h.task, h.on⟩
      rw [← heq]
      exact (and_mask_ne_zero (PWMGenerator.irqBit_lt _) _).mp hflag
    · exact ⟨h.counts, fun hf => .inl (hpending hf), trivial, h.task, h.on⟩
    · exact ⟨h.counts, fun hf => .inl (hpending hf), trivial, h.task, h.on⟩
  | readCcr ch =>
    have hpending := fun hf => h.pending hf (hpc ▸ nofun)
    have hisr := h.isr
    rw [hpc] at hisr
    refine ⟨h.counts, fun hf => .inl (hpending hf), ?_, h.task, h.on⟩
    rintro rfl
    exact ⟨hisr rfl, rfl⟩
  | writeCcr ch half v =>
    have hne : c ≠ ch := by
      rintro rfl
      exact hw half v hpc
    have hpending := fun hf => h.pending hf (hpc ▸ nofun)
    refine ⟨?_, fun hf => .inl (hpending hf), trivial, h.task, h.on⟩
    show Counts now d.gen.tim.cnt (Function.update d.gen.tim.ccr ch v c) φ
    rw [Function.update_of_ne hne]
    exact h.counts
  | clearSr ch =>
    refine ⟨h.counts, fun hf => ?_, trivial, h.task, h.on⟩
    have hbit : (writeBit d.gen.tim.sr (ch + 1) false).getLsbD (c + 1) = true := hf
    by_cases heq : c = ch
    · rw [heq, getLsbD_writeBit_self (PWMGenerator.irqBit_lt ch)] at hbit
      cases hbit
    · rw [getLsbD_writeBit_ne (PWMGenerator.irqBit_lt ch) (PWMGenerator.irqBit_ne heq)] at hbit
      refine .inl (h.pending hbit ?_)
      rw [hpc]
      rintro ⟨⟩
      exact heq rfl

/-- The write moves the compare value on from the edge that is pending. -/
theorem atPhase_service (h : d.AtPhase c now φ) {half v : Word} (hpc : d.isr = .writeCcr c half v) :
    ∃ last, φ = .pending last ∧ last ≤ now ∧ now < last + 2 ^ 32 ∧
      AtPhase c now { d with gen := (isrStep d.gen d.isr).1, isr := (isrStep d.gen d.isr).2 }
        (.waiting (dueAfter (2 ^ 32) last now half.toNat)) := by
  have hisr := h.isr
  rw [hpc] at hisr
  obtain ⟨⟨last, rfl⟩, rfl⟩ := hisr rfl
  obtain ⟨hle, hlt, -⟩ := h.counts
  refine ⟨last, rfl, hle, hlt, ?_⟩
  rw [hpc]
  refine ⟨?_, fun _ => .inr rfl, trivial, h.task, h.on⟩
  show Counts now d.gen.tim.cnt (Function.update d.gen.tim.ccr c (d.gen.tim.ccr c + half) c) _
  rw [Function.update_self]
  exact h.counts.service half

/-! ### Runs -/

theorem pulses_cons_some {a : Access} {d' : Driver} {e : Pulse} (hstep : d.step a = .ok d')
    (hpulse : d.pulse c now a = some e) (as : List Access) :
    pulses c now d (a :: as) = e :: pulses c (after now a) d' as := by
  rw [pulses, hstep, hpulse]
  rfl

theorem pulses_cons_none {a : Access} {d' : Driver} (hstep : d.step a = .ok d')
    (hpulse : d.pulse c now a = none) (as : List Access) :
    pulses c now d (a :: as) = pulses c (after now a) d' as := by
  rw [pulses, hstep, hpulse]
  rfl

/-- What an access does in a phase: the channel is in the phase `φ'` after it, and the
    edges from there on, with what the access emits, are those from `φ` on. -/
def Leads (c : Ch) (now : ℕ) (d : Driver) (φ : Phase) (a : Access) (d' : Driver) : Prop :=
  ∃ φ', d'.AtPhase c (after now a) φ' ∧ ∀ as N, after now a ≤ N →
    Timed (2 ^ 32) N φ' (pulses c (after now a) d' as) →
    Timed (2 ^ 32) N φ (pulses c now d (a :: as))

theorem leads_silent {a : Access} {d' : Driver} (hstep : d.step a = .ok d')
    (hpulse : d.pulse c now a = none) (h : d'.AtPhase c (after now a) φ) :
    Leads c now d φ a d' := by
  refine ⟨φ, h, fun as N _ ht => ?_⟩
  rwa [pulses_cons_none hstep hpulse]

theorem leads_tick (h : d.AtPhase c now φ) :
    Leads c now d φ .tick { d with gen := d.gen.tick } := by
  rcases atPhase_tick h with ⟨hm, hφ, h'⟩ | ⟨hm, h'⟩
  · refine ⟨_, h', fun as N hN ht => ?_⟩
    have hpulse : d.pulse c now .tick = some (.edge (now + 1)) := if_pos hm
    have hstep : d.step .tick = .ok { d with gen := d.gen.tick } := rfl
    rw [pulses_cons_some hstep hpulse]
    exact .edge_or_again hφ hN ht
  · exact leads_silent rfl (if_neg hm) h'

theorem leads_isr (h : d.AtPhase c now φ) :
    Leads c now d φ .isr
      { d with gen := (isrStep d.gen d.isr).1, isr := (isrStep d.gen d.isr).2 } := by
  by_cases hw : ∃ half v, d.isr = .writeCcr c half v
  · obtain ⟨half, v, hpc⟩ := hw
    obtain ⟨last, rfl, hle, hlt, h'⟩ := atPhase_service h hpc
    refine ⟨_, h', fun as N _ ht => ?_⟩
    have hpulse : d.pulse c now .isr = some (.service now half.toNat) := by
      unfold pulse
      simp only [hpc, if_true]
    have hstep : d.step .isr = .ok { d with gen := (isrStep d.gen d.isr).1
                                            isr := (isrStep d.gen d.isr).2 } := rfl
    rw [pulses_cons_some hstep hpulse]
    exact .service hle hlt ht
  · push Not at hw
    refine leads_silent rfl ?_ (atPhase_isr h hw)
    unfold pulse
    cases hpc : d.isr with
    | writeCcr ch half v =>
      have hne : ch ≠ c := by
        rintro rfl
        exact hw half v hpc
      exact if_neg hne
    | _ => rfl

/-- One access: the channel stays in its phase, or goes on to the next with the pulse that
    belongs to it. -/
theorem leads_step (h : d.AtPhase c now φ) {a : Access} (ha : Valid d.gen.mNumChannels a)
    (hcall : ∀ p, a = .call c p → 2 ≤ p) :
    ∃ d', d.step a = .ok d' ∧ d'.gen.mNumChannels = d.gen.mNumChannels ∧ Leads c now d φ a d' := by
  cases a with
  | tick => exact ⟨_, rfl, rfl, leads_tick h⟩
  | isr => exact ⟨_, rfl, isrStep_num _ _, leads_isr h⟩
  | call ch period =>
    have hcall' : ∀ ch' : Ch, (ch' : ℕ) = ch → ch' = c → 2 ≤ period := by
      rintro ch' rfl rfl
      exact hcall period rfl
    cases htask : d.task with
    | idle =>
      cases hisr : d.isr with
      | idle =>
        have hstep : d.step (.call ch period) =
            .ok ⟨d.gen, .enableTest ⟨ch, d.gen.ch_lt ha⟩ (period / 2), d.isr,
              Function.update d.asked ⟨ch, d.gen.ch_lt ha⟩ period⟩ := by
          unfold step
          simp only [htask, hisr]
          exact dif_pos ha
        exact ⟨_, hstep, rfl, leads_silent hstep rfl (atPhase_call h (hcall' _ rfl) _ rfl)⟩
      | _ =>
        have hstep : d.step (.call ch period) = .ok d := by
          unfold step
          simp only [htask, hisr]
        exact ⟨d, hstep, rfl, leads_silent hstep rfl h⟩
    | _ =>
      have hstep : d.step (.call ch period) = .ok d := by
        unfold step
        simp only [htask]
      exact ⟨d, hstep, rfl, leads_silent hstep rfl h⟩
  | task =>
    cases hisr : d.isr with
    | idle =>
      have hstep : d.step .task = .ok ⟨(setStep d.gen d.task).1, (setStep d.gen d.task).2, d.isr,
          d.asked⟩ := by
        unfold step
        simp only [hisr]
      exact ⟨_, hstep, setStep_num _ _, leads_silent hstep rfl (atPhase_task h)⟩
    | _ =>
      have hstep : d.step .task = .ok d := by
        unfold step
        simp only [hisr]
      exact ⟨d, hstep, rfl, leads_silent hstep rfl h⟩
  | interrupt =>
    cases hisr : d.isr with
    | idle =>
      have hstep : d.step .interrupt =
          .ok (if d.gen.tim.sr &&& d.gen.tim.dier ≠ 0 then { d with isr := .readSr 0 } else d) := by
        unfold step
        simp only [hisr]
      have hflag := fun hf => h.pending hf (hisr ▸ nofun)
      have h' : AtPhase c now
          (if d.gen.tim.sr &&& d.gen.tim.dier ≠ 0 then { d with isr := .readSr 0 } else d) φ := by
        split_ifs
        · exact ⟨h.counts, fun hf => .inl (hflag hf), trivial, h.task, h.on⟩
        · exact h
      refine ⟨_, hstep, ?_, leads_silent hstep rfl h'⟩
      split_ifs <;> rfl
    | _ =>
      have hstep : d.step .interrupt = .ok d := by
        unfold step
        simp only [hisr]
      exact ⟨d, hstep, rfl, leads_silent hstep rfl h⟩

/-- From a phase on, exactly the edges of a counter that goes round are emitted. -/
theorem timed_pulses (h : d.AtPhase c now φ) {as : List Access}
    (has : ∀ a ∈ as, Valid d.gen.mNumChannels a) (hcalls : ∀ p, .call c p ∈ as → 2 ≤ p) :
    Timed (2 ^ 32) (now + as.count .tick) φ (pulses c now d as) := by
  induction as generalizing now d φ with
  | nil =>
    cases φ with
    | waiting next => exact .quiet h.counts.1
    | pending last => exact .unserviced h.counts.2.1
  | cons a as ih =>
    obtain ⟨d', -, hnum, φ', h', htimed⟩ := leads_step h (has a List.mem_cons_self)
      fun p hp => hcalls p (hp ▸ List.mem_cons_self)
    have hcount : now + (a :: as).count .tick = after now a + as.count .tick := by
      cases a with
      | tick =>
        rw [List.count_cons_self, after]
        omega
      | call ch p => exact congrArg (now + ·) (List.count_cons_of_ne (by simp))
      | _ => exact congrArg (now + ·) (List.count_cons_of_ne (by decide))
    rw [hcount]
    apply htimed _ _ (Nat.le_add_right _ _)
    exact ih h' (fun b hb => hnum ▸ has b (List.mem_cons_of_mem _ hb))
      fun p hp => hcalls p (List.mem_cons_of_mem _ hp)

/-! ### The flag of an enabled channel -/

/-- The task is not where it clears the flag. -/
theorem TaskAt.taskEvent_eq {pc : SetPc} (h : TaskAt c pc) : taskEvent c pc = none := by
  cases pc with
  | writeSr ch =>
    refine if_neg ?_
    rintro rfl
    obtain ⟨half, -, hpc | hpc | hpc⟩ := h rfl <;> cases hpc
  | _ => rfl

theorem AtPhase.flagEvent_ne (h : d.AtPhase c now φ) (a : Access) :
    d.flagEvent c a ≠ some .clearedByTask := by
  cases a with
  | tick =>
    unfold flagEvent
    split_ifs <;> nofun
  | task =>
    unfold flagEvent
    rw [h.task.taskEvent_eq]
    cases d.isr <;> nofun
  | isr =>
    show isrEvent c d.isr ≠ _
    unfold isrEvent
    cases d.isr with
    | clearSr ch =>
      simp only
      split_ifs <;> nofun
    | _ => nofun
  | _ => nofun

/-- A channel in a phase: the run goes on, and only `isr` clears its flag. -/
theorem run_atPhase (h : d.AtPhase c now φ) {as : List Access}
    (has : ∀ a ∈ as, Valid d.gen.mNumChannels a) (hcalls : ∀ p, .call c p ∈ as → 2 ≤ p) :
    ∃ d', run step d as = .ok d' ∧ .clearedByTask ∉ flagEvents c d as := by
  induction as generalizing now d φ with
  | nil => exact ⟨d, rfl, List.not_mem_nil⟩
  | cons a as ih =>
    obtain ⟨t, hs, hnum, φ', h', -⟩ := leads_step h (has a List.mem_cons_self)
      fun p hp => hcalls p (hp ▸ List.mem_cons_self)
    obtain ⟨d', hrun, hclear⟩ := ih h' (fun b hb => hnum ▸ has b (List.mem_cons_of_mem _ hb))
      fun p hp => hcalls p (List.mem_cons_of_mem _ hp)
    refine ⟨d', by rw [run_cons_ok hs, hrun], ?_⟩
    rw [flagEvents, seen_cons hs, List.mem_append, not_or]
    exact ⟨fun hmem => h.flagEvent_ne a (Option.mem_toList.mp hmem), hclear⟩

/-- **The edges, access by access.** With the timer, the interrupt and the task interleaved
    access by access, take a channel `c` that is enabled when the run starts, with its flag
    clear, and whose calls pass at least 2. Its edges obey the law of late interrupts,
    where an edge is serviced at the moment `isr` writes its compare value. No call clears
    its flag, wherever it is interrupted: the flag is set from each match to the next clear
    by `isr`. -/
theorem interleaved_edges (g : PWMGenerator) (as : List Access)
    (has : ∀ a ∈ as, Valid g.mNumChannels a) {c : Ch} (hcalls : ∀ p, .call c p ∈ as → 2 ≤ p)
    (hen : g.mPeriodsUs c ≠ 0) (hflag : g.tim.sr &&& Tim.ccxifMsk c = 0) :
    EdgeLaw (2 ^ 32) (PWMGenerator.firstMatch c g) (as.count .tick) (pulses c 0 (start g) as) ∧
      ∃ d, run step (start g) as = .ok d ∧ .clearedByTask ∉ flagEvents c (start g) as ∧
        (d.gen.tim.sr &&& Tim.ccxifMsk c ≠ 0 ↔
          (flagEvents c (start g) as).getLast? = some .matched) := by
  have hphase : (start g).AtPhase c 0 (.waiting (PWMGenerator.firstMatch c g)) := by
    refine ⟨PWMGenerator.counts_firstMatch g c, fun hf => ?_, trivial, nofun, hen⟩
    exact absurd hflag ((and_mask_ne_zero (PWMGenerator.irqBit_lt c) g.tim.sr).mpr hf)
  have htimed := timed_pulses hphase has hcalls
  rw [Nat.zero_add] at htimed
  obtain ⟨d, hrun, hclear⟩ := run_atPhase hphase has hcalls
  refine ⟨htimed.edgeLaw, d, hrun, hclear, ?_⟩
  rw [flag_iff, flag_run hrun, flag_start, hflag]
  cases (flagEvents c (start g) as).getLast? with
  | none => simp [flagAfter]
  | some e => simp [flagAfter]

/-- Channel 0 with half a period of 2: the timer counts between the accesses of `isr`, and a
    call for channel 0 is in the middle. -/
theorem interleaved_edges_mid :
    EdgeLaw (2 ^ 32) (PWMGenerator.firstMatch 0 (PWMGenerator.mainInit.setPeriodBody 0 4))
      ([.tick, .call 0 6, .task, .tick, .interrupt, .isr, .isr, .tick, .isr, .isr, .isr, .isr, .isr,
        .isr, .task, .tick].count Access.tick)
      (pulses 0 0 (start (PWMGenerator.mainInit.setPeriodBody 0 4))
        [.tick, .call 0 6, .task, .tick, .interrupt, .isr, .isr, .tick, .isr, .isr, .isr, .isr,
          .isr, .isr, .task, .tick]) ∧
      ∃ d, run step (start (PWMGenerator.mainInit.setPeriodBody 0 4))
          [.tick, .call 0 6, .task, .tick, .interrupt, .isr, .isr, .tick, .isr, .isr, .isr, .isr,
            .isr, .isr, .task, .tick] = .ok d ∧
        .clearedByTask ∉ flagEvents 0 (start (PWMGenerator.mainInit.setPeriodBody 0 4))
          [.tick, .call 0 6, .task, .tick, .interrupt, .isr, .isr, .tick, .isr, .isr, .isr, .isr,
            .isr, .isr, .task, .tick] ∧
        (d.gen.tim.sr &&& Tim.ccxifMsk 0 ≠ 0 ↔
          (flagEvents 0 (start (PWMGenerator.mainInit.setPeriodBody 0 4))
            [.tick, .call 0 6, .task, .tick, .interrupt, .isr, .isr, .tick, .isr, .isr, .isr,
              .isr, .isr, .isr, .task, .tick]).getLast? = some .matched) := by
  apply interleaved_edges
  · simp [Valid, PWMGenerator.setPeriodBody_num, PWMGenerator.mainInit, synthNumVoices]
  · simp
  · decide
  · decide

end Driver

end StepperSynth
