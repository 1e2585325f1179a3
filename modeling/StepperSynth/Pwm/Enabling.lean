import StepperSynth.Pwm.Channel

/-!
# Interrupts during the enable branch

`setChannelPeriod` runs in a task, so ticks and `isr` runs come between its
register accesses. `isr` looks at the flags of all channels in use, also of one
that is half enabled.

* `enableBetween`: the enable branch with ticks and `isr` runs between its
  accesses.
* `Channel.Quiet`, `Channel.interfere_of_quiet`: what interference does to a
  channel that does not reach its compare value.
* `enableBetween_iff`: exactly when the branch enables the channel as it should.
  The flag is cleared only after `m_periods_us` is written, so a flag that is
  still set at that write and served before it is cleared moves `CCR` on.
-/

namespace StepperSynth

open Common

/-- What can come between two register accesses of a task. -/
inductive Interference
  | tick
  | isr
  deriving DecidableEq, Repr

namespace Channel

/-- Interference with one channel. -/
def interfere (c : Channel) : Interference → Channel
  | .tick => c.tick
  | .isr => c.isr

/-- What a channel keeps, and where its next match is, after the interference
    `e` that does not reach the compare value. -/
structure Quiet (c : Channel) (e : List Interference) (c' : Channel) : Prop where
  ccr : c'.ccr = if c.flag = true ∧ .isr ∈ e then c.ccr + c.period else c.ccr
  dist : (c'.ccr - c'.cnt).toNat + e.count .tick =
    (c.ccr - c.cnt).toNat + if c.flag = true ∧ .isr ∈ e then c.period.toNat else 0
  flag : c'.flag = true ↔ c.flag = true ∧ .isr ∉ e
  period : c'.period = c.period

/-- A tick that does not reach the compare value. -/
theorem quiet_tick {c : Channel} (hdist : 1 < (c.ccr - c.cnt).toNat) : Quiet c [.tick] c.tick := by
  have hm : c.ccr ≠ c.cnt + 1 := by
    intro hm
    rw [hm] at hdist
    bv_omega
  have htick : c.tick = { c with cnt := c.cnt + 1 } := if_neg hm
  have hno : ¬ (c.flag = true ∧ Interference.isr ∈ [Interference.tick]) := by simp
  rw [htick]
  refine ⟨(if_neg hno).symm, ?_, by simp, rfl⟩
  rw [if_neg hno]
  show (c.ccr - (c.cnt + 1)).toNat + 1 = (c.ccr - c.cnt).toNat + 0
  bv_omega

/-- A service, or none if the flag is clear. -/
theorem quiet_isr {c : Channel}
    (hfit : c.flag = true → (c.ccr - c.cnt).toNat + c.period.toNat < 2 ^ 32) :
    Quiet c [.isr] c.isr := by
  by_cases hf : c.flag = true
  · have hisr : c.isr = { c with ccr := c.ccr + c.period, flag := false } := if_pos hf
    have hyes : c.flag = true ∧ Interference.isr ∈ [Interference.isr] :=
      ⟨hf, List.mem_singleton_self _⟩
    have hlt := hfit hf
    rw [hisr]
    refine ⟨(if_pos hyes).symm, ?_, by simp, rfl⟩
    rw [if_pos hyes]
    show (c.ccr + c.period - c.cnt).toNat + 0 = (c.ccr - c.cnt).toNat + c.period.toNat
    bv_omega
  · have hisr : c.isr = c := if_neg hf
    have hno : ¬ (c.flag = true ∧ Interference.isr ∈ [Interference.isr]) := fun h => hf h.1
    rw [hisr]
    refine ⟨(if_neg hno).symm, ?_, by simp [hf], rfl⟩
    rw [if_neg hno]
    rfl

/-- Two quiet stretches with a write to `CCER` between them. -/
theorem Quiet.append {c d d' : Channel} {e e' : List Interference} (h : Quiet c e d) (b : Bool)
    (h' : Quiet { d with ccxe := b } e' d') : Quiet c (e ++ e') d' := by
  have hccr := h'.ccr
  have hdist := h'.dist
  have hflag := h'.flag
  have hdist₁ := h.dist
  simp only [h.flag, h.period] at hccr hdist hflag
  refine ⟨?_, ?_, ?_, h'.period.trans h.period⟩
  · rw [hccr, h.ccr]
    simp only [List.mem_append]
    split_ifs <;> first | rfl | tauto
  · rw [List.count_append]
    simp only [List.mem_append]
    split_ifs at hdist hdist₁ ⊢ <;> first | omega | tauto
  · rw [hflag, List.mem_append]
    tauto

/-- Interference that does not reach the compare value. If the flag is set, the
    compare value may move on by one period. -/
theorem interfere_of_quiet (e : List Interference) (c : Channel)
    (hticks : e.count .tick < (c.ccr - c.cnt).toNat)
    (hfit : c.flag = true → (c.ccr - c.cnt).toNat + c.period.toNat < 2 ^ 32) :
    Quiet c e (e.foldl interfere c) := by
  induction e generalizing c with
  | nil => exact ⟨by simp, by simp, by simp, rfl⟩
  | cons i e ih =>
    have hcount : (i :: e).count .tick = [i].count .tick + e.count .tick := by
      rw [← List.count_append]
      rfl
    have hstep : Quiet c [i] (c.interfere i) := by
      cases i with
      | tick =>
        apply quiet_tick
        rw [List.count_cons_self] at hticks
        omega
      | isr => exact quiet_isr hfit
    have hdist := hstep.dist
    apply hstep.append (c.interfere i).ccxe
    apply ih
    · show e.count .tick < ((c.interfere i).ccr - (c.interfere i).cnt).toNat
      omega
    · intro hf
      obtain ⟨hcf, hno⟩ := hstep.flag.mp hf
      have := hfit hcf
      rw [if_neg fun h => hno h.2] at hdist
      show ((c.interfere i).ccr - (c.interfere i).cnt).toNat + (c.interfere i).period.toNat < 2 ^ 32
      rw [hstep.period]
      omega

/-- Interference counts the ticks. -/
theorem interfere_cnt (e : List Interference) (c : Channel) :
    (e.foldl interfere c).cnt = c.cnt + BitVec.ofNat 32 (e.count .tick) := by
  induction e generalizing c with
  | nil => simp
  | cons i e ih =>
    rw [List.foldl_cons, ih]
    cases i with
    | tick =>
      rw [interfere, tick_cnt, List.count_cons_self]
      bv_omega
    | isr => rw [interfere, isr_cnt, List.count_cons_of_ne (by decide)]

/-- What no single interference changes, no number of them changes. -/
theorem interfere_frame {β : Type*} (field : Channel → β)
    (hfield : ∀ c i, field (interfere c i) = field c) (e : List Interference) (c : Channel) :
    field (e.foldl interfere c) = field c := by
  induction e generalizing c with
  | nil => rfl
  | cons i e ih => rw [List.foldl_cons, ih, hfield]

theorem interfere_period (e : List Interference) (c : Channel) :
    (e.foldl interfere c).period = c.period := by
  apply interfere_frame Channel.period
  intro c i
  cases i with
  | tick => exact tick_period c
  | isr => exact isr_period c

theorem interfere_ccxe (e : List Interference) (c : Channel) :
    (e.foldl interfere c).ccxe = c.ccxe := by
  apply interfere_frame Channel.ccxe
  intro c i
  cases i with
  | tick => exact tick_ccxe c
  | isr => exact isr_ccxe c

/-! ## The enable branch of one channel -/

/-- The channel when `m_periods_us` is written. -/
def atPeriod (c : Channel) (half : Word) (e₁ e₂ : List Interference) : Channel :=
  e₂.foldl interfere { e₁.foldl interfere c with ccr := c.cnt + half }

/-- The channel when `SR` is written, from the write of `m_periods_us` on. -/
def atClear (c : Channel) (e₃ e₄ : List Interference) : Channel :=
  e₄.foldl interfere { e₃.foldl interfere c with ccxe := true }

/-- The accesses of the enable branch to its channel, with interference. -/
def enableBetween (c : Channel) (half : Word) (e₁ e₂ e₃ e₄ e₅ : List Interference) : Channel :=
  let c₁ := c.atPeriod half e₁ e₂
  let c₂ := atClear { c₁ with period := half } e₃ e₄
  { e₅.foldl interfere { c₂ with flag := false } with ccxie := true }

/-- The number of ticks during the branch. -/
def elapsed (e₁ e₂ e₃ e₄ e₅ : List Interference) : ℕ :=
  (e₁ ++ e₂).count .tick + (e₃ ++ e₄).count .tick + e₅.count .tick

/-- A flag that is set when `CCR` is written, still set when `m_periods_us` is
    written, and served before it is cleared. -/
def StaleServed (c : Channel) (e₁ e₂ e₃ e₄ : List Interference) : Prop :=
  ((e₁.foldl interfere c).flag = true ∧ .isr ∉ e₂) ∧ .isr ∈ e₃ ++ e₄

instance (c : Channel) (e₁ e₂ e₃ e₄ : List Interference) : Decidable (c.StaleServed e₁ e₂ e₃ e₄) :=
  inferInstanceAs (Decidable ((_ ∧ _) ∧ _))

/-- Up to the write of `m_periods_us` a service adds 0 to `CCR`. -/
theorem atPeriod_spec {c : Channel} (hc : c.period = 0) (half : Word) {e₁ e₂ : List Interference}
    (hticks : (e₁ ++ e₂).count .tick < half.toNat) :
    let b := c.atPeriod half e₁ e₂
    b.ccr = c.cnt + half ∧ (b.ccr - b.cnt).toNat + (e₁ ++ e₂).count .tick = half.toNat ∧
      (b.flag = true ↔ (e₁.foldl interfere c).flag = true ∧ .isr ∉ e₂) := by
  intro b
  rw [List.count_append] at *
  obtain ⟨m, hm⟩ : ∃ m, m = { e₁.foldl interfere c with ccr := c.cnt + half } := ⟨_, rfl⟩
  have hb : b = e₂.foldl interfere m := by rw [hm]; rfl
  have hper : m.period = 0 := by
    rw [hm]
    exact (interfere_period e₁ c).trans hc
  have hflag : m.flag = (e₁.foldl interfere c).flag := by rw [hm]
  have hmccr : m.ccr = c.cnt + half := by rw [hm]
  have hmcnt : m.cnt = c.cnt + BitVec.ofNat 32 (e₁.count .tick) := by
    rw [hm]
    exact interfere_cnt e₁ c
  have hmdist : (m.ccr - m.cnt).toNat + e₁.count .tick = half.toNat := by
    rw [hmccr, hmcnt]
    bv_omega
  have hq := interfere_of_quiet e₂ m (by omega) (by
    intro _
    rw [hper]
    exact (m.ccr - m.cnt).isLt)
  rw [← hb] at hq
  have hzero : m.ccr + 0 = m.ccr := BitVec.add_zero _
  have hccr := hq.ccr
  have hdist := hq.dist
  rw [hper, hzero, ite_self] at hccr
  rw [hper, show (0 : Word).toNat = 0 from rfl, ite_self] at hdist
  refine ⟨hccr.trans hmccr, by omega, ?_⟩
  rw [hq.flag, hflag]

/-- From there to the write of `SR` a service adds the period. -/
theorem atClear_spec {c : Channel} {e₃ e₄ : List Interference}
    (hticks : (e₃ ++ e₄).count .tick < (c.ccr - c.cnt).toNat)
    (hfit : (c.ccr - c.cnt).toNat + c.period.toNat < 2 ^ 32) :
    Quiet c (e₃ ++ e₄) (c.atClear e₃ e₄) := by
  rw [List.count_append] at hticks
  have hq := interfere_of_quiet e₃ c (by omega) fun _ => hfit
  have hdist := hq.dist
  apply hq.append true
  apply interfere_of_quiet e₄
  · show _ < ((e₃.foldl interfere c).ccr - (e₃.foldl interfere c).cnt).toNat
    omega
  · intro hf
    have hno : ¬ (c.flag = true ∧ .isr ∈ e₃) := fun h => (hq.flag.mp hf).2 h.2
    rw [if_neg hno] at hdist
    show ((e₃.foldl interfere c).ccr - (e₃.foldl interfere c).cnt).toNat +
      (e₃.foldl interfere c).period.toNat < 2 ^ 32
    rw [hq.period]
    omega

/-- After the write of `SR` nothing moves `CCR`. -/
theorem afterClear_spec (c : Channel) (hc : c.flag = false) (e₅ : List Interference)
    (hticks : e₅.count .tick < (c.ccr - c.cnt).toNat) :
    let d := e₅.foldl interfere c
    d.ccr = c.ccr ∧ (d.ccr - d.cnt).toNat + e₅.count .tick = (c.ccr - c.cnt).toNat ∧
      d.flag = false := by
  intro d
  have hno : ¬ (c.flag = true) := by simp [hc]
  have hq := interfere_of_quiet e₅ c hticks fun h => absurd h hno
  have hccr := hq.ccr
  have hdist := hq.dist
  rw [if_neg fun h => hno h.1] at hccr hdist
  have hflag : ¬ (d.flag = true) := fun h => hno (hq.flag.mp h).1
  exact ⟨hccr, hdist, by simpa using hflag⟩

theorem enableBetween_period (c : Channel) (half : Word) (e₁ e₂ e₃ e₄ e₅ : List Interference) :
    (c.enableBetween half e₁ e₂ e₃ e₄ e₅).period = half ∧
      (c.enableBetween half e₁ e₂ e₃ e₄ e₅).ccxe = true ∧
      (c.enableBetween half e₁ e₂ e₃ e₄ e₅).ccxie = true := by
  unfold enableBetween atClear
  refine ⟨?_, ?_, rfl⟩
  · show (e₅.foldl interfere _).period = half
    rw [interfere_period, interfere_period, interfere_period]
  · show (e₅.foldl interfere _).ccxe = true
    rw [interfere_ccxe]
    show (e₄.foldl interfere _).ccxe = true
    rw [interfere_ccxe]

/-- Where the branch leaves the next match: a stale flag served in it moves the
    match on. -/
theorem enableBetween_spec {c : Channel} (hc : c.period = 0) {half : Word}
    (hhalf : half.toNat < 2 ^ 31) {e₁ e₂ e₃ e₄ e₅ : List Interference}
    (hticks : elapsed e₁ e₂ e₃ e₄ e₅ < half.toNat) :
    let c' := c.enableBetween half e₁ e₂ e₃ e₄ e₅
    let late := if c.StaleServed e₁ e₂ e₃ e₄ then half else 0
    c'.ccr = c.cnt + half + late ∧ c'.flag = false ∧
      (c'.ccr - c'.cnt).toNat + elapsed e₁ e₂ e₃ e₄ e₅ = half.toNat + late.toNat := by
  intro c' late
  unfold elapsed at *
  obtain ⟨hccr₁, hdist₁, hflag₁⟩ :=
    atPeriod_spec hc half (show (e₁ ++ e₂).count .tick < half.toNat by omega)
  set c₁ := c.atPeriod half e₁ e₂
  have hq : Quiet { c₁ with period := half } (e₃ ++ e₄)
      (atClear { c₁ with period := half } e₃ e₄) := by
    apply atClear_spec
    · show (e₃ ++ e₄).count .tick < (c₁.ccr - c₁.cnt).toNat
      omega
    · show (c₁.ccr - c₁.cnt).toNat + half.toNat < 2 ^ 32
      omega
  set c₂ := atClear { c₁ with period := half } e₃ e₄
  have hstale : c₁.flag = true ∧ .isr ∈ e₃ ++ e₄ ↔ c.StaleServed e₁ e₂ e₃ e₄ :=
    and_congr_left' hflag₁
  have hccr₂ : c₂.ccr = c.cnt + half + late := by
    have := hq.ccr
    simp only [hstale, hccr₁] at this
    rw [this]
    split_ifs with hs
    · simp only [late, if_pos hs]
    · simp only [late, if_neg hs]
      exact (BitVec.add_zero _).symm
  have hdist₂ : (c₂.ccr - c₂.cnt).toNat + (e₃ ++ e₄).count .tick =
      (c₁.ccr - c₁.cnt).toNat + late.toNat := by
    have := hq.dist
    simp only [hstale] at this
    rw [this]
    split_ifs with hs
    · simp only [late, if_pos hs]
    · simp only [late, if_neg hs]
      rfl
  obtain ⟨hccr₃, hdist₃, hflag₃⟩ := afterClear_spec { c₂ with flag := false } rfl e₅
    (by show e₅.count .tick < (c₂.ccr - c₂.cnt).toNat; omega)
  refine ⟨hccr₃.trans hccr₂, hflag₃, ?_⟩
  have hend : (c'.ccr - c'.cnt).toNat + e₅.count .tick = (c₂.ccr - c₂.cnt).toNat := hdist₃
  omega

end Channel

namespace PWMGenerator

/-! ## The enable branch, access by access -/

/-- Interference with the generator. -/
def interfere (g : PWMGenerator) : Interference → PWMGenerator
  | .tick => g.tick
  | .isr => g.isr

/-- The enable branch (`pwm_generator.cpp` lines 94–102) with the interference
    `e₁ … e₅` between its six accesses: `CNT` is read, then `CCR`,
    `m_periods_us`, `CCER`, `SR` and `DIER` are written. -/
def enableBetween (g : PWMGenerator) (ch : Ch) (period : Word)
    (e₁ e₂ e₃ e₄ e₅ : List Interference) : PWMGenerator :=
  let cnt := g.tim.cnt
  let g := (e₁.foldl interfere g).writeCcr ch (cnt + period)
  let g := (e₂.foldl interfere g).writePeriod ch period
  let g := (e₃.foldl interfere g).enableCc ch
  let g := (e₄.foldl interfere g).clearFlag ch
  (e₅.foldl interfere g).enableIrq ch

/-- Without interference it is the branch of `setChannelPeriod`. -/
theorem enableBetween_nil (g : PWMGenerator) (ch : Ch) (period : Word) :
    g.enableBetween ch period [] [] [] [] [] = g.enableBranch ch period := rfl

/-- Channel `ch` is in use, in the state `c`. -/
def Shows (ch : Ch) (g : PWMGenerator) (c : Channel) : Prop := ch < g.mNumChannels ∧ g.view ch = c

namespace Shows

variable {ch : Ch} {g : PWMGenerator} {c : Channel}

theorem interfere (h : Shows ch g c) (e : List Interference) :
    Shows ch (e.foldl PWMGenerator.interfere g) (e.foldl Channel.interfere c) := by
  induction e generalizing g c with
  | nil => exact h
  | cons i e ih =>
    apply ih
    cases i with
    | tick =>
      refine ⟨h.1, ?_⟩
      rw [← h.2]
      exact view_tick g ch
    | isr =>
      have hnum : g.isr.mNumChannels = g.mNumChannels := foldl_isrBody_num _ g
      refine ⟨?_, ?_⟩
      · show ch < g.isr.mNumChannels
        rw [hnum]
        exact h.1
      · rw [← h.2]
        exact view_isr g h.1

theorem writeCcr (h : Shows ch g c) (v : Word) :
    Shows ch (g.writeCcr ch v) { c with ccr := v } := by
  refine ⟨h.1, ?_⟩
  rw [← h.2]
  unfold view PWMGenerator.writeCcr Tim.writeCcr
  simp only [Function.update_self]

theorem writePeriod (h : Shows ch g c) (v : Word) :
    Shows ch (g.writePeriod ch v) { c with period := v } := by
  refine ⟨h.1, ?_⟩
  rw [← h.2]
  unfold view PWMGenerator.writePeriod
  simp only [Function.update_self]

theorem enableCc (h : Shows ch g c) : Shows ch (g.enableCc ch) { c with ccxe := true } := by
  refine ⟨h.1, ?_⟩
  rw [← h.2, ← getLsbD_writeBit_self (ccBit_lt ch) g.tim.ccer true]
  rfl

theorem clearFlag (h : Shows ch g c) : Shows ch (g.clearFlag ch) { c with flag := false } := by
  refine ⟨h.1, ?_⟩
  rw [← h.2, ← getLsbD_writeBit_self (irqBit_lt ch) g.tim.sr false]
  rfl

theorem enableIrq (h : Shows ch g c) : Shows ch (g.enableIrq ch) { c with ccxie := true } := by
  refine ⟨h.1, ?_⟩
  rw [← h.2, ← getLsbD_writeBit_self (irqBit_lt ch) g.tim.dier true]
  rfl

end Shows

/-- On its channel the branch is that of the one-channel driver. -/
theorem view_enableBetween {g : PWMGenerator} {ch : Ch} (hch : ch < g.mNumChannels) (half : Word)
    (e₁ e₂ e₃ e₄ e₅ : List Interference) :
    (g.enableBetween ch half e₁ e₂ e₃ e₄ e₅).view ch =
      (g.view ch).enableBetween half e₁ e₂ e₃ e₄ e₅ := by
  have h₀ : Shows ch g (g.view ch) := ⟨hch, rfl⟩
  have h₁ := (h₀.interfere e₁).writeCcr (g.tim.cnt + half)
  have h₂ := (h₁.interfere e₂).writePeriod half
  have h₃ := (h₂.interfere e₃).enableCc
  have h₄ := (h₃.interfere e₄).clearFlag
  exact ((h₄.interfere e₅).enableIrq).2

/-- Channel `ch` is enabled with half-period `half`, and its first match comes
    `half` ticks after `CNT = cnt` was read, of which `elapsed` have passed. -/
structure EnabledFrom (ch : Ch) (cnt half : Word) (elapsed : ℕ) (g : PWMGenerator) : Prop where
  ccr : g.tim.ccr ch = cnt + half
  period : g.mPeriodsUs ch = half
  ccxe : g.tim.ccer &&& Tim.ccxeMsk ch ≠ 0
  ccxie : g.tim.dier &&& Tim.ccxieMsk ch ≠ 0
  flag : g.tim.sr &&& Tim.ccxifMsk ch = 0
  first : (g.tim.ccr ch - g.tim.cnt).toNat + elapsed = half.toNat

/-- The number of ticks during the branch. -/
abbrev elapsed := Channel.elapsed

/-- The condition on a stale flag, in terms of the registers. -/
theorem staleServed_iff {g : PWMGenerator} {ch : Ch} (hch : ch < g.mNumChannels)
    (e₁ e₂ e₃ e₄ : List Interference) :
    (g.view ch).StaleServed e₁ e₂ e₃ e₄ ↔
      (e₁.foldl interfere g).tim.sr &&& Tim.ccxifMsk ch ≠ 0 ∧ .isr ∉ e₂ ∧ .isr ∈ e₃ ++ e₄ := by
  have hview : (e₁.foldl interfere g).view ch = e₁.foldl Channel.interfere (g.view ch) :=
    (Shows.interfere ⟨hch, rfl⟩ e₁).2
  have hmask : (e₁.foldl interfere g).tim.sr &&& Tim.ccxifMsk ch ≠ 0 ↔
      ((e₁.foldl interfere g).view ch).flag = true := and_mask_ne_zero (irqBit_lt ch) _
  rw [hmask, hview]
  exact and_assoc

theorem half_lt (period : Word) : (period / 2).toNat < 2 ^ 31 := by
  have h2 : (period / 2).toNat = period.toNat / 2 := by simp
  have := period.isLt
  omega

/-- **When interference disturbs the enable branch.** For every state of the
    registers, every channel in use with `m_periods_us = 0`, every `period` and
    all ticks and `isr` runs between the accesses, with fewer ticks than half
    the period: the branch enables the channel from the counter it read on, if
    and only if it is not the case that the flag is set when `CCR` is written,
    no `isr` comes from there to the write of `m_periods_us`, and one comes from
    there to the write of `SR`. -/
theorem enableBetween_iff (g : PWMGenerator) {ch : Ch} (hch : ch < g.mNumChannels)
    (hper : g.mPeriodsUs ch = 0) (period : Word) (e₁ e₂ e₃ e₄ e₅ : List Interference)
    (hticks : elapsed e₁ e₂ e₃ e₄ e₅ < (period / 2).toNat) :
    EnabledFrom ch g.tim.cnt (period / 2) (elapsed e₁ e₂ e₃ e₄ e₅)
        (g.enableBetween ch (period / 2) e₁ e₂ e₃ e₄ e₅) ↔
      ¬ ((e₁.foldl interfere g).tim.sr &&& Tim.ccxifMsk ch ≠ 0 ∧ .isr ∉ e₂ ∧ .isr ∈ e₃ ++ e₄) := by
  have hview := view_enableBetween hch (period / 2) e₁ e₂ e₃ e₄ e₅
  have hspec := Channel.enableBetween_spec (c := g.view ch) hper (half_lt period) hticks
  have hkeep := Channel.enableBetween_period (g.view ch) (period / 2) e₁ e₂ e₃ e₄ e₅
  rw [← hview] at hspec hkeep
  set g' := g.enableBetween ch (period / 2) e₁ e₂ e₃ e₄ e₅
  obtain ⟨hccr, hflag, hfirst⟩ := hspec
  rw [← staleServed_iff hch]
  constructor
  · intro hen hs
    rw [if_pos hs] at hccr
    have : g.tim.cnt + period / 2 + period / 2 = g.tim.cnt + period / 2 := hccr.symm.trans hen.ccr
    bv_omega
  · intro hs
    rw [if_neg hs] at hccr hfirst
    refine ⟨hccr.trans (BitVec.add_zero _), hkeep.1, ?_, ?_, ?_, hfirst⟩
    · exact (and_mask_ne_zero (ccBit_lt ch) _).mpr hkeep.2.1
    · exact (and_mask_ne_zero (irqBit_lt ch) _).mpr hkeep.2.2
    · by_contra hne
      have hset : (g'.view ch).flag = true := (and_mask_ne_zero (irqBit_lt ch) _).mp hne
      rw [hflag] at hset
      cases hset

/-- Channel 1 of the generator of `main` is enabled while the timer runs and
    channel 0 is served. -/
theorem enableBetween_iff_main :
    EnabledFrom 1 (mainInit.setPeriodBody 0 4).tim.cnt (100 / 2)
        (elapsed [.tick] [.tick, .isr] [] [.tick] [])
        ((mainInit.setPeriodBody 0 4).enableBetween 1 (100 / 2)
          [.tick] [.tick, .isr] [] [.tick] []) ↔
      ¬ (([Interference.tick].foldl interfere (mainInit.setPeriodBody 0 4)).tim.sr &&&
          Tim.ccxifMsk 1 ≠ 0 ∧ Interference.isr ∉ [.tick, .isr] ∧
          Interference.isr ∈ [] ++ [.tick]) := by
  apply enableBetween_iff
  · rw [setPeriodBody_num]
    decide
  · decide
  · decide

/-- **A stale flag has an effect.** Channel 0 is enabled, disabled before its
    match, and the match happens: its flag stays set. It is enabled again with
    period 100, and right after `m_periods_us` is written channel 1 has a match
    and its interrupt is served. The `isr` run adds 50 to the `CCR` of channel 0
    too, so its first edge comes 100 ticks after enabling. -/
theorem enableBetween_stale :
    ∃ g, run step mainInit [.setChannelPeriod 1 6, .setChannelPeriod 0 4, .setChannelPeriod 0 0,
        .tick, .tick] = .ok g ∧ g.mPeriodsUs 0 = 0 ∧
      -- the interrupt is one of channel 1
      (let g' := ((g.writeCcr 0 (g.tim.cnt + 100 / 2)).writePeriod 0 (100 / 2)).tick;
        g'.tim.sr &&& g'.tim.dier = Tim.ccxifMsk 1) ∧
      elapsed [] [] [.tick, .isr] [] [] < (100 / 2 : Word).toNat ∧
      (g.enableBetween 0 (100 / 2) [] [] [.tick, .isr] [] []).tim.ccr 0 = g.tim.cnt + 100 ∧
      ¬ EnabledFrom 0 g.tim.cnt (100 / 2) (elapsed [] [] [.tick, .isr] [] [])
        (g.enableBetween 0 (100 / 2) [] [] [.tick, .isr] [] []) := by
  refine ⟨_, rfl, by decide, by decide, by decide, by decide, fun h => ?_⟩
  have := h.ccr
  revert this
  decide

end PWMGenerator

end StepperSynth
