import StepperSynth.Common.Bits
import StepperSynth.Pwm.Generator

/-!
# The driver is a product of one-channel drivers

All channels share `CCER`, `DIER` and `SR`. `Channel` is a driver with a single
channel and no shared register; `view` reads it off the registers and `put`
writes it back.

* `view_put_self`, `view_put_ne`, `put_comm`: the channels are separate parts of
  the registers.
* `setPeriodBody_eq_put`, `isrBody_eq_put`, `view_tick`: what the code and the
  timer do to a channel is what the one-channel driver does.
* `run_view`: so is every run.
* `channels_independent`: the calls for other channels can be deleted, and calls
  for distinct channels commute.
-/

namespace StepperSynth

open Common

/-! ## One channel -/

/-- The state of a one-channel driver. -/
structure Channel where
  cnt : Word
  ccr : Word
  flag : Bool
  ccxe : Bool
  ccxie : Bool
  period : Word
  out : Bool
  deriving DecidableEq, Repr

namespace Channel

/-- What can happen to a channel. -/
inductive Op
  | tick
  | isr
  | setPeriod (period : Word)
  deriving DecidableEq, Repr

/-- One count of the timer. -/
def tick (c : Channel) : Channel :=
  if c.ccr = c.cnt + 1 then { c with cnt := c.cnt + 1, flag := true, out := c.out ^^ c.ccxe }
  else { c with cnt := c.cnt + 1 }

/-- The interrupt handler: a set flag moves the compare value on and is cleared. -/
def isr (c : Channel) : Channel :=
  if c.flag then { c with ccr := c.ccr + c.period, flag := false } else c

/-- A new period, of which half is the distance of two edges. -/
def setPeriod (c : Channel) (period : Word) : Channel :=
  let half := period / 2
  if c.period = 0 ∧ half ≠ 0 then
    { c with ccr := c.cnt + half, period := half, ccxe := true, flag := false, ccxie := true }
  else if c.period ≠ 0 ∧ half = 0 then { c with ccxie := false, ccxe := false, period := 0 }
  else { c with period := half }

/-- One operation. -/
def apply (c : Channel) : Op → Channel
  | .tick => c.tick
  | .isr => c.isr
  | .setPeriod p => c.setPeriod p

theorem half_ne_zero {p : Word} (hp : 2 ≤ p) : p / 2 ≠ 0 := by
  intro h
  have h2 : p.toNat / 2 = 0 := by simpa using congrArg BitVec.toNat h
  have hp' : 2 ≤ p.toNat := BitVec.le_def.mp hp
  omega

theorem isr_isr (c : Channel) : c.isr.isr = c.isr := by
  unfold isr
  by_cases h : c.flag <;> simp [h]

/-! What the operations leave alone. -/

@[simp] theorem tick_cnt (c : Channel) : c.tick.cnt = c.cnt + 1 := by
  unfold tick
  split_ifs <;> rfl

@[simp] theorem tick_ccr (c : Channel) : c.tick.ccr = c.ccr := by
  unfold tick
  split_ifs <;> rfl

@[simp] theorem tick_period (c : Channel) : c.tick.period = c.period := by
  unfold tick
  split_ifs <;> rfl

@[simp] theorem tick_ccxe (c : Channel) : c.tick.ccxe = c.ccxe := by
  unfold tick
  split_ifs <;> rfl

@[simp] theorem tick_ccxie (c : Channel) : c.tick.ccxie = c.ccxie := by
  unfold tick
  split_ifs <;> rfl

@[simp] theorem isr_cnt (c : Channel) : c.isr.cnt = c.cnt := by
  unfold isr
  split_ifs <;> rfl

@[simp] theorem isr_period (c : Channel) : c.isr.period = c.period := by
  unfold isr
  split_ifs <;> rfl

@[simp] theorem isr_ccxe (c : Channel) : c.isr.ccxe = c.ccxe := by
  unfold isr
  split_ifs <;> rfl

@[simp] theorem isr_ccxie (c : Channel) : c.isr.ccxie = c.ccxie := by
  unfold isr
  split_ifs <;> rfl

@[simp] theorem isr_out (c : Channel) : c.isr.out = c.out := by
  unfold isr
  split_ifs <;> rfl

theorem setPeriod_cnt (c : Channel) (p : Word) : (c.setPeriod p).cnt = c.cnt := by
  unfold setPeriod
  simp only
  split_ifs <;> rfl

end Channel

namespace PWMGenerator

/-! ## Reading and writing one channel -/

/-- Channel `ch` of the generator. -/
def view (g : PWMGenerator) (ch : Ch) : Channel where
  cnt := g.tim.cnt
  ccr := g.tim.ccr ch
  flag := g.tim.sr.getLsbD (ch + 1)
  ccxe := g.tim.ccer.getLsbD (ch * 4)
  ccxie := g.tim.dier.getLsbD (ch + 1)
  period := g.mPeriodsUs ch
  out := g.tim.out ch

/-- The generator with channel `ch` replaced; the counter is not written. -/
def put (g : PWMGenerator) (ch : Ch) (c : Channel) : PWMGenerator :=
  { g with
    tim := { g.tim with
      dier := writeBit g.tim.dier (ch + 1) c.ccxie
      sr := writeBit g.tim.sr (ch + 1) c.flag
      ccer := writeBit g.tim.ccer (ch * 4) c.ccxe
      ccr := Function.update g.tim.ccr ch c.ccr
      out := Function.update g.tim.out ch c.out }
    mPeriodsUs := Function.update g.mPeriodsUs ch c.period }

theorem irqBit_lt (ch : Ch) : (ch + 1 : ℕ) < 32 := by
  have : (ch : ℕ) < 4 := ch.isLt
  omega

theorem ccBit_lt (ch : Ch) : (ch * 4 : ℕ) < 32 := by
  have : (ch : ℕ) < 4 := ch.isLt
  omega

theorem irqBit_ne {ch c : Ch} (h : c ≠ ch) : (c + 1 : ℕ) ≠ ch + 1 := by
  have := Fin.val_ne_of_ne h
  omega

theorem ccBit_ne {ch c : Ch} (h : c ≠ ch) : (c * 4 : ℕ) ≠ ch * 4 := by
  have := Fin.val_ne_of_ne h
  omega

theorem view_put_self (g : PWMGenerator) (ch : Ch) {c : Channel} (hc : c.cnt = g.tim.cnt) :
    (g.put ch c).view ch = c := by
  unfold view put
  simp only [getLsbD_writeBit_self (irqBit_lt ch), getLsbD_writeBit_self (ccBit_lt ch),
    Function.update_self, ← hc]

theorem view_put_ne (g : PWMGenerator) {ch c' : Ch} (h : c' ≠ ch) (c : Channel) :
    (g.put ch c).view c' = g.view c' := by
  unfold view put
  simp only [getLsbD_writeBit_ne (irqBit_lt ch) (irqBit_ne h),
    getLsbD_writeBit_ne (ccBit_lt ch) (ccBit_ne h), Function.update_of_ne h]

theorem put_view (g : PWMGenerator) (ch : Ch) : g.put ch (g.view ch) = g := by
  unfold view put
  simp only [writeBit_self (irqBit_lt ch), writeBit_self (ccBit_lt ch), Function.update_eq_self]

/-- Writes to different channels commute. -/
theorem put_comm (g : PWMGenerator) {a b : Ch} (h : a ≠ b) (u v : Channel) :
    (g.put a u).put b v = (g.put b v).put a u := by
  unfold put
  simp only [writeBit_comm (irqBit_lt a) (irqBit_lt b) (irqBit_ne h),
    writeBit_comm (ccBit_lt a) (ccBit_lt b) (ccBit_ne h), Function.update_comm h]

/-! ## The operations, channel by channel -/

theorem enableBranch_eq_put (g : PWMGenerator) (ch : Ch) (half : Word) :
    g.enableBranch ch half = g.put ch
      { g.view ch with
        ccr := g.tim.cnt + half, period := half, ccxe := true, flag := false, ccxie := true } := by
  unfold enableBranch put view
  simp only [Function.update_eq_self]
  rfl

theorem disableBranch_eq_put (g : PWMGenerator) (ch : Ch) :
    g.disableBranch ch =
      g.put ch { g.view ch with ccxie := false, ccxe := false, period := 0 } := by
  unfold disableBranch put view
  simp only [Function.update_eq_self, writeBit_self (irqBit_lt ch)]
  rfl

theorem writePeriod_eq_put (g : PWMGenerator) (ch : Ch) (half : Word) :
    g.writePeriod ch half = g.put ch { g.view ch with period := half } := by
  unfold writePeriod put view
  simp only [Function.update_eq_self, writeBit_self (irqBit_lt ch), writeBit_self (ccBit_lt ch)]

/-- `setChannelPeriod` acts on its own channel only, like the one-channel driver. -/
theorem setPeriodBody_eq_put (g : PWMGenerator) (ch : Ch) (p : Word) :
    g.setPeriodBody ch p = g.put ch ((g.view ch).setPeriod p) := by
  unfold setPeriodBody Channel.setPeriod
  simp only [show (g.view ch).period = g.mPeriodsUs ch from rfl]
  split_ifs
  · exact enableBranch_eq_put g ch (p / 2)
  · exact disableBranch_eq_put g ch
  · exact writePeriod_eq_put g ch (p / 2)

theorem isrBody_eq_put (g : PWMGenerator) (ch : Ch) :
    g.isrBody ch = g.put ch (g.view ch).isr := by
  unfold isrBody Channel.isr
  have hflag : g.tim.sr &&& Tim.ccxifMsk ch ≠ 0 ↔ (g.view ch).flag = true :=
    and_mask_ne_zero (irqBit_lt ch) _
  by_cases h : (g.view ch).flag = true
  · rw [if_pos (hflag.mpr h), if_pos h]
    unfold put view
    simp only [Function.update_eq_self, writeBit_self (irqBit_lt ch), writeBit_self (ccBit_lt ch)]
    rfl
  · rw [if_neg (fun h' => h (hflag.mp h')), if_neg h, put_view]

theorem view_setPeriodBody (g : PWMGenerator) (ch c : Ch) (p : Word) :
    (g.setPeriodBody ch p).view c =
      if c = ch then (g.view c).setPeriod p else g.view c := by
  rw [setPeriodBody_eq_put]
  split_ifs with h
  · subst h
    exact view_put_self g c (Channel.setPeriod_cnt _ _)
  · exact view_put_ne g h _

theorem view_isrBody (g : PWMGenerator) (ch c : Ch) :
    (g.isrBody ch).view c = if c = ch then (g.view c).isr else g.view c := by
  rw [isrBody_eq_put]
  split_ifs with h
  · subst h
    exact view_put_self g c (Channel.isr_cnt _)
  · exact view_put_ne g h _

theorem view_foldl_isrBody (l : List Ch) (g : PWMGenerator) (c : Ch) :
    (l.foldl isrBody g).view c = if c ∈ l then (g.view c).isr else g.view c := by
  induction l generalizing g with
  | nil => rfl
  | cons ch l ih =>
    rw [List.foldl_cons, ih, view_isrBody]
    by_cases hc : c = ch
    · subst hc
      by_cases hl : c ∈ l <;> simp [hl, Channel.isr_isr]
    · simp [hc]

/-- `isr` services every channel in use. -/
theorem view_isr (g : PWMGenerator) {c : Ch} (hc : c < g.mNumChannels) :
    g.isr.view c = (g.view c).isr := by
  unfold isr
  rw [view_foldl_isrBody, if_pos ((g.mem_channels c).mpr hc)]

theorem getLsbD_foldl_flags (l : List Ch) (P : Ch → Prop) [DecidablePred P] (sr : Word) (c : Ch) :
    (l.foldl (fun sr ch => if P ch then sr ||| Tim.ccxifMsk ch else sr) sr).getLsbD (c + 1) =
      (sr.getLsbD (c + 1) || decide (c ∈ l ∧ P c)) := by
  induction l generalizing sr with
  | nil => simp
  | cons ch l ih =>
    rw [List.foldl_cons, ih]
    by_cases hP : P ch
    · have hbit : (sr ||| Tim.ccxifMsk ch).getLsbD (c + 1) =
          if (c + 1 : ℕ) = ch + 1 then true else sr.getLsbD (c + 1) :=
        getLsbD_writeBit (irqBit_lt ch) sr true _
      rw [if_pos hP, hbit]
      by_cases hc : c = ch
      · subst hc; simp [hP]
      · rw [if_neg (irqBit_ne hc)]
        simp [hc]
    · rw [if_neg hP]
      by_cases hc : c = ch
      · subst hc; simp [hP]
      · simp [hc]

theorem view_tick (g : PWMGenerator) (c : Ch) : g.tick.view c = (g.view c).tick := by
  have hflag := getLsbD_foldl_flags (List.finRange kMaxNumChannels)
    (fun ch => g.tim.ccr ch = g.tim.cnt + 1) g.tim.sr c
  have hout : g.tim.ccer &&& Tim.ccxeMsk c ≠ 0 ↔ g.tim.ccer.getLsbD (c * 4) = true :=
    and_mask_ne_zero (ccBit_lt c) _
  unfold tick Tim.tick Channel.tick view
  simp only [hflag, List.mem_finRange, true_and, hout]
  by_cases hm : g.tim.ccr c = g.tim.cnt + 1
  · simp only [hm, decide_true, Bool.or_true, if_true, true_and, Channel.mk.injEq]
    cases g.tim.ccer.getLsbD (c * 4) <;> simp
  · simp only [hm, decide_false, Bool.or_false, false_and, if_false]

/-! ## Runs -/

/-- The operation as channel `c` sees it; nothing if it is for another channel. -/
def Op.at (c : Ch) : Op → Option Channel.Op
  | .tick => some .tick
  | .isr => some .isr
  | .setChannelPeriod ch p => if ch = c then some (.setPeriod p) else none

theorem Op.at_tick (c : Ch) : Op.tick.at c = some .tick := rfl

theorem Op.at_isr (c : Ch) : Op.isr.at c = some .isr := rfl

theorem Op.at_self {c : Ch} {ch : ℕ} (h : ch = c) (p : Word) :
    (Op.setChannelPeriod ch p).at c = some (.setPeriod p) := if_pos h

theorem Op.at_other {c : Ch} {ch : ℕ} (h : ch ≠ c) (p : Word) :
    (Op.setChannelPeriod ch p).at c = none := if_neg h

/-- What a run asks of channel `c`, operation by operation. -/
theorem forall_at {c : Ch} {ops : List Op} {P : Channel.Op → Prop} (htick : P .tick)
    (hisr : P .isr) (hset : ∀ p, Op.setChannelPeriod c p ∈ ops → P (.setPeriod p)) :
    ∀ o ∈ ops.filterMap (Op.at c), P o := by
  intro o ho
  obtain ⟨op, hop, hat⟩ := List.mem_filterMap.mp ho
  cases op with
  | tick => cases hat; exact htick
  | isr => cases hat; exact hisr
  | setChannelPeriod ch p =>
    by_cases hch : ch = c
    · rw [Op.at_self hch] at hat
      cases hat
      exact hset p (hch ▸ hop)
    · rw [Op.at_other hch] at hat
      cases hat

theorem setPeriodBody_num (g : PWMGenerator) (ch : Ch) (p : Word) :
    (g.setPeriodBody ch p).mNumChannels = g.mNumChannels := by
  rw [setPeriodBody_eq_put]
  rfl

theorem foldl_isrBody_num (l : List Ch) (g : PWMGenerator) :
    (l.foldl isrBody g).mNumChannels = g.mNumChannels := by
  induction l generalizing g with
  | nil => rfl
  | cons ch l ih =>
    rw [List.foldl_cons, ih, isrBody_eq_put]
    rfl

/-- The state of a channel after an operation. -/
def Op.applyAt (c : Ch) (op : Op) (v : Channel) : Channel :=
  match op.at c with
  | none => v
  | some o => v.apply o

/-- A valid operation returns, and acts on every channel in use like the
    one-channel driver. -/
theorem step_ok (g : PWMGenerator) {op : Op} (hop : op.Valid g.mNumChannels) :
    ∃ g', g.step op = .ok g' ∧ g'.mNumChannels = g.mNumChannels ∧
      ∀ c : Ch, c < g.mNumChannels → g'.view c = op.applyAt c (g.view c) := by
  cases op with
  | tick => exact ⟨g.tick, rfl, rfl, fun c _ => view_tick g c⟩
  | isr => exact ⟨g.isr, rfl, foldl_isrBody_num _ g, fun c hc => view_isr g hc⟩
  | setChannelPeriod ch p =>
    have hch : ch < kMaxNumChannels := lt_of_lt_of_le hop g.num_le
    refine ⟨g.setPeriodBody ⟨ch, hch⟩ p, g.setChannelPeriod_ok ⟨ch, hch⟩ hop p,
      setPeriodBody_num g _ p, fun c _ => ?_⟩
    rw [view_setPeriodBody]
    unfold Op.applyAt
    by_cases hc : ch = c
    · rw [Op.at_self hc, if_pos (Fin.ext hc.symm)]
      rfl
    · rw [Op.at_other hc, if_neg (fun h => hc (congrArg Fin.val h).symm)]

/-- Every channel in use goes through a run like the one-channel driver. -/
theorem run_view {g : PWMGenerator} {ops : List Op} (hops : ∀ op ∈ ops, op.Valid g.mNumChannels) :
    ∃ g', run step g ops = .ok g' ∧ g'.mNumChannels = g.mNumChannels ∧
      ∀ c : Ch, c < g.mNumChannels →
        g'.view c = (ops.filterMap (Op.at c)).foldl Channel.apply (g.view c) := by
  induction ops generalizing g with
  | nil => exact ⟨g, rfl, rfl, fun c _ => rfl⟩
  | cons op ops ih =>
    obtain ⟨g₁, h₁, hnum, hview⟩ := g.step_ok (hops op List.mem_cons_self)
    obtain ⟨g₂, h₂, hnum₂, hview₂⟩ := ih (g := g₁) fun o ho => by
      rw [hnum]; exact hops o (List.mem_cons_of_mem _ ho)
    refine ⟨g₂, by rw [run_cons_ok h₁, h₂], hnum₂.trans hnum, fun c hc => ?_⟩
    rw [hview₂ c (by rwa [hnum]), hview c hc, List.filterMap_cons]
    unfold Op.applyAt
    cases op.at c <;> rfl

/-! ## Independence -/

/-- The operation is not a `setChannelPeriod` for a channel other than `c`. -/
def Op.concerns (c : Ch) : Op → Bool
  | .setChannelPeriod ch _ => ch = c
  | _ => true

theorem Op.at_of_not_concerns {c : Ch} {op : Op} (h : op.concerns c = false) : op.at c = none := by
  cases op with
  | tick => cases h
  | isr => cases h
  | setChannelPeriod ch p => exact Op.at_other (by simpa [concerns] using h) p

theorem filterMap_at_filter (c : Ch) (ops : List Op) :
    (ops.filter (Op.concerns c)).filterMap (Op.at c) = ops.filterMap (Op.at c) := by
  induction ops with
  | nil => rfl
  | cons op ops ih =>
    by_cases h : op.concerns c
    · rw [List.filter_cons_of_pos h, List.filterMap_cons, List.filterMap_cons, ih]
    · rw [List.filter_cons_of_neg h, List.filterMap_cons,
        Op.at_of_not_concerns (Bool.eq_false_iff.mpr h), ih]

/-- Two calls of `setChannelPeriod` in a row. -/
def setTwo (g : PWMGenerator) (ch₁ : ℕ) (p₁ : Word) (ch₂ : ℕ) (p₂ : Word) :
    Except Fault PWMGenerator :=
  run step g [.setChannelPeriod ch₁ p₁, .setChannelPeriod ch₂ p₂]

theorem setPeriodBody_comm (g : PWMGenerator) {a b : Ch} (h : a ≠ b) (p q : Word) :
    (g.setPeriodBody a p).setPeriodBody b q = (g.setPeriodBody b q).setPeriodBody a p := by
  rw [setPeriodBody_eq_put _ b, setPeriodBody_eq_put _ a, setPeriodBody_eq_put _ a,
    setPeriodBody_eq_put _ b, view_put_ne g h.symm, view_put_ne g h, put_comm g h]

/-- **The channels are independent.** For every number of channels and every
    initial state of the registers: the state of a channel `c` in use after a
    run of ticks, interrupts and `setChannelPeriod` calls is the same as after
    the run with the calls for other channels deleted, and calls for distinct
    channels commute. -/
theorem channels_independent (g : PWMGenerator) (ops : List Op)
    (hops : ∀ op ∈ ops, op.Valid g.mNumChannels) (c : Ch) (hc : c < g.mNumChannels) :
    (∃ g₁ g₂, run step g ops = .ok g₁ ∧ run step g (ops.filter (Op.concerns c)) = .ok g₂ ∧
        g₁.view c = g₂.view c) ∧
      ∀ (a b : Ch) (p q : Word), a ≠ b → a < g.mNumChannels → b < g.mNumChannels →
        g.setTwo a p b q = g.setTwo b q a p := by
  constructor
  · obtain ⟨g₁, h₁, -, hv₁⟩ := run_view hops
    have hfilter : ∀ op ∈ ops.filter (Op.concerns c), op.Valid g.mNumChannels :=
      fun op hop => hops op (List.mem_of_mem_filter hop)
    obtain ⟨g₂, h₂, -, hv₂⟩ := run_view hfilter
    refine ⟨g₁, g₂, h₁, h₂, ?_⟩
    rw [hv₁ c hc, hv₂ c hc, filterMap_at_filter]
  · intro a b p q hab ha hb
    have two : ∀ (x y : Ch) (u v : Word), x < g.mNumChannels → y < g.mNumChannels →
        g.setTwo x u y v = .ok ((g.setPeriodBody x u).setPeriodBody y v) := by
      intro x y u v hx hy
      unfold setTwo
      rw [run_cons_ok (g.setChannelPeriod_ok x hx u), run_cons_ok (setChannelPeriod_ok _ y
        (by rw [setPeriodBody_num]; exact hy) v), run_nil]
    rw [two a b p q ha hb, two b a q p hb ha, setPeriodBody_comm g hab]

/-- Two channels started together: channel 1 does not see channel 0. -/
theorem channels_independent_main :
    (∃ g₁ g₂, run step mainInit [.setChannelPeriod 0 4, .setChannelPeriod 1 6, .tick, .tick, .isr]
          = .ok g₁ ∧
        run step mainInit ([.setChannelPeriod 0 4, .setChannelPeriod 1 6, .tick, .tick, .isr].filter
          (Op.concerns 1)) = .ok g₂ ∧ g₁.view 1 = g₂.view 1) ∧
      ∀ (a b : Ch) (p q : Word), a ≠ b → a < mainInit.mNumChannels → b < mainInit.mNumChannels →
        mainInit.setTwo a p b q = mainInit.setTwo b q a p :=
  channels_independent mainInit _ (by simp [Op.Valid, mainInit]) 1 (by decide)

end PWMGenerator

end StepperSynth
