import StepperSynth.Common.Pacing
import StepperSynth.Pwm.Channel

/-!
# The edges of a running channel

The matches of an enabled channel and their services, with the tick they come
at. A service comes with the `m_periods_us` it reads.

* `Channel.InPhase`: what `CNT`, `CCR` and the flag say about the next edge,
  modulo `2^32`.
* `Channel.paced_step`: one operation; `Channel.paced_pulses`: a run.
* `edges_no_drift`: if no service comes late, then each edge after a serviced
  one comes exactly the distance read by that service after it.
-/

namespace StepperSynth

open Common

namespace Channel

/-- The time in ticks after an operation. -/
def Op.after (now : ℕ) : Op → ℕ
  | .tick => now + 1
  | _ => now

/-- What an operation lets us see. -/
def pulse (now : ℕ) (c : Channel) : Op → Option Pulse
  | .tick => if c.ccr = c.cnt + 1 then some (.edge (now + 1)) else none
  | .isr => if c.flag then some (.service now c.period.toNat) else none
  | .setPeriod _ => none

/-- What a run lets us see. -/
def pulses : ℕ → Channel → List Op → List Pulse
  | _, _, [] => []
  | now, c, o :: os => (c.pulse now o).toList ++ pulses (o.after now) (c.apply o) os

/-- No operation of the run disables the channel. -/
def Op.Running : Op → Prop
  | .setPeriod p => 2 ≤ p
  | _ => True

/-! ## One operation -/

/-- A new period for an enabled channel does not touch the timer. -/
theorem setPeriod_running {c : Channel} (hen : c.period ≠ 0) {p : Word} (hp : 2 ≤ p) :
    c.setPeriod p = { c with period := p / 2 } := by
  unfold setPeriod
  simp only
  rw [if_neg fun h => hen h.1, if_neg fun h => half_ne_zero hp h.2]

theorem apply_period {c : Channel} (hen : c.period ≠ 0) {o : Op} (ho : o.Running) :
    (c.apply o).period ≠ 0 := by
  cases o with
  | tick => rwa [apply, tick_period]
  | isr => rwa [apply, isr_period]
  | setPeriod p =>
    rw [apply, setPeriod_running hen ho]
    exact half_ne_zero ho

/-- What the registers say about the edges, `now` ticks into the run. -/
def InPhase (now : ℕ) (c : Channel) : Phase → Prop
  | .waiting next => c.flag = false ∧ now < next ∧ (c.ccr - c.cnt).toNat + now = next
  | .pending last => c.flag = true ∧ (c.cnt - c.ccr).toNat + last = now

/-- What comes next is in time in the phase. -/
def InTimeFrom (es : List Pulse) : Phase → Prop
  | .waiting _ => es.IsChain (Pulse.InTime (2 ^ 32))
  | .pending last => (.edge last :: es).IsChain (Pulse.InTime (2 ^ 32))

/-- One tick of a channel that waits for its next edge. -/
theorem tick_waiting {now next : ℕ} {c : Channel} (hc : c.InPhase now (.waiting next)) :
    (c.ccr = c.cnt + 1 ∧ next = now + 1 ∧ c.tick.InPhase (now + 1) (.pending next)) ∨
      (c.ccr ≠ c.cnt + 1 ∧ c.tick.InPhase (now + 1) (.waiting next)) := by
  obtain ⟨hflag, hlt, hdist⟩ := hc
  unfold tick
  by_cases hm : c.ccr = c.cnt + 1
  · left
    rw [if_pos hm]
    have hnext : next = now + 1 := by rw [hm] at hdist; bv_omega
    refine ⟨hm, hnext, rfl, ?_⟩
    show (c.cnt + 1 - c.ccr).toNat + next = now + 1
    rw [hm, hnext]
    bv_omega
  · right
    rw [if_neg hm]
    refine ⟨hm, hflag, ?_⟩
    show now + 1 < next ∧ (c.ccr - (c.cnt + 1)).toNat + (now + 1) = next
    constructor <;> bv_omega

/-- One tick of a channel whose last edge is not serviced yet. A match would
    come `2^32` ticks after that edge. -/
theorem tick_pending {now last : ℕ} {c : Channel} (hc : c.InPhase now (.pending last)) :
    (c.ccr = c.cnt + 1 ∧ now + 1 = last + 2 ^ 32) ∨
      (c.ccr ≠ c.cnt + 1 ∧ c.tick.InPhase (now + 1) (.pending last)) := by
  obtain ⟨hflag, hdist⟩ := hc
  unfold tick
  by_cases hm : c.ccr = c.cnt + 1
  · left
    refine ⟨hm, ?_⟩
    rw [hm] at hdist
    bv_omega
  · right
    rw [if_neg hm]
    refine ⟨hm, hflag, ?_⟩
    show (c.cnt + 1 - c.ccr).toNat + last = now + 1
    bv_omega

/-- The service of an edge: the next one is due `c.period` after it. -/
theorem isr_pending {now last : ℕ} {c : Channel} (hc : c.InPhase now (.pending last))
    (htime : now < last + c.period.toNat) :
    c.isr.InPhase now (.waiting (last + c.period.toNat)) := by
  obtain ⟨hflag, hdist⟩ := hc
  unfold isr
  rw [if_pos hflag]
  refine ⟨rfl, htime, ?_⟩
  show (c.ccr + c.period - c.cnt).toNat + now = last + c.period.toNat
  bv_omega

/-! ## Runs -/

theorem pulses_cons_some {now : ℕ} {c : Channel} {o : Op} {e : Pulse}
    (h : c.pulse now o = some e) (os : List Op) :
    pulses now c (o :: os) = e :: pulses (o.after now) (c.apply o) os := by
  rw [pulses, h]
  rfl

theorem pulses_cons_none {now : ℕ} {c : Channel} {o : Op} (h : c.pulse now o = none)
    (os : List Op) : pulses now c (o :: os) = pulses (o.after now) (c.apply o) os := by
  rw [pulses, h]
  rfl

section Pulse

variable {now : ℕ} {c : Channel}

theorem pulse_match (h : c.ccr = c.cnt + 1) : c.pulse now .tick = some (.edge (now + 1)) :=
  if_pos h

theorem pulse_no_match (h : c.ccr ≠ c.cnt + 1) : c.pulse now .tick = none := if_neg h

theorem pulse_flag (h : c.flag = true) : c.pulse now .isr = some (.service now c.period.toNat) :=
  if_pos h

theorem pulse_no_flag (h : ¬ c.flag = true) : c.pulse now .isr = none := if_neg h

theorem pulse_setPeriod (p : Word) : c.pulse now (.setPeriod p) = none := rfl

end Pulse

/-- One operation: the channel stays in its phase, or goes on to the next with
    the pulse that belongs to it. -/
theorem paced_step {now : ℕ} {c : Channel} {φ : Phase} (hc : c.InPhase now φ) {o : Op}
    (hen : c.period ≠ 0) (ho : o.Running) (os : List Op)
    (htime : InTimeFrom (pulses now c (o :: os)) φ) :
    ∃ φ', (c.apply o).InPhase (o.after now) φ' ∧
      InTimeFrom (pulses (o.after now) (c.apply o) os) φ' ∧
      ∀ N, o.after now ≤ N → Paced N φ' (pulses (o.after now) (c.apply o) os) →
        Paced N φ (pulses now c (o :: os)) := by
  cases o with
  | tick =>
    cases φ with
    | waiting next =>
      rcases tick_waiting hc with ⟨hm, rfl, hc'⟩ | ⟨hm, hc'⟩
      · rw [pulses_cons_some (pulse_match hm)] at htime ⊢
        exact ⟨_, hc', htime, fun N hN h => .edge hN h⟩
      · rw [pulses_cons_none (pulse_no_match hm)] at htime ⊢
        exact ⟨_, hc', htime, fun N _ h => h⟩
    | pending last =>
      rcases tick_pending hc with ⟨hm, hlate⟩ | ⟨hm, hc'⟩
      · -- a flag left pending until the counter has gone round
        rw [pulses_cons_some (pulse_match hm)] at htime
        have : now + 1 < last + 2 ^ 32 := (List.isChain_cons_cons.mp htime).1
        omega
      · rw [pulses_cons_none (pulse_no_match hm)] at htime ⊢
        exact ⟨_, hc', htime, fun N _ h => h⟩
  | isr =>
    cases φ with
    | waiting next =>
      have hflag : ¬ c.flag = true := by simp [hc.1]
      rw [pulses_cons_none (pulse_no_flag hflag)] at htime ⊢
      have hsame : c.isr = c := if_neg hflag
      refine ⟨_, ?_, htime, fun N _ h => h⟩
      show c.isr.InPhase now _
      rwa [hsame]
    | pending last =>
      rw [pulses_cons_some (pulse_flag hc.1)] at htime ⊢
      obtain ⟨hlt, htime⟩ := List.isChain_cons_cons.mp htime
      exact ⟨_, isr_pending hc hlt, htime.tail, fun N _ h => .service h⟩
  | setPeriod p =>
    rw [pulses_cons_none (pulse_setPeriod p)] at htime ⊢
    refine ⟨φ, ?_, htime, fun N _ h => h⟩
    rw [apply, setPeriod_running hen ho]
    cases φ with
    | waiting next => exact hc
    | pending last => exact hc

theorem count_tick_cons (now : ℕ) (o : Op) (os : List Op) :
    now + (o :: os).count .tick = o.after now + os.count .tick := by
  cases o with
  | tick =>
    rw [List.count_cons_self, Op.after]
    omega
  | isr => exact congrArg (now + ·) (List.count_cons_of_ne (by decide))
  | setPeriod p => exact congrArg (now + ·) (List.count_cons_of_ne (by simp))

/-- From a phase on, exactly the edges due are emitted. -/
theorem paced_pulses {now : ℕ} {c : Channel} {φ : Phase} (hc : c.InPhase now φ)
    (hen : c.period ≠ 0) {os : List Op} (hos : ∀ o ∈ os, o.Running)
    (htime : InTimeFrom (pulses now c os) φ) :
    Paced (now + os.count .tick) φ (pulses now c os) := by
  induction os generalizing now c φ with
  | nil =>
    cases φ with
    | waiting next => exact .quiet hc.2.1
    | pending last => exact .unserviced
  | cons o os ih =>
    have hrun : o.Running := hos o List.mem_cons_self
    obtain ⟨φ', hc', htime', hpaced⟩ := paced_step hc hen hrun os htime
    rw [count_tick_cons]
    apply hpaced _ (Nat.le_add_right _ _)
    exact ih hc' (apply_period hen hrun) (fun o ho => hos o (List.mem_cons_of_mem _ ho)) htime'

theorem apply_ccxe {c : Channel} (hen : c.period ≠ 0) {o : Op} (ho : o.Running) :
    (c.apply o).ccxe = c.ccxe := by
  cases o with
  | tick => exact tick_ccxe c
  | isr => exact isr_ccxe c
  | setPeriod p => rw [apply, setPeriod_running hen ho]

/-- One operation toggles the output of an enabled channel iff it is a match. -/
theorem apply_out (now : ℕ) {c : Channel} (hen : c.period ≠ 0) (hcc : c.ccxe = true) {o : Op}
    (ho : o.Running) :
    (c.apply o).out = (c.out ^^ (edgeTimes (c.pulse now o).toList).length.bodd) := by
  cases o with
  | tick =>
    show c.tick.out = _
    unfold tick pulse
    by_cases hm : c.ccr = c.cnt + 1
    · rw [if_pos hm]
      simp only [hm, if_true, hcc]
      simp [edgeTimes]
    · rw [if_neg hm]
      simp only [hm, if_false]
      simp [edgeTimes]
  | isr =>
    show c.isr.out = _
    rw [isr_out]
    unfold pulse
    by_cases hf : c.flag = true <;> simp [hf, edgeTimes]
  | setPeriod p =>
    rw [apply, setPeriod_running hen ho]
    simp [pulse, edgeTimes]

/-- The output of an enabled channel toggles once for each edge. -/
theorem out_pulses {c : Channel} (now : ℕ) (hen : c.period ≠ 0) (hcc : c.ccxe = true)
    {os : List Op} (hos : ∀ o ∈ os, o.Running) :
    (os.foldl apply c).out = (c.out ^^ (edgeTimes (pulses now c os)).length.bodd) := by
  induction os generalizing now c with
  | nil => simp [pulses, edgeTimes]
  | cons o os ih =>
    have hrun : o.Running := hos o List.mem_cons_self
    rw [List.foldl_cons, ih (o.after now) (apply_period hen hrun)
      ((apply_ccxe hen hrun).trans hcc) fun o ho => hos o (List.mem_cons_of_mem _ ho),
      apply_out now hen hcc hrun, pulses, edgeTimes_append, List.length_append, Nat.bodd_add,
      Bool.xor_assoc]

end Channel

namespace PWMGenerator

/-! ## The channels of the generator -/

/-- The time in ticks after an operation. -/
def Op.after (now : ℕ) : Op → ℕ
  | .tick => now + 1
  | _ => now

/-- A match of channel `c`, or an `isr` run that finds its flag set. -/
def pulse (c : Ch) (now : ℕ) (g : PWMGenerator) : Op → Option Pulse
  | .tick => if g.tim.ccr c = g.tim.cnt + 1 then some (.edge (now + 1)) else none
  | .isr =>
    if g.tim.sr &&& Tim.ccxifMsk c ≠ 0 then some (.service now (g.mPeriodsUs c).toNat) else none
  | .setChannelPeriod _ _ => none

/-- The matches and services of channel `c` in a run. -/
def pulses (c : Ch) : ℕ → PWMGenerator → List Op → List Pulse
  | _, _, [] => []
  | now, g, op :: ops =>
    match g.step op with
    | .error _ => []
    | .ok g' => (g.pulse c now op).toList ++ pulses c (op.after now) g' ops

theorem pulses_eq {g : PWMGenerator} {c : Ch} (hc : c < g.mNumChannels) {ops : List Op}
    (hops : ∀ op ∈ ops, op.Valid g.mNumChannels) (now : ℕ) :
    pulses c now g ops = Channel.pulses now (g.view c) (ops.filterMap (Op.at c)) := by
  induction ops generalizing g now with
  | nil => rfl
  | cons op ops ih =>
    obtain ⟨g', hg', hnum, hview⟩ := g.step_ok (hops op List.mem_cons_self)
    have hrest : pulses c (op.after now) g' ops =
        Channel.pulses (op.after now) (op.applyAt c (g.view c)) (ops.filterMap (Op.at c)) := by
      rw [ih (hnum ▸ hc) (fun o ho => hnum ▸ hops o (List.mem_cons_of_mem _ ho)), hview c hc]
    rw [pulses, hg', List.filterMap_cons]
    simp only [hrest]
    cases op with
    | tick => rfl
    | isr =>
      have hflag : g.tim.sr &&& Tim.ccxifMsk c ≠ 0 ↔ (g.view c).flag = true :=
        and_mask_ne_zero (irqBit_lt c) _
      have hpulse : g.pulse c now .isr = (g.view c).pulse now .isr := by
        unfold pulse Channel.pulse
        simp only [hflag]
        rfl
      rw [hpulse]
      rfl
    | setChannelPeriod ch p =>
      by_cases hch : ch = c
      · simp only [Op.applyAt, Op.at_self hch]
        rfl
      · simp only [Op.applyAt, Op.at_other hch]
        rfl

theorem count_at_tick (c : Ch) (ops : List Op) :
    (ops.filterMap (Op.at c)).count .tick = ops.count .tick := by
  induction ops with
  | nil => rfl
  | cons op ops ih =>
    cases op with
    | tick =>
      rw [List.filterMap_cons_some (Op.at_tick c), List.count_cons_self, List.count_cons_self, ih]
    | isr =>
      rw [List.filterMap_cons_some (Op.at_isr c), List.count_cons_of_ne (by decide),
        List.count_cons_of_ne (by decide), ih]
    | setChannelPeriod ch p =>
      rw [List.count_cons_of_ne (by simp), ← ih]
      by_cases hch : ch = c
      · rw [List.filterMap_cons_some (Op.at_self hch p), List.count_cons_of_ne (by simp)]
      · rw [List.filterMap_cons_none (Op.at_other hch p)]

theorem running_at {c : Ch} {ops : List Op}
    (hperiods : ∀ p, Op.setChannelPeriod c p ∈ ops → 2 ≤ p) :
    ∀ o ∈ ops.filterMap (Op.at c), o.Running :=
  forall_at trivial trivial hperiods

/-- The edges of channel `c` in a run. `CCR - CNT` is the number of ticks to the
    first match. -/
structure NoDrift (c : Ch) (g : PWMGenerator) (ops : List Op) : Prop where
  /-- The first match comes when it is due, if the run gets there. -/
  first : (edgeTimes (pulses c 0 g ops)).head? =
    if (g.tim.ccr c - g.tim.cnt).toNat ≤ ops.count .tick then
      some (g.tim.ccr c - g.tim.cnt).toNat
    else none
  /-- After a match at `t` whose service read `h`, the next match is at `t + h`,
      if the run gets there. -/
  next : ∀ pre t d h rest, pulses c 0 g ops = pre ++ .edge t :: .service d h :: rest →
    (edgeTimes rest).head? = if t + h ≤ ops.count .tick then some (t + h) else none
  /-- There are no two matches without a service between them. -/
  no_double : ∀ pre t t' rest, pulses c 0 g ops ≠ pre ++ .edge t :: .edge t' :: rest
  /-- Match `k` is at the time of the first one plus the first `k` values read
      by the services. -/
  time : ∀ k t, (edgeTimes (pulses c 0 g ops))[k]? = some t →
    t = (g.tim.ccr c - g.tim.cnt).toNat + ((distances (pulses c 0 g ops)).take k).sum
  /-- The run returns, and the output has toggled once for each match. -/
  out : ∃ g', run step g ops = .ok g' ∧ (g.tim.ccer &&& Tim.ccxeMsk c ≠ 0 →
    g'.tim.out c = (g.tim.out c ^^ (edgeTimes (pulses c 0 g ops)).length.bodd))

/-- **No drift, no missed edge, no doubled edge.** Take any number of channels,
    any run of ticks, `isr` runs and `setChannelPeriod` calls, and a channel `c`
    that is enabled at the start, with its flag clear and `CCR ≠ CNT`. The calls
    for `c` pass at least 2, so it stays enabled. If no service of its flag comes
    `h` or more ticks after the match, where `h` is the `m_periods_us` it reads,
    and no flag is left for `2^32` ticks, then each match after a serviced one
    comes exactly `h` ticks after it. -/
theorem edges_no_drift (g : PWMGenerator) (ops : List Op)
    (hops : ∀ op ∈ ops, op.Valid g.mNumChannels) {c : Ch} (hc : c < g.mNumChannels)
    (hperiods : ∀ p, Op.setChannelPeriod c p ∈ ops → 2 ≤ p) (hen : g.mPeriodsUs c ≠ 0)
    (hflag : g.tim.sr &&& Tim.ccxifMsk c = 0) (hne : g.tim.ccr c ≠ g.tim.cnt)
    (htime : (pulses c 0 g ops).IsChain (Pulse.InTime (2 ^ 32))) : NoDrift c g ops := by
  have hes := pulses_eq hc hops 0
  have hrunning := running_at hperiods
  have hphase : (g.view c).InPhase 0 (.waiting (g.tim.ccr c - g.tim.cnt).toNat) := by
    refine ⟨?_, ?_, rfl⟩
    · have hbit : ¬ (g.view c).flag = true :=
        fun h => ((and_mask_ne_zero (irqBit_lt c) g.tim.sr).mpr h) hflag
      simpa using hbit
    · show 0 < (g.tim.ccr c - g.tim.cnt).toNat
      bv_omega
  have hpaced : Paced (ops.count .tick) (.waiting (g.tim.ccr c - g.tim.cnt).toNat)
      (pulses c 0 g ops) := by
    have h := Channel.paced_pulses hphase hen hrunning (by rw [← hes]; exact htime)
    rwa [← hes, count_at_tick, Nat.zero_add] at h
  refine ⟨hpaced.head_edgeTimes, fun pre t d h rest he => ?_, fun pre t t' rest he => ?_,
    fun k t => hpaced.edgeTimes_getElem?, ?_⟩
  · rw [he] at hpaced
    exact hpaced.after_service
  · rw [he] at hpaced
    exact Paced.no_double hpaced
  · obtain ⟨g', hrun, -, hview⟩ := run_view hops
    refine ⟨g', hrun, fun hcc => ?_⟩
    have hcc' : (g.view c).ccxe = true := (and_mask_ne_zero (ccBit_lt c) _).mp hcc
    show (g'.view c).out = _
    rw [hview c hc, hes]
    exact Channel.out_pulses 0 hen hcc' hrunning

/-- Channel 0 enabled with period 4, and retuned between a match and the next. -/
theorem edges_no_drift_retuned :
    NoDrift 0 (mainInit.setPeriodBody 0 4)
      [.tick, .tick, .isr, .setChannelPeriod 0 6, .tick, .tick, .isr, .tick] := by
  apply edges_no_drift
  · simp [Op.Valid, setPeriodBody_num, mainInit, synthNumVoices]
  · decide
  · simp
  · decide
  · decide
  · decide
  · decide

end PWMGenerator

end StepperSynth
