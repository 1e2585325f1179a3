import StepperSynth.Pwm.Waveform

/-!
# Late interrupts

What the edges of a channel do if `isr` comes late, or not at all: the compare
value is moved on past the counter, and matches only after the counter has gone
round.

* `Counts`: where `CNT` and `CCR` are between two edges, without any condition.
* `Channel.timed_step`: one operation; `Channel.timed_pulses`: a run.
* `edges_any_latency`: the time of every edge, for every run.
-/

namespace StepperSynth

open Common

/-! ## The counter and the compare value -/

/-- What `CNT` and `CCR` say about the edges, `now` ticks into the run. -/
def Counts (now : ℕ) (cnt ccr : Word) : Phase → Prop
  | .waiting next => now < next ∧ next ≤ now + 2 ^ 32 ∧ ccr = cnt + BitVec.ofNat 32 (next - now)
  | .pending last => last ≤ now ∧ now < last + 2 ^ 32 ∧ cnt = ccr + BitVec.ofNat 32 (now - last)

namespace Counts

variable {now : ℕ} {cnt ccr : Word} {φ : Phase}

/-- The counter reaches the compare value when an edge is due, and a round after an
    edge that was not serviced. -/
theorem tick_match (h : Counts now cnt ccr φ) (hm : ccr = cnt + 1) :
    (φ = .waiting (now + 1) ∨ ∃ last, φ = .pending last ∧ now + 1 = last + 2 ^ 32) ∧
      Counts (now + 1) (cnt + 1) ccr (.pending (now + 1)) := by
  have hnew : Counts (now + 1) (cnt + 1) ccr (.pending (now + 1)) := by
    refine ⟨le_rfl, by omega, ?_⟩
    rw [hm, Nat.sub_self]
    simp
  refine ⟨?_, hnew⟩
  subst hm
  cases φ with
  | waiting next =>
    obtain ⟨hlt, hle, hccr⟩ := h
    left
    congr 1
    bv_omega
  | pending last =>
    obtain ⟨hle, hlt, hcnt⟩ := h
    right
    refine ⟨last, rfl, ?_⟩
    bv_omega

theorem tick_no_match (h : Counts now cnt ccr φ) (hm : ccr ≠ cnt + 1) :
    Counts (now + 1) (cnt + 1) ccr φ := by
  cases φ with
  | waiting next =>
    obtain ⟨hlt, hle, hccr⟩ := h
    have hne : next ≠ now + 1 := by
      rintro rfl
      rw [Nat.add_sub_cancel_left] at hccr
      exact hm hccr
    refine ⟨by omega, by omega, ?_⟩
    bv_omega
  | pending last =>
    obtain ⟨hle, hlt, hcnt⟩ := h
    have hne : now + 1 ≠ last + 2 ^ 32 := by
      intro heq
      have hsub : now - last = 2 ^ 32 - 1 := by omega
      rw [hsub] at hcnt
      exact hm (by bv_omega)
    refine ⟨by omega, by omega, ?_⟩
    bv_omega

/-- The service of an edge, in time or late. -/
theorem service {last : ℕ} (h : Counts now cnt ccr (.pending last)) (half : Word) :
    Counts now cnt (ccr + half) (.waiting (dueAfter (2 ^ 32) last now half.toNat)) := by
  obtain ⟨hle, hlt, hcnt⟩ := h
  have hhalf := half.isLt
  by_cases hlate : now < last + half.toNat
  · rw [dueAfter, if_pos hlate]
    refine ⟨hlate, by omega, ?_⟩
    bv_omega
  · rw [dueAfter, if_neg hlate]
    refine ⟨by omega, by omega, ?_⟩
    bv_omega

end Counts

namespace Channel

/-- Where a channel is between two edges. -/
def AtPhase (now : ℕ) (c : Channel) (φ : Phase) : Prop :=
  Counts now c.cnt c.ccr φ ∧ (c.flag = true ↔ ∃ last, φ = .pending last)

/-! ## One operation -/

theorem tick_atPhase {now : ℕ} {c : Channel} {φ : Phase} (hc : c.AtPhase now φ) :
    (c.ccr = c.cnt + 1 ∧
        (φ = .waiting (now + 1) ∨ ∃ last, φ = .pending last ∧ now + 1 = last + 2 ^ 32) ∧
        c.tick.AtPhase (now + 1) (.pending (now + 1))) ∨
      (c.ccr ≠ c.cnt + 1 ∧ c.tick.AtPhase (now + 1) φ) := by
  obtain ⟨hcounts, hflag⟩ := hc
  unfold tick
  by_cases hm : c.ccr = c.cnt + 1
  · left
    obtain ⟨hφ, hcounts'⟩ := hcounts.tick_match hm
    rw [if_pos hm]
    exact ⟨hm, hφ, hcounts', fun _ => ⟨_, rfl⟩, fun _ => rfl⟩
  · right
    rw [if_neg hm]
    exact ⟨hm, hcounts.tick_no_match hm, hflag⟩

theorem isr_atPhase {now last : ℕ} {c : Channel} (hc : c.AtPhase now (.pending last)) :
    c.isr.AtPhase now (.waiting (dueAfter (2 ^ 32) last now c.period.toNat)) := by
  obtain ⟨hcounts, hflag⟩ := hc
  have hisr : c.isr = { c with ccr := c.ccr + c.period, flag := false } :=
    if_pos (hflag.mpr ⟨last, rfl⟩)
  rw [hisr]
  refine ⟨hcounts.service c.period, by simp⟩

/-- One operation: the channel stays in its phase, or goes on to the next with
    the pulse that belongs to it. -/
theorem timed_step {now : ℕ} {c : Channel} {φ : Phase} (hc : c.AtPhase now φ) {o : Op}
    (hen : c.period ≠ 0) (ho : o.Running) (os : List Op) :
    ∃ φ', (c.apply o).AtPhase (o.after now) φ' ∧
      ∀ N, o.after now ≤ N → Timed (2 ^ 32) N φ' (pulses (o.after now) (c.apply o) os) →
        Timed (2 ^ 32) N φ (pulses now c (o :: os)) := by
  cases o with
  | tick =>
    rcases tick_atPhase hc with ⟨hm, hφ, hc'⟩ | ⟨hm, hc'⟩
    · rw [pulses_cons_some (pulse_match hm)]
      exact ⟨_, hc', fun N hN h => .edge_or_again hφ hN h⟩
    · rw [pulses_cons_none (pulse_no_match hm)]
      exact ⟨φ, hc', fun N _ h => h⟩
  | isr =>
    cases φ with
    | waiting next =>
      have hflag : ¬ c.flag = true := by simp [hc.2]
      have hsame : c.isr = c := if_neg hflag
      rw [pulses_cons_none (pulse_no_flag hflag)]
      refine ⟨_, ?_, fun N _ h => h⟩
      show c.isr.AtPhase now _
      rwa [hsame]
    | pending last =>
      obtain ⟨hle, hlt, -⟩ := hc.1
      rw [pulses_cons_some (pulse_flag (hc.2.mpr ⟨last, rfl⟩))]
      exact ⟨_, isr_atPhase hc, fun N _ h => .service hle hlt h⟩
  | setPeriod p =>
    rw [pulses_cons_none (pulse_setPeriod p)]
    refine ⟨φ, ?_, fun N _ h => h⟩
    rw [apply, setPeriod_running hen ho]
    exact hc

/-! ## Runs -/

/-- From a phase on, exactly the edges of a counter that goes round are emitted. -/
theorem timed_pulses {now : ℕ} {c : Channel} {φ : Phase} (hc : c.AtPhase now φ)
    (hen : c.period ≠ 0) {os : List Op} (hos : ∀ o ∈ os, o.Running) :
    Timed (2 ^ 32) (now + os.count .tick) φ (pulses now c os) := by
  induction os generalizing now c φ with
  | nil =>
    cases φ with
    | waiting next => exact .quiet hc.1.1
    | pending last => exact .unserviced hc.1.2.1
  | cons o os ih =>
    have hrun : o.Running := hos o List.mem_cons_self
    obtain ⟨φ', hc', htimed⟩ := timed_step hc hen hrun os
    rw [count_tick_cons]
    apply htimed _ (Nat.le_add_right _ _)
    exact ih hc' (apply_period hen hrun) fun o ho => hos o (List.mem_cons_of_mem _ ho)

end Channel

namespace PWMGenerator

/-- The number of ticks to the first match of channel `c`: a compare value equal to the
    counter is a round away. -/
def firstMatch (c : Ch) (g : PWMGenerator) : ℕ :=
  if g.tim.ccr c = g.tim.cnt then 2 ^ 32 else (g.tim.ccr c - g.tim.cnt).toNat

theorem counts_firstMatch (g : PWMGenerator) (c : Ch) :
    Counts 0 g.tim.cnt (g.tim.ccr c) (.waiting (firstMatch c g)) := by
  unfold firstMatch
  split_ifs with heq
  · refine ⟨by omega, by omega, ?_⟩
    rw [heq]
    simp
  · refine ⟨by bv_omega, by bv_omega, ?_⟩
    bv_omega

/-- **Late interrupts.** Take any number of channels, any run of ticks, `isr` runs and
    `setChannelPeriod` calls, with no condition on when `isr` runs, and a channel `c` that
    is enabled at the start with its flag clear, and whose calls pass at least 2. A match
    at `t` serviced at `d` with `h` is followed by one at `t + h` if `d < t + h`, and else
    by one at `t + h + 2^32`; a match that is not serviced is followed by one at
    `t + 2^32`; and modulo `2^32` each match is where it would be had no service been
    late. -/
theorem edges_any_latency (g : PWMGenerator) (ops : List Op)
    (hops : ∀ op ∈ ops, op.Valid g.mNumChannels) {c : Ch} (hc : c < g.mNumChannels)
    (hperiods : ∀ p, Op.setChannelPeriod c p ∈ ops → 2 ≤ p) (hen : g.mPeriodsUs c ≠ 0)
    (hflag : g.tim.sr &&& Tim.ccxifMsk c = 0) :
    EdgeLaw (2 ^ 32) (firstMatch c g) (ops.count .tick) (pulses c 0 g ops) := by
  have hphase : (g.view c).AtPhase 0 (.waiting (firstMatch c g)) := by
    refine ⟨counts_firstMatch g c, ?_⟩
    have hne : ¬ (g.view c).flag = true :=
      fun h => ((and_mask_ne_zero (irqBit_lt c) g.tim.sr).mpr h) hflag
    simp [hne]
  have htimed := Channel.timed_pulses hphase hen (running_at hperiods)
  rw [← pulses_eq hc hops 0, count_at_tick, Nat.zero_add] at htimed
  exact htimed.edgeLaw

/-- Channel 0 with period 4, and a service 3 ticks after the match. -/
theorem edges_any_latency_late :
    EdgeLaw (2 ^ 32) (firstMatch 0 (mainInit.setPeriodBody 0 4))
      ([.tick, .tick, .tick, .tick, .tick, .isr, .setChannelPeriod 0 6, .tick].count Op.tick)
      (pulses 0 0 (mainInit.setPeriodBody 0 4)
        [.tick, .tick, .tick, .tick, .tick, .isr, .setChannelPeriod 0 6, .tick]) := by
  apply edges_any_latency
  · simp [Op.Valid, setPeriodBody_num, mainInit, synthNumVoices]
  · decide
  · simp
  · decide
  · decide

end PWMGenerator

end StepperSynth
