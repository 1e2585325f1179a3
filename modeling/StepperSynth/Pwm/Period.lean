import StepperSynth.Pwm.Enables
import StepperSynth.Pwm.Waveform

/-!
# The period of the waveform

`setChannelPeriod` halves the period before it decides whether the channel is to
be on, and `isr` adds the half to `CCR` for each match. The bit lost in the
division is missing in both.

* `Channel.quiet_run`: between two calls `CCR` advances by one half for each
  service.
* `Channel.exists_services`: any number of services can still come.
* `Recorded`, `recorded_step`: the driver records half of the latest period.
* `Recorded.period_law`: what a period asked for gives, for every period.
* `period_as_asked_iff`: it is what the header says iff the period is even.
-/

namespace StepperSynth

open Common

namespace Channel

/-- The operation is not a call. -/
def Op.Quiet : Op → Prop
  | .setPeriod _ => False
  | _ => True

theorem distances_tick (now : ℕ) (c : Channel) (os : List Op) :
    distances (pulses now c (.tick :: os)) = distances (pulses (now + 1) c.tick os) := by
  by_cases hm : c.ccr = c.cnt + 1
  · rw [pulses_cons_some (pulse_match hm)]
    rfl
  · rw [pulses_cons_none (pulse_no_match hm)]
    rfl

theorem distances_isr_flag (now : ℕ) {c : Channel} (hf : c.flag = true) (os : List Op) :
    distances (pulses now c (.isr :: os)) =
      c.period.toNat :: distances (pulses now c.isr os) := by
  rw [pulses_cons_some (pulse_flag hf)]
  rfl

theorem distances_isr_no_flag (now : ℕ) {c : Channel} (hf : ¬ c.flag = true) (os : List Op) :
    distances (pulses now c (.isr :: os)) = distances (pulses now c.isr os) := by
  rw [pulses_cons_none (pulse_no_flag hf)]
  rfl

/-- Between two calls `CCR` advances by `m_periods_us` for each match serviced. -/
theorem quiet_run (now : ℕ) (c : Channel) {os : List Op} (hos : ∀ o ∈ os, o.Quiet) :
    (os.foldl apply c).period = c.period ∧ (os.foldl apply c).ccxe = c.ccxe ∧
      (os.foldl apply c).ccr =
        c.ccr + BitVec.ofNat 32 (distances (pulses now c os)).length * c.period := by
  induction os generalizing now c with
  | nil => simp [pulses, distances]
  | cons o os ih =>
    have htail : ∀ o ∈ os, o.Quiet := fun o ho => hos o (List.mem_cons_of_mem _ ho)
    rw [List.foldl_cons]
    cases o with
    | tick =>
      obtain ⟨hper, hcc, hccr⟩ := ih (now + 1) c.tick htail
      rw [tick_period] at hper hccr
      rw [tick_ccxe] at hcc
      rw [tick_ccr] at hccr
      rw [distances_tick]
      exact ⟨hper, hcc, hccr⟩
    | isr =>
      obtain ⟨hper, hcc, hccr⟩ := ih now c.isr htail
      rw [isr_period] at hper hccr
      rw [isr_ccxe] at hcc
      refine ⟨hper, hcc, ?_⟩
      by_cases hf : c.flag = true
      · have hisr : c.isr.ccr = c.ccr + c.period := by
          unfold isr
          rw [if_pos hf]
        rw [distances_isr_flag now hf, List.length_cons, BitVec.ofNat_add]
        show (os.foldl apply c.isr).ccr = _
        rw [hccr, hisr, BitVec.add_mul, BitVec.one_mul, BitVec.add_assoc,
          BitVec.add_comm c.period]
      · have hisr : c.isr = c := if_neg hf
        rw [distances_isr_no_flag now hf]
        show (os.foldl apply c.isr).ccr = _
        rw [hccr, hisr]
    | setPeriod p => exact (hos (.setPeriod p) List.mem_cons_self).elim

/-- Every operation keeps `CCxE` in step with the period. -/
theorem ccxe_apply {c : Channel} (h : c.ccxe = decide (c.period ≠ 0)) (o : Op) :
    (c.apply o).ccxe = decide ((c.apply o).period ≠ 0) := by
  cases o with
  | tick =>
    show c.tick.ccxe = decide (c.tick.period ≠ 0)
    rw [tick_ccxe, tick_period, h]
  | isr =>
    show c.isr.ccxe = decide (c.isr.period ≠ 0)
    rw [isr_ccxe, isr_period, h]
  | setPeriod p => exact setPeriod_ccxe h p

/-! ## More services -/

theorem iterate_tick (d : ℕ) (c : Channel) :
    (tick^[d] c).ccr = c.ccr ∧ (tick^[d] c).cnt = c.cnt + BitVec.ofNat 32 d := by
  induction d with
  | zero => exact ⟨rfl, (BitVec.add_zero c.cnt).symm⟩
  | succ d ih =>
    rw [Function.iterate_succ_apply', tick_ccr, tick_cnt, ih.1, ih.2, BitVec.ofNat_add]
    exact ⟨rfl, BitVec.add_assoc _ _ _⟩

theorem tick_flag {c : Channel} (hm : c.ccr = c.cnt + 1) : c.tick.flag = true := by
  unfold tick
  rw [if_pos hm]

/-- The counter gets to the next match. -/
theorem exists_flag (c : Channel) : ∃ d, (tick^[d] c).flag = true := by
  refine ⟨(c.ccr - c.cnt - 1).toNat + 1, ?_⟩
  obtain ⟨hccr, hcnt⟩ := iterate_tick (c.ccr - c.cnt - 1).toNat c
  have hm : (tick^[(c.ccr - c.cnt - 1).toNat] c).ccr =
      (tick^[(c.ccr - c.cnt - 1).toNat] c).cnt + 1 := by
    rw [hccr, hcnt, BitVec.ofNat_toNat, BitVec.setWidth_eq]
    bv_omega
  rw [Function.iterate_succ_apply', tick_flag hm]

theorem distances_ticks (d now : ℕ) (c : Channel) (os : List Op) :
    distances (pulses now c (List.replicate d .tick ++ os)) =
      distances (pulses (now + d) (tick^[d] c) os) := by
  induction d generalizing now c with
  | zero => rfl
  | succ d ih =>
    rw [List.replicate_succ, List.cons_append, distances_tick, ih, Function.iterate_succ_apply,
      Nat.add_assoc, Nat.add_comm 1 d]

/-- Any number of services can still come. -/
theorem exists_services (n now : ℕ) (c : Channel) :
    ∃ os : List Op, (∀ o ∈ os, o.Quiet) ∧ (distances (pulses now c os)).length = n := by
  induction n generalizing now c with
  | zero => exact ⟨[], by simp, rfl⟩
  | succ n ih =>
    obtain ⟨d, hd⟩ := exists_flag c
    obtain ⟨os, hos, hlen⟩ := ih (now + d) (tick^[d] c).isr
    refine ⟨List.replicate d .tick ++ .isr :: os, ?_, ?_⟩
    · intro o ho
      rcases List.mem_append.mp ho with ho | ho
      · rw [List.eq_of_mem_replicate ho]
        trivial
      · rcases List.mem_cons.mp ho with rfl | ho
        · trivial
        · exact hos o ho
    · rw [distances_ticks, distances_isr_flag _ hd, List.length_cons, hlen]

end Channel

namespace PWMGenerator

/-! ## Runs without a call for the channel -/

/-- An operation of channel `c`, as one of the generator. -/
def Op.of (c : Ch) : Channel.Op → Op
  | .tick => .tick
  | .isr => .isr
  | .setPeriod p => .setChannelPeriod c p

theorem filterMap_at_of (c : Ch) (os : List Channel.Op) :
    (os.map (Op.of c)).filterMap (Op.at c) = os := by
  induction os with
  | nil => rfl
  | cons o os ih =>
    rw [List.map_cons, List.filterMap_cons, ih]
    cases o with
    | tick => rfl
    | isr => rfl
    | setPeriod p => rw [Op.of, Op.at_self rfl]

theorem quiet_at {c : Ch} {ops : List Op} (hops : ∀ p, Op.setChannelPeriod c p ∉ ops) :
    ∀ o ∈ ops.filterMap (Op.at c), o.Quiet :=
  forall_at trivial trivial fun p hp => hops p hp

/-- The matches of channel `c` that the `isr` runs of `ops` service. -/
def services (c : Ch) (g : PWMGenerator) (ops : List Op) : ℕ :=
  (distances (pulses c 0 g ops)).length

/-- Channel `c` is enabled. -/
def Enabled (g : PWMGenerator) (c : Ch) : Prop := g.tim.ccer &&& Tim.ccxeMsk c ≠ 0

theorem enabled_iff (g : PWMGenerator) (c : Ch) : g.Enabled c ↔ (g.view c).ccxe = true :=
  and_mask_ne_zero (ccBit_lt c) _

/-- Without a call for `c`, its enable bit stays, and `CCR` advances by
    `m_periods_us` for each match serviced. -/
theorem quiet_run {g : PWMGenerator} {c : Ch} (hc : c < g.mNumChannels) {rest : List Op}
    (hrest : ∀ op ∈ rest, op.Valid g.mNumChannels)
    (hquiet : ∀ p, Op.setChannelPeriod c p ∉ rest) :
    ∃ g', run step g rest = .ok g' ∧ (g'.Enabled c ↔ g.Enabled c) ∧
      g'.tim.ccr c = g.tim.ccr c + BitVec.ofNat 32 (services c g rest) * g.mPeriodsUs c := by
  obtain ⟨g', hrun, -, hview⟩ := run_view hrest
  obtain ⟨-, hcc, hccr⟩ := Channel.quiet_run 0 (g.view c) (quiet_at hquiet)
  rw [← hview c hc] at hcc hccr
  refine ⟨g', hrun, ?_, ?_⟩
  · rw [enabled_iff, enabled_iff, hcc]
  · unfold services
    rw [pulses_eq hc hrest]
    exact hccr

/-! ## The period asked for -/

/-- The latest period passed for `ch` in `h`, newest operation first; 0 if there
    was no call. -/
def lastPeriod (ch : ℕ) : List Op → Word
  | [] => 0
  | .setChannelPeriod c p :: h => if c = ch then p else lastPeriod ch h
  | .tick :: h => lastPeriod ch h
  | .isr :: h => lastPeriod ch h

/-- Channel `c` does what the header says of a period of `period` us, from now on
    until its next call: it is enabled iff the period is nonzero, and if it is,
    `CCR` advances by `k` periods over any `2k` matches serviced. -/
def AsAsked (g : PWMGenerator) (c : Ch) (period : Word) : Prop :=
  ∀ rest, (∀ op ∈ rest, op.Valid g.mNumChannels) → (∀ p, Op.setChannelPeriod c p ∉ rest) →
    ∃ g', run step g rest = .ok g' ∧ (g'.Enabled c ↔ period ≠ 0) ∧
      (period ≠ 0 → ∀ k, services c g rest = 2 * k →
        g'.tim.ccr c = g.tim.ccr c + BitVec.ofNat 32 k * period)

/-- What the driver records of channel `c` after the operations `h`, newest
    first: half of the latest period, and whether that is nonzero. -/
structure Recorded (n : ℕ) (c : Ch) (h : List Op) (g : PWMGenerator) : Prop where
  num : g.mNumChannels = n
  period : (g.view c).period = lastPeriod c h / 2
  ccxe : (g.view c).ccxe = decide ((g.view c).period ≠ 0)

/-- Every valid operation keeps the record. -/
theorem recorded_step {n : ℕ} {c : Ch} (hc : c < n) (h : List Op) (g : PWMGenerator) (op : Op)
    (hops : ∀ o ∈ op :: h, o.Valid n) (hg : Recorded n c h g) :
    ∃ g', g.step op = .ok g' ∧ Recorded n c (op :: h) g' := by
  obtain ⟨num, period, ccxe⟩ := hg
  subst num
  obtain ⟨g', hstep, hnum, hview⟩ := g.step_ok (hops op List.mem_cons_self)
  have hview := hview c hc
  refine ⟨g', hstep, hnum, ?_, ?_⟩
  · rw [hview]
    cases op with
    | tick => exact (Channel.tick_period _).trans period
    | isr => exact (Channel.isr_period _).trans period
    | setChannelPeriod ch p =>
      unfold Op.applyAt lastPeriod
      by_cases hch : ch = c
      · rw [Op.at_self hch, if_pos hch]
        exact Channel.setPeriod_period _ p
      · rw [Op.at_other hch, if_neg hch]
        exact period
  · rw [hview]
    unfold Op.applyAt
    cases op.at c with
    | none => exact ccxe
    | some o => exact Channel.ccxe_apply ccxe o

/-- A generator constructed over a timer with the `CCxE` bit clear. -/
theorem recorded_make {tim : Tim} {gpio gpio' : Gpio} {clock : Word} {pins : Ch → Pin} {n : ℕ}
    {g : PWMGenerator} (hmake : make tim gpio clock pins n = .ok (g, gpio')) {c : Ch}
    (hccer : tim.ccer &&& Tim.ccxeMsk c = 0) : Recorded n c [] g := by
  obtain ⟨hn, hper, -, hcc, -⟩ := make_ok hmake
  have hoff : ¬ (g.view c).ccxe = true := by
    rw [← enabled_iff]
    unfold Enabled
    rw [hcc]
    exact not_not.mpr hccer
  have hzero : (g.view c).period = 0 := hper c
  refine ⟨hn, ?_, ?_⟩
  · rw [hzero]
    show (0 : Word) = 0 / 2
    decide
  · rw [hzero]
    simpa using hoff

theorem Recorded.run {n : ℕ} {c : Ch} {g : PWMGenerator} (hg : Recorded n c [] g) (hc : c < n)
    (ops : List Op) (hops : ∀ op ∈ ops, op.Valid n) :
    ∃ g', Common.run step g ops = .ok g' ∧ Recorded n c ops.reverse g' :=
  run_history_of_forall (recorded_step hc) hg ops hops

/-- What a period gives: the channel is enabled iff its half is nonzero, and
    `CCR` advances by its half for each match serviced. -/
theorem Recorded.period_law {n : ℕ} {c : Ch} {h : List Op} {g : PWMGenerator}
    (hg : Recorded n c h g) (hc : c < n) {rest : List Op}
    (hrest : ∀ op ∈ rest, op.Valid g.mNumChannels)
    (hquiet : ∀ p, Op.setChannelPeriod c p ∉ rest) :
    ∃ g', Common.run step g rest = .ok g' ∧ (g'.Enabled c ↔ lastPeriod c h / 2 ≠ 0) ∧
      g'.tim.ccr c =
        g.tim.ccr c + BitVec.ofNat 32 (services c g rest) * (lastPeriod c h / 2) := by
  obtain ⟨g', hrun, hen, hccr⟩ := quiet_run (hg.num ▸ hc) hrest hquiet
  have hper : g.mPeriodsUs c = lastPeriod c h / 2 := hg.period
  refine ⟨g', hrun, ?_, by rw [hccr, hper]⟩
  rw [hen, enabled_iff, hg.ccxe, hg.period, decide_eq_true_eq]

/-- The half is half of an even period only. -/
theorem even_iff (p : Word) : p.toNat % 2 = 0 ↔ p / 2 + p / 2 = p := by
  have hhalf : (p / 2).toNat = p.toNat / 2 := BitVec.toNat_udiv
  generalize p / 2 = half at hhalf
  constructor
  · intro h
    bv_omega
  · intro h
    bv_omega

theorem half_eq_zero_iff {p : Word} (hp : p.toNat % 2 = 0) : p / 2 = 0 ↔ p = 0 := by
  constructor
  · intro h
    have hsum := (even_iff p).mp hp
    rw [h] at hsum
    exact hsum.symm
  · rintro rfl
    decide

theorem ofNat_two_mul_half {p : Word} (hp : p.toNat % 2 = 0) (k : ℕ) :
    BitVec.ofNat 32 (2 * k) * (p / 2) = BitVec.ofNat 32 k * p := by
  rw [Nat.two_mul, BitVec.ofNat_add, BitVec.add_mul, ← BitVec.mul_add, (even_iff p).mp hp]

/-- An even period is kept. -/
theorem Recorded.asAsked {n : ℕ} {c : Ch} {h : List Op} {g : PWMGenerator}
    (hg : Recorded n c h g) (hc : c < n) (heven : (lastPeriod c h).toNat % 2 = 0) :
    g.AsAsked c (lastPeriod c h) := by
  intro rest hrest hquiet
  obtain ⟨g', hrun, hen, hccr⟩ := hg.period_law hc hrest hquiet
  refine ⟨g', hrun, ?_, fun _ k hk => ?_⟩
  · rw [hen, Ne, half_eq_zero_iff heven]
  · rw [hccr, hk, ofNat_two_mul_half heven]

/-- Two matches can still be serviced. -/
theorem exists_two_services (g : PWMGenerator) {c : Ch} (hc : c < g.mNumChannels) :
    ∃ rest, (∀ op ∈ rest, op.Valid g.mNumChannels) ∧ (∀ p, Op.setChannelPeriod c p ∉ rest) ∧
      services c g rest = 2 := by
  obtain ⟨os, hos, hlen⟩ := Channel.exists_services 2 0 (g.view c)
  have hquiet : ∀ op ∈ os.map (Op.of c), op = .tick ∨ op = .isr := by
    intro op hop
    obtain ⟨o, ho, rfl⟩ := List.mem_map.mp hop
    cases o with
    | tick => exact Or.inl rfl
    | isr => exact Or.inr rfl
    | setPeriod p => exact (hos _ ho).elim
  have hvalid : ∀ op ∈ os.map (Op.of c), op.Valid g.mNumChannels := by
    intro op hop
    rcases hquiet op hop with rfl | rfl
    · trivial
    · trivial
  refine ⟨os.map (Op.of c), hvalid, fun p hp => ?_, ?_⟩
  · rcases hquiet _ hp with h | h
    · cases h
    · cases h
  · unfold services
    rw [pulses_eq hc hvalid, filterMap_at_of, hlen]

/-- A period that is kept is even. -/
theorem Recorded.even_of_asAsked {n : ℕ} {c : Ch} {h : List Op} {g : PWMGenerator}
    (hg : Recorded n c h g) (hc : c < n) (hasked : g.AsAsked c (lastPeriod c h)) :
    (lastPeriod c h).toNat % 2 = 0 := by
  by_cases hp : lastPeriod c h = 0
  · rw [hp]
    decide
  · obtain ⟨rest, hrest, hquiet, htwo⟩ := g.exists_two_services (hg.num ▸ hc)
    obtain ⟨g', hrun, hen, hccr⟩ := hasked rest hrest hquiet
    obtain ⟨g'', hrun', hen', hccr'⟩ := hg.period_law hc hrest hquiet
    rw [hrun] at hrun'
    cases hrun'
    -- the same two services, by the header and by the code
    have hadvance := hccr hp 1 htwo
    rw [hccr', htwo] at hadvance
    have htwice : BitVec.ofNat 32 2 * (lastPeriod c h / 2) = BitVec.ofNat 32 1 * lastPeriod c h :=
      (BitVec.add_right_inj _).mp hadvance
    rw [even_iff, ← BitVec.two_mul]
    exact htwice.trans (BitVec.one_mul _)

/-- **When the waveform has the period asked for.** Take a constructed generator,
    any sequence of ticks, `isr` runs and `setChannelPeriod` calls with any
    periods, and a channel `c` in use whose `CCxE` bit was clear. From the state
    reached until the next call for `c`, the channel is enabled iff the latest
    period passed for it is nonzero, and `CCR` advances by `k` times that period
    over any `2k` matches serviced, if and only if that period is even. -/
theorem period_as_asked_iff {tim : Tim} {gpio gpio' : Gpio} {clock : Word} {pins : Ch → Pin}
    {n : ℕ} {g : PWMGenerator} (hmake : make tim gpio clock pins n = .ok (g, gpio'))
    (ops : List Op) (hops : ∀ op ∈ ops, op.Valid n) (c : Ch) (hc : c < n)
    (hccer : tim.ccer &&& Tim.ccxeMsk c = 0) :
    ∃ g₁, run step g ops = .ok g₁ ∧
      (g₁.AsAsked c (lastPeriod c ops.reverse) ↔ (lastPeriod c ops.reverse).toNat % 2 = 0) := by
  obtain ⟨g₁, hrun, hg⟩ := (recorded_make hmake hccer).run hc ops hops
  exact ⟨g₁, hrun, hg.even_of_asAsked hc, hg.asAsked hc⟩

/-- Channel 2 of the generator of `main`, retuned twice. -/
theorem period_as_asked_main :
    ∃ g₁, run step mainInit [.setChannelPeriod 2 101, .tick, .isr, .setChannelPeriod 2 100]
        = .ok g₁ ∧
      (g₁.AsAsked 2 (lastPeriod 2 [.setChannelPeriod 2 100, .isr, .tick, .setChannelPeriod 2 101])
        ↔ (lastPeriod 2
          [.setChannelPeriod 2 100, .isr, .tick, .setChannelPeriod 2 101]).toNat % 2 = 0) := by
  obtain ⟨gpio', hmake⟩ := make_main fun _ => ⟨0, 0, 0, fun _ => 0⟩
  exact period_as_asked_iff hmake _ (by simp [Op.Valid, synthNumVoices]) 2 (by decide) (by decide)

/-- A period of 5 us gives a waveform of 4 us, and one of 1 us none. -/
theorem period_not_as_asked :
    (∃ g₁, run step mainInit [.setChannelPeriod 0 5] = .ok g₁ ∧ ¬ g₁.AsAsked 0 5) ∧
      ∃ g₁, run step mainInit [.setChannelPeriod 0 1] = .ok g₁ ∧ ¬ g₁.AsAsked 0 1 := by
  refine ⟨⟨mainInit.setPeriodBody 0 5, rfl, fun h => ?_⟩,
    mainInit.setPeriodBody 0 1, rfl, fun h => ?_⟩
  · obtain ⟨g', hrun, -, hccr⟩ := h [.tick, .tick, .isr, .tick, .tick, .isr]
      (by simp [Op.Valid]) (by simp)
    have htwo : services 0 (mainInit.setPeriodBody 0 5) [.tick, .tick, .isr, .tick, .tick, .isr] =
        2 * 1 := by decide
    have hadvance := hccr (by decide) 1 htwo
    cases hrun
    exact absurd hadvance (by decide)
  · obtain ⟨g', hrun, hen, -⟩ := h [] (by simp) (by simp)
    cases hrun
    exact absurd (hen.mpr (by decide)) (by unfold Enabled; decide)

end PWMGenerator

end StepperSynth
