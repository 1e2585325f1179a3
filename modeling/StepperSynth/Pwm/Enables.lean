import StepperSynth.Pwm.Channel

/-!
# Enable bits and periods agree

Three records say whether a channel is enabled: its `CCxE` bit, its `CCxIE` bit
and a nonzero `m_periods_us`.

* `Channel.Agree`, `agree_apply`: every operation of the one-channel driver
  keeps them equal.
* `Bookkeeping`, `bookkeeping_step`: the same for all channels of the registers,
  with the period last asked for, and with no bit of `CCER` or `DIER` set
  outside the channels in use.
* `isr_frame`, `isr_acknowledges`: what `isr` changes, and that it leaves no
  enabled interrupt pending.
* `bookkeeping_run`: every run from a constructed generator.
-/

namespace StepperSynth

open Common

namespace Channel

/-- The enable bits are set exactly when the period is nonzero. -/
def Agree (c : Channel) : Prop :=
  c.ccxe = decide (c.period ≠ 0) ∧ c.ccxie = decide (c.period ≠ 0)

theorem agree_tick {c : Channel} (h : c.Agree) : c.tick.Agree := by
  unfold Agree
  rw [tick_ccxe, tick_ccxie, tick_period]
  exact h

theorem agree_isr {c : Channel} (h : c.Agree) : c.isr.Agree := by
  unfold Agree
  rw [isr_ccxe, isr_ccxie, isr_period]
  exact h

theorem setPeriod_period (c : Channel) (p : Word) : (c.setPeriod p).period = p / 2 := by
  unfold setPeriod
  simp only
  split_ifs with h1 h2
  · rfl
  · exact h2.2.symm
  · rfl

/-- Where `setPeriod` leaves an enable bit that agreed with the period before. -/
theorem enableBit_setPeriod {c : Channel} {p : Word} {b b' : Bool}
    (hb : b = decide (c.period ≠ 0))
    (hb' : b' = if c.period = 0 ∧ p / 2 ≠ 0 then true
      else if c.period ≠ 0 ∧ p / 2 = 0 then false else b) :
    b' = decide ((c.setPeriod p).period ≠ 0) := by
  rw [setPeriod_period, hb']
  split_ifs with h1 h2
  · exact (decide_eq_true h1.2).symm
  · exact (decide_eq_false (not_not.mpr h2.2)).symm
  · have hiff : c.period ≠ 0 ↔ p / 2 ≠ 0 := by tauto
    rw [← decide_eq_decide.mpr hiff]
    exact hb

theorem setPeriod_ccxe {c : Channel} (h : c.ccxe = decide (c.period ≠ 0)) (p : Word) :
    (c.setPeriod p).ccxe = decide ((c.setPeriod p).period ≠ 0) := by
  apply enableBit_setPeriod h
  unfold setPeriod
  simp only
  split_ifs <;> rfl

theorem setPeriod_ccxie {c : Channel} (h : c.ccxie = decide (c.period ≠ 0)) (p : Word) :
    (c.setPeriod p).ccxie = decide ((c.setPeriod p).period ≠ 0) := by
  apply enableBit_setPeriod h
  unfold setPeriod
  simp only
  split_ifs <;> rfl

theorem agree_setPeriod {c : Channel} (h : c.Agree) (p : Word) : (c.setPeriod p).Agree :=
  ⟨setPeriod_ccxe h.1 p, setPeriod_ccxie h.2 p⟩

end Channel

namespace PWMGenerator

/-! ## The interrupt handler -/

/-- `isr` writes only `CCR` and `SR`, and of `SR` only the flags it serves. -/
theorem foldl_isrBody_frame (l : List Ch) (g : PWMGenerator) :
    let g' := l.foldl isrBody g
    g'.tim = { g.tim with sr := g'.tim.sr, ccr := g'.tim.ccr } ∧ g'.mPeriodsUs = g.mPeriodsUs ∧
      ∀ k, (∀ ch ∈ l, k ≠ (ch + 1 : ℕ)) → g'.tim.sr.getLsbD k = g.tim.sr.getLsbD k := by
  induction l generalizing g with
  | nil => exact ⟨rfl, rfl, fun _ _ => rfl⟩
  | cons ch l ih =>
    obtain ⟨htim, hper, hbits⟩ := ih (g.isrBody ch)
    have hbody : (g.isrBody ch).tim =
        { g.tim with sr := (g.isrBody ch).tim.sr, ccr := (g.isrBody ch).tim.ccr } := by
      unfold isrBody
      split_ifs <;> rfl
    have hperiods : (g.isrBody ch).mPeriodsUs = g.mPeriodsUs := by
      unfold isrBody
      split_ifs <;> rfl
    refine ⟨?_, ?_, fun k hk => ?_⟩
    · rw [List.foldl_cons, htim, hbody]
    · rw [List.foldl_cons, hper, hperiods]
    · rw [List.foldl_cons, hbits k fun c hc => hk c (List.mem_cons_of_mem _ hc), isrBody_eq_put]
      exact getLsbD_writeBit_ne (irqBit_lt ch) (hk ch List.mem_cons_self) _ _

/-- What an `isr` run may change: compare values and flags of channels in use
    that had their flag set. -/
structure IsrFrame (g g' : PWMGenerator) : Prop where
  tim : g'.tim = { g.tim with sr := g'.tim.sr, ccr := g'.tim.ccr }
  periods : g'.mPeriodsUs = g.mPeriodsUs
  num : g'.mNumChannels = g.mNumChannels
  ccr : ∀ ch : Ch, g'.tim.ccr ch ≠ g.tim.ccr ch → ch < g.mNumChannels ∧ (g.view ch).flag = true
  sr : ∀ k, g'.tim.sr.getLsbD k ≠ g.tim.sr.getLsbD k →
    ∃ ch : Ch, ch < g.mNumChannels ∧ k = (ch + 1 : ℕ) ∧ (g.view ch).flag = true

theorem isr_frame (g : PWMGenerator) : IsrFrame g g.isr := by
  obtain ⟨htim, hper, hbits⟩ := foldl_isrBody_frame g.channels g
  -- a channel that is not served, or has no flag, keeps its state
  have hkeep : ∀ c : Ch, ¬ (c < g.mNumChannels ∧ (g.view c).flag = true) →
      g.isr.view c = g.view c := by
    intro c hc
    show (g.channels.foldl isrBody g).view c = _
    rw [view_foldl_isrBody]
    split_ifs with hmem
    · unfold Channel.isr
      rw [if_neg (fun hf => hc ⟨(g.mem_channels c).mp hmem, hf⟩)]
    · rfl
  refine ⟨htim, hper, foldl_isrBody_num _ g, fun ch hne => ?_, fun k hne => ?_⟩
  · by_contra hc
    exact hne (congrArg Channel.ccr (hkeep ch hc))
  · by_contra hc
    apply hne
    by_cases hk : ∃ ch ∈ g.channels, k = (ch + 1 : ℕ)
    · obtain ⟨ch, hch, rfl⟩ := hk
      have hflag : ¬ (ch < g.mNumChannels ∧ (g.view ch).flag = true) :=
        fun h => hc ⟨ch, h.1, rfl, h.2⟩
      exact congrArg Channel.flag (hkeep ch hflag)
    · exact hbits k fun ch hch hk' => hk ⟨ch, hch, hk'⟩

/-- After `isr` no channel in use has its flag set. -/
theorem isr_flag (g : PWMGenerator) {c : Ch} (hc : c < g.mNumChannels) :
    (g.isr.view c).flag = false := by
  rw [view_isr g hc]
  unfold Channel.isr
  by_cases hf : (g.view c).flag <;> simp [hf]

/-! ## The invariant -/

/-- Half of the latest period passed for `ch` in `h`, newest operation first. -/
def lastHalf (ch : ℕ) : List Op → Word
  | [] => 0
  | .setChannelPeriod c p :: h => if c = ch then p / 2 else lastHalf ch h
  | .tick :: h => lastHalf ch h
  | .isr :: h => lastHalf ch h

/-- The state of the driver after the operations `h`, newest first. -/
structure Bookkeeping (n : ℕ) (h : List Op) (g : PWMGenerator) : Prop where
  num : g.mNumChannels = n
  agree : ∀ ch, (g.view ch).Agree
  period : ∀ ch : Ch, g.mPeriodsUs ch = lastHalf ch h
  ccer : ∀ k, g.tim.ccer.getLsbD k = true → ∃ ch : Ch, ch < n ∧ k = (ch * 4 : ℕ)
  dier : ∀ k, g.tim.dier.getLsbD k = true → ∃ ch : Ch, ch < n ∧ k = (ch + 1 : ℕ)

/-- Only the bits of `ch` can be set by a write to channel `ch`. -/
theorem Bookkeeping.put_bits {n : ℕ} {h : List Op} {g : PWMGenerator} (hg : Bookkeeping n h g)
    {ch : Ch} (hch : ch < n) (c : Channel) :
    (∀ k, (g.put ch c).tim.ccer.getLsbD k = true → ∃ ch : Ch, ch < n ∧ k = (ch * 4 : ℕ)) ∧
      ∀ k, (g.put ch c).tim.dier.getLsbD k = true → ∃ ch : Ch, ch < n ∧ k = (ch + 1 : ℕ) := by
  constructor
  · intro k hk
    by_cases hkc : k = (ch * 4 : ℕ)
    · exact ⟨ch, hch, hkc⟩
    · exact hg.ccer k (by rwa [← getLsbD_writeBit_ne (ccBit_lt ch) hkc _ c.ccxe])
  · intro k hk
    by_cases hkc : k = (ch + 1 : ℕ)
    · exact ⟨ch, hch, hkc⟩
    · exact hg.dier k (by rwa [← getLsbD_writeBit_ne (irqBit_lt ch) hkc _ c.ccxie])

theorem Bookkeeping.tick {n : ℕ} {h : List Op} {g : PWMGenerator} (hg : Bookkeeping n h g) :
    Bookkeeping n (.tick :: h) g.tick where
  num := hg.num
  agree ch := by rw [view_tick]; exact Channel.agree_tick (hg.agree ch)
  period := hg.period
  ccer := hg.ccer
  dier := hg.dier

theorem Bookkeeping.isr {n : ℕ} {h : List Op} {g : PWMGenerator} (hg : Bookkeeping n h g) :
    Bookkeeping n (.isr :: h) g.isr := by
  have hf := g.isr_frame
  refine ⟨hf.num.trans hg.num, fun ch => ?_, fun ch => ?_, ?_, ?_⟩
  · show ((g.channels.foldl isrBody g).view ch).Agree
    rw [view_foldl_isrBody]
    split_ifs
    · exact Channel.agree_isr (hg.agree ch)
    · exact hg.agree ch
  · rw [hf.periods]
    exact hg.period ch
  · rw [hf.tim]
    exact hg.ccer
  · rw [hf.tim]
    exact hg.dier

theorem Bookkeeping.setPeriodBody {n : ℕ} {h : List Op} {g : PWMGenerator}
    (hg : Bookkeeping n h g) (ch : Ch) (hch : ch < n) (p : Word) :
    Bookkeeping n (.setChannelPeriod ch p :: h) (g.setPeriodBody ch p) := by
  have hbits := hg.put_bits hch ((g.view ch).setPeriod p)
  rw [← setPeriodBody_eq_put] at hbits
  refine ⟨(setPeriodBody_num g ch p).trans hg.num, fun c => ?_, fun c => ?_, hbits.1, hbits.2⟩
  · rw [view_setPeriodBody]
    split_ifs
    · exact Channel.agree_setPeriod (hg.agree c) p
    · exact hg.agree c
  · show ((g.setPeriodBody ch p).view c).period = _
    rw [view_setPeriodBody]
    by_cases hc : c = ch
    · rw [if_pos hc, Channel.setPeriod_period, lastHalf, if_pos (congrArg Fin.val hc.symm)]
    · rw [if_neg hc, lastHalf, if_neg fun hv => hc (Fin.ext hv.symm)]
      exact hg.period c

/-- Every valid operation keeps the bookkeeping. -/
theorem bookkeeping_step {n : ℕ} (h : List Op) (g : PWMGenerator) (op : Op)
    (hops : ∀ o ∈ op :: h, o.Valid n) (hg : Bookkeeping n h g) :
    ∃ g', g.step op = .ok g' ∧ Bookkeeping n (op :: h) g' := by
  cases op with
  | tick => exact ⟨_, rfl, hg.tick⟩
  | isr => exact ⟨_, rfl, hg.isr⟩
  | setChannelPeriod ch p =>
    have hch : ch < n := hops _ List.mem_cons_self
    have hmax : ch < kMaxNumChannels := lt_of_lt_of_le (hg.num ▸ hch) g.num_le
    exact ⟨_, g.setChannelPeriod_ok ⟨ch, hmax⟩ (hg.num ▸ hch) p,
      hg.setPeriodBody ⟨ch, hmax⟩ hch p⟩

/-- The bookkeeping holds after every run. -/
theorem Bookkeeping.run {n : ℕ} {g : PWMGenerator} (hg : Bookkeeping n [] g) (ops : List Op)
    (hops : ∀ op ∈ ops, op.Valid n) :
    ∃ g', Common.run step g ops = .ok g' ∧ Bookkeeping n ops.reverse g' :=
  run_history_of_forall bookkeeping_step hg ops hops

/-- A generator constructed over a timer with `DIER = 0` and `CCER = 0`. -/
theorem bookkeeping_make {tim : Tim} {gpio gpio' : Gpio} {clock : Word} {pins : Ch → Pin} {n : ℕ}
    {g : PWMGenerator} (hmake : make tim gpio clock pins n = .ok (g, gpio')) (hdier : tim.dier = 0)
    (hccer : tim.ccer = 0) : Bookkeeping n [] g := by
  obtain ⟨hn, hper, hd, hc, -⟩ := make_ok hmake
  rw [hdier] at hd
  rw [hccer] at hc
  refine ⟨hn, fun ch => ?_, hper, fun k hk => ?_, fun k hk => ?_⟩
  · unfold Channel.Agree view
    simp [hd, hc, hper]
  · simp [hc] at hk
  · simp [hd] at hk

/-- `isr` leaves no enabled interrupt pending. -/
theorem Bookkeeping.isr_acknowledges {n : ℕ} {h : List Op} {g : PWMGenerator}
    (hg : Bookkeeping n h g) : g.isr.tim.sr &&& g.isr.tim.dier = 0 := by
  apply BitVec.eq_of_getLsbD_eq
  intro k _
  show (g.isr.tim.sr &&& g.isr.tim.dier).getLsbD k = (0#32).getLsbD k
  rw [BitVec.getLsbD_and, BitVec.getLsbD_zero, Bool.and_eq_false_iff]
  by_cases hk : g.isr.tim.dier.getLsbD k = true
  · left
    obtain ⟨ch, hch, rfl⟩ := hg.isr.dier k hk
    exact g.isr_flag (hg.num ▸ hch)
  · right
    simpa using hk

/-- **The bookkeeping of the driver.** From a constructed generator with
    `DIER = 0` and `CCER = 0`, for every sequence of ticks, `isr` runs and
    `setChannelPeriod` calls on channels in use: for every channel `CCxE` is
    set iff `CCxIE` is set iff `m_periods_us` is nonzero, and `m_periods_us` is
    half of the last period passed, or 0; no other bit of `CCER` or `DIER` is
    ever set; and an `isr` run ends with `SR & DIER = 0`, having changed only
    `CCR` values and flags of channels that had their flag set. -/
theorem bookkeeping_run {tim : Tim} {gpio gpio' : Gpio} {clock : Word} {pins : Ch → Pin} {n : ℕ}
    {g : PWMGenerator} (hmake : make tim gpio clock pins n = .ok (g, gpio')) (hdier : tim.dier = 0)
    (hccer : tim.ccer = 0) (ops : List Op) (hops : ∀ op ∈ ops, op.Valid n) :
    ∃ g', run step g ops = .ok g' ∧
      (∀ ch : Ch, ((g'.view ch).ccxe = true ↔ (g'.view ch).ccxie = true) ∧
        ((g'.view ch).ccxie = true ↔ g'.mPeriodsUs ch ≠ 0) ∧
        g'.mPeriodsUs ch = lastHalf ch ops.reverse) ∧
      (∀ k, g'.tim.ccer.getLsbD k = true → ∃ ch : Ch, ch < n ∧ k = (ch * 4 : ℕ)) ∧
      (∀ k, g'.tim.dier.getLsbD k = true → ∃ ch : Ch, ch < n ∧ k = (ch + 1 : ℕ)) ∧
      g'.isr.tim.sr &&& g'.isr.tim.dier = 0 ∧ IsrFrame g' g'.isr := by
  obtain ⟨g', hrun, hg⟩ := (bookkeeping_make hmake hdier hccer).run ops hops
  refine ⟨g', hrun, fun ch => ⟨?_, ?_, hg.period ch⟩, hg.ccer, hg.dier, hg.isr_acknowledges,
    g'.isr_frame⟩
  · rw [(hg.agree ch).1, (hg.agree ch).2]
  · rw [(hg.agree ch).2, decide_eq_true_eq]
    rfl

/-- The generator of `main`, after a period that was asked for and withdrawn. -/
theorem bookkeeping_run_main :
    ∃ g', run step mainInit [.setChannelPeriod 2 100, .tick, .isr, .setChannelPeriod 2 1]
        = .ok g' ∧
      (∀ ch : Ch, ((g'.view ch).ccxe = true ↔ (g'.view ch).ccxie = true) ∧
        ((g'.view ch).ccxie = true ↔ g'.mPeriodsUs ch ≠ 0) ∧
        g'.mPeriodsUs ch =
          lastHalf ch [.setChannelPeriod 2 1, .isr, .tick, .setChannelPeriod 2 100]) ∧
      (∀ k, g'.tim.ccer.getLsbD k = true → ∃ ch : Ch, ch < synthNumVoices ∧ k = (ch * 4 : ℕ)) ∧
      (∀ k, g'.tim.dier.getLsbD k = true → ∃ ch : Ch, ch < synthNumVoices ∧ k = (ch + 1 : ℕ)) ∧
      g'.isr.tim.sr &&& g'.isr.tim.dier = 0 ∧ IsrFrame g' g'.isr := by
  obtain ⟨gpio', hmake⟩ := make_main fun _ => ⟨0, 0, 0, fun _ => 0⟩
  exact bookkeeping_run hmake rfl rfl _ (by simp [Op.Valid, synthNumVoices])

end PWMGenerator

end StepperSynth
