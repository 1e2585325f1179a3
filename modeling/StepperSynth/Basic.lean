import Mathlib.Tactic

/-!
# Shared vocabulary

* `uint8_t` and `uint32_t` are `BitVec 8` and `BitVec 32`: `+` wraps and `<`
  is unsigned, as in C++.
* An array of length `n` is a function `Fin n → α`; a loop
  `for (i = 0; i < n; ++i)` is a left fold over `List.finRange n`.
* A failed `assert` stops the firmware (`__assert_func` masks the interrupts
  and never returns), and an index outside an array is undefined behaviour.
  Both are errors of the model, so "the call returns" rules them out.
-/

namespace StepperSynth

/-- `uint8_t`. -/
abbrev Byte := BitVec 8

/-- `uint32_t`. -/
abbrev Word := BitVec 32

instance : LinearOrder Word where
  le_refl a := BitVec.le_refl a
  le_trans _ _ _ := BitVec.le_trans
  le_antisymm _ _ := BitVec.le_antisymm
  le_total := BitVec.le_total
  lt_iff_le_not_ge a b := by simp only [BitVec.lt_def, BitVec.le_def]; omega
  toDecidableLE := inferInstance
  toDecidableEq := inferInstance
  toDecidableLT := inferInstance

/-- `std::numeric_limits<uint32_t>::max()`. -/
def uint32Max : Word := 0xFFFFFFFF

theorem toNat_uint32Max : uint32Max.toNat = 2 ^ 32 - 1 := rfl

/-! ## `config.hpp` -/

/-- `SYNTH_NUM_VOICES` (line 5). -/
abbrev synthNumVoices : ℕ := 4

instance : NeZero synthNumVoices := ⟨by decide⟩

/-- `SYNTH_NOTE_EVENT_QUEUE_SIZE` (line 21). -/
abbrev synthNoteEventQueueSize : ℕ := 32

/-! ## Errors -/

/-- The asserts of the modelled functions, and an array index out of range. -/
inductive Fault
  /-- `assert(note != kFreeNote)` (`note_scheduler.cpp` lines 4 and 49). -/
  | noteIsFree
  /-- `assert(ch < m_num_channels)` (`pwm_generator.cpp` line 74). -/
  | channelRange
  /-- `assert(m_num_channels <= kMaxNumChannels)` (`pwm_generator.cpp` line 32). -/
  | numChannelsRange
  /-- `m_voices[i]` with `i ≥ SYNTH_NUM_VOICES`. -/
  | voiceIndex
  /-- `assert(ok = pdPASS)` (`main.cpp` line 51). -/
  | queueSend
  /-- `port->AFR[i]` with `i ≥ 2`. -/
  | afrIndex
  deriving DecidableEq, Repr

end StepperSynth
