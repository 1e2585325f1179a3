import StepperSynth.Basic

/-!
# USB-MIDI packets

Model of `MIDI::parsePacket` (`midi.cpp`). A packet is any four bytes, so the
parser is total; `assert(packet)` excludes a null pointer, which the type does.

* `parsePacket_note_lt`: a note on or off carries a 7-bit note.
* `parsePacket_isNote_iff`: exactly the two note code index numbers give an event.
* `parsePacket_noteOn_iff`: a note on has a nonzero velocity; with velocity 0
  it counts as a note off.
-/

namespace StepperSynth.MIDI

/-- `kCinNoteOn` (`midi.hpp` line 6). -/
def kCinNoteOn : Byte := 0x09

/-- `kCinNoteOff` (`midi.hpp` line 6). -/
def kCinNoteOff : Byte := 0x08

/-- `kCinMask` (`midi.hpp` line 8). -/
def kCinMask : Byte := 0x0F

/-- `kDataMask` (`midi.hpp` line 9). -/
def kDataMask : Byte := 0x7F

/-- `kPacketLen` (`midi.hpp` line 10). -/
abbrev kPacketLen : ℕ := 4

/-- The anonymous enumeration of `NoteEvent::kind`. -/
inductive Kind
  | kNoteOn
  | kNoteOff
  | kNone
  deriving DecidableEq, Repr

/-- `MIDI::NoteEvent`. -/
structure NoteEvent where
  kind : Kind
  note : Byte
  velocity : Byte
  deriving DecidableEq, Repr

/-- `uint8_t packet[kPacketLen]`. -/
abbrev Packet := Fin kPacketLen → Byte

/-- Model of `MIDI::parsePacket` (`midi.cpp` lines 5–28). -/
def parsePacket (packet : Packet) : NoteEvent :=
  let cin := packet 0 &&& kCinMask
  if cin = kCinNoteOn then
    let note := packet 2 &&& kDataMask
    let velo := packet 3 &&& kDataMask
    if velo = 0 then ⟨.kNoteOff, note, velo⟩ else ⟨.kNoteOn, note, velo⟩
  else if cin = kCinNoteOff then
    let note := packet 2 &&& kDataMask
    let velo := packet 3 &&& kDataMask
    ⟨.kNoteOff, note, velo⟩
  else ⟨.kNone, 0, 0⟩

theorem and_kDataMask_lt (b : Byte) : b &&& kDataMask < 128 := by
  rw [BitVec.lt_def, BitVec.toNat_and]
  exact Nat.lt_of_le_of_lt Nat.and_le_right (by decide)

/-- Every parsed note is in `0 … 127`. -/
theorem parsePacket_note_lt (packet : Packet) : (parsePacket packet).note < 128 := by
  unfold parsePacket
  simp only
  split_ifs
  · exact and_kDataMask_lt _
  · exact and_kDataMask_lt _
  · exact and_kDataMask_lt _
  · decide

/-- Exactly the packets with a note code index number give an event. -/
theorem parsePacket_isNote_iff (packet : Packet) :
    (parsePacket packet).kind ≠ .kNone ↔
      packet 0 &&& kCinMask = kCinNoteOn ∨ packet 0 &&& kCinMask = kCinNoteOff := by
  unfold parsePacket
  simp only
  split_ifs with h1 h2 h3 <;> simp_all

/-- The note of an event is in the third byte. -/
theorem parsePacket_note {packet : Packet} (h : (parsePacket packet).kind ≠ .kNone) :
    (parsePacket packet).note = packet 2 &&& kDataMask := by
  unfold parsePacket at *
  simp only at *
  split_ifs at * <;> first | rfl | exact absurd rfl h

/-- A note on is a note-on packet with a nonzero 7-bit velocity. -/
theorem parsePacket_noteOn_iff (packet : Packet) :
    (parsePacket packet).kind = .kNoteOn ↔
      packet 0 &&& kCinMask = kCinNoteOn ∧ packet 3 &&& kDataMask ≠ 0 := by
  unfold parsePacket
  simp only
  split_ifs with h1 h2 h3 <;> simp_all

end StepperSynth.MIDI
