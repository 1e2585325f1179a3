import StepperSynth.Common.Stutter
import StepperSynth.Synth.EndToEnd

/-!
# The tasks do what the synthesizer does

The two tasks with their queue, against the synthesizer that handles each packet at once.
What the host, `usbMidiTask` and the queue do does not reach the voices and the timer, and
each event that `noteHandlerTask` handles is a packet for the synthesizer. On both
sides an event is handled in one step, with no interrupt inside.

* `parsePacket_packetOf`: an event is parsed from the packet that is made of it.
* `inputOf`, `stutters`: what an action is for the synthesizer.
* `tasks_refine_synth`: a run of the tasks is a run of the synthesizer.
-/

namespace StepperSynth

open Common MIDI

/-! ## Packets of events -/

/-- A packet that is parsed to the event. -/
def packetOf (event : NoteEvent) : Packet :=
  match event.kind with
  | .kNoteOn => ![kCinNoteOn, 0x90, event.note, event.velocity]
  | .kNoteOff => ![kCinNoteOff, 0x80, event.note, event.velocity]
  | .kNone => ![0, 0, 0, 0]

theorem and_kDataMask_twice (b : Byte) : b &&& kDataMask &&& kDataMask = b &&& kDataMask := by
  rw [BitVec.and_assoc, BitVec.and_self]

theorem parsePacket_noteOff (note velo : Byte) :
    parsePacket (packetOf ⟨.kNoteOff, note &&& kDataMask, velo &&& kDataMask⟩) =
      ⟨.kNoteOff, note &&& kDataMask, velo &&& kDataMask⟩ := by
  have hcin : kCinNoteOff &&& kCinMask = kCinNoteOff := by decide
  have hne : kCinNoteOff ≠ kCinNoteOn := by decide
  simp [parsePacket, packetOf, hcin, hne, and_kDataMask_twice]

theorem parsePacket_noteOn {note velo : Byte} (hvelo : velo &&& kDataMask ≠ 0) :
    parsePacket (packetOf ⟨.kNoteOn, note &&& kDataMask, velo &&& kDataMask⟩) =
      ⟨.kNoteOn, note &&& kDataMask, velo &&& kDataMask⟩ := by
  have hcin : kCinNoteOn &&& kCinMask = kCinNoteOn := by decide
  simpa [parsePacket, packetOf, hcin, and_kDataMask_twice] using hvelo

/-- Parsing gives an event back. -/
theorem parsePacket_packetOf (packet : Packet) :
    parsePacket (packetOf (parsePacket packet)) = parsePacket packet := by
  by_cases hon : packet 0 &&& kCinMask = kCinNoteOn
  · by_cases hvelo : packet 3 &&& kDataMask = 0
    · have h : parsePacket packet =
          ⟨.kNoteOff, packet 2 &&& kDataMask, packet 3 &&& kDataMask⟩ := by
        simp only [parsePacket, if_pos hon, if_pos hvelo]
      rw [h, parsePacket_noteOff]
    · have h : parsePacket packet =
          ⟨.kNoteOn, packet 2 &&& kDataMask, packet 3 &&& kDataMask⟩ := by
        simp only [parsePacket, if_pos hon, if_neg hvelo]
      rw [h, parsePacket_noteOn hvelo]
  · by_cases hoff : packet 0 &&& kCinMask = kCinNoteOff
    · have h : parsePacket packet =
          ⟨.kNoteOff, packet 2 &&& kDataMask, packet 3 &&& kDataMask⟩ := by
        simp only [parsePacket, if_neg hon, if_pos hoff]
      rw [h, parsePacket_noteOff]
    · have h : parsePacket packet = ⟨.kNone, 0, 0⟩ := by
        simp only [parsePacket, if_neg hon, if_neg hoff]
      rw [h]
      rfl

/-! ## One action -/

/-- What an action is for the synthesizer. -/
def inputOf (s : Tasks) : Action → Option Input
  | .timer .tick => some .tick
  | .timer .isr => some .isr
  | .noteHandler =>
    match s.noteHandler with
    | .receive => none
    | .handle event => some (.packet (packetOf event))
  | .usbMidi => none
  | .host _ => none

section Refinement

variable {api : QueueApi} {T : Byte → Word} {s s' : Tasks} {a : Action} {packets : List Packet}

/-- The event that is being handled has been parsed from a packet. -/
theorem SystemInv.parsed_of_handle (h : SystemInv api T packets s) {event : NoteEvent}
    (hpc : s.noteHandler = .handle event) :
    ∃ packet, parsePacket packet = event ∧ event.kind ≠ .kNone := by
  obtain ⟨handled, hreceived, -⟩ := h.handled
  have hmem : event ∈ noteEvents packets := by
    refine h.received_sublist.subset (List.mem_append_left _ ?_)
    rw [hreceived, hpc]
    exact List.mem_append_right _ List.mem_cons_self
  obtain ⟨hparsed, hkind⟩ := List.mem_filter.mp hmem
  obtain ⟨packet, -, hpacket⟩ := List.mem_map.mp hparsed
  exact ⟨packet, hpacket, of_decide_eq_true hkind⟩

/-- What does not reach the synthesizer leaves it alone. -/
theorem ctx_of_none (hs : Steps api T s a s') (hnone : inputOf s a = none) : s'.ctx = s.ctx := by
  cases hs with
  | handle hpc he =>
    rw [inputOf, hpc] at hnone
    cases hnone
  | timer i => cases i <;> cases hnone
  | _ => rfl

/-- What reaches it is a step of the synthesizer. -/
theorem synthStep_of_some (h : SystemInv api T packets s) (hs : Steps api T s a s') {input : Input}
    (hsome : inputOf s a = some input) : synthStep T s.ctx input = .ok s'.ctx := by
  cases hs with
  | @handle event ctx hpc he =>
    rw [inputOf, hpc] at hsome
    cases hsome
    obtain ⟨packet, rfl, -⟩ := h.parsed_of_handle hpc
    show noteHandler T s.ctx (parsePacket (packetOf (parsePacket packet))) = .ok ctx
    rw [parsePacket_packetOf, he]
  | wait hpc hq =>
    rw [inputOf, hpc] at hsome
    cases hsome
  | receive hpc hq =>
    rw [inputOf, hpc] at hsome
    cases hsome
  | timer i =>
    cases i with
    | tick =>
      cases hsome
      rfl
    | isr =>
      cases hsome
      rfl
  | _ => cases hsome

theorem stutters (api : QueueApi) (T : Byte → Word) :
    Stutters (taskStep api T) (synthStep T) Tasks.ctx inputOf
      fun s => ∃ packets, SystemInv api T packets s where
  keeps := by
    rintro s a ⟨packets, h⟩
    obtain ⟨s', hstep, h'⟩ := systemInv_step h a
    exact ⟨s', hstep, _, h'⟩
  rests := fun s a s' _ hstep hnone => ctx_of_none (steps_of_taskStep hstep) hnone
  moves := by
    rintro s a s' input ⟨packets, h⟩ hstep hsome
    exact synthStep_of_some h (steps_of_taskStep hstep) hsome

/-! ## Runs -/

/-- The tick or the `isr` run of an action. -/
def Action.interference : Action → Option Interference
  | .timer i => some i
  | _ => none

def Input.interference : Input → Option Interference
  | .tick => some .tick
  | .isr => some .isr
  | .packet _ => none

def Input.usbPacket : Input → Option Packet
  | .packet p => some p
  | _ => none

theorem inputOf_interference (s : Tasks) (a : Action) :
    (inputOf s a).toList.filterMap Input.interference = (Action.interference a).toList := by
  cases a with
  | timer i => cases i <;> rfl
  | noteHandler =>
    unfold inputOf
    cases s.noteHandler <;> rfl
  | _ => rfl

/-- Ticks and `isr` runs reach the synthesizer, in order. -/
theorem seen_interference (h : SystemInv api T packets s) (actions : List Action) :
    (seen (taskStep api T) inputOf s actions).filterMap Input.interference =
      actions.filterMap Action.interference := by
  induction actions generalizing s packets with
  | nil => rfl
  | cons a actions ih =>
    obtain ⟨s', hstep, h'⟩ := systemInv_step h a
    rw [seen_cons hstep, List.filterMap_append, ih h', inputOf_interference, List.filterMap_cons]
    cases a.interference <;> rfl

/-- What an action does to the events that have been handled. -/
theorem received_inputOf (h : SystemInv api T packets s) (hs : Steps api T s a s')
    {handled : List NoteEvent} (hreceived : s.received = handled ++ s.noteHandler.event) :
    s'.received = handled ++ noteEvents ((inputOf s a).toList.filterMap Input.usbPacket) ++
      s'.noteHandler.event := by
  cases hs with
  | @handle event ctx hpc he =>
    obtain ⟨packet, rfl, hkind⟩ := h.parsed_of_handle hpc
    rw [hpc] at hreceived
    rw [inputOf, hpc]
    show s.received = handled ++ noteEvents [packetOf (parsePacket packet)] ++ []
    have hevent : noteEvents [packetOf (parsePacket packet)] = [parsePacket packet] := by
      simp [noteEvents, parsePacket_packetOf, hkind]
    rw [hevent, List.append_nil]
    exact hreceived
  | wait hpc hq =>
    rw [inputOf, hpc]
    rw [hpc] at hreceived
    simpa [noteEvents, hpc] using hreceived
  | receive hpc hq =>
    rw [hpc] at hreceived
    rw [inputOf, hpc]
    simpa [noteEvents, NoteHandlerTask.event] using hreceived
  | timer i =>
    have hnone : (inputOf s (.timer i)).toList.filterMap Input.usbPacket = [] := by
      cases i <;> rfl
    rw [hnone]
    simpa [noteEvents] using hreceived
  | _ => simpa [inputOf, noteEvents] using hreceived

theorem seen_events (h : SystemInv api T packets s) {handled : List NoteEvent}
    (hreceived : s.received = handled ++ s.noteHandler.event) {actions : List Action}
    (hrun : run (taskStep api T) s actions = .ok s') :
    s'.received = handled ++
      noteEvents ((seen (taskStep api T) inputOf s actions).filterMap Input.usbPacket) ++
        s'.noteHandler.event := by
  induction actions generalizing s packets handled with
  | nil =>
    cases hrun
    rw [hreceived]
    simp [seen, noteEvents]
  | cons a actions ih =>
    obtain ⟨s₁, hstep, h₁⟩ := systemInv_step h a
    rw [run_cons_ok hstep] at hrun
    have hreceived₁ := received_inputOf h (steps_of_taskStep hstep) hreceived
    rw [ih h₁ hreceived₁ hrun, seen_cons hstep, List.filterMap_append, noteEvents_concat,
      ← List.append_assoc handled]

end Refinement

/-- **The tasks do what the synthesizer does.** After every interleaving of packets of the
    host, steps of the tasks, ticks and `isr` runs, with no interrupt inside the handling of
    an event, the voices and the timer are as after a run of the synthesizer without tasks
    and queue, in which the same ticks and `isr` runs come in the same order, and the packets
    between them give exactly the events that the handler has handled. -/
theorem tasks_refine_synth (api : QueueApi) (notePeriodUs12tet : Byte → Word) {tim : Tim}
    {gpio gpio' : Gpio} {clock : Word} {pins : Ch → Pin} {g : PWMGenerator}
    (hmake : PWMGenerator.make tim gpio clock pins synthNumVoices = .ok (g, gpio'))
    (hdier : tim.dier = 0) (hccer : tim.ccer = 0) (actions : List Action) :
    ∃ s inputs, run (taskStep api notePeriodUs12tet) (taskInit g) actions = .ok s ∧
      run (synthStep notePeriodUs12tet) ⟨{}, g⟩ inputs = .ok s.ctx ∧
      inputs.filterMap Input.interference = actions.filterMap Action.interference ∧
      s.received = noteEvents (inputs.filterMap Input.usbPacket) ++ s.noteHandler.event := by
  have hinit := systemInv_init api notePeriodUs12tet (coupled_init _ hmake hdier hccer)
  obtain ⟨s, hrun, -, hinner⟩ := (stutters api notePeriodUs12tet).run ⟨[], hinit⟩ actions
  have hevents := seen_events hinit (show (taskInit g).received = [] ++ [] from rfl) hrun
  exact ⟨s, _, hrun, hinner, seen_interference hinit actions, hevents⟩

/-- A tick comes while the packet is parsed, and one before it is handled. -/
theorem tasks_refine_synth_one :
    ∃ s inputs, run (taskStep freeRTOS fun _ => 1000) (taskInit PWMGenerator.mainInit)
        [.host ![0x09, 0x90, 60, 100], .usbMidi, .timer .tick, .usbMidi, .usbMidi, .noteHandler,
          .timer .tick, .noteHandler, .timer .isr] = .ok s ∧
      run (synthStep fun _ => 1000) ⟨{}, PWMGenerator.mainInit⟩ inputs = .ok s.ctx ∧
      inputs.filterMap Input.interference = [.tick, .tick, .isr] ∧
      s.received = noteEvents (inputs.filterMap Input.usbPacket) ++ s.noteHandler.event := by
  obtain ⟨gpio', hmake⟩ := PWMGenerator.make_main fun _ => ⟨0, 0, 0, fun _ => 0⟩
  exact tasks_refine_synth freeRTOS _ hmake rfl rfl _

end StepperSynth
