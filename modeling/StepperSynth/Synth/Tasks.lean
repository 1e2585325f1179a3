import StepperSynth.Common.Fifo
import StepperSynth.Pwm.Enabling
import StepperSynth.Synth.Sounding

/-!
# The two tasks

Model of `usbMidiTask` and `noteHandlerTask` (`main.cpp`) as they interleave: the
first reads packets and sends their note events to a queue, the second receives
and handles them. A step of a task is one of the operations between which the
other task may run. The handling of an event is one step: the timer and its interrupt
come before it or after it, not inside `setChannelPeriod`.

* `QueueApi`: what FreeRTOS returns.
* `TaskInv`, `taskInv_step`: the queue delivers what it accepted, and no assert
  fails, not even the one after a send that found the queue full:
  `assert(ok = pdPASS)` assigns.
* `events_kept_iff`: in every run, exactly when no event has been lost.
-/

namespace StepperSynth

open Common MIDI

/-! ## Model -/

/-- The results of a FreeRTOS queue operation, a nonzero one for success. -/
structure QueueApi where
  pdPASS : ℤ
  errQueueFull : ℤ
  pass_ne_zero : pdPASS ≠ 0
  full_ne_pass : errQueueFull ≠ pdPASS

/-- The values of FreeRTOS: `pdTRUE` and `pdFALSE`. -/
def freeRTOS : QueueApi where
  pdPASS := 1
  errQueueFull := 0
  pass_ne_zero := by decide
  full_ne_pass := by decide

/-- `xQueueSend` with timeout 0 on a queue of `SYNTH_NOTE_EVENT_QUEUE_SIZE`. -/
def xQueueSend (api : QueueApi) (queue : List NoteEvent) (event : NoteEvent) :
    List NoteEvent × ℤ :=
  let r := push synthNoteEventQueueSize queue event
  (r.1, if r.2 then api.pdPASS else api.errQueueFull)

/-- Where `usbMidiTask` is in its inner loop (`main.cpp` lines 44–51), with its
    local variables and, after a send, the number of events the queue held. -/
inductive UsbMidiTask
  | read
  | parse (packet : Packet)
  | send (event : NoteEvent)
  | check (event : NoteEvent) (ok : ℤ) (queued : ℕ)

/-- Where `noteHandlerTask` is in its loop (lines 76–91). -/
inductive NoteHandlerTask
  | receive
  | handle (event : NoteEvent)

/-- Both tasks, the packets that wait in the USB stack, and the queue. The last
    three fields are a record of the past: the packets parsed, the events sent
    and checked, each with the number of events the queue held at the call, and
    the events received. -/
structure Tasks where
  rx : List Packet
  queue : List NoteEvent
  usbMidi : UsbMidiTask
  noteHandler : NoteHandlerTask
  ctx : NoteHandlerTaskContext
  parsed : List Packet
  sends : List (NoteEvent × ℕ)
  received : List NoteEvent

/-- A step of `usbMidiTask`. -/
def usbMidiStep (api : QueueApi) (s : Tasks) : Except Fault Tasks :=
  match s.usbMidi with
  | .read =>
    match s.rx with
    | [] => .ok s
    | packet :: rx => .ok { s with rx, usbMidi := .parse packet }
  | .parse packet =>
    let event := parsePacket packet
    .ok { s with
      parsed := s.parsed ++ [packet]
      usbMidi := if event.kind = .kNone then .read else .send event }
  | .send event =>
    let r := xQueueSend api s.queue event
    .ok { s with queue := r.1, usbMidi := .check event r.2 s.queue.length }
  | .check event _ queued =>
    -- the argument of the assert is an assignment: whatever `ok` was, it is `pdPASS` now
    let ok := api.pdPASS
    if ok ≠ 0 then .ok { s with usbMidi := .read, sends := s.sends ++ [(event, queued)] }
    else .error .queueSend

/-- A step of `noteHandlerTask`. It waits while the queue is empty, so the
    receive returns `pdPASS`. An event is handled in one step, with no interrupt inside. -/
def noteHandlerStep (notePeriodUs12tet : Byte → Word) (s : Tasks) : Except Fault Tasks :=
  match s.noteHandler with
  | .receive =>
    match s.queue with
    | [] => .ok s
    | event :: queue =>
      .ok { s with queue, noteHandler := .handle event, received := s.received ++ [event] }
  | .handle event =>
    match noteHandler notePeriodUs12tet s.ctx event with
    | .error e => .error e
    | .ok ctx => .ok { s with ctx, noteHandler := .receive }

/-- What can happen next. -/
inductive Action
  | host (packet : Packet)
  | usbMidi
  | noteHandler
  | timer (i : Interference)

/-- One action. -/
def taskStep (api : QueueApi) (notePeriodUs12tet : Byte → Word) (s : Tasks) :
    Action → Except Fault Tasks
  | .host packet => .ok { s with rx := s.rx ++ [packet] }
  | .usbMidi => usbMidiStep api s
  | .noteHandler => noteHandlerStep notePeriodUs12tet s
  | .timer i => .ok { s with
      ctx := { s.ctx with pwmGenerator := s.ctx.pwmGenerator.interfere i } }

/-- The tasks when the scheduler of FreeRTOS starts. -/
def taskInit (g : PWMGenerator) : Tasks where
  rx := []
  queue := []
  usbMidi := .read
  noteHandler := .receive
  ctx := ⟨{}, g⟩
  parsed := []
  sends := []
  received := []

/-! ## The invariant -/

/-- The note events of packets. -/
def noteEvents (packets : List Packet) : List NoteEvent :=
  (packets.map parsePacket).filter fun event => event.kind ≠ .kNone

namespace UsbMidiTask

/-- The event parsed and not yet sent and checked. -/
def inProgress : UsbMidiTask → List NoteEvent
  | read => []
  | parse _ => []
  | send event => [event]
  | check event _ _ => [event]

/-- The send that is not checked yet. -/
def offer : UsbMidiTask → List (NoteEvent × ℕ)
  | check event _ queued => [(event, queued)]
  | _ => []

/-- The event that is in the queue although its send is not checked yet. -/
def unchecked (api : QueueApi) : UsbMidiTask → List NoteEvent
  | check event ok _ => if ok = api.pdPASS then [event] else []
  | _ => []

end UsbMidiTask

/-- The event that is being handled. -/
def NoteHandlerTask.event : NoteHandlerTask → List NoteEvent
  | receive => []
  | handle event => [event]

/-- What holds between any two steps. -/
structure TaskInv (api : QueueApi) (s : Tasks) : Prop where
  num : s.ctx.pwmGenerator.mNumChannels = synthNumVoices
  notes : ∀ event, event ∈ s.usbMidi.inProgress ∨ event ∈ s.queue ∨ event ∈ s.noteHandler.event →
    event.note ≠ kFreeNote
  parsed : noteEvents s.parsed = s.sends.map Prod.fst ++ s.usbMidi.inProgress
  delivers : Delivers synthNoteEventQueueSize (s.sends ++ s.usbMidi.offer) s.received s.queue
  checked : ∀ event ok queued, s.usbMidi = .check event ok queued →
    (ok = api.pdPASS ↔ queued < synthNoteEventQueueSize)

theorem taskInv_init (api : QueueApi) {g : PWMGenerator} (hnum : g.mNumChannels = synthNumVoices) :
    TaskInv api (taskInit g) where
  num := hnum
  notes event h := by simp [taskInit, UsbMidiTask.inProgress, NoteHandlerTask.event] at h
  parsed := rfl
  delivers := delivers_nil _
  checked _ _ _ h := by cases h

section Steps

variable {api : QueueApi} {s : Tasks}

theorem xQueueSend_ok (api : QueueApi) (queue : List NoteEvent) (event : NoteEvent) :
    (xQueueSend api queue event).2 = api.pdPASS ↔ queue.length < synthNoteEventQueueSize := by
  unfold xQueueSend push
  by_cases h : queue.length < synthNoteEventQueueSize
  · simp [h]
  · simp [h, api.full_ne_pass]

theorem mem_push {cap : ℕ} {queue : List NoteEvent} {x event : NoteEvent}
    (h : event ∈ (push cap queue x).1) : event ∈ queue ∨ event = x := by
  unfold push at h
  split_ifs at h
  · simpa using h
  · exact Or.inl h

theorem noteEvents_append (packets : List Packet) (packet : Packet) :
    noteEvents (packets ++ [packet]) = noteEvents packets ++
      if (parsePacket packet).kind = .kNone then [] else [parsePacket packet] := by
  unfold noteEvents
  rw [List.map_append, List.filter_append]
  by_cases h : (parsePacket packet).kind = .kNone <;> simp [h]

/-! ### The steps of `usbMidiTask` -/

theorem taskInv_read (h : TaskInv api s) (hpc : s.usbMidi = .read) :
    ∃ s', usbMidiStep api s = .ok s' ∧ TaskInv api s' := by
  obtain ⟨hnum, hnotes, hparsed, hdelivers, hchecked⟩ := h
  unfold usbMidiStep
  rw [hpc] at hnotes hparsed hdelivers ⊢
  cases s.rx with
  | nil => exact ⟨s, rfl, hnum, by rwa [hpc], by rwa [hpc], by rwa [hpc], hchecked⟩
  | cons packet rx => exact ⟨_, rfl, hnum, hnotes, hparsed, hdelivers, nofun⟩

theorem taskInv_parse (h : TaskInv api s) {packet : Packet} (hpc : s.usbMidi = .parse packet) :
    ∃ s', usbMidiStep api s = .ok s' ∧ TaskInv api s' := by
  obtain ⟨hnum, hnotes, hparsed, hdelivers, -⟩ := h
  unfold usbMidiStep
  rw [hpc] at hnotes hparsed hdelivers ⊢
  have hsends : noteEvents s.parsed = s.sends.map Prod.fst := by
    simpa [UsbMidiTask.inProgress] using hparsed
  refine ⟨_, rfl, hnum, ?_, ?_, ?_, ?_⟩
  · intro event hevent
    by_cases hkind : (parsePacket packet).kind = .kNone
    · simp only [hkind, if_true] at hevent
      exact hnotes event hevent
    · simp only [hkind, if_false] at hevent
      rcases hevent with hevent | hevent
      · rw [List.mem_singleton.mp hevent]
        exact note_ne_kFreeNote (parsePacket_note_lt packet)
      · exact hnotes event (Or.inr hevent)
  · show noteEvents (s.parsed ++ [packet]) = _
    rw [noteEvents_append, hsends]
    split_ifs <;> rfl
  · show Delivers _ (s.sends ++ UsbMidiTask.offer (if _ then _ else _)) _ _
    split_ifs <;> exact hdelivers
  · intro event ok queued hcheck
    simp only at hcheck
    split_ifs at hcheck

/-- A send is an offer to the queue, and its result says whether there was room. -/
theorem taskInv_send (h : TaskInv api s) {event : NoteEvent} (hpc : s.usbMidi = .send event) :
    ∃ s', usbMidiStep api s = .ok s' ∧ TaskInv api s' := by
  obtain ⟨hnum, hnotes, hparsed, hdelivers, -⟩ := h
  unfold usbMidiStep
  rw [hpc] at hnotes hparsed hdelivers ⊢
  refine ⟨_, rfl, hnum, ?_, hparsed, ?_, ?_⟩
  · intro e he
    rcases he with he | he | he
    · exact hnotes e (Or.inl he)
    · rcases mem_push he with he | he
      · exact hnotes e (Or.inr (Or.inl he))
      · exact hnotes e (Or.inl (List.mem_singleton.mpr he))
    · exact hnotes e (Or.inr (Or.inr he))
  · have hoffers : s.sends ++ UsbMidiTask.offer (.send event) = s.sends := List.append_nil _
    rw [hoffers] at hdelivers
    exact hdelivers.push event
  · intro e ok queued hcheck
    cases hcheck
    exact xQueueSend_ok api s.queue event

/-- The assert after a send never fails, whatever the send returned. -/
theorem taskInv_check (h : TaskInv api s) {event : NoteEvent} {ok : ℤ} {queued : ℕ}
    (hpc : s.usbMidi = .check event ok queued) :
    ∃ s', usbMidiStep api s = .ok s' ∧ TaskInv api s' := by
  obtain ⟨hnum, hnotes, hparsed, hdelivers, -⟩ := h
  unfold usbMidiStep
  rw [hpc] at hnotes hparsed hdelivers ⊢
  simp only [api.pass_ne_zero, ne_eq, not_false_eq_true, if_true]
  refine ⟨_, rfl, hnum, ?_, ?_, ?_, nofun⟩
  · intro e he
    rcases he with he | he
    · cases he
    · exact hnotes e (Or.inr he)
  · show noteEvents s.parsed = (s.sends ++ [(event, queued)]).map Prod.fst ++ []
    rw [hparsed, List.map_append, List.append_nil]
    rfl
  · show Delivers _ ((s.sends ++ [(event, queued)]) ++ []) _ _
    rw [List.append_nil]
    exact hdelivers

theorem taskInv_usbMidi (h : TaskInv api s) :
    ∃ s', usbMidiStep api s = .ok s' ∧ TaskInv api s' := by
  cases hpc : s.usbMidi with
  | read => exact taskInv_read h hpc
  | parse packet => exact taskInv_parse h hpc
  | send event => exact taskInv_send h hpc
  | check event ok queued => exact taskInv_check h hpc

/-! ### The steps of `noteHandlerTask`, and all actions -/

theorem taskInv_noteHandler (T : Byte → Word) (h : TaskInv api s) :
    ∃ s', noteHandlerStep T s = .ok s' ∧ TaskInv api s' := by
  unfold noteHandlerStep
  obtain ⟨hnum, hnotes, hparsed, hdelivers, hchecked⟩ := h
  cases hpc : s.noteHandler with
  | receive =>
    rw [hpc] at hnotes
    cases hq : s.queue with
    | nil => exact ⟨s, rfl, hnum, by rwa [hpc], hparsed, hdelivers, hchecked⟩
    | cons event queue =>
      rw [hq] at hnotes hdelivers
      refine ⟨_, rfl, hnum, ?_, hparsed, hdelivers.pop, hchecked⟩
      intro e he
      rcases he with he | he | he
      · exact hnotes e (Or.inl he)
      · exact hnotes e (Or.inr (Or.inl (List.mem_cons_of_mem _ he)))
      · rw [List.mem_singleton.mp he]
        exact hnotes event (Or.inr (Or.inl List.mem_cons_self))
  | handle event =>
    rw [hpc] at hnotes
    have hnote : event.note ≠ kFreeNote :=
      hnotes event (Or.inr (Or.inr (List.mem_singleton.mpr rfl)))
    obtain ⟨ctx, he, hnum', -⟩ := noteHandler_call (T := T) hnum hnote
    simp only [he]
    refine ⟨_, rfl, hnum', ?_, hparsed, hdelivers, hchecked⟩
    intro e he
    rcases he with he | he | he
    · exact hnotes e (Or.inl he)
    · exact hnotes e (Or.inr (Or.inl he))
    · cases he

/-- No action stops the system in a failed assert, and the queue delivers what it
    accepted. -/
theorem taskInv_step (api : QueueApi) (T : Byte → Word) (s : Tasks) (a : Action)
    (h : TaskInv api s) : ∃ s', taskStep api T s a = .ok s' ∧ TaskInv api s' := by
  cases a with
  | host packet => exact ⟨_, rfl, h.num, h.notes, h.parsed, h.delivers, h.checked⟩
  | usbMidi => exact taskInv_usbMidi h
  | noteHandler => exact taskInv_noteHandler T h
  | timer i =>
    refine ⟨_, rfl, ?_, h.notes, h.parsed, h.delivers, h.checked⟩
    cases i with
    | tick => exact h.num
    | isr => exact (s.ctx.pwmGenerator.isr_frame).num.trans h.num

/-- The events received, those queued, and the unchecked one among them. -/
theorem TaskInv.received_queue (h : TaskInv api s) :
    s.received ++ s.queue =
      accepted synthNoteEventQueueSize s.sends ++ s.usbMidi.unchecked api := by
  have hd : s.received ++ s.queue =
      accepted synthNoteEventQueueSize (s.sends ++ s.usbMidi.offer) := h.delivers
  rw [hd]
  cases hpc : s.usbMidi with
  | read => simp [UsbMidiTask.offer, UsbMidiTask.unchecked]
  | parse packet => simp [UsbMidiTask.offer, UsbMidiTask.unchecked]
  | send event => simp [UsbMidiTask.offer, UsbMidiTask.unchecked]
  | check event ok queued =>
    have hok := h.checked event ok queued hpc
    show accepted _ (s.sends ++ [(event, queued)]) = _
    rw [accepted_append]
    unfold UsbMidiTask.unchecked
    simp only [hok]

end Steps

/-! ## Runs -/

/-- **When no event is lost.** For every stream of packets and every interleaving
    of the tasks and the timer, the system does not stop in a failed assert; the
    events sent and checked, with the one in progress, are the note events of the
    packets parsed; and the events received followed by those queued are exactly
    the events sent and checked, in order, if and only if every `xQueueSend` of
    them found fewer than `SYNTH_NOTE_EVENT_QUEUE_SIZE` events in the queue. (An
    event whose send is not checked yet may be at the end of the queue.) -/
theorem events_kept_iff (api : QueueApi) (notePeriodUs12tet : Byte → Word) {g : PWMGenerator}
    (hnum : g.mNumChannels = synthNumVoices) (actions : List Action) :
    ∃ s, run (taskStep api notePeriodUs12tet) (taskInit g) actions = .ok s ∧
      noteEvents s.parsed = s.sends.map Prod.fst ++ s.usbMidi.inProgress ∧
      (s.received ++ s.queue = s.sends.map Prod.fst ++ s.usbMidi.unchecked api ↔
        ∀ o ∈ s.sends, o.2 < synthNoteEventQueueSize) := by
  obtain ⟨s, hrun, h⟩ := run_invariant (fun s a _ h => taskInv_step api notePeriodUs12tet s a h)
    (taskInv_init api hnum) actions (fun _ _ => trivial)
  refine ⟨s, hrun, h.parsed, ?_⟩
  rw [h.received_queue, List.append_cancel_right_eq]
  exact accepted_eq_iff _ _

/-- One packet is read, sent and received. -/
theorem events_kept_one :
    ∃ s, run (taskStep freeRTOS fun _ => 1000) (taskInit PWMGenerator.mainInit)
        [.host ![0x09, 0x90, 60, 100], .usbMidi, .usbMidi, .timer .tick, .usbMidi, .usbMidi,
          .noteHandler, .noteHandler] = .ok s ∧
      noteEvents s.parsed = s.sends.map Prod.fst ++ s.usbMidi.inProgress ∧
      (s.received ++ s.queue = s.sends.map Prod.fst ++ s.usbMidi.unchecked freeRTOS ↔
        ∀ o ∈ s.sends, o.2 < synthNoteEventQueueSize) :=
  events_kept_iff freeRTOS _ rfl _

/-- A burst of `n` note-ons of note 60 that `usbMidiTask` reads and sends while
    `noteHandlerTask` does not run. -/
def burst (n : ℕ) : List Action :=
  List.replicate n (.host ![0x09, 0x90, 60, 100]) ++ List.replicate (4 * n) .usbMidi

set_option maxRecDepth 8000 in
/-- **A lost event.** The last note-on of a burst of 33 finds the queue full. Its
    assert passes, and it is not in the queue. -/
theorem events_lost :
    ∃ s, run (taskStep freeRTOS fun _ => 1000) (taskInit PWMGenerator.mainInit) (burst 33) = .ok s ∧
      s.usbMidi = .read ∧ s.sends.length = 33 ∧ s.queue.length = 32 ∧
      s.received ++ s.queue ≠ s.sends.map Prod.fst := by
  refine ⟨_, rfl, rfl, rfl, rfl, ?_⟩
  intro h
  have := congrArg List.length h
  revert this
  decide

end StepperSynth
