import StepperSynth.Synth.Tasks

/-!
# From the host to the voices

What all the parts do together: the host sends packets, `usbMidiTask` parses and
queues them, `noteHandlerTask` plays them, and the timer ticks and interrupts.

* `Steps`: what an action can do, one case for each.
* `SystemInv`, `systemInv_step`: what holds between any two actions.
* `system_safe`: after every interleaving, the voices play what has been handled, and
  the channels match the voices.
* `nothing_lost`: nothing is lost while at most `SYNTH_NOTE_EVENT_QUEUE_SIZE` events are
  under way.
* `system_drains`: when the host stops, a bounded number of rounds of the two tasks
  plays everything.
-/

namespace StepperSynth

open Common MIDI

/-! ## What a step can do -/

/-- The actions by what they find and what they leave. -/
inductive Steps (api : QueueApi) (T : Byte → Word) (s : Tasks) : Action → Tasks → Prop
  | host (packet) : Steps api T s (.host packet) { s with rx := s.rx ++ [packet] }
  | poll : s.usbMidi = .read → s.rx = [] → Steps api T s .usbMidi s
  | read {packet rx} : s.usbMidi = .read → s.rx = packet :: rx →
      Steps api T s .usbMidi { s with rx, usbMidi := .parse packet }
  | skip {packet} : s.usbMidi = .parse packet → (parsePacket packet).kind = .kNone →
      Steps api T s .usbMidi { s with parsed := s.parsed ++ [packet], usbMidi := .read }
  | parse {packet} : s.usbMidi = .parse packet → (parsePacket packet).kind ≠ .kNone →
      Steps api T s .usbMidi
        { s with parsed := s.parsed ++ [packet], usbMidi := .send (parsePacket packet) }
  | send {event} : s.usbMidi = .send event →
      Steps api T s .usbMidi
        { s with queue := (xQueueSend api s.queue event).1
                 usbMidi := .check event (xQueueSend api s.queue event).2 s.queue.length }
  | check {event ok queued} : s.usbMidi = .check event ok queued →
      Steps api T s .usbMidi { s with usbMidi := .read, sends := s.sends ++ [(event, queued)] }
  | wait : s.noteHandler = .receive → s.queue = [] → Steps api T s .noteHandler s
  | receive {event queue} : s.noteHandler = .receive → s.queue = event :: queue →
      Steps api T s .noteHandler
        { s with queue, noteHandler := .handle event, received := s.received ++ [event] }
  | handle {event ctx} : s.noteHandler = .handle event → noteHandler T s.ctx event = .ok ctx →
      Steps api T s .noteHandler { s with ctx, noteHandler := .receive }
  | timer (i) : Steps api T s (.timer i)
      { s with ctx := { s.ctx with pwmGenerator := s.ctx.pwmGenerator.interfere i } }

section Steps

variable {api : QueueApi} {T : Byte → Word} {s s' : Tasks} {a : Action}

theorem steps_usbMidi (h : usbMidiStep api s = .ok s') : Steps api T s .usbMidi s' := by
  unfold usbMidiStep at h
  cases hpc : s.usbMidi with
  | read =>
    rw [hpc] at h
    cases hrx : s.rx with
    | nil =>
      simp only [hrx] at h
      cases h
      exact .poll hpc hrx
    | cons packet rx =>
      simp only [hrx] at h
      cases h
      exact .read hpc hrx
  | parse packet =>
    rw [hpc] at h
    cases h
    by_cases hkind : (parsePacket packet).kind = .kNone
    · simp only [hkind, if_true]
      exact .skip hpc hkind
    · simp only [hkind, if_false]
      exact .parse hpc hkind
  | send event =>
    rw [hpc] at h
    cases h
    exact .send hpc
  | check event ok queued =>
    rw [hpc] at h
    simp only [api.pass_ne_zero, ne_eq, not_false_eq_true, if_true] at h
    cases h
    exact .check hpc

theorem steps_noteHandler (h : noteHandlerStep T s = .ok s') : Steps api T s .noteHandler s' := by
  unfold noteHandlerStep at h
  cases hpc : s.noteHandler with
  | receive =>
    rw [hpc] at h
    cases hq : s.queue with
    | nil =>
      simp only [hq] at h
      cases h
      exact .wait hpc hq
    | cons event queue =>
      simp only [hq] at h
      cases h
      exact .receive hpc hq
  | handle event =>
    rw [hpc] at h
    cases he : noteHandler T s.ctx event with
    | error e =>
      simp only [he] at h
      cases h
    | ok ctx =>
      simp only [he] at h
      cases h
      exact .handle hpc he

theorem steps_of_taskStep (h : taskStep api T s a = .ok s') : Steps api T s a s' := by
  cases a with
  | host packet => cases h; exact .host packet
  | usbMidi => exact steps_usbMidi h
  | noteHandler => exact steps_noteHandler h
  | timer i => cases h; exact .timer i

end Steps

/-! ## The invariant -/

/-- The packet of the host. -/
def Action.packet : Action → Option Packet
  | .host packet => some packet
  | _ => none

/-- What the host sends, in order. -/
def hostPackets (actions : List Action) : List Packet := actions.filterMap Action.packet

/-- The packet read and not yet parsed. -/
def UsbMidiTask.packet : UsbMidiTask → List Packet
  | .parse packet => [packet]
  | _ => []

/-- The calls that events make, newest first. -/
def calls (events : List NoteEvent) : List Call := (events.filterMap callOf).reverse

/-- Their presses and releases, newest first. -/
def gestures (events : List NoteEvent) : List (Gesture Byte) := (calls events).map Call.gesture

/-- The events handled so far, and where they have brought the scheduler. -/
def Handled (s : Tasks) (handled : List NoteEvent) : Prop :=
  s.received = handled ++ s.noteHandler.event ∧
    (NoteScheduler.Adm (calls handled) → NoteScheduler.Sim (calls handled) s.ctx.noteScheduler
      (lruOf refInit (gestures handled)))

/-- What holds between any two actions, when the host has sent `packets`. -/
structure SystemInv (api : QueueApi) (T : Byte → Word) (packets : List Packet) (s : Tasks) :
    Prop where
  task : TaskInv api s
  coupled : Coupled T s.ctx
  low : ∀ event, event ∈ s.usbMidi.inProgress ∨ event ∈ s.queue ∨ event ∈ s.noteHandler.event →
    event.note < 128
  packets : packets = s.parsed ++ s.usbMidi.packet ++ s.rx
  room : s.queue.length ≤ synthNoteEventQueueSize
  handled : ∃ handled, Handled s handled

section Inv

variable {api : QueueApi} {T : Byte → Word} {s s' : Tasks} {a : Action} {packets : List Packet}

theorem calls_append (events : List NoteEvent) (event : NoteEvent) :
    calls (events ++ [event]) = (callOf event).toList ++ calls events := by
  unfold calls
  rw [List.filterMap_append, List.reverse_append]
  cases hcall : callOf event <;> simp [hcall]

theorem push_length (cap : ℕ) (queue : List NoteEvent) (event : NoteEvent)
    (h : queue.length ≤ cap) : (push cap queue event).1.length ≤ cap := by
  unfold push
  split_ifs with hlt
  · rw [List.length_append, List.length_singleton]
    exact hlt
  · exact h

/-- An event is handled. -/
theorem handled_handle {events : List NoteEvent} {event : NoteEvent} {ctx : NoteHandlerTaskContext}
    (hnum : s.ctx.pwmGenerator.mNumChannels = synthNumVoices) (hnote : event.note < 128)
    (h : Handled s events) (hpc : s.noteHandler = .handle event)
    (he : noteHandler T s.ctx event = .ok ctx) :
    Handled { s with ctx, noteHandler := .receive } (events ++ [event]) := by
  obtain ⟨hreceived, hsim⟩ := h
  refine ⟨?_, fun hadm => ?_⟩
  · show s.received = events ++ [event] ++ []
    rw [hreceived, hpc, List.append_nil]
    rfl
  obtain ⟨ctx', he', -, hcall⟩ := noteHandler_call (T := T) hnum (note_ne_kFreeNote hnote)
  obtain rfl : ctx = ctx' := Except.ok.inj (he.symm.trans he')
  unfold gestures at hsim ⊢
  rw [calls_append] at hadm ⊢
  cases hc : callOf event with
  | none =>
    rw [hc] at hcall hadm
    show NoteScheduler.Sim _ ctx.noteScheduler _
    rw [hcall]
    exact hsim hadm
  | some c =>
    rw [hc] at hcall hadm
    obtain ⟨r, hr⟩ := hcall
    obtain ⟨t, ht, hsim'⟩ := NoteScheduler.sim_call (hsim (NoteScheduler.adm_tail _ _ hadm)) hadm
    rw [hr, Except.ok.injEq, Prod.mk.injEq] at ht
    rw [refResult_gesture, ← ht.1] at hsim'
    exact hsim'

theorem systemInv_usbMidi (h : SystemInv api T packets s) (hs : Steps api T s .usbMidi s')
    (htask : TaskInv api s') : SystemInv api T packets s' := by
  obtain ⟨-, hcoupled, hlow, hpackets, hroom, hhandled⟩ := h
  cases hs with
  | poll hpc hrx => exact ⟨htask, hcoupled, hlow, hpackets, hroom, hhandled⟩
  | read hpc hrx =>
    rw [hpc, hrx] at hpackets
    rw [hpc] at hlow
    exact ⟨htask, hcoupled, hlow, by simpa [UsbMidiTask.packet] using hpackets, hroom, hhandled⟩
  | @skip packet hpc hkind =>
    rw [hpc] at hpackets hlow
    exact ⟨htask, hcoupled, hlow, by simpa [UsbMidiTask.packet] using hpackets, hroom, hhandled⟩
  | @parse packet hpc hkind =>
    rw [hpc] at hpackets hlow
    refine ⟨htask, hcoupled, ?_, by simpa [UsbMidiTask.packet] using hpackets, hroom, hhandled⟩
    rintro event (hevent | hevent)
    · rw [List.mem_singleton.mp hevent]
      exact parsePacket_note_lt packet
    · exact hlow event (Or.inr hevent)
  | @send event hpc =>
    rw [hpc] at hpackets hlow
    refine ⟨htask, hcoupled, ?_, hpackets, push_length _ _ _ hroom, hhandled⟩
    rintro e (he | he | he)
    · exact hlow e (Or.inl he)
    · rcases mem_push he with he | he
      · exact hlow e (Or.inr (Or.inl he))
      · exact hlow e (Or.inl (List.mem_singleton.mpr he))
    · exact hlow e (Or.inr (Or.inr he))
  | check hpc =>
    rw [hpc] at hpackets hlow
    refine ⟨htask, hcoupled, ?_, hpackets, hroom, hhandled⟩
    rintro e (he | he)
    · cases he
    · exact hlow e (Or.inr he)

theorem systemInv_noteHandler (h : SystemInv api T packets s) (hs : Steps api T s .noteHandler s')
    (htask : TaskInv api s') : SystemInv api T packets s' := by
  obtain ⟨htask₀, hcoupled, hlow, hpackets, hroom, handled, hhandled⟩ := h
  cases hs with
  | wait hpc hq => exact ⟨htask, hcoupled, hlow, hpackets, hroom, handled, hhandled⟩
  | @receive event queue hpc hq =>
    rw [hq] at hlow hroom
    refine ⟨htask, hcoupled, ?_, hpackets, Nat.le_of_succ_le hroom, handled, ?_, hhandled.2⟩
    · rintro e (he | he | he)
      · exact hlow e (Or.inl he)
      · exact hlow e (Or.inr (Or.inl (List.mem_cons_of_mem _ he)))
      · rw [List.mem_singleton.mp he]
        exact hlow event (Or.inr (Or.inl List.mem_cons_self))
    · show s.received ++ [event] = handled ++ [event]
      rw [hhandled.1, hpc, NoteHandlerTask.event, List.append_nil]
  | @handle event ctx hpc he =>
    have hnote : event.note < 128 := by
      refine hlow event (Or.inr (Or.inr ?_))
      rw [hpc]
      exact List.mem_singleton.mpr rfl
    obtain ⟨ctx', he', hcoupled'⟩ := hcoupled.noteHandler hnote
    obtain rfl : ctx = ctx' := Except.ok.inj (he.symm.trans he')
    refine ⟨htask, hcoupled', ?_, hpackets, hroom, handled ++ [event],
      handled_handle htask₀.num hnote hhandled hpc he⟩
    rintro e (he | he | he)
    · exact hlow e (Or.inl he)
    · exact hlow e (Or.inr (Or.inl he))
    · cases he

/-- Every action keeps the invariant. -/
theorem systemInv_step (h : SystemInv api T packets s) (a : Action) :
    ∃ s', taskStep api T s a = .ok s' ∧ SystemInv api T (packets ++ hostPackets [a]) s' := by
  obtain ⟨s', hstep, htask⟩ := taskInv_step api T s a h.task
  refine ⟨s', hstep, ?_⟩
  have hs := steps_of_taskStep hstep
  cases a with
  | host packet =>
    cases hs
    refine ⟨htask, h.coupled, h.low, ?_, h.room, h.handled⟩
    show packets ++ [packet] = _ ++ (s.rx ++ [packet])
    rw [h.packets, List.append_assoc _ s.rx]
  | usbMidi =>
    rw [show hostPackets [Action.usbMidi] = [] from rfl, List.append_nil]
    exact systemInv_usbMidi h hs htask
  | noteHandler =>
    rw [show hostPackets [Action.noteHandler] = [] from rfl, List.append_nil]
    exact systemInv_noteHandler h hs htask
  | timer i =>
    rw [show hostPackets [Action.timer i] = [] from rfl, List.append_nil]
    cases hs
    refine ⟨htask, ?_, h.low, h.packets, h.room, h.handled⟩
    cases i with
    | tick => exact h.coupled.tick
    | isr => exact h.coupled.isr

theorem hostPackets_cons (a : Action) (actions : List Action) :
    hostPackets (a :: actions) = hostPackets [a] ++ hostPackets actions := by
  rw [← List.singleton_append]
  exact List.filterMap_append

theorem systemInv_run (h : SystemInv api T packets s) (actions : List Action) :
    ∃ s', run (taskStep api T) s actions = .ok s' ∧
      SystemInv api T (packets ++ hostPackets actions) s' := by
  induction actions generalizing s packets with
  | nil => exact ⟨s, rfl, by rwa [show hostPackets [] = [] from rfl, List.append_nil]⟩
  | cons a actions ih =>
    obtain ⟨s₁, hstep, h₁⟩ := systemInv_step h a
    obtain ⟨s₂, hrun, h₂⟩ := ih h₁
    refine ⟨s₂, by rw [run_cons_ok hstep, hrun], ?_⟩
    rwa [List.append_assoc, ← hostPackets_cons] at h₂

theorem systemInv_init (api : QueueApi) (T : Byte → Word) {g : PWMGenerator}
    (h : Coupled T ⟨{}, g⟩) : SystemInv api T [] (taskInit g) where
  task := taskInv_init api h.num
  coupled := h
  low event hevent := by simp [taskInit, UsbMidiTask.inProgress, NoteHandlerTask.event] at hevent
  packets := rfl
  room := Nat.zero_le _
  handled := ⟨[], rfl, fun _ => NoteScheduler.sim_init⟩

/-! ## What the voices play -/

/-- The scheduler plays what the reference allocator does. -/
theorem plays_of_sim {c : List Call} {scheduler : NoteScheduler}
    (hsim : NoteScheduler.Sim c scheduler (lruOf refInit (c.map Call.gesture))) :
    Plays (c.map Call.gesture) scheduler := by
  have hsounds : ∀ n, n ≠ kFreeNote → ((∃ i, (scheduler.mVoices i).note = n) ↔
      Sounds synthNumVoices (c.map Call.gesture) n) := by
    intro n hn
    have h := (tracks_lruOf (fun _ => rfl) (c.map Call.gesture) :
      Tracks _ (lruOf refInit _)).sounds n
    rw [Fintype.card_fin] at h
    rw [← h]
    exact exists_congr fun i => (hsim.held_some hn i).symm
  refine ⟨hsounds, fun n hn hheld i hi => ?_, fun hfew n hn hheld => ?_⟩
  · exact hheld ((hsounds n hn).mp ⟨i, hi⟩).1
  · exact (hsounds n hn).mpr (sounds_of_few hfew hheld)

theorem noteEvents_sublist {p q : List Packet} (h : p.Sublist q) :
    (noteEvents p).Sublist (noteEvents q) := (h.map parsePacket).filter _

/-- What the handler gets is what the host sent, in order, perhaps with gaps. -/
theorem SystemInv.received_sublist (h : SystemInv api T packets s) :
    (s.received ++ s.queue).Sublist (noteEvents packets) := by
  have hdelivers : s.received ++ s.queue =
      accepted synthNoteEventQueueSize (s.sends ++ s.usbMidi.offer) := h.task.delivers
  have hoffer : (s.usbMidi.offer.map Prod.fst).Sublist s.usbMidi.inProgress := by
    cases s.usbMidi <;> simp [UsbMidiTask.offer, UsbMidiTask.inProgress]
  have haccepted : (s.received ++ s.queue).Sublist (noteEvents s.parsed) := by
    rw [hdelivers, h.task.parsed]
    refine (List.filter_sublist.map Prod.fst).trans ?_
    rw [List.map_append]
    exact (List.Sublist.refl _).append hoffer
  refine haccepted.trans (noteEvents_sublist ?_)
  rw [h.packets, List.append_assoc]
  exact List.sublist_append_left _ _

/-- The number of note-ons in packets. -/
def noteOns (packets : List Packet) : ℕ := Call.countOn (calls (noteEvents packets))

theorem adm_of_sublist (hcount : noteOns packets ≤ 2 ^ 32 - 2) {handled : List NoteEvent}
    (hhandled : handled.Sublist (noteEvents packets)) : NoteScheduler.Adm (calls handled) := by
  refine ⟨fun c hc => ?_, le_trans ?_ hcount⟩
  · rw [calls, List.mem_reverse] at hc
    obtain ⟨event, hevent, hcall⟩ := List.mem_filterMap.mp hc
    rw [callOf_note hcall]
    obtain ⟨p, -, rfl⟩ := List.mem_map.mp (List.mem_of_mem_filter (hhandled.subset hevent))
    exact note_ne_kFreeNote (parsePacket_note_lt p)
  · exact (hhandled.filterMap callOf).reverse.countP_le

end Inv

/-- **Safe under every interleaving.** Let `notePeriodUs12tet` return at least 2 for
    every note in `0 … 127`. Take any sequence of packets from the host, steps of the two
    tasks, ticks and `isr` runs, from a fresh scheduler, generator and queue. No assert
    fails; the queue never holds more than `SYNTH_NOTE_EVENT_QUEUE_SIZE` events; the
    handler receives note events of the host in order and each once; every channel is as
    the note of its voice asks; and, with at most `2^32 - 2` note-ons from the host, the
    voices play exactly the events handled. -/
theorem system_safe (api : QueueApi) (notePeriodUs12tet : Byte → Word)
    (hT : ∀ n, n < 128 → 2 ≤ notePeriodUs12tet n) {tim : Tim} {gpio gpio' : Gpio} {clock : Word}
    {pins : Ch → Pin} {g : PWMGenerator}
    (hmake : PWMGenerator.make tim gpio clock pins synthNumVoices = .ok (g, gpio'))
    (hdier : tim.dier = 0) (hccer : tim.ccer = 0) (actions : List Action) :
    ∃ s handled, run (taskStep api notePeriodUs12tet) (taskInit g) actions = .ok s ∧
      s.queue.length ≤ synthNoteEventQueueSize ∧ s.received = handled ++ s.noteHandler.event ∧
      (s.received ++ s.queue).Sublist (noteEvents (hostPackets actions)) ∧
      (∀ i, ChannelMatches notePeriodUs12tet s.ctx i) ∧
      (noteOns (hostPackets actions) ≤ 2 ^ 32 - 2 →
        Plays (gestures handled) s.ctx.noteScheduler) := by
  obtain ⟨s, hrun, h⟩ := systemInv_run
    (systemInv_init api notePeriodUs12tet (coupled_init _ hmake hdier hccer)) actions
  rw [List.nil_append] at h
  obtain ⟨handled, hreceived, hsim⟩ := h.handled
  have hsub := h.received_sublist
  refine ⟨s, handled, hrun, h.room, hreceived, hsub, h.coupled.channelMatches hT, fun hcount => ?_⟩
  have hhandled : handled.Sublist (noteEvents (hostPackets actions)) := by
    refine List.Sublist.trans ?_ hsub
    rw [hreceived, List.append_assoc]
    exact List.sublist_append_left _ _
  exact plays_of_sim (hsim (adm_of_sublist hcount hhandled))

/-- A chord, of which one packet is handled while the other is parsed. -/
theorem system_safe_chord :
    ∃ s handled, run (taskStep freeRTOS fun _ => 1000) (taskInit PWMGenerator.mainInit)
        [.host ![0x09, 0x90, 60, 100], .host ![0x09, 0x90, 64, 100], .usbMidi, .usbMidi,
          .usbMidi, .noteHandler, .usbMidi, .timer .tick, .usbMidi, .noteHandler, .usbMidi] =
        .ok s ∧
      s.queue.length ≤ synthNoteEventQueueSize ∧ s.received = handled ++ s.noteHandler.event ∧
      (s.received ++ s.queue).Sublist (noteEvents (hostPackets
        [.host ![0x09, 0x90, 60, 100], .host ![0x09, 0x90, 64, 100], .usbMidi, .usbMidi,
          .usbMidi, .noteHandler, .usbMidi, .timer .tick, .usbMidi, .noteHandler, .usbMidi])) ∧
      (∀ i, ChannelMatches (fun _ => 1000) s.ctx i) ∧
      (noteOns (hostPackets
        [.host ![0x09, 0x90, 60, 100], .host ![0x09, 0x90, 64, 100], .usbMidi, .usbMidi,
          .usbMidi, .noteHandler, .usbMidi, .timer .tick, .usbMidi, .noteHandler, .usbMidi]) ≤
          2 ^ 32 - 2 → Plays (gestures handled) s.ctx.noteScheduler) := by
  obtain ⟨gpio', hmake⟩ := PWMGenerator.make_main fun _ => ⟨0, 0, 0, fun _ => 0⟩
  exact system_safe freeRTOS _ (fun _ _ => by decide) hmake rfl rfl _

/-! ## Flow control -/

/-- The event that is not in the queue yet. -/
def UsbMidiTask.unsent : UsbMidiTask → List NoteEvent
  | .send event => [event]
  | _ => []

/-- Every event of the host is in exactly one place, in order. -/
def Lossless (packets : List Packet) (s : Tasks) : Prop :=
  noteEvents packets =
    s.received ++ s.queue ++ s.usbMidi.unsent ++ noteEvents (s.usbMidi.packet ++ s.rx)

/-- The host waits while `SYNTH_NOTE_EVENT_QUEUE_SIZE` events are under way: at no
    moment are there more of them that it has sent and the handler has not received. -/
def FlowControl (api : QueueApi) (T : Byte → Word) (start : Tasks) (actions : List Action) : Prop :=
  ∀ before rest s, actions = before ++ rest → run (taskStep api T) start before = .ok s →
    (noteEvents (hostPackets before)).length ≤ s.received.length + synthNoteEventQueueSize

section Flow

variable {api : QueueApi} {T : Byte → Word} {s s' : Tasks} {a : Action} {packets : List Packet}

theorem noteEvents_concat (p q : List Packet) :
    noteEvents (p ++ q) = noteEvents p ++ noteEvents q := by
  unfold noteEvents
  rw [List.map_append, List.filter_append]

/-- A host that never sends more note events than the queue holds. -/
theorem flowControl_of_few {start : Tasks} {actions : List Action}
    (hfew : (noteEvents (hostPackets actions)).length ≤ synthNoteEventQueueSize) :
    FlowControl api T start actions := by
  intro before rest s heq _
  have hsub : (hostPackets before).Sublist (hostPackets actions) := by
    rw [heq]
    exact (List.sublist_append_left before rest).filterMap Action.packet
  exact ((noteEvents_sublist hsub).length_le.trans hfew).trans (Nat.le_add_left _ _)

/-- The queue has room for the event that is about to be sent. -/
theorem Lossless.room (h : Lossless packets s)
    (hflow : (noteEvents packets).length ≤ s.received.length + synthNoteEventQueueSize)
    {event : NoteEvent} (hpc : s.usbMidi = .send event) :
    s.queue.length < synthNoteEventQueueSize := by
  unfold Lossless at h
  rw [h, hpc, List.length_append, List.length_append, List.length_append] at hflow
  have hone : (UsbMidiTask.unsent (.send event)).length = 1 := rfl
  omega

theorem lossless_step (h : Lossless packets s)
    (hflow : (noteEvents packets).length ≤ s.received.length + synthNoteEventQueueSize)
    (hs : Steps api T s a s') : Lossless (packets ++ hostPackets [a]) s' := by
  have hroom : ∀ event, s.usbMidi = .send event → s.queue.length < synthNoteEventQueueSize :=
    fun _ hpc => h.room hflow hpc
  unfold Lossless at h ⊢
  rw [noteEvents_concat, h]
  cases hs with
  | host packet =>
    rw [List.append_assoc _ (noteEvents _), ← noteEvents_concat, List.append_assoc _ s.rx]
    rfl
  | poll _ _ => rw [show hostPackets [Action.usbMidi] = [] from rfl]; simp [noteEvents]
  | read hpc hrx =>
    rw [hpc, hrx]
    simp [UsbMidiTask.unsent, UsbMidiTask.packet, hostPackets, Action.packet, noteEvents]
  | @skip packet hpc hkind =>
    rw [hpc]
    simp [UsbMidiTask.unsent, UsbMidiTask.packet, hostPackets, Action.packet, noteEvents, hkind]
  | @parse packet hpc hkind =>
    rw [hpc]
    simp [UsbMidiTask.unsent, UsbMidiTask.packet, hostPackets, Action.packet, noteEvents, hkind]
  | @send event hpc =>
    have hpush : (xQueueSend api s.queue event).1 = s.queue ++ [event] := by
      unfold xQueueSend push
      rw [if_pos (hroom event hpc)]
    rw [hpush, hpc]
    simp [UsbMidiTask.unsent, UsbMidiTask.packet, hostPackets, Action.packet, noteEvents]
  | check hpc =>
    rw [hpc]
    simp [UsbMidiTask.unsent, UsbMidiTask.packet, hostPackets, Action.packet, noteEvents]
  | wait _ _ => simp [hostPackets, Action.packet, noteEvents]
  | receive hpc hq =>
    rw [hq]
    simp [hostPackets, Action.packet, noteEvents]
  | handle hpc he => simp [hostPackets, Action.packet, noteEvents]
  | timer i => simp [hostPackets, Action.packet, noteEvents]

/-- Both tasks wait, and there is nothing left to do. -/
structure Quiescent (s : Tasks) : Prop where
  rx : s.rx = []
  usbMidi : s.usbMidi = .read
  queue : s.queue = []
  noteHandler : s.noteHandler = .receive

theorem Lossless.received (h : Lossless packets s) (hq : Quiescent s) :
    s.received = noteEvents packets := by
  unfold Lossless at h
  rw [h, hq.rx, hq.usbMidi, hq.queue]
  simp [UsbMidiTask.unsent, UsbMidiTask.packet, noteEvents]

/-- With nothing lost and nothing left to do, the scheduler has handled what the host has
    sent. -/
theorem Lossless.sim (h : Lossless packets s) (hinv : SystemInv api T packets s)
    (hq : Quiescent s) (hcount : noteOns packets ≤ 2 ^ 32 - 2) :
    NoteScheduler.Sim (calls (noteEvents packets)) s.ctx.noteScheduler
      (lruOf refInit (gestures (noteEvents packets))) := by
  obtain ⟨handled, hreceived, hsim⟩ := hinv.handled
  obtain rfl : handled = noteEvents packets := by
    rw [← h.received hq, hreceived, hq.noteHandler, NoteHandlerTask.event, List.append_nil]
  exact hsim (adm_of_sublist hcount (List.Sublist.refl _))

/-- What holds after the actions `past`, newest first, under flow control. -/
structure Kept (api : QueueApi) (T : Byte → Word) (start : Tasks) (past : List Action)
    (s : Tasks) : Prop where
  ran : run (taskStep api T) start past.reverse = .ok s
  inv : SystemInv api T (hostPackets past.reverse) s
  lossless : Lossless (hostPackets past.reverse) s

theorem flowControl_tail {start : Tasks} {past : List Action}
    (h : FlowControl api T start (a :: past).reverse) : FlowControl api T start past.reverse := by
  intro before rest s heq
  refine h before (rest ++ [a]) s ?_
  rw [List.reverse_cons, heq, List.append_assoc]

theorem kept_step {start : Tasks} {past : List Action} (a : Action)
    (hflow : FlowControl api T start (a :: past).reverse) (h : Kept api T start past s) :
    ∃ s', taskStep api T s a = .ok s' ∧ Kept api T start (a :: past) s' := by
  have hnow := hflow past.reverse [a] s List.reverse_cons h.ran
  obtain ⟨s', hstep, hinv⟩ := systemInv_step h.inv a
  have hpackets :
      hostPackets (a :: past).reverse = hostPackets past.reverse ++ hostPackets [a] := by
    rw [List.reverse_cons]
    exact List.filterMap_append
  refine ⟨s', hstep, ?_, by rwa [hpackets], ?_⟩
  · rw [List.reverse_cons, run_append_ok h.ran, run_cons_ok hstep, run_nil]
  · rw [hpackets]
    exact lossless_step h.lossless hnow (steps_of_taskStep hstep)

theorem kept_run {start : Tasks} (h : SystemInv api T [] start) (hstart : Lossless [] start)
    {actions : List Action} (hflow : FlowControl api T start actions) :
    ∃ s, run (taskStep api T) start actions = .ok s ∧ Kept api T start actions.reverse s := by
  refine run_history (Kept api T start) (fun past => FlowControl api T start past.reverse)
    (fun _ _ => flowControl_tail) (fun past s a hadm => kept_step a hadm) ⟨rfl, h, hstart⟩
    actions ?_
  rwa [List.reverse_reverse]

end Flow

/-- **Nothing is lost under flow control.** Take any interleaving in which, at every
    moment, the host has sent at most `SYNTH_NOTE_EVENT_QUEUE_SIZE` note events more than
    the handler has received. Then at its end every note event that the host has sent is
    in exactly one place, in order: received, queued, about to be sent, or still in a
    packet. If the tasks have nothing left to do, the voices play exactly what the host
    has sent, for at most `2^32 - 2` note-ons. -/
theorem nothing_lost (api : QueueApi) (notePeriodUs12tet : Byte → Word) {tim : Tim}
    {gpio gpio' : Gpio} {clock : Word} {pins : Ch → Pin} {g : PWMGenerator}
    (hmake : PWMGenerator.make tim gpio clock pins synthNumVoices = .ok (g, gpio'))
    (hdier : tim.dier = 0) (hccer : tim.ccer = 0) {actions : List Action}
    (hflow : FlowControl api notePeriodUs12tet (taskInit g) actions) :
    ∃ s, run (taskStep api notePeriodUs12tet) (taskInit g) actions = .ok s ∧
      Lossless (hostPackets actions) s ∧
      (Quiescent s → noteOns (hostPackets actions) ≤ 2 ^ 32 - 2 →
        Plays (gestures (noteEvents (hostPackets actions))) s.ctx.noteScheduler) := by
  obtain ⟨s, hrun, -, h, hlossless⟩ := kept_run
    (systemInv_init api notePeriodUs12tet (coupled_init _ hmake hdier hccer)) rfl hflow
  rw [List.reverse_reverse] at h hlossless
  exact ⟨s, hrun, hlossless, fun hq hcount => plays_of_sim (hlossless.sim h hq hcount)⟩

/-- One packet, played to the end. -/
theorem nothing_lost_one :
    ∃ s, run (taskStep freeRTOS fun _ => 1000) (taskInit PWMGenerator.mainInit)
        [.host ![0x09, 0x90, 60, 100], .usbMidi, .usbMidi, .usbMidi, .usbMidi, .noteHandler,
          .noteHandler] = .ok s ∧
      Lossless (hostPackets [.host ![0x09, 0x90, 60, 100], .usbMidi, .usbMidi, .usbMidi, .usbMidi,
        .noteHandler, .noteHandler]) s ∧
      (Quiescent s → noteOns (hostPackets [.host ![0x09, 0x90, 60, 100], .usbMidi, .usbMidi,
          .usbMidi, .usbMidi, .noteHandler, .noteHandler]) ≤ 2 ^ 32 - 2 →
        Plays (gestures (noteEvents (hostPackets [.host ![0x09, 0x90, 60, 100], .usbMidi, .usbMidi,
          .usbMidi, .usbMidi, .noteHandler, .noteHandler]))) s.ctx.noteScheduler) := by
  obtain ⟨gpio', hmake⟩ := PWMGenerator.make_main fun _ => ⟨0, 0, 0, fun _ => 0⟩
  exact nothing_lost freeRTOS _ hmake rfl rfl (flowControl_of_few (by decide))

/-! ## The tasks come to rest -/

/-- The steps left for the packet or the event that `usbMidiTask` has. -/
def UsbMidiTask.work : UsbMidiTask → ℕ
  | .read => 0
  | .parse _ => 5
  | .send _ => 4
  | .check _ _ _ => 1

def NoteHandlerTask.work : NoteHandlerTask → ℕ
  | .receive => 0
  | .handle _ => 1

/-- An upper bound of the steps left: read, parse, send and check, receive and handle. -/
def work (s : Tasks) : ℕ :=
  6 * s.rx.length + s.usbMidi.work + 2 * s.queue.length + s.noteHandler.work

/-- A stretch in which the host is silent and both tasks get to run. -/
structure Round (r : List Action) : Prop where
  silent : ∀ a ∈ r, a.packet = none
  usbMidi : .usbMidi ∈ r
  noteHandler : .noteHandler ∈ r

section Work

variable {api : QueueApi} {T : Byte → Word} {s s' : Tasks} {a : Action} {packets : List Packet}

/-- A task has something to do. -/
def Busy (s : Tasks) : Action → Prop
  | .usbMidi => s.usbMidi ≠ .read ∨ s.rx ≠ []
  | .noteHandler => s.noteHandler ≠ .receive ∨ s.queue ≠ []
  | _ => False

theorem push_length_le (cap : ℕ) (queue : List NoteEvent) (event : NoteEvent) :
    (push cap queue event).1.length ≤ queue.length + 1 := by
  unfold push
  split_ifs
  · rw [List.length_append, List.length_singleton]
  · exact Nat.le_succ _

/-- No step of the tasks makes work, and one of a busy task does some. -/
theorem work_step (hs : Steps api T s a s') (ha : a.packet = none) :
    work s' ≤ work s ∧ (Busy s a → work s' < work s) := by
  cases hs with
  | host packet => cases ha
  | poll hpc hrx => exact ⟨le_rfl, fun h => absurd h (by simp [Busy, hpc, hrx])⟩
  | read hpc hrx =>
    simp only [work, hpc, hrx, UsbMidiTask.work, List.length_cons]
    omega
  | skip hpc hkind =>
    simp only [work, hpc, UsbMidiTask.work]
    omega
  | parse hpc hkind =>
    simp only [work, hpc, UsbMidiTask.work]
    omega
  | @send event hpc =>
    have hlen := push_length_le synthNoteEventQueueSize s.queue event
    simp only [work, hpc, xQueueSend, UsbMidiTask.work]
    omega
  | check hpc =>
    simp only [work, hpc, UsbMidiTask.work]
    omega
  | wait hpc hq => exact ⟨le_rfl, fun h => absurd h (by simp [Busy, hpc, hq])⟩
  | receive hpc hq =>
    simp only [work, hpc, hq, NoteHandlerTask.work, List.length_cons]
    omega
  | handle hpc he =>
    simp only [work, hpc, NoteHandlerTask.work]
    omega
  | timer i => exact ⟨le_rfl, fun h => absurd h (by simp [Busy])⟩

/-- A task stays busy while the other one runs. -/
theorem busy_step {b : Action} (hs : Steps api T s a s') (hb : Busy s b) (hne : b ≠ a) :
    Busy s' b := by
  cases hs with
  | host packet =>
    cases b with
    | usbMidi => exact Or.inr (by simp)
    | noteHandler => exact hb
    | _ => exact hb
  | poll _ _ => exact hb
  | wait _ _ => exact hb
  | send hpc =>
    cases b with
    | usbMidi => exact absurd rfl hne
    | noteHandler =>
      refine hb.imp_right fun hq => ?_
      show (push _ s.queue _).1 ≠ []
      unfold push
      split_ifs
      · simp
      · exact hq
    | _ => exact hb
  | read _ _ | skip _ _ | parse _ _ | check _ =>
    cases b with
    | usbMidi => exact absurd rfl hne
    | _ => exact hb
  | receive _ _ | handle _ _ =>
    cases b with
    | noteHandler => exact absurd rfl hne
    | _ => exact hb
  | timer i =>
    cases b with
    | timer i => cases hb
    | _ => exact hb

theorem busy_of_work (h : 0 < work s) : Busy s .usbMidi ∨ Busy s .noteHandler := by
  by_contra hidle
  unfold Busy at hidle
  push Not at hidle
  obtain ⟨⟨hmidi, hrx⟩, hhandler, hqueue⟩ := hidle
  simp [work, hmidi, hrx, hhandler, hqueue, UsbMidiTask.work, NoteHandlerTask.work] at h

theorem quiescent_of_work (h : work s = 0) : Quiescent s := by
  unfold work at h
  refine ⟨?_, ?_, ?_, ?_⟩
  · exact List.length_eq_zero_iff.mp (by omega)
  · cases hpc : s.usbMidi with
    | read => rfl
    | _ => simp [hpc, UsbMidiTask.work] at h
  · exact List.length_eq_zero_iff.mp (by omega)
  · cases hpc : s.noteHandler with
    | receive => rfl
    | handle event => simp [hpc, NoteHandlerTask.work] at h

/-- A stretch without the host does the work of every task that is busy and runs in it. -/
theorem work_run (h : SystemInv api T packets s) {actions : List Action}
    (hsilent : ∀ a ∈ actions, a.packet = none) :
    ∃ s', run (taskStep api T) s actions = .ok s' ∧ SystemInv api T packets s' ∧
      work s' ≤ work s ∧ ∀ b ∈ actions, Busy s b → work s' < work s := by
  induction actions generalizing s with
  | nil => exact ⟨s, rfl, h, le_rfl, fun b hb => by cases hb⟩
  | cons a actions ih =>
    have ha := hsilent a List.mem_cons_self
    obtain ⟨s₁, hstep, h₁⟩ := systemInv_step h a
    have hnone : hostPackets [a] = [] := List.filterMap_cons_none ha
    rw [hnone, List.append_nil] at h₁
    have hs := steps_of_taskStep hstep
    obtain ⟨hle, hlt⟩ := work_step hs ha
    obtain ⟨s₂, hrun, h₂, hle₂, hlt₂⟩ := ih h₁ fun b hb => hsilent b (List.mem_cons_of_mem _ hb)
    refine ⟨s₂, by rw [run_cons_ok hstep, hrun], h₂, hle₂.trans hle, fun b hb hbusy => ?_⟩
    by_cases hba : b = a
    · exact hle₂.trans_lt (hlt (hba ▸ hbusy))
    · have hmem : b ∈ actions := (List.mem_cons.mp hb).resolve_left hba
      exact (hlt₂ b hmem (busy_step hs hbusy hba)).trans_le hle

/-- With as many rounds as there are steps left, the tasks come to rest. -/
theorem quiescent_of_rounds (h : SystemInv api T packets s) {rounds : List (List Action)}
    (hrounds : ∀ r ∈ rounds, Round r) (hwork : work s ≤ rounds.length) :
    ∃ s', run (taskStep api T) s rounds.flatten = .ok s' ∧ SystemInv api T packets s' ∧
      Quiescent s' := by
  induction rounds generalizing s with
  | nil => exact ⟨s, rfl, h, quiescent_of_work (Nat.le_zero.mp hwork)⟩
  | cons r rounds ih =>
    have hr := hrounds r List.mem_cons_self
    obtain ⟨s₁, hrun, h₁, hle, hlt⟩ := work_run h hr.silent
    have hprogress : work s₁ ≤ rounds.length := by
      rw [List.length_cons] at hwork
      by_cases hzero : work s = 0
      · omega
      · rcases busy_of_work (Nat.pos_of_ne_zero hzero) with hbusy | hbusy
        · have := hlt _ hr.usbMidi hbusy
          omega
        · have := hlt _ hr.noteHandler hbusy
          omega
    obtain ⟨s₂, hrun₂, h₂, hq⟩ :=
      ih h₁ (fun r hr => hrounds r (List.mem_cons_of_mem _ hr)) hprogress
    exact ⟨s₂, by rw [List.flatten_cons, run_append_ok hrun, hrun₂], h₂, hq⟩

/-- The work comes from the host. -/
theorem work_le (hinv : SystemInv api T packets s) {actions : List Action}
    (hrun : run (taskStep api T) s actions = .ok s') :
    work s' ≤ work s + 6 * (hostPackets actions).length := by
  induction actions generalizing s packets with
  | nil =>
    cases hrun
    exact Nat.le_add_right _ _
  | cons a actions ih =>
    obtain ⟨s₁, hstep, h₁⟩ := systemInv_step hinv a
    rw [run_cons_ok hstep] at hrun
    have hrest := ih h₁ hrun
    have hs := steps_of_taskStep hstep
    rw [hostPackets_cons, List.length_append]
    cases hp : a.packet with
    | none =>
      have := (work_step hs hp).1
      omega
    | some packet =>
      have hone : (hostPackets [a]).length = 1 := by simp [hostPackets, hp]
      have hmore : work s₁ = work s + 6 := by
        cases hs <;> cases hp
        simp [work]
        omega
      omega

end Work

/-- **The tasks come to rest.** Let the host send any packets in any interleaving, and
    then be silent. After 6 rounds for each of its packets, of any lengths and in any
    order as long as both tasks run in each, the tasks have nothing left to do: each note
    event of the host has been offered to the queue, those that found room have been
    received in order, and the voices play exactly these (for at most `2^32 - 2`
    note-ons), on channels that are as the voices ask. -/
theorem system_drains (api : QueueApi) (notePeriodUs12tet : Byte → Word)
    (hT : ∀ n, n < 128 → 2 ≤ notePeriodUs12tet n) {tim : Tim} {gpio gpio' : Gpio} {clock : Word}
    {pins : Ch → Pin} {g : PWMGenerator}
    (hmake : PWMGenerator.make tim gpio clock pins synthNumVoices = .ok (g, gpio'))
    (hdier : tim.dier = 0) (hccer : tim.ccer = 0) (actions : List Action)
    {rounds : List (List Action)} (hrounds : ∀ r ∈ rounds, Round r)
    (hlong : 6 * (hostPackets actions).length ≤ rounds.length) :
    ∃ s, run (taskStep api notePeriodUs12tet) (taskInit g) (actions ++ rounds.flatten) = .ok s ∧
      Quiescent s ∧ s.sends.map Prod.fst = noteEvents (hostPackets actions) ∧
      s.received = accepted synthNoteEventQueueSize s.sends ∧
      (∀ i, ChannelMatches notePeriodUs12tet s.ctx i) ∧
      (noteOns (hostPackets actions) ≤ 2 ^ 32 - 2 →
        Plays (gestures s.received) s.ctx.noteScheduler) := by
  have hinit := systemInv_init api notePeriodUs12tet (coupled_init _ hmake hdier hccer)
  obtain ⟨s₁, hrun₁, h₁⟩ := systemInv_run hinit actions
  have hwork : work s₁ ≤ rounds.length := by
    have hle := work_le hinit hrun₁
    have hzero : work (taskInit g) = 0 := rfl
    omega
  obtain ⟨s, hrun, h, hq⟩ := quiescent_of_rounds h₁ hrounds hwork
  rw [List.nil_append] at h
  have hpackets : hostPackets actions = s.parsed := by
    rw [h.packets, hq.usbMidi, hq.rx]
    simp [UsbMidiTask.packet]
  have hsends : s.sends.map Prod.fst = noteEvents (hostPackets actions) := by
    rw [hpackets, h.task.parsed, hq.usbMidi, UsbMidiTask.inProgress, List.append_nil]
  have hreceived : s.received = accepted synthNoteEventQueueSize s.sends := by
    have hdelivers : s.received ++ s.queue =
        accepted synthNoteEventQueueSize (s.sends ++ s.usbMidi.offer) := h.task.delivers
    simpa [hq.queue, hq.usbMidi, UsbMidiTask.offer] using hdelivers
  refine ⟨s, by rw [run_append_ok hrun₁, hrun], hq, hsends, hreceived,
    h.coupled.channelMatches hT, fun hcount => ?_⟩
  obtain ⟨handled, hhandled, hsim⟩ := h.handled
  obtain rfl : handled = s.received := by
    rw [hhandled, hq.noteHandler, NoteHandlerTask.event, List.append_nil]
  refine plays_of_sim (hsim (adm_of_sublist hcount ?_))
  exact (List.sublist_append_left _ _).trans h.received_sublist

/-- One packet and six rounds. -/
theorem system_drains_one :
    ∃ s, run (taskStep freeRTOS fun _ => 1000) (taskInit PWMGenerator.mainInit)
        ([.host ![0x09, 0x90, 60, 100]] ++
          (List.replicate 6 [.usbMidi, .timer .tick, .noteHandler]).flatten) = .ok s ∧
      Quiescent s ∧
      s.sends.map Prod.fst = noteEvents (hostPackets [.host ![0x09, 0x90, 60, 100]]) ∧
      s.received = accepted synthNoteEventQueueSize s.sends ∧
      (∀ i, ChannelMatches (fun _ => 1000) s.ctx i) ∧
      (noteOns (hostPackets [.host ![0x09, 0x90, 60, 100]]) ≤ 2 ^ 32 - 2 →
        Plays (gestures s.received) s.ctx.noteScheduler) := by
  obtain ⟨gpio', hmake⟩ := PWMGenerator.make_main fun _ => ⟨0, 0, 0, fun _ => 0⟩
  refine system_drains freeRTOS _ (fun _ _ => by decide) hmake rfl rfl _ (fun r hr => ?_) ?_
  case refine_2 => decide
  rw [List.eq_of_mem_replicate hr]
  exact ⟨by simp [Action.packet], by simp, by simp⟩

end StepperSynth
