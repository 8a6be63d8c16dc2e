-- SUMMARY: What one step of each thread can do to the shared state.
import Xiaozhi.App.MainView

/-!
# Steps

For each kind of thread, the changes that one of its steps can make. Most steps
are *quiet*: they change nothing that the statements of this development speak
about, except perhaps the thread's own variables. Every other kind of step has
a case of its own.
-/

namespace Xiaozhi

/-- What the statements of this development speak about, the main thread's
    variables aside. -/
structure World.Visible where
  events : EventQueue
  pushes : List (AppEvent × Bool)
  marks : List Nat
  texts : List Bytes
  encoder : Option OpusEncoder
  captureLog : List CaptureEntry
  channels : Nat
  queue : AudioBuffer Nat
  enqueued : Nat
  accepted : List Bytes
  stopMark : Nat
  playbackLog : List PlaybackEntry
  recvText : Bytes
  recvBinary : Bytes
  received : List Fragment
  delivered : List Delivery
  pendingText : List TextMessage
  capacity : Nat
  pendingBinary : AudioBuffer Nat
  lws : Nat → LwsState
  exited : Nat → Bool
  checks : Nat
  queued : List Message
  dequeued : List Frame
  wire : List Frame

def World.visible (w : World) : World.Visible where
  events := w.events
  pushes := w.pushes
  marks := w.marks
  texts := w.texts
  encoder := w.encoder
  captureLog := w.capture.log
  channels := w.playback.channels
  queue := w.playback.queue
  enqueued := w.playback.enqueued
  accepted := w.playback.accepted
  stopMark := w.playback.stopMark
  playbackLog := w.playback.log
  recvText := w.client.recvText
  recvBinary := w.client.recvBinary
  received := w.received
  delivered := w.delivered
  pendingText := w.client.pendingText.items
  capacity := w.client.pendingText.capacity
  pendingBinary := w.client.pendingBinary
  lws := w.lws
  exited := w.exited
  checks := w.checks
  queued := w.queued
  dequeued := w.dequeued
  wire := w.wire

/-- The two states agree outside of the main thread's variables, flags and
    buffers aside. -/
def World.Quiet (w w' : World) : Prop := w'.visible = w.visible

namespace World.Quiet

open World (Visible)

variable {w w' : World}

theorem refl (w : World) : w.Quiet w := rfl

theorem events (h : w.Quiet w') : w'.events = w.events := congrArg Visible.events h

theorem pushes (h : w.Quiet w') : w'.pushes = w.pushes := congrArg Visible.pushes h

theorem marks (h : w.Quiet w') : w'.marks = w.marks := congrArg Visible.marks h

theorem texts (h : w.Quiet w') : w'.texts = w.texts := congrArg Visible.texts h

theorem encoder (h : w.Quiet w') : w'.encoder = w.encoder := congrArg Visible.encoder h

theorem captureLog (h : w.Quiet w') : w'.capture.log = w.capture.log :=
  congrArg Visible.captureLog h

theorem channels (h : w.Quiet w') : w'.playback.channels = w.playback.channels :=
  congrArg Visible.channels h

theorem queue (h : w.Quiet w') : w'.playback.queue = w.playback.queue := congrArg Visible.queue h

theorem enqueued (h : w.Quiet w') : w'.playback.enqueued = w.playback.enqueued :=
  congrArg Visible.enqueued h

theorem accepted (h : w.Quiet w') : w'.playback.accepted = w.playback.accepted :=
  congrArg Visible.accepted h

theorem stopMark (h : w.Quiet w') : w'.playback.stopMark = w.playback.stopMark :=
  congrArg Visible.stopMark h

theorem playbackLog (h : w.Quiet w') : w'.playback.log = w.playback.log :=
  congrArg Visible.playbackLog h

theorem recvText (h : w.Quiet w') : w'.client.recvText = w.client.recvText :=
  congrArg Visible.recvText h

theorem recvBinary (h : w.Quiet w') : w'.client.recvBinary = w.client.recvBinary :=
  congrArg Visible.recvBinary h

theorem received (h : w.Quiet w') : w'.received = w.received := congrArg Visible.received h

theorem delivered (h : w.Quiet w') : w'.delivered = w.delivered := congrArg Visible.delivered h

theorem pendingText (h : w.Quiet w') :
    w'.client.pendingText.items = w.client.pendingText.items := congrArg Visible.pendingText h

theorem capacity (h : w.Quiet w') :
    w'.client.pendingText.capacity = w.client.pendingText.capacity := congrArg Visible.capacity h

theorem pendingBinary (h : w.Quiet w') : w'.client.pendingBinary = w.client.pendingBinary :=
  congrArg Visible.pendingBinary h

theorem lws (h : w.Quiet w') : w'.lws = w.lws := congrArg Visible.lws h

theorem exited (h : w.Quiet w') : w'.exited = w.exited := congrArg Visible.exited h

theorem checks (h : w.Quiet w') : w'.checks = w.checks := congrArg Visible.checks h

theorem queued (h : w.Quiet w') : w'.queued = w.queued := congrArg Visible.queued h

theorem dequeued (h : w.Quiet w') : w'.dequeued = w.dequeued := congrArg Visible.dequeued h

theorem wire (h : w.Quiet w') : w'.wire = w.wire := congrArg Visible.wire h

end World.Quiet

/-- What the main thread may record without any other effect, and what it then
    has observed. -/
def MainEntry.Observed (w : World) : MainEntry → Prop
  | .resets state connected =>
    state = w.session ∧ connected = (w.clientStarted && w.client.connected)
  | .finds size => size = w.playback.queue.size
  | .startFails errorQueued => errorQueued = w.errorQueued
  | .takes _ | .pushes .. | .queues _ | .starts _ => False
  | .parses _ | .handles _ | .performs _ | .runsAlready => True

/-- The steps of the main thread. -/
inductive MainStep (w : World) : World → Prop where
  | quiet {w' : World} (quiet : w.Quiet w') (log : w'.log = w.log)
      (started : w'.started = w.started) (joined : w'.joined = w.joined) :
      MainStep w w'
  | records {entry : MainEntry} : entry.Observed w → MainStep w (w.record entry)
  | takes {event : AppEvent} {events : EventQueue} : w.events.pop = some (event, events) →
      MainStep w ({ w with events }.record (.takes event))
  | pushes {event : AppEvent} : event.origin = .main → event.type ≠ .wsText →
      MainStep w (w.pushEvent event)
  | reserves {capacity : Nat} : w.client.pendingText.items.length < capacity →
      MainStep w { w with checks := w.checks + 1, client.pendingText.capacity := capacity }
  | queues {payload : Bytes} {items : List TextMessage} :
      items = w.client.pendingText.items ++ [⟨payload, w.started⟩] → MainStep w ({ w with
        client.pendingText.items := items
        queued := ⟨.text, payload⟩ :: w.queued }.record (.queues payload))
  | stops : MainStep w { w with
      playback := { w.playback with
        stopRequested := true, stopMark := w.playback.enqueued, waiting := false } }
  | starts : MainStep w
      ({ w with started := w.started + 1, client.thread := some (w.started + 1) }.record
        (.starts (w.started + 1)))
  | joins {k : Nat} : w.exited k = true → MainStep w { w with joined := k :: w.joined }

/-- The entries of the main thread's history that its handlers add. -/
def MainEntry.Inner : MainEntry → Prop
  | .takes _ | .parses _ => False
  | _ => True

/-- The steps of the main thread inside its handlers, where it neither takes an
    event nor parses a text. -/
structure HandlerStep (w w' : World) : Prop where
  step : MainStep w w'
  inner : w'.log = w.log ∨ ∃ entry : MainEntry, entry.Inner ∧ w'.log = entry :: w.log

namespace HandlerStep

variable {w w' : World}

theorem quiet (quiet : w.Quiet w') (log : w'.log = w.log)
    (started : w'.started = w.started) (joined : w'.joined = w.joined) :
    HandlerStep w w' := ⟨.quiet quiet log started joined, .inl log⟩

theorem records {entry : MainEntry} (h : entry.Observed w) (hi : entry.Inner) :
    HandlerStep w (w.record entry) := ⟨.records h, .inr ⟨entry, hi, rfl⟩⟩

theorem pushes {event : AppEvent} (h : event.origin = .main) (ht : event.type ≠ .wsText) :
    HandlerStep w (w.pushEvent event) :=
  ⟨.pushes h ht, .inr ⟨.pushes event (w.events.push event).1, trivial, by simp [World.pushEvent, h]⟩⟩

theorem reserves {capacity : Nat} (h : w.client.pendingText.items.length < capacity) :
    HandlerStep w { w with checks := w.checks + 1, client.pendingText.capacity := capacity } :=
  ⟨.reserves h, .inl rfl⟩

theorem queues {payload : Bytes} {items : List TextMessage}
    (h : items = w.client.pendingText.items ++ [⟨payload, w.started⟩]) : HandlerStep w ({ w with
      client.pendingText.items := items
      queued := ⟨.text, payload⟩ :: w.queued }.record (.queues payload)) :=
  ⟨.queues h, .inr ⟨.queues payload, trivial, rfl⟩⟩

theorem stops : HandlerStep w { w with
    playback := { w.playback with
      stopRequested := true, stopMark := w.playback.enqueued, waiting := false } } :=
  ⟨.stops, .inl rfl⟩

theorem starts : HandlerStep w
    ({ w with started := w.started + 1, client.thread := some (w.started + 1) }.record
      (.starts (w.started + 1))) :=
  ⟨.starts, .inr ⟨.starts (w.started + 1), trivial, rfl⟩⟩

theorem joins {k : Nat} (h : w.exited k = true) :
    HandlerStep w { w with joined := k :: w.joined } := ⟨.joins h, .inl rfl⟩

end HandlerStep

/-- The steps of the service thread `k`. -/
inductive ServiceStep (k : Nat) (w : World) : World → Prop where
  | quiet {w' : World} (quiet : w.Quiet w') (view : w'.mainView = w.mainView) :
      ServiceStep k w w'
  | pushes {event : AppEvent} : event.origin = .service k → event.IsOutcome →
      ServiceStep k w (w.pushEvent event)
  | delivers {payload : Bytes} : ServiceStep k w
      ({ w with
        texts := payload :: w.texts
        delivered := ⟨k, .text, CString.ofBytes payload⟩ :: w.delivered }.pushEvent
          (.make .wsText (some payload) 0 (.service k)))
  | deliversBinary {payload : Bytes} : ServiceStep k w
      { w with delivered := ⟨w.started, .binary, payload⟩ :: w.delivered }
  | collects {recvText recvBinary : Bytes} : ServiceStep k w
      { w with client := { w.client with recvText, recvBinary } }
  | enqueues {pcm : Bytes} {rate : Int} {queue : AudioBuffer Nat} :
      w.playback.queue.push pcm rate w.playback.enqueued = some queue → ServiceStep k w { w with
        playback := { w.playback with
          queue, enqueued := w.playback.enqueued + 1, accepted := pcm :: w.playback.accepted } }
  | popsText {m : TextMessage} {rest : List TextMessage} :
      w.client.pendingText.items = m :: rest → ServiceStep k w { w with
        client.pendingText.items := rest
        dequeued := ⟨k, .text, m.payload, m.queuedIn⟩ :: w.dequeued }
  | popsBinary {block : AudioBlock Nat} {rest : AudioBuffer Nat} :
      w.client.pendingText.items = [] → w.client.pendingBinary.pop = some (block, rest) →
      ServiceStep k w { w with
        client.pendingBinary := rest
        dequeued := ⟨k, .binary, rest.read block, block.tag⟩ :: w.dequeued }
  | writes {frame : Frame} : frame.connection = k →
      ServiceStep k w { w with wire := frame :: w.wire }
  | connection {w' : World} (others : ∀ j, j ≠ k → w'.lws j = w.lws j)
      (quiet : ({ w with lws := w'.lws, received := w'.received } : World).Quiet w')
      (view : w'.mainView = w.mainView)
      (received : w'.received = w.received ∨
        ∃ f : Fragment, f.connection = k ∧ w'.received = f :: w.received) : ServiceStep k w w'

/-- The steps of the service thread `k` that neither change the state of a
    connection nor take or write a message. -/
structure CallStep (k : Nat) (w w' : World) : Prop where
  step : ServiceStep k w w'
  lws : w'.lws = w.lws
  dequeued : w'.dequeued = w.dequeued
  wire : w'.wire = w.wire

namespace CallStep

variable {k : Nat} {w w' : World}

theorem quiet (quiet : w.Quiet w') (view : w'.mainView = w.mainView) :
    CallStep k w w' := ⟨.quiet quiet view, quiet.lws, quiet.dequeued, quiet.wire⟩

theorem pushes {event : AppEvent} (h : event.origin = .service k) (ho : event.IsOutcome) :
    CallStep k w (w.pushEvent event) := ⟨.pushes h ho, rfl, rfl, rfl⟩

theorem delivers {payload : Bytes} : CallStep k w ({ w with
    texts := payload :: w.texts
    delivered := ⟨k, .text, CString.ofBytes payload⟩ :: w.delivered }.pushEvent
      (.make .wsText (some payload) 0 (.service k))) := ⟨.delivers, rfl, rfl, rfl⟩

theorem deliversBinary {payload : Bytes} : CallStep k w
    { w with delivered := ⟨w.started, .binary, payload⟩ :: w.delivered } :=
  ⟨.deliversBinary, rfl, rfl, rfl⟩

theorem collects {recvText recvBinary : Bytes} : CallStep k w
    { w with client := { w.client with recvText, recvBinary } } := ⟨.collects, rfl, rfl, rfl⟩

theorem enqueues {pcm : Bytes} {rate : Int} {queue : AudioBuffer Nat}
    (h : w.playback.queue.push pcm rate w.playback.enqueued = some queue) :
    CallStep k w { w with
      playback := { w.playback with
        queue, enqueued := w.playback.enqueued + 1, accepted := pcm :: w.playback.accepted } } :=
  ⟨.enqueues h, rfl, rfl, rfl⟩

end CallStep

/-- What a service thread has received and handed over. -/
structure World.Incoming where
  recvText : Bytes
  recvBinary : Bytes
  received : List Fragment
  delivered : List Delivery

def World.incoming (w : World) : World.Incoming where
  recvText := w.client.recvText
  recvBinary := w.client.recvBinary
  received := w.received
  delivered := w.delivered

theorem World.Quiet.incoming {w w' : World} (h : w.Quiet w') : w'.incoming = w.incoming := by
  simp only [World.incoming, h.recvText, h.recvBinary, h.received, h.delivered]

/-- The steps of the service thread `k` that neither change the state of a
    connection nor receive, hand over, take or write a message. -/
structure NoticeStep (k : Nat) (w w' : World) : Prop where
  step : CallStep k w w'
  incoming : w'.incoming = w.incoming

namespace NoticeStep

variable {k : Nat} {w w' : World}

theorem quiet (quiet : w.Quiet w') (view : w'.mainView = w.mainView) : NoticeStep k w w' :=
  ⟨.quiet quiet view, quiet.incoming⟩

theorem pushes {event : AppEvent} (h : event.origin = .service k) (ho : event.IsOutcome) :
    NoticeStep k w (w.pushEvent event) := ⟨.pushes h ho, rfl⟩

theorem enqueues {pcm : Bytes} {rate : Int} {queue : AudioBuffer Nat}
    (h : w.playback.queue.push pcm rate w.playback.enqueued = some queue) :
    NoticeStep k w { w with
      playback := { w.playback with
        queue, enqueued := w.playback.enqueued + 1, accepted := pcm :: w.playback.accepted } } :=
  ⟨.enqueues h, rfl⟩

end NoticeStep

/-- The service thread `k` ends. -/
def World.exit (w : World) (k : Nat) : World :=
  { w with exited := Function.update w.exited k true }

/-- What the playback thread may record without any other effect. -/
def PlaybackEntry.Observed (w : World) : PlaybackEntry → Prop
  | .stops mark => mark = w.playback.stopMark
  | .pops _ | .finishes _ => False
  | .opens _ | .writes .. | .writeFails => True

/-- The steps of the playback thread. -/
inductive PlaybackStep (w : World) : World → Prop where
  | quiet {w' : World} (quiet : w.Quiet w') (view : w'.mainView = w.mainView) :
      PlaybackStep w w'
  | records {e : PlaybackEntry} {w' : World} (observed : e.Observed w)
      (quiet : ({ w with playback := w.playback.record e } : World).Quiet w')
      (view : w'.mainView = w.mainView) : PlaybackStep w w'
  | pops {block : AudioBlock Nat} {queue : AudioBuffer Nat} :
      w.playback.queue.pop = some (block, queue) → PlaybackStep w { w with
        playback := { w.playback with queue }.record (.pops block.tag) }
  | finishes {w' : World} : w' = w.pushEvent (.ofType .playbackFinished .playback) →
      PlaybackStep w { w' with
        playback := w'.playback.record (.finishes (¬w.events.Full)) }

/-- The entries that the playback thread adds while it plays a block, if any. -/
def PlaybackEntry.Plays (block : Option Nat) : PlaybackEntry → Prop
  | .stops _ | .pops _ => False
  | .writes t _ => block = some t
  | .opens _ | .writeFails | .finishes _ => True

/-- The steps of the playback thread while it plays a block, if any. -/
structure BlockStep (block : Option Nat) (w w' : World) : Prop where
  step : PlaybackStep w w'
  plays : w'.playback.log = w.playback.log ∨
    ∃ entry : PlaybackEntry, entry.Plays block ∧ w'.playback.log = entry :: w.playback.log

namespace BlockStep

variable {block : Option Nat} {w w' : World}

theorem quiet (quiet : w.Quiet w') (view : w'.mainView = w.mainView) :
    BlockStep block w w' := ⟨.quiet quiet view, .inl quiet.playbackLog⟩

theorem records (e : PlaybackEntry)
    (quiet : ({ w with playback := w.playback.record e } : World).Quiet w')
    (observed : e.Observed w) (plays : e.Plays block)
    (view : w'.mainView = w.mainView) : BlockStep block w w' :=
  ⟨.records observed quiet view, .inr ⟨e, plays, quiet.playbackLog⟩⟩

theorem finishes (h : w' = w.pushEvent (.ofType .playbackFinished .playback)) :
    BlockStep block w { w' with playback := w'.playback.record (.finishes (¬w.events.Full)) } :=
  ⟨.finishes h, .inr ⟨.finishes (¬w.events.Full), trivial, by subst h; rfl⟩⟩

end BlockStep

/-- The steps of the capture thread. -/
inductive CaptureStep (w : World) : World → Prop where
  | quiet {w' : World} (quiet : w.Quiet w') (view : w'.mainView = w.mainView) :
      CaptureStep w w'
  | pushes {event : AppEvent} : event.origin = .capture → event.type = .captureSilenceTimeout →
      CaptureStep w (w.pushEvent event)
  | pushesBinary {payload : Bytes} {b : AudioBuffer Nat} :
      w.client.pendingBinary.push payload 0 w.started = some b →
      CaptureStep w { w with
        client.pendingBinary := b
        queued := ⟨.binary, payload⟩ :: w.queued }
  | records {entry : CaptureEntry} : CaptureStep w
      { w with capture := { w.capture with log := entry :: w.capture.log } }

/-- The steps of the capture thread that leave its history alone. -/
structure UploadStep (w w' : World) : Prop where
  step : CaptureStep w w'
  log : w'.capture.log = w.capture.log

namespace UploadStep

variable {w w' : World}

theorem quiet (quiet : w.Quiet w') (view : w'.mainView = w.mainView) : UploadStep w w' :=
  ⟨.quiet quiet view, quiet.captureLog⟩

theorem pushes {event : AppEvent} (h : event.origin = .capture)
    (ht : event.type = .captureSilenceTimeout) : UploadStep w (w.pushEvent event) :=
  ⟨.pushes h ht, rfl⟩

theorem pushesBinary {payload : Bytes} {b : AudioBuffer Nat}
    (h : w.client.pendingBinary.push payload 0 w.started = some b) : UploadStep w { w with
      client.pendingBinary := b
      queued := ⟨.binary, payload⟩ :: w.queued } := ⟨.pushesBinary h, rfl⟩

end UploadStep

/-- The steps of the handler of SIGINT. -/
inductive SignalStep (w : World) : World → Prop where
  | quiet {w' : World} (quiet : w.Quiet w') (view : w'.mainView = w.mainView) :
      SignalStep w w'
  | pushes {event : AppEvent} : event.origin = .signal → event.type = .shutdown →
      SignalStep w (w.pushEvent event)

/-- The steps of a thread. -/
def Step : ThreadId → World → World → Prop
  | .main => MainStep
  | .service k => fun w w' => ServiceStep k w w' ∨ w' = w.exit k
  | .playback => PlaybackStep
  | .capture => CaptureStep
  | .signal => SignalStep

theorem Step.refl : (i : ThreadId) → (w : World) → Step i w w
  | .main, _ => .quiet rfl rfl rfl rfl
  | .service _, _ => .inl (.quiet rfl rfl)
  | .playback, _ => .quiet rfl rfl
  | .capture, _ => .quiet rfl rfl
  | .signal, _ => .quiet rfl rfl

/-- A push by another thread leaves the main thread's variables alone. -/
theorem World.mainView_pushEvent {w : World} {e : AppEvent} (h : e.origin ≠ .main) :
    (w.pushEvent e).mainView = w.mainView := by
  simp [World.pushEvent, mainView, h]

/-- No other thread changes the main thread's variables. -/
theorem Step.mainView {i : ThreadId} {w w' : World} (hi : i ≠ .main) (h : Step i w w') :
    w'.mainView = w.mainView := by
  cases i with
  | main => exact absurd rfl hi
  | service k =>
    obtain h | rfl := h
    · cases h with
      | quiet _ hv => exact hv
      | connection _ _ hv => exact hv
      | pushes ho _ => exact World.mainView_pushEvent (by simp [ho])
      | delivers => exact World.mainView_pushEvent (by simp)
      | _ => rfl
    · rfl
  | playback =>
    cases h with
    | quiet _ hv => exact hv
    | records _ _ hv => exact hv
    | pops _ => rfl
    | finishes hw =>
      subst hw
      exact World.mainView_pushEvent (e := .ofType .playbackFinished .playback) (by simp)
  | capture =>
    cases h with
    | quiet _ hv => exact hv
    | pushes ho _ => exact World.mainView_pushEvent (by simp [ho])
    | _ => rfl
  | signal =>
    cases h with
    | quiet _ hv => exact hv
    | pushes ho _ => exact World.mainView_pushEvent (by simp [ho])

/-- Only the main thread adds to its history. -/
theorem Step.log_of_ne {i : ThreadId} {w w' : World} (hi : i ≠ .main) (h : Step i w w') :
    w'.log = w.log := congrArg MainView.log (h.mainView hi)

theorem Step.main_of_log {i : ThreadId} {w w' : World} {entry : MainEntry} (h : Step i w w')
    (hl : w'.log = entry :: w.log) : i = .main := by
  by_contra hi
  exact List.cons_ne_self _ _ (hl.symm.trans (h.log_of_ne hi))

/-! ## The event queue -/

theorem World.pushEvent_pushes {w : World} {e : AppEvent} :
    (w.pushEvent e).pushes = (e, (w.events.push e).1) :: w.pushes := rfl

theorem World.pushEvent_log {w : World} {e : AppEvent} (h : e.origin = .main) :
    (w.pushEvent e).log = .pushes e (w.events.push e).1 :: w.log := by
  simp [World.pushEvent, h]

/-- What is in the queue after a push was there before, or has been pushed. -/
theorem EventQueue.mem_push {q : EventQueue} {e x : AppEvent} (h : x ∈ (q.push e).2.toList) :
    x ∈ q.toList ∨ x = e := by
  rw [RingBuffer.Queue.push_toList] at h
  split at h
  · exact .inl h
  · exact (List.mem_append.mp h).imp_right List.mem_singleton.mp

/-- The other threads change the event queue only by pushing events of their own. -/
theorem Step.events_of_ne {i : ThreadId} {w w' : World} (hi : i ≠ .main) (h : Step i w w') :
    (w'.events = w.events ∧ w'.pushes = w.pushes) ∨
    ∃ e, e.origin = i ∧ w'.events = (w.events.push e).2 ∧
      w'.pushes = (e, (w.events.push e).1) :: w.pushes := by
  cases i with
  | main => exact absurd rfl hi
  | service k =>
    obtain h | rfl := h
    · cases h with
      | quiet hq _ => exact .inl ⟨hq.events, hq.pushes⟩
      | connection _ hq _ => exact .inl ⟨hq.events, hq.pushes⟩
      | pushes ho _ => exact .inr ⟨_, ho, rfl, rfl⟩
      | delivers => exact .inr ⟨_, rfl, rfl, rfl⟩
      | _ => exact .inl ⟨rfl, rfl⟩
    · exact .inl ⟨rfl, rfl⟩
  | playback =>
    cases h with
    | quiet hq _ => exact .inl ⟨hq.events, hq.pushes⟩
    | records _ hq _ => exact .inl ⟨hq.events, hq.pushes⟩
    | pops _ => exact .inl ⟨rfl, rfl⟩
    | finishes hw => subst hw; exact .inr ⟨_, rfl, rfl, rfl⟩
  | capture =>
    cases h with
    | quiet hq _ => exact .inl ⟨hq.events, hq.pushes⟩
    | pushes ho _ => exact .inr ⟨_, ho, rfl, rfl⟩
    | _ => exact .inl ⟨rfl, rfl⟩
  | signal =>
    cases h with
    | quiet hq _ => exact .inl ⟨hq.events, hq.pushes⟩
    | pushes ho _ => exact .inr ⟨_, ho, rfl, rfl⟩

/-- What a main thread entry other than of a queue operation tells about the state. -/
def MainEntry.Plain (w : World) : MainEntry → Prop
  | .takes _ | .pushes .. => False
  | .startFails errorQueued => errorQueued = w.errorQueued
  | .starts k => k = w.started + 1
  | .finds size => size = w.playback.queue.size
  | _ => True

/-- What a step does to the event queue and to the histories that go with it. -/
inductive HistoryStep (i : ThreadId) (w w' : World) : Prop where
  | same (log : w'.log = w.log) (events : w'.events = w.events) (pushes : w'.pushes = w.pushes)
      (texts : w'.texts = w.texts)
  | records (entry : MainEntry) (plain : entry.Plain w) (log : w'.log = entry :: w.log)
      (events : w'.events = w.events) (pushes : w'.pushes = w.pushes) (texts : w'.texts = w.texts)
  | takes (event : AppEvent) (log : w'.log = .takes event :: w.log)
      (events : w.events.toList = event :: w'.events.toList) (pushes : w'.pushes = w.pushes)
      (texts : w'.texts = w.texts)
  | pushes (event : AppEvent) (accepted : Bool) (origin : event.origin = i)
      (room : accepted = true ↔ ¬w.events.Full)
      (log : w'.log = if i = .main then .pushes event accepted :: w.log else w.log)
      (events : w'.events.toList =
        if accepted then w.events.toList ++ [event] else w.events.toList)
      (pushes : w'.pushes = (event, accepted) :: w.pushes)
      (texts : event.type ≠ .wsText ∧ w'.texts = w.texts ∨
        ∃ payload, event = .make .wsText (some payload) 0 i ∧ w'.texts = payload :: w.texts)

theorem EventQueue.push_toList_of_fst {q : EventQueue} {e : AppEvent} :
    (q.push e).2.toList = if (q.push e).1 then q.toList ++ [e] else q.toList := by
  rw [RingBuffer.Queue.push_toList]
  by_cases h : q.Full <;> simp [RingBuffer.Queue.push_fst, h]

/-- An event that has found room is in the queue. -/
theorem HistoryStep.mem_of_push {i : ThreadId} {w w' : World} {e : AppEvent}
    (h : HistoryStep i w w') (hp : w'.pushes = (e, true) :: w.pushes) :
    e ∈ w'.events.toList := by
  cases h with
  | same _ _ hsame => exact absurd (hp.symm.trans hsame) (List.cons_ne_self _ _)
  | records _ _ _ _ hsame => exact absurd (hp.symm.trans hsame) (List.cons_ne_self _ _)
  | takes _ _ _ hsame => exact absurd (hp.symm.trans hsame) (List.cons_ne_self _ _)
  | pushes event accepted _ _ _ hev hpush =>
    obtain ⟨rfl, rfl⟩ := Prod.mk.inj (List.cons.inj (hpush.symm.trans hp)).1
    simp [hev]

/-- A push by any thread but the main thread. -/
theorem HistoryStep.pushEvent {i : ThreadId} {w w' : World} {e : AppEvent} (hi : e.origin = i)
    (hlog : w'.log = if i = .main then .pushes e (w.events.push e).1 :: w.log else w.log)
    (hev : w'.events = (w.events.push e).2)
    (hpu : w'.pushes = (e, (w.events.push e).1) :: w.pushes)
    (htexts : e.type ≠ .wsText ∧ w'.texts = w.texts ∨
      ∃ payload, e = .make .wsText (some payload) 0 i ∧ w'.texts = payload :: w.texts) :
    HistoryStep i w w' :=
  .pushes e _ hi RingBuffer.Queue.push_fst hlog (hev ▸ EventQueue.push_toList_of_fst) hpu htexts

/-- Every step is of one of these kinds. -/
theorem Step.history {i : ThreadId} {w w' : World} (h : Step i w w') : HistoryStep i w w' := by
  -- only the main thread writes the log; the others push events at most
  cases i with
  | main =>
    cases h with
    | quiet hq hl _ _ => exact .same hl hq.events hq.pushes hq.texts
    | reserves _ => exact .same rfl rfl rfl rfl
    | stops => exact .same rfl rfl rfl rfl
    | joins _ => exact .same rfl rfl rfl rfl
    | @records entry ho =>
      refine .records entry ?_ rfl rfl rfl rfl
      cases entry <;> trivial
    | @queues payload _ _ => exact .records (.queues payload) trivial rfl rfl rfl rfl
    | starts => exact .records (.starts (w.started + 1)) rfl rfl rfl rfl rfl
    | takes hpop => exact .takes _ rfl (RingBuffer.Queue.pop_toList hpop) rfl rfl
    | pushes ho ht =>
      exact .pushEvent ho (World.pushEvent_log ho) rfl rfl (.inl ⟨ht, rfl⟩)
  | service k =>
    have hl : w'.log = w.log := h.log_of_ne (by simp)
    obtain h | rfl := h
    · cases h with
      | quiet hq _ => exact .same hl hq.events hq.pushes hq.texts
      | connection _ hq _ => exact .same hl hq.events hq.pushes hq.texts
      | pushes ho hout =>
        refine .pushEvent ho (by simpa using hl) rfl rfl (.inl ⟨fun ht => ?_, rfl⟩)
        obtain hc | he := hout
        · exact absurd (ht.symm.trans hc) (by simp)
        · exact absurd (ht.symm.trans he) (by simp)
      | delivers => exact .pushEvent rfl (by simpa using hl) rfl rfl (.inr ⟨_, rfl, rfl⟩)
      | _ => exact .same rfl rfl rfl rfl
    · exact .same rfl rfl rfl rfl
  | playback =>
    have hl : w'.log = w.log := h.log_of_ne (by simp)
    cases h with
    | quiet hq _ => exact .same hl hq.events hq.pushes hq.texts
    | records _ hq _ => exact .same hl hq.events hq.pushes hq.texts
    | pops _ => exact .same rfl rfl rfl rfl
    | finishes hw =>
      subst hw
      exact .pushEvent rfl (by simpa using hl) rfl rfl (.inl ⟨by simp, rfl⟩)
  | capture =>
    have hl : w'.log = w.log := h.log_of_ne (by simp)
    cases h with
    | quiet hq _ => exact .same hl hq.events hq.pushes hq.texts
    | pushes ho ht => exact .pushEvent ho (by simpa using hl) rfl rfl (.inl ⟨by simp [ht], rfl⟩)
    | _ => exact .same rfl rfl rfl rfl
  | signal =>
    have hl : w'.log = w.log := h.log_of_ne (by simp)
    cases h with
    | quiet hq _ => exact .same hl hq.events hq.pushes hq.texts
    | pushes ho ht => exact .pushEvent ho (by simpa using hl) rfl rfl (.inl ⟨by simp [ht], rfl⟩)

/-- The history of the main thread grows by one entry at a time. -/
theorem Step.log_cases {i : ThreadId} {w w' : World} (h : Step i w w') :
    w'.log = w.log ∨ ∃ entry, w'.log = entry :: w.log := by
  cases h.history with
  | same hl => exact .inl hl
  | records entry _ hl => exact .inr ⟨entry, hl⟩
  | takes event hl => exact .inr ⟨_, hl⟩
  | pushes event accepted _ _ hl =>
    split at hl
    · exact .inr ⟨_, hl⟩
    · exact .inl hl

/-! ## The playback -/

/-- What a step does to the playback queue and the history of the playback thread. -/
inductive SoundStep (i : ThreadId) (w w' : World) : Prop where
  | same (queue : w'.playback.queue = w.playback.queue)
      (enqueued : w'.playback.enqueued = w.playback.enqueued)
      (mark : w'.playback.stopMark = w.playback.stopMark ∨
        w'.playback.stopMark = w.playback.enqueued)
      (log : w'.playback.log = w.playback.log)
      (accepted : w'.playback.accepted = w.playback.accepted)
  | enqueues (pcm : Bytes) (rate : Int)
      (queue : w.playback.queue.push pcm rate w.playback.enqueued = some w'.playback.queue)
      (enqueued : w'.playback.enqueued = w.playback.enqueued + 1)
      (mark : w'.playback.stopMark = w.playback.stopMark) (log : w'.playback.log = w.playback.log)
      (accepted : w'.playback.accepted = pcm :: w.playback.accepted)
  | records (entry : PlaybackEntry) (self : i = .playback) (observed : entry.Observed w)
      (queue : w'.playback.queue = w.playback.queue)
      (enqueued : w'.playback.enqueued = w.playback.enqueued)
      (mark : w'.playback.stopMark = w.playback.stopMark)
      (log : w'.playback.log = entry :: w.playback.log)
      (accepted : w'.playback.accepted = w.playback.accepted)
  | pops (block : AudioBlock Nat) (self : i = .playback)
      (queue : w.playback.queue.pop = some (block, w'.playback.queue))
      (enqueued : w'.playback.enqueued = w.playback.enqueued)
      (mark : w'.playback.stopMark = w.playback.stopMark)
      (log : w'.playback.log = .pops block.tag :: w.playback.log)
      (accepted : w'.playback.accepted = w.playback.accepted)
  | finishes (accepted : Bool) (self : i = .playback)
      (queue : w'.playback.queue = w.playback.queue)
      (enqueued : w'.playback.enqueued = w.playback.enqueued)
      (mark : w'.playback.stopMark = w.playback.stopMark)
      (log : w'.playback.log = .finishes accepted :: w.playback.log)
      (pushes : w'.pushes = (.ofType .playbackFinished .playback, accepted) :: w.pushes)
      (blocks : w'.playback.accepted = w.playback.accepted)

theorem World.Quiet.sound {i : ThreadId} {w w' : World} (h : w.Quiet w') : SoundStep i w w' :=
  .same h.queue h.enqueued (.inl h.stopMark) h.playbackLog h.accepted

/-- Every step is of one of these kinds. -/
theorem Step.sound {i : ThreadId} {w w' : World} (h : Step i w w') : SoundStep i w w' := by
  -- blocks come from a service thread, and only the playback thread takes them
  cases i with
  | main =>
    cases h with
    | quiet hq _ _ _ => exact hq.sound
    | stops => exact .same rfl rfl (.inr rfl) rfl rfl
    | _ => exact .same rfl rfl (.inl rfl) rfl rfl
  | service k =>
    obtain h | rfl := h
    · cases h with
      | quiet hq _ => exact hq.sound
      | connection _ hq _ =>
        exact .same hq.queue hq.enqueued (.inl hq.stopMark) hq.playbackLog hq.accepted
      | enqueues hpush => exact .enqueues _ _ hpush rfl rfl rfl rfl
      | _ => exact .same rfl rfl (.inl rfl) rfl rfl
    · exact .same rfl rfl (.inl rfl) rfl rfl
  | playback =>
    cases h with
    | quiet hq _ => exact hq.sound
    | records ho hq _ =>
      exact .records _ rfl ho hq.queue hq.enqueued hq.stopMark hq.playbackLog hq.accepted
    | pops hpop => exact .pops _ rfl hpop rfl rfl rfl rfl
    | finishes hw =>
      subst hw
      refine .finishes _ rfl rfl rfl rfl rfl ?_ rfl
      rw [← EventQueue.push_fst_eq]
      rfl
  | capture =>
    cases h with
    | quiet hq _ => exact hq.sound
    | _ => exact .same rfl rfl (.inl rfl) rfl rfl
  | signal =>
    cases h with
    | quiet hq _ => exact hq.sound
    | _ => exact .same rfl rfl (.inl rfl) rfl rfl

/-- No step changes the number of channels. -/
theorem Step.channels {i : ThreadId} {w w' : World} (h : Step i w w') :
    w'.playback.channels = w.playback.channels := by
  cases i with
  | main =>
    cases h with
    | quiet hq _ _ _ => exact hq.channels
    | _ => rfl
  | service k =>
    obtain h | rfl := h
    · cases h with
      | quiet hq _ => exact hq.channels
      | connection _ hq _ => exact hq.channels
      | _ => rfl
    · rfl
  | playback =>
    cases h with
    | quiet hq _ => exact hq.channels
    | records _ hq _ => exact hq.channels
    | pops _ => rfl
    | finishes hw => subst hw; rfl
  | capture =>
    cases h with
    | quiet hq _ => exact hq.channels
    | _ => rfl
  | signal =>
    cases h with
    | quiet hq _ => exact hq.channels
    | _ => rfl

/-- Only the playback thread adds to its history. -/
theorem Step.playbackLog {i : ThreadId} {w w' : World} (hi : i ≠ .playback) (h : Step i w w') :
    w'.playback.log = w.playback.log := by
  cases h.sound with
  | same _ _ _ hl => exact hl
  | enqueues _ _ _ _ _ hl => exact hl
  | records _ hp => exact absurd hp hi
  | pops _ hp => exact absurd hp hi
  | finishes _ hp => exact absurd hp hi

/-! ## The capture -/

/-- No step changes the encoder. -/
theorem Step.encoder {i : ThreadId} {w w' : World} (h : Step i w w') : w'.encoder = w.encoder := by
  cases i with
  | main =>
    cases h with
    | quiet hq _ _ _ => exact hq.encoder
    | _ => rfl
  | service k =>
    obtain h | rfl := h
    · cases h with
      | quiet hq _ => exact hq.encoder
      | connection _ hq _ => exact hq.encoder
      | _ => rfl
    · rfl
  | playback =>
    cases h with
    | quiet hq _ => exact hq.encoder
    | records _ hq _ => exact hq.encoder
    | pops _ => rfl
    | finishes hw => subst hw; rfl
  | capture =>
    cases h with
    | quiet hq _ => exact hq.encoder
    | _ => rfl
  | signal =>
    cases h with
    | quiet hq _ => exact hq.encoder
    | _ => rfl

/-- Only the capture thread adds to its history. -/
theorem Step.captureLog {i : ThreadId} {w w' : World} (hi : i ≠ .capture) (h : Step i w w') :
    w'.capture.log = w.capture.log := by
  cases i with
  | main =>
    cases h with
    | quiet hq _ _ _ => exact hq.captureLog
    | _ => rfl
  | service k =>
    obtain h | rfl := h
    · cases h with
      | quiet hq _ => exact hq.captureLog
      | connection _ hq _ => exact hq.captureLog
      | _ => rfl
    · rfl
  | playback =>
    cases h with
    | quiet hq _ => exact hq.captureLog
    | records _ hq _ => exact hq.captureLog
    | pops _ => rfl
    | finishes hw => subst hw; rfl
  | capture => exact absurd rfl hi
  | signal =>
    cases h with
    | quiet hq _ => exact hq.captureLog
    | _ => rfl

/-! ## Messages -/

/-- The entries of the main thread's history that are about messages and connections. -/
def MainEntry.Sends : MainEntry → Prop
  | .queues _ | .starts _ => True
  | _ => False

/-- The step leaves the pending queues, the connections and the frames alone. -/
structure World.Unsent (w w' : World) : Prop where
  queued : w'.queued = w.queued
  texts : w'.client.pendingText.items = w.client.pendingText.items
  binary : w'.client.pendingBinary = w.client.pendingBinary
  lws : w'.lws = w.lws
  dequeued : w'.dequeued = w.dequeued
  wire : w'.wire = w.wire

/-- What a step does to the pending queues, the connections and the frames. -/
inductive FrameStep (i : ThreadId) (w w' : World) : Prop where
  | same (unsent : w.Unsent w') (started : w'.started = w.started)
      (log : w'.log = w.log ∨ ∃ entry : MainEntry, ¬entry.Sends ∧ w'.log = entry :: w.log)
  | queuesText (payload : Bytes) (self : i = .main)
      (unsent : ({ w with
        client.pendingText.items := w'.client.pendingText.items
        queued := ⟨.text, payload⟩ :: w.queued } : World).Unsent w')
      (texts : w'.client.pendingText.items =
        w.client.pendingText.items ++ [⟨payload, w.started⟩])
      (started : w'.started = w.started) (log : w'.log = .queues payload :: w.log)
  | starts (self : i = .main) (unsent : w.Unsent w') (started : w'.started = w.started + 1)
      (log : w'.log = .starts (w.started + 1) :: w.log)
  | queuesBinary (payload : Bytes) (self : i = .capture)
      (unsent : ({ w with
        client.pendingBinary := w'.client.pendingBinary
        queued := ⟨.binary, payload⟩ :: w.queued } : World).Unsent w')
      (binary : w.client.pendingBinary.push payload 0 w.started = some w'.client.pendingBinary)
      (started : w'.started = w.started) (log : w'.log = w.log)
  | service (k : Nat) (self : i = .service k) (step : ServiceStep k w w')

theorem World.Quiet.unsent {w w' : World} (h : w.Quiet w') : w.Unsent w' :=
  ⟨h.queued, h.pendingText, h.pendingBinary, h.lws, h.dequeued, h.wire⟩

/-- Every step is of one of these kinds. -/
theorem Step.frames {i : ThreadId} {w w' : World} (h : Step i w w') : FrameStep i w w' := by
  -- the main thread queues texts, the capture thread binary frames, and a service thread sends
  cases i with
  | main =>
    cases h with
    | quiet hq hl hst _ => exact .same hq.unsent hst (.inl hl)
    | reserves _ => exact .same ⟨rfl, rfl, rfl, rfl, rfl, rfl⟩ rfl (.inl rfl)
    | stops => exact .same ⟨rfl, rfl, rfl, rfl, rfl, rfl⟩ rfl (.inl rfl)
    | joins _ => exact .same ⟨rfl, rfl, rfl, rfl, rfl, rfl⟩ rfl (.inl rfl)
    | @records entry ho =>
      refine .same ⟨rfl, rfl, rfl, rfl, rfl, rfl⟩ rfl (.inr ⟨entry, fun hs => ?_, rfl⟩)
      cases entry <;> first | exact hs | exact ho
    | queues hitems => exact .queuesText _ rfl ⟨rfl, rfl, rfl, rfl, rfl, rfl⟩ hitems rfl rfl
    | starts => exact .starts rfl ⟨rfl, rfl, rfl, rfl, rfl, rfl⟩ rfl rfl
    | takes _ => exact .same ⟨rfl, rfl, rfl, rfl, rfl, rfl⟩ rfl (.inr ⟨_, id, rfl⟩)
    | pushes ho _ => exact .same ⟨rfl, rfl, rfl, rfl, rfl, rfl⟩ rfl (.inr ⟨_, id, World.pushEvent_log ho⟩)
  | service k =>
    have hv := h.mainView (by simp)
    obtain h | rfl := h
    · exact .service k rfl h
    · exact .same ⟨rfl, rfl, rfl, rfl, rfl, rfl⟩ rfl (.inl rfl)
  | playback =>
    have hl : w'.log = w.log := h.log_of_ne (by simp)
    have hst : w'.started = w.started := congrArg MainView.started (h.mainView (by simp))
    cases h with
    | quiet hq _ => exact .same hq.unsent hst (.inl hl)
    | records _ hq _ =>
      exact .same ⟨hq.queued, hq.pendingText, hq.pendingBinary, hq.lws, hq.dequeued, hq.wire⟩ hst (.inl hl)
    | pops _ => exact .same ⟨rfl, rfl, rfl, rfl, rfl, rfl⟩ rfl (.inl rfl)
    | finishes hw => subst hw; exact .same ⟨rfl, rfl, rfl, rfl, rfl, rfl⟩ rfl (.inl hl)
  | capture =>
    have hl : w'.log = w.log := h.log_of_ne (by simp)
    have hst : w'.started = w.started := congrArg MainView.started (h.mainView (by simp))
    cases h with
    | quiet hq _ => exact .same hq.unsent hst (.inl hl)
    | pushes _ _ => exact .same ⟨rfl, rfl, rfl, rfl, rfl, rfl⟩ rfl (.inl hl)
    | pushesBinary hpush => exact .queuesBinary _ rfl ⟨rfl, rfl, rfl, rfl, rfl, rfl⟩ hpush rfl rfl
    | records => exact .same ⟨rfl, rfl, rfl, rfl, rfl, rfl⟩ rfl (.inl rfl)
  | signal =>
    have hl : w'.log = w.log := h.log_of_ne (by simp)
    have hst : w'.started = w.started := congrArg MainView.started (h.mainView (by simp))
    cases h with
    | quiet hq _ => exact .same hq.unsent hst (.inl hl)
    | pushes _ _ => exact .same ⟨rfl, rfl, rfl, rfl, rfl, rfl⟩ rfl (.inl hl)

/-! ## The end of a service thread -/

/-- The exit of a service thread is the only step that changes `exited`. -/
theorem ServiceStep.exited {k : Nat} {w w' : World} (h : ServiceStep k w w') :
    w'.exited = w.exited := by
  cases h with
  | quiet hq _ => exact hq.exited
  | connection _ hq _ => exact hq.exited
  | _ => rfl

theorem Step.exited_of_ne {i : ThreadId} {k : Nat} {w w' : World} (hi : i ≠ .service k)
    (h : Step i w w') : w'.exited k = w.exited k := by
  cases i with
  | main =>
    cases h with
    | quiet hq => rw [hq.exited]
    | _ => rfl
  | service j =>
    obtain h | rfl := h
    · rw [h.exited]
    · exact Function.update_of_ne (fun hk => hi (by rw [hk])) _ _
  | playback =>
    cases h with
    | quiet hq => rw [hq.exited]
    | records _ hq => rw [hq.exited]
    | pops _ => rfl
    | finishes hw => subst hw; rfl
  | capture =>
    cases h with
    | quiet hq => rw [hq.exited]
    | _ => rfl
  | signal =>
    cases h with
    | quiet hq => rw [hq.exited]
    | _ => rfl

end Xiaozhi
