-- SUMMARY: Application events and the bounded queue that the threads push them into.
import Xiaozhi.Data.RingBuffer
import Xiaozhi.Data.CString

/-!
# Events

`event_queue.h`: what the threads tell the main loop. The queue is a ring of
64 events; a push into a full queue is refused, and no caller looks at that.
-/

namespace Xiaozhi

/-- `app_event_type_t`. -/
inductive AppEventType where
  | none
  | manualStart
  | manualStop
  | wakewordDetected
  | wsConnected
  | wsHello
  | wsText
  | wsBinary
  | captureSilenceTimeout
  | playbackFinished
  | error
  | shutdown
  deriving DecidableEq, Repr

/-- The threads of the application. The websocket service threads are numbered
    from 1 in the order of their creation; each serves one connection. The
    handler of SIGINT counts as a thread. -/
inductive ThreadId where
  | main
  | service (k : Nat)
  | playback
  | capture
  | signal
  deriving DecidableEq, Repr

/-- `app_event_t`, with the thread that pushed it. The source does not record
    the thread, and no function reads it. -/
structure AppEvent where
  type : AppEventType
  code : Int
  dataLen : Nat
  text : Bytes
  origin : ThreadId
  deriving DecidableEq, Repr

/-- `event_queue_t`. -/
abbrev EventQueue := RingBuffer.Queue AppEvent

namespace AppEvent

/-- `memset(&event, 0, sizeof(event))`, and the type. -/
def ofType (type : AppEventType) (origin : ThreadId) : AppEvent :=
  { type, code := 0, dataLen := 0, text := [], origin }

/-- The event that `app_push_event` fills in; `text` has 1024 bytes. -/
def make (type : AppEventType) (text : Option Bytes) (code : Int) (origin : ThreadId) : AppEvent :=
  let copied := (text.map (CString.copy 1024)).getD []
  { type, code, dataLen := copied.length, text := copied, origin }

@[simp] theorem ofType_type {type : AppEventType} {origin : ThreadId} :
    (ofType type origin).type = type := rfl
@[simp] theorem ofType_origin {type : AppEventType} {origin : ThreadId} :
    (ofType type origin).origin = origin := rfl
@[simp] theorem make_type {type : AppEventType} {text : Option Bytes} {code : Int}
    {origin : ThreadId} : (make type text code origin).type = type := rfl
@[simp] theorem make_origin {type : AppEventType} {text : Option Bytes} {code : Int}
    {origin : ThreadId} : (make type text code origin).origin = origin := rfl

/-- The event reports the outcome of a connection attempt, or the end of a connection. -/
def IsOutcome (e : AppEvent) : Prop := e.type = .wsConnected ∨ e.type = .error

instance (e : AppEvent) : Decidable e.IsOutcome := inferInstanceAs (Decidable (_ ∨ _))

end AppEvent

namespace EventQueue

/-- `event_queue_init(&app->events, 64)`. -/
def init64 : EventQueue := .init 64 fun _ => .ofType .none .main

end EventQueue

end Xiaozhi
