-- SUMMARY: The state that the threads of the application share: the runtime of `app.h`, the websocket library's side, and the history that statements speak about.
import Xiaozhi.Threads.System
import Xiaozhi.App.Session
import Xiaozhi.Audio.Buffer
import Xiaozhi.Protocol.Messages

/-!
# Runtime state

`app_runtime_t` with the client, the capture and the playback in it. Variables
that live on the stack of a thread across its loop (the sound device it has
open) are fields of the structure that the thread works for.

Fields marked *history* are not in the source and no function reads them. They
record what happened, the most recent first, for statements about runs.
-/

namespace Xiaozhi

/-- The part of `app_config_t` that the running threads read. -/
structure AppConfig where
  protocolVersion : Int
  inputSampleRate : Int
  silenceTimeoutMs : Int
  silenceThreshold : Int

/-- `opus_encoder_wrapper_t`, with an encoder in it. -/
structure OpusEncoder where
  sampleRate : Int
  channels : Int
  frameMs : Int
  samplesPerChannel : Int

/-- `opus_decoder_wrapper_t`, with a decoder in it. -/
structure OpusDecoder where
  sampleRate : Int
  channels : Int

/-! ## The websocket client -/

/-- A text that waits to be sent. History: `queuedIn` counts the service threads
    created before it was queued. -/
structure TextMessage where
  payload : Bytes
  queuedIn : Nat
  deriving DecidableEq

/-- `pending_text`. -/
structure PendingText where
  items : List TextMessage
  capacity : Nat

/-- The opcode of a websocket frame. -/
inductive Opcode where
  | text
  | binary
  deriving DecidableEq

/-- A message taken from the pending queues on a connection. -/
structure Frame where
  connection : Nat
  opcode : Opcode
  payload : Bytes
  queuedIn : Nat
  deriving DecidableEq

/-- A message accepted by `xiaozhi_client_queue_text` or `xiaozhi_client_queue_binary`. -/
structure Message where
  opcode : Opcode
  payload : Bytes
  deriving DecidableEq

/-- A fragment of a message, as received on a connection. -/
structure Fragment where
  connection : Nat
  opcode : Opcode
  data : Bytes
  final : Bool
  deriving DecidableEq

/-- A message handed to `on_text` or `on_binary`, while a connection is current. -/
structure Delivery where
  connection : Nat
  opcode : Opcode
  payload : Bytes
  deriving DecidableEq

/-- `xiaozhi_client_t`. A handle `wsi` and a thread are given by the number of
    the connection; binary messages are tagged like texts. -/
structure XiaozhiClient where
  context : Bool
  wsi : Option Nat
  thread : Option Nat
  running : Bool
  connected : Bool
  recvText : Bytes
  recvBinary : Bytes
  pendingText : PendingText
  pendingBinary : AudioBuffer Nat

/-- How far libwebsockets has got with a connection. It is `closing` once a
    callback has returned `-1`. -/
inductive LwsState where
  | absent
  | connecting
  | established
  | closing
  | gone
  deriving DecidableEq

/-- The callbacks of a client connection. `final` stands for
    `lws_remaining_packet_payload(wsi) == 0 && lws_is_final_fragment(wsi)`. -/
inductive LwsReason where
  | established
  | receive (binary : Bool) (data : Bytes) (final : Bool)
  | writeable
  | connectionError (message : Option Bytes)
  | closed
  deriving DecidableEq

/-! ## Sound -/

/-- What happens in the playback thread (history). Blocks are numbered in the
    order in which they were accepted. -/
inductive PlaybackEntry where
  /-- The stop flag is cleared; `mark` blocks were accepted before the request. -/
  | stops (mark : Nat)
  | pops (block : Nat)
  | opens (success : Bool)
  | writes (block : Nat) (pcm : Bytes)
  | writeFails
  | finishes (accepted : Bool)
  deriving DecidableEq

/-- `audio_playback_t`. `waiting` says that the thread is blocked in
    `pthread_cond_wait`; `pcm` and `currentRate` are the thread's. -/
structure AudioPlayback where
  channels : Nat
  queue : AudioBuffer Nat
  running : Bool
  stopRequested : Bool
  waiting : Bool
  pcm : Bool
  currentRate : Int
  /-- The number of blocks accepted so far (history). -/
  enqueued : Nat
  /-- The blocks accepted (history). -/
  accepted : List Bytes
  /-- The number of blocks accepted before the latest stop request (history). -/
  stopMark : Nat
  /-- History. -/
  log : List PlaybackEntry

/-- What happens to the audio that is read while uploads are enabled (history). -/
inductive CaptureEntry where
  /-- A chunk comes to `app_capture_on_pcm`. -/
  | reads (pcm : List Int16)
  /-- `opus_encode` is called on the samples `pcm`. -/
  | encodes (pcm : List Int16)
  deriving DecidableEq

/-- `audio_capture_t`; `pcm` is the thread's. -/
structure AudioCapture where
  sampleRate : Int
  channels : Nat
  periodFrames : Nat
  silenceTimeoutMs : Int
  silenceThreshold : Int
  running : Bool
  uploading : Bool
  silenceAccumulatorMs : Int
  pcm : Bool
  /-- History. -/
  log : List CaptureEntry

/-! ## The application -/

/-- `app_runtime_t`. -/
structure AppRuntime where
  config : AppConfig
  events : EventQueue
  session : SessionState
  client : XiaozhiClient
  encoder : Option OpusEncoder
  decoder : Option OpusDecoder
  capture : AudioCapture
  playback : AudioPlayback
  stopRequested : Bool
  clientStarted : Bool
  uploadEnabled : Bool
  ttsDone : Bool
  decoderSampleRate : Int
  opusDumpFile : Option Bytes
  opusDumpIndex : Nat
  sessionId : Bytes

/-- What the main thread does (history). -/
inductive MainEntry where
  /-- `event_queue_pop` returns an event. -/
  | takes (event : AppEvent)
  /-- A text goes to `xiaozhi_parse_incoming_json`. -/
  | parses (text : Bytes)
  /-- `app_handle_protocol_event` is called. -/
  | handles (event : XiaozhiIncomingEvent)
  /-- `app_handle_action` is called. -/
  | performs (action : SessionAction)
  /-- `app_reset_to_idle` looks at `client_started` and `connected`, in the state `state`. -/
  | resets (state : SessionState) (connected : Bool)
  /-- The playback queue holds `size` blocks at a tts stop. -/
  | finds (size : Nat)
  | pushes (event : AppEvent) (accepted : Bool)
  | queues (text : Bytes)
  /-- `xiaozhi_client_start` finds the client running. -/
  | runsAlready
  /-- `xiaozhi_client_start` creates the service thread `k`. -/
  | starts (k : Nat)
  /-- `pthread_create` fails; `errorQueued` tells whether an error event is queued then. -/
  | startFails (errorQueued : Bool)
  deriving DecidableEq

/-- The state of the whole system. -/
structure World extends AppRuntime where
  lws : Nat → LwsState
  /-- `lws_callback_on_writable` was called, and the callback has not come yet. -/
  writable : Nat → Bool
  /-- The number of service threads created so far. -/
  started : Nat
  exited : Nat → Bool
  joined : List Nat
  /-- What `app_run` has returned. -/
  returned : Option Int
  /-- What the main thread did (history). -/
  log : List MainEntry
  /-- The events pushed, and whether there was room (history). -/
  pushes : List (AppEvent × Bool)
  /-- For each push, the number of blocks that the playback had accepted (history). -/
  marks : List Nat
  /-- The messages handed to `on_text` (history). -/
  texts : List Bytes
  /-- The fragments received (history). -/
  received : List Fragment
  /-- The messages handed to `on_text` and `on_binary` (history). -/
  delivered : List Delivery
  /-- How often `ensure_text_capacity` has made sure of room for a text (history). -/
  checks : Nat
  /-- The messages accepted for sending (history). -/
  queued : List Message
  /-- The messages taken from the pending queues (history). -/
  dequeued : List Frame
  /-- The frames written (history). -/
  wire : List Frame

/-- What the environment answers: the outcome of a call to the system or to a
    library, or what a wait ends with. -/
inductive Answer where
  | ok
  | fail
  | nothing
  | spurious
  | eof
  | input (line : Bytes)
  | callback (reason : LwsReason)
  | count (n : Nat)
  | error (recovered : Bool)
  | captured (pcm : List Int16)
  | decoded (frames : Int) (pcm : Bytes)
  | packet (bytes : Bytes)
  deriving DecidableEq

instance : Nonempty Answer := ⟨.ok⟩

/-- A program of one of the threads. -/
abbrev Thread := Threads.Prog World Answer

namespace Thread

/-- A call that succeeds or fails, with no other effect: `malloc`, `strdup`. -/
def choose : Thread Bool := .ask fun
  | .ok => some true
  | .fail => some false
  | _ => none

/-- `if (cond) p`. -/
def when (cond : Bool) (p : Thread Unit) : Thread Unit := if cond then p else pure ()

end Thread

namespace World

/-- `event_queue_push(&app->events, event)`. -/
def pushEvent (w : World) (event : AppEvent) : World :=
  let (accepted, events) := w.events.push event
  { w with
    events
    pushes := (event, accepted) :: w.pushes
    marks := w.playback.enqueued :: w.marks
    log := if event.origin = .main then .pushes event accepted :: w.log else w.log }

/-- Add to the history of the main thread. -/
def record (w : World) (entry : MainEntry) : World := { w with log := entry :: w.log }

/-- `lws_callback_on_writable`, when there is a handle. -/
def requestWritable (w : World) : Option Nat → World
  | some k => { w with writable := Function.update w.writable k true }
  | none => w

/-- An error event is in the queue. -/
def errorQueued (w : World) : Bool := w.events.toList.any (·.type = .error)

end World

/-- `app_push_event`, called by the thread `self`. -/
def appPushEvent (self : ThreadId) (type : AppEventType) (text : Option Bytes) (code : Int) :
    Thread Unit :=
  .modify (·.pushEvent (.make type text code self))

end Xiaozhi
