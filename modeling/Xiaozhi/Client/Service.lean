-- SUMMARY: The websocket service thread: the callbacks of libwebsockets, and the thread around them.
import Xiaozhi.Client.Client
import Xiaozhi.Audio.Playback

/-!
# Service thread

The part of `xiaozhi_client.c` that runs in the service thread `k`, with the
callbacks of `app.c` that it calls. libwebsockets delivers the callbacks of a
connection in the order that `LwsState` allows, `writeable` only on request,
and closes a connection after a callback has returned `-1`.
-/

namespace Xiaozhi

namespace OpusDecoder

/-- `opus_decode_frame`, with room for `capacity` samples. `opus_decode` answers
    the number of samples per channel, and fills in the interleaved samples. -/
def decodeFrame (packet : Bytes) (capacity : Nat) : Thread (Int × Bytes) := do
  match ← Threads.Prog.read fun w => w.decoder with
  | some dec =>
    let frameCapacity := capacity / dec.channels.toNat
    if packet = [] ∨ dec.channels ≤ 0 ∨ frameCapacity = 0 then
      return (-1, [])
    else
      .ask fun
        | .decoded frames pcm =>
          if frames ≤ frameCapacity ∧
              (pcm.length : Int) = max frames 0 * dec.channels * 2 then
            some (frames, pcm)
          else
            none
        | _ => none
  | none => return (-1, [])

end OpusDecoder

/-! ## The callbacks of the application -/

/-- `app_client_on_connected`. -/
def appClientOnConnected (k : Nat) : Thread Unit :=
  appPushEvent (.service k) .wsConnected none 0

/-- `app_client_on_disconnected`. -/
def appClientOnDisconnected (k : Nat) (code : Int) : Thread Unit := do
  let message := CString.ofString "websocket disconnected (code=" ++ CString.ofInt code ++
    CString.ofString ")"
  if ← .read fun w => w.stopRequested then
    pure ()
  else
    appPushEvent (.service k) .error (some message) code

/-- `app_client_on_text`. The hand-over is recorded with the push: it is a C
    string that is handed over. -/
def appClientOnText (k : Nat) (payload : Bytes) : Thread Unit := .modify fun w =>
  { w with
    texts := payload :: w.texts
    delivered := ⟨k, .text, CString.ofBytes payload⟩ :: w.delivered }.pushEvent
      (.make .wsText (some payload) 0 (.service k))

/-- The first test in `app_client_on_binary`. The hand-over is recorded with it. -/
def ignoresBinary (data : Bytes) : Thread Bool := .atomic fun w =>
  (decide (w.uploadEnabled ∨ data = []),
    { w with delivered := ⟨w.started, .binary, data⟩ :: w.delivered })

/-- `app_client_on_binary`. -/
def appClientOnBinary (data : Bytes) : Thread Unit := do
  if ← ignoresBinary data then
    pure ()
  else
    let (frames, pcm) ← OpusDecoder.decodeFrame data 4096
    if frames > 0 then
      let rate ← .read fun w => w.decoderSampleRate
      let _ ← AudioPlayback.enqueue pcm frames.toNat rate
    else
      pure ()

/-- `app_client_on_error`. -/
def appClientOnError (k : Nat) (message : Bytes) : Thread Unit :=
  appPushEvent (.service k) .error (some message) (-1)

namespace XiaozhiClient

/-- `xiaozhi_client_notify_error`. -/
def notifyError (k : Nat) (message : String) : Thread Unit :=
  appClientOnError k (CString.ofString message)

/-! ## Receiving -/

/-- The binary message is `recv_binary` with the fragment; `none` if it is too large. -/
def collectBinary (payload : Bytes) : Thread (Option Bytes) := .atomic fun w =>
  let message := w.client.recvBinary ++ payload
  if message.length > 4096 then
    (none, { w with client.recvBinary := [] })
  else
    (some message, { w with client.recvBinary := message })

/-- `xiaozhi_client_feed_binary_fragment`. -/
def feedBinaryFragment (payload : Bytes) (final : Bool) : Thread Bool := do
  if payload = [] then
    return false
  else
    match ← collectBinary payload with
    | some message =>
      if final then
        appClientOnBinary message
        .modify fun w => { w with client.recvBinary := [] }
        return true
      else
        return true
    | none => return false

/-- The text message is `recv_text` with the fragment; `none` if it is too large. -/
def collectText (payload : Bytes) : Thread (Option Bytes) := .atomic fun w =>
  let message := w.client.recvText ++ payload
  if message.length ≥ 4096 then
    (none, { w with client.recvText := [] })
  else
    (some message, { w with client.recvText := message })

/-- `LWS_CALLBACK_CLIENT_RECEIVE`. -/
def onReceive (k : Nat) (binary : Bool) (payload : Bytes) (final : Bool) : Thread Unit := do
  if binary then
    if ← feedBinaryFragment payload final then
      pure ()
    else
      notifyError k "received binary frame too large"
  else
    match ← collectText payload with
    | some message =>
      if final then
        appClientOnText k message
        .modify fun w => { w with client.recvText := [] }
      else
        pure ()
    | none => notifyError k "received text frame too large"

/-! ## Sending -/

/-- What `xiaozhi_client_pop_text_locked` and `xiaozhi_client_pop_binary_locked`
    find: a message, nothing, or no memory for a copy. -/
inductive Popped where
  | message (frame : Frame)
  | nothing
  | failed

/-- The first critical section of `LWS_CALLBACK_CLIENT_WRITEABLE`: texts go first. -/
def popPending (k : Nat) : Thread Popped := .act (fun c w =>
  let client := w.client
  match client.pendingText.items with
  | m :: rest =>
    let frame : Frame := ⟨k, .text, m.payload, m.queuedIn⟩
    some (.message frame, { w with
      client := { client with pendingText.items := rest }
      dequeued := frame :: w.dequeued })
  | [] =>
    match client.pendingBinary.pop with
    | some (block, rest) =>
      let frame : Frame := ⟨k, .binary, rest.read block, block.tag⟩
      match c with
      | .ok => some (.message frame, { w with
          client := { client with pendingBinary := rest }
          dequeued := frame :: w.dequeued })
      | .fail => some (.failed, { w with
          client := { client with pendingBinary := rest }
          dequeued := frame :: w.dequeued })
      | _ => none
    | none => some (.nothing, w)) .ret

/-- `lws_write` on the handle of connection `k`. -/
def lwsWrite (k : Nat) (frame : Frame) : Thread Bool := .act (fun c w =>
  match c with
  | .ok => some (true, { w with wire := { frame with connection := k } :: w.wire })
  | .fail => some (false, w)
  | _ => none) .ret

/-- The end of `LWS_CALLBACK_CLIENT_WRITEABLE`: ask for another one if messages wait. -/
def rearm (k : Nat) : Thread Unit := do
  let pending ← .read fun w =>
    decide (w.client.pendingText.items ≠ [] ∨ w.client.pendingBinary.size > 0)
  Thread.when pending (.modify (·.requestWritable (some k)))

/-- `LWS_CALLBACK_CLIENT_WRITEABLE`; `false` is the result `-1`. -/
def onWriteable (k : Nat) : Thread Bool := do
  match ← popPending k with
  | .message frame =>
    if ← Thread.choose then
      if ← lwsWrite k frame then
        rearm k
        return true
      else
        return false
    else
      return false
  | .nothing =>
    rearm k
    return true
  | .failed => return false

/-! ## The callback -/

/-- The critical section of the callbacks that end a connection. -/
def clearConnection : Thread Unit := .modify fun w =>
  { w with client := { w.client with connected := false, wsi := none } }

/-- `xiaozhi_client_callback`; `false` is the result `-1`. -/
def callback (k : Nat) : LwsReason → Thread Bool
  | .established => do
    .modify fun w => { w with client := { w.client with wsi := some k, connected := true } }
    appClientOnConnected k
    signalWritable
    return true
  | .receive binary payload final => do
    onReceive k binary payload final
    return true
  | .writeable => onWriteable k
  | .connectionError message => do
    clearConnection
    appClientOnError k (message.getD (CString.ofString "client connection error"))
    return true
  | .closed => do
    clearConnection
    appClientOnDisconnected k 0
    return true

/-! ## The library -/

/-- The callbacks that libwebsockets may deliver in a state, and the state they lead to. -/
def lwsNext (state : LwsState) (writable : Bool) : LwsReason → Option LwsState
  | .established => if state = .connecting then some .established else none
  | .connectionError _ => if state = .connecting then some .gone else none
  | .receive .. => if state = .established then some .established else none
  | .writeable => if state = .established ∧ writable then some .established else none
  | .closed => if state = .established ∨ state = .closing then some .gone else none

/-- The fragment that a callback of connection `k` brings, if any. -/
def fragment (k : Nat) : LwsReason → Option Fragment
  | .receive binary data final => some ⟨k, if binary then .binary else .text, data, final⟩
  | _ => none

/-- The library picks the next callback of connection `k`; invoking `writeable`
    ends the request for it. -/
def deliver (k : Nat) (reason : LwsReason) (w : World) : Option World :=
  (lwsNext (w.lws k) (w.writable k) reason).map fun state =>
    let writable := w.writable k && decide (reason ≠ .writeable)
    { w with
      lws := Function.update w.lws k state
      writable := Function.update w.writable k writable
      received := (fragment k reason).toList ++ w.received }

/-- Inside `lws_service`: the next callback, or none. -/
def nextCallback (k : Nat) : Thread (Option LwsReason) := .act (fun c w =>
  match c with
  | .nothing => some (none, w)
  | .callback reason => (deliver k reason w).map fun w' => (some reason, w')
  | _ => none) .ret

/-- `lws_service`. -/
def lwsService (k : Nat) : Thread Unit := .iter (fun _ : Unit => do
  match ← nextCallback k with
  | some reason =>
    if ← callback k reason then
      return .inl ()
    else
      .modify fun w => { w with lws := Function.update w.lws k .closing }
      return .inl ()
  | none => return .inr ()) () .ret

/-- What `lws_context_destroy` delivers: `closed` on a connection that was
    established; on one that still connects it may report an error. -/
def lastCallback (k : Nat) : Thread (Option LwsReason) := .act (fun c w =>
  let gone := { w with lws := Function.update w.lws k .gone }
  match w.lws k, c with
  | .established, _ => some (some .closed, gone)
  | .closing, _ => some (some .closed, gone)
  | .connecting, .callback (.connectionError message) =>
    some (some (.connectionError message), gone)
  | _, .nothing => some (none, gone)
  | _, _ => none) .ret

/-- `lws_context_destroy(client->context)`, and `client->context = NULL`. -/
def contextDestroy (k : Nat) : Thread Unit := do
  match ← lastCallback k with
  | some reason =>
    let _ ← callback k reason
    .modify fun w => { w with client.context := false }
  | none => .modify fun w => { w with client.context := false }

/-- `lws_create_context`. -/
def createContext : Thread Bool := .act (fun c w =>
  match c with
  | .ok => some (true, { w with client.context := true })
  | .fail => some (false, { w with client.context := false })
  | _ => none) .ret

/-- `lws_client_connect_via_info`, which also sets `client->wsi`. When it fails
    it may have reported an error before. -/
def connectViaInfo (k : Nat) : Thread (Bool × Option LwsReason) := .act (fun c w =>
  match c with
  | .ok => some ((true, none),
      { w with lws := Function.update w.lws k .connecting, client.wsi := some k })
  | .fail => some ((false, none), { w with client.wsi := none })
  | .callback (.connectionError message) =>
    some ((false, some (.connectionError message)), { w with client.wsi := none })
  | _ => none) .ret

/-- The service loop of `xiaozhi_client_thread`, and what follows it. -/
def serviceLoop (k : Nat) : Thread Unit := do
  .while_ (.read fun w => w.client.running) (lwsService k)
  contextDestroy k
  .modify fun w => { w with client := { w.client with wsi := none, connected := false } }

/-- `xiaozhi_client_thread`. -/
def serviceMain (k : Nat) : Thread Unit := do
  if ← createContext then
    -- `lws_parse_uri`
    if ← Thread.choose then
      match ← connectViaInfo k with
      | (true, _) => serviceLoop k
      | (false, some reason) =>
        let _ ← callback k reason
        notifyError k "failed to initiate websocket connection"
        contextDestroy k
      | (false, none) =>
        notifyError k "failed to initiate websocket connection"
        contextDestroy k
    else
      notifyError k "failed to parse websocket url"
      contextDestroy k
  else
    notifyError k "failed to create lws context"

/-- The thread `k` runs once, after its creation. -/
def serviceThread (k : Nat) : Thread Unit := do
  .await fun w => decide (0 < k ∧ k ≤ w.started) && !w.exited k
  serviceMain k
  .modify fun w => { w with exited := Function.update w.exited k true }

end XiaozhiClient

end Xiaozhi
