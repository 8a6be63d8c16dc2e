-- SUMMARY: The main thread: actions, protocol events, manual input and the loop of `app_run`.
import Xiaozhi.Audio.Capture
import Xiaozhi.Audio.Playback

/-!
# Main loop

The part of `app.c` that runs in the main thread. `cJSON_Parse` is a parameter.
Logging is left out, and so is the sleep before a reconnect, during which the
other threads run as they do between any two actions.
-/

namespace Xiaozhi

namespace App

open XiaozhiProtocol CString

/-! ## The dump file -/

/-- `app_open_opus_dump_file`; the answer says whether one of the two paths opens. -/
def openOpusDumpFile : Thread Bool := .act (fun c w =>
  let w' := { w with opusDumpIndex := w.opusDumpIndex + 1 }
  match c with
  | .ok => some (true, { w' with opusDumpFile := some [] })
  | .fail => some (false, { w' with opusDumpFile := none })
  | _ => none) .ret

/-- `app_close_opus_dump_file`. -/
def closeOpusDumpFile : Thread Unit := .modify fun w => { w with opusDumpFile := none }

/-! ## Small steps -/

/-- `app->upload_enabled = enabled`. -/
def setUploadEnabled (enabled : Bool) : Thread Unit :=
  .modify fun w => { w with uploadEnabled := enabled }

/-- `app->tts_done = done`. -/
def setTtsDone (done : Bool) : Thread Unit := .modify fun w => { w with ttsDone := done }

/-- `app->session.state = state`. -/
def setState (state : SessionState) : Thread Unit := .modify fun w => { w with session := state }

/-- `app->client_started = started`. -/
def setClientStarted (started : Bool) : Thread Unit :=
  .modify fun w => { w with clientStarted := started }

/-- `snprintf(app->session_id, sizeof(app->session_id), "%s", id)`. -/
def setSessionId (id : Bytes) : Thread Unit := .modify fun w => { w with sessionId := copy 64 id }

/-- Add to the history. -/
def record (entry : MainEntry) : Thread Unit := .modify (·.record entry)

/-- `app_push_event` in the main thread. -/
def pushEvent (type : AppEventType) (text : Option Bytes) (code : Int) : Thread Unit :=
  appPushEvent .main type text code

/-- `app_push_event(app, APP_EVENT_ERROR, message, -1)`. -/
def pushError (message : String) : Thread Unit := pushEvent .error (some (ofString message)) (-1)

/-- `session_handle_event(&app->session, event)`. -/
def sessionHandleEvent (event : AppEventType) : Thread SessionAction := .atomic fun w =>
  let (state, action) := Session.handleEvent w.session event
  (action, { w with session := state })

/-! ## Sending -/

/-- Queue a message if it could be built. -/
def queuePayload : Option Bytes → Thread Bool
  | some payload => XiaozhiClient.queueText payload
  | none => pure false

/-- `app_send_hello`. -/
def sendHello : Thread Bool := do
  let config ← .read fun w => w.config
  queuePayload (buildHello {
    protocolVersion := config.protocolVersion
    sampleRate := config.inputSampleRate
    channels := 1
    frameDurationMs := 60 } 512)

/-- `app_send_listen_start`. -/
def sendListenStart : Thread Bool := do
  let id ← .read fun w => w.sessionId
  if id = [] then
    return false
  else
    queuePayload (buildListenStartManual id 256)

/-- `app_send_listen_stop`. -/
def sendListenStop : Thread Bool := do
  let id ← .read fun w => w.sessionId
  if id = [] then
    return false
  else
    queuePayload (buildListenStopManual id 256)

/-- `app_send_abort`. -/
def sendAbort : Thread Bool := queuePayload (buildAbort (some (ofString "manual_interrupt")) 256)

/-! ## Actions -/

/-- The end of an upload, in the order that most of the branches share. -/
def stopUpload : Thread Unit := do
  setUploadEnabled false
  AudioCapture.setUploading false
  closeOpusDumpFile

/-- `SESSION_ACTION_CONNECT`. -/
def connect : Thread Unit := do
  setSessionId []
  setTtsDone false
  if ← XiaozhiClient.start then
    setClientStarted true
  else
    pushError "failed to start websocket client"

/-- `SESSION_ACTION_START_LISTEN`. -/
def startListen : Thread Unit := do
  if ← sendListenStart then
    if ← openOpusDumpFile then
      setUploadEnabled true
      setState .uploadingAudio
      AudioCapture.setUploading true
    else
      pushError "failed to open opus dump file"
  else
    pushError "failed to queue listen start"

/-- `SESSION_ACTION_STOP_LISTEN`. -/
def stopListen : Thread Unit := do
  stopUpload
  if ← sendListenStop then
    pure ()
  else
    pushError "failed to queue listen stop"

/-- `SESSION_ACTION_ABORT`. -/
def abort : Thread Unit := do
  stopUpload
  let _ ← sendAbort
  AudioPlayback.requestStop
  Thread.when (← .read fun w => w.clientStarted) XiaozhiClient.stop
  setClientStarted false
  setSessionId []
  if ← XiaozhiClient.start then
    setClientStarted true
  else
    pushError "failed to restart websocket client"

/-- `SESSION_ACTION_RETURN_TO_WAKE`. -/
def returnToWake : Thread Unit := do
  setUploadEnabled false
  setTtsDone false
  AudioCapture.setUploading false
  closeOpusDumpFile
  setSessionId []
  Thread.when (← .read fun w => w.clientStarted) do
    XiaozhiClient.stop
    setClientStarted false
  setState .connecting
  Thread.when (← XiaozhiClient.start) (setClientStarted true)

/-- `app_handle_action`. -/
def handleAction (action : SessionAction) : Thread Unit := do
  record (.performs action)
  match action with
  | .connect => connect
  | .sendHello => do
    if ← sendHello then
      pure ()
    else
      pushError "failed to queue hello"
  | .startListen => startListen
  | .stopListen => stopListen
  | .abort => abort
  | .returnToWake => returnToWake
  | .none => pure ()
  | .startPlayback => pure ()

/-- `app_handle_action(app, session_handle_event(&app->session, type))`. -/
def handleSessionEvent (type : AppEventType) : Thread Unit := do
  let action ← sessionHandleEvent type
  handleAction action

/-- The test in `app_reset_to_idle`: the client is started and connected. -/
def lookConnected : Thread Bool := .atomic fun w =>
  let connected := w.clientStarted && XiaozhiClient.isConnected w
  (connected, w.record (.resets w.session connected))

/-- `app_reset_to_idle`. -/
def resetToIdle : Thread Unit := do
  setUploadEnabled false
  setTtsDone false
  AudioCapture.setUploading false
  closeOpusDumpFile
  if ← lookConnected then
    setState .ready
  else
    setState .idle

/-! ## Protocol events -/

/-- `opus_decoder_wrapper_init`, and what `app_update_decoder_from_hello` does
    with the result; the answer says whether `opus_decoder_create` succeeds. -/
def initDecoder (sampleRate channels : Int) : Thread Unit := do
  if sampleRate ≤ 0 ∨ channels ≤ 0 then
    pure ()
  else if ← Thread.choose then
    .modify fun w => { w with decoder := some { sampleRate, channels } }
    .modify fun w => { w with decoderSampleRate := sampleRate }
  else
    pure ()

/-- `app_update_decoder_from_hello`. -/
def updateDecoderFromHello (event : XiaozhiIncomingEvent) : Thread Unit := do
  let current ← .read fun w => w.decoderSampleRate
  let sampleRate := if event.outputSampleRate > 0 then event.outputSampleRate else current
  let channels := if event.outputChannels > 0 then event.outputChannels else 1
  if sampleRate = current ∧ channels = 1 then
    pure ()
  else
    .modify fun w => { w with decoder := none }
    initDecoder sampleRate channels

/-- `XIAOZHI_EVENT_HELLO`. -/
def handleHello (event : XiaozhiIncomingEvent) : Thread Unit := do
  Thread.when (event.sessionId ≠ []) (setSessionId event.sessionId)
  updateDecoderFromHello event
  handleSessionEvent .wsHello

/-- `XIAOZHI_EVENT_TTS_START`. -/
def handleTtsStart : Thread Unit := do
  setUploadEnabled false
  AudioCapture.setUploading false
  setState .playingTts
  setTtsDone false

/-- `audio_buffer_size(&app->playback.queue)`. -/
def findQueueSize : Thread Nat := .atomic fun w =>
  let size := w.playback.queue.size
  (size, w.record (.finds size))

/-- `XIAOZHI_EVENT_TTS_STOP`. -/
def handleTtsStop : Thread Unit := do
  setTtsDone true
  let size ← findQueueSize
  Thread.when (size = 0) resetToIdle

/-- `app_handle_protocol_event`. -/
def handleProtocolEvent (event : XiaozhiIncomingEvent) : Thread Unit := do
  record (.handles event)
  match event.type with
  | .hello => handleHello event
  | .ttsStart => handleTtsStart
  | .ttsStop => handleTtsStop
  | _ => pure ()

/-! ## Manual input -/

/-- `app_request_stop`, called by the thread `self`. -/
def requestStop (self : ThreadId) : Thread Unit := do
  .modify fun w => { w with stopRequested := true }
  appPushEvent self .shutdown none 0

/-- `app_handle_manual_line`. -/
def handleManualLine (line : Bytes) : Thread Unit := do
  if line = ofString "q\n" ∨ line = ofString "q\r\n" then
    requestStop .main
  else if line ≠ ofString "\n" ∧ line ≠ ofString "\r\n" then
    pure ()
  else
    let state ← .read fun w => w.session
    if state = .uploadingAudio then
      pushEvent .manualStop none 0
    else
      pushEvent .manualStart none 0

/-- What `app_poll_stdin` finds on the terminal. `fgets` reads at most 127 bytes. -/
def readStdin : Thread Answer := .ask fun
  | .input line => if line.length ≤ 127 then some (.input line) else none
  | .eof => some .eof
  | .nothing => some .nothing
  | _ => none

/-- `app_poll_stdin`. -/
def pollStdin : Thread Unit := do
  match ← readStdin with
  | .input line => handleManualLine line
  | .eof => requestStop .main
  | _ => pure ()

/-! ## The loop -/

/-- What `event_queue_pop` returns. -/
inductive Popped where
  | event (event : AppEvent)
  | timeout
  | failed

/-- A check of `event_queue_pop` that may find an event. -/
def tryPop : Thread (Option AppEvent) := .atomic fun w =>
  match w.events.pop with
  | some (event, events) => (some event, { w with events }.record (.takes event))
  | none => (none, w)

/-- How a wait on the condition variable ends: signalled, timed out, or with an error. -/
def waitEvent : Thread (Unit ⊕ Popped) := .ask fun
  | .ok => some (.inl ())
  | .nothing => some (.inr .timeout)
  | .fail => some (.inr .failed)
  | _ => none

/-- `event_queue_pop(&app->events, &event, 100)`. -/
def eventQueuePop : Thread Popped := .iter (fun _ : Unit => do
  match ← tryPop with
  | some event => return .inr (.event event)
  | none => waitEvent) () .ret

variable (cjsonParse : Bytes → Option Json)

/-- `APP_EVENT_WS_TEXT`. -/
def handleText (text : Bytes) : Thread Unit := do
  record (.parses text)
  match parseIncomingJson cjsonParse text with
  | some event => handleProtocolEvent event
  | none => pure ()

/-- `APP_EVENT_PLAYBACK_FINISHED`. -/
def handlePlaybackFinished : Thread Unit := do
  Thread.when (← .read fun w => w.ttsDone) resetToIdle

/-- The `switch` of `app_run`. -/
def handleEvent (event : AppEvent) : Thread Unit :=
  match event.type with
  | .manualStart | .wakewordDetected => handleSessionEvent event.type
  | .manualStop => handleSessionEvent .manualStop
  | .wsConnected => handleSessionEvent .wsConnected
  | .wsText => handleText cjsonParse event.text
  | .captureSilenceTimeout => handleSessionEvent .captureSilenceTimeout
  | .playbackFinished => handlePlaybackFinished
  | .error => handleSessionEvent .error
  | .shutdown => .modify fun w => { w with stopRequested := true }
  | .none | .wsHello | .wsBinary => pure ()

/-- `app_run` returns. -/
def leave (result : Int) : Thread Unit := .modify fun w => { w with returned := some result }

/-- `app_run`, up to its loop. -/
def runStart : Thread Unit := do
  resetToIdle
  let clientStarted ← .read fun w => w.clientStarted
  Thread.when (¬clientStarted) do
    setState .connecting
    handleAction .connect

/-- One iteration of the loop of `app_run`; none follows once it has returned. -/
def runLoop : Thread Unit := do
  .await fun w => w.returned.isNone
  if ← .read fun w => w.stopRequested then
    leave 0
  else
    match ← eventQueuePop with
    | .event event =>
      handleEvent cjsonParse event
      pollStdin
    | .timeout => pollStdin
    | .failed => leave (-1)

end App

end Xiaozhi
