-- SUMMARY: Every action of every thread is one of the steps of its thread.
import Xiaozhi.App.Steps

/-!
# Footprints

The programs of the threads make only the steps that `Step` lists. Each
function of the source has a lemma; the lemmas of the callers cite those of the
callees.
-/

namespace Xiaozhi

open Threads Threads.Prog

theorem within_choose {F : World → World → Prop} (hF : ∀ w, F w w) : Thread.choose.Within F :=
  within_ask hF

theorem within_when {F : World → World → Prop} {cond : Bool} {p : Thread Unit} (hp : p.Within F) :
    (Thread.when cond p).Within F := within_ite hp trivial

/-! ## The main thread -/

/-- The footprint of the handlers of the main thread. -/
abbrev Thread.Handler {α : Type} (p : Thread α) : Prop := p.Within HandlerStep

/-- The footprint of the main thread. -/
abbrev Thread.Main {α : Type} (p : Thread α) : Prop := p.Within MainStep

theorem Thread.Handler.main {α : Type} {p : Thread α} (h : p.Handler) : p.Main :=
  h.mono fun _ _ h => h.step

namespace App

theorem handler_read {α : Type} {f : World → α} : Thread.Handler (.read f) :=
  within_read fun _ => .quiet rfl rfl rfl rfl

theorem handler_setUploadEnabled {enabled : Bool} : (setUploadEnabled enabled).Handler :=
  within_modify fun _ => .quiet rfl rfl rfl rfl

theorem handler_setTtsDone {done : Bool} : (setTtsDone done).Handler :=
  within_modify fun _ => .quiet rfl rfl rfl rfl

theorem handler_setState {state : SessionState} : (setState state).Handler :=
  within_modify fun _ => .quiet rfl rfl rfl rfl

theorem handler_setClientStarted {started : Bool} : (setClientStarted started).Handler :=
  within_modify fun _ => .quiet rfl rfl rfl rfl

theorem handler_setSessionId {id : Bytes} : (setSessionId id).Handler :=
  within_modify fun _ => .quiet rfl rfl rfl rfl

theorem handler_setUploading {enabled : Bool} : (AudioCapture.setUploading enabled).Handler :=
  within_modify fun _ => .quiet rfl rfl rfl rfl

theorem handler_closeOpusDumpFile : closeOpusDumpFile.Handler :=
  within_modify fun _ => .quiet rfl rfl rfl rfl

theorem handler_openOpusDumpFile : openOpusDumpFile.Handler :=
  within_act fun c _ _ _ h => by
    cases c <;> obtain ⟨⟩ := h
    all_goals exact .quiet rfl rfl rfl rfl

theorem handler_record {entry : MainEntry} (h : ∀ w, entry.Observed w) (hi : entry.Inner) :
    (record entry).Handler :=
  within_modify fun w => .records (h w) hi

theorem handler_pushEvent {type : AppEventType} {text : Option Bytes} {code : Int}
    (h : type ≠ .wsText) : (pushEvent type text code).Handler :=
  within_modify fun _ => .pushes rfl h

theorem handler_pushError {message : String} : (pushError message).Handler :=
  handler_pushEvent (by nofun)

theorem handler_sessionHandleEvent {event : AppEventType} : (sessionHandleEvent event).Handler :=
  within_atomic fun _ => .quiet rfl rfl rfl rfl

theorem handler_lookConnected : lookConnected.Handler :=
  within_atomic fun _ => .records ⟨rfl, rfl⟩ trivial

theorem handler_findQueueSize : findQueueSize.Handler :=
  within_atomic fun _ => .records rfl trivial

theorem handler_requestStop : AudioPlayback.requestStop.Handler :=
  within_modify fun _ => .stops

end App

namespace XiaozhiClient

open App

theorem handler_ensureTextCapacity : ensureTextCapacity.Handler :=
  within_act fun c w _ _ h => by
    dsimp only at h
    split at h
    · next hroom =>
      obtain ⟨⟩ := h
      exact .reserves hroom
    · cases c <;> obtain ⟨⟩ := h
      · exact .reserves le_growCapacity
      · exact .quiet rfl rfl rfl rfl

theorem handler_signalWritable : signalWritable.Handler :=
  .bind handler_read fun wsi => within_modify fun w => by
    cases wsi <;> exact .quiet rfl rfl rfl rfl

theorem handler_queueText {payload : Bytes} : (queueText payload).Handler :=
  .bind handler_ensureTextCapacity fun _ => within_ite
    (.bind (within_choose fun _ => .quiet rfl rfl rfl rfl) fun _ => within_ite
      (.bind (within_modify fun _ => .queues rfl) fun _ => .bind handler_signalWritable fun _ => trivial)
      trivial)
    trivial

theorem handler_start : start.Handler := by
  refine .bind (within_atomic fun w => ?_) fun _ => within_ite trivial
    (.bind (within_act fun c w b w' h => ?_) fun _ => within_ite trivial
      (.bind (within_modify fun _ => .quiet rfl rfl rfl rfl) fun _ => trivial))
  · split
    · exact .records trivial trivial
    · exact .quiet rfl rfl rfl rfl
  · cases c <;> obtain ⟨⟩ := h
    · exact .starts
    · exact .records rfl trivial

theorem handler_stop : stop.Handler := by
  refine .bind (within_atomic fun w => .quiet rfl rfl rfl rfl) fun _ => within_ite
    (.bind (.bind handler_read fun thread => ?_) fun _ => within_modify fun _ => .quiet rfl rfl rfl rfl) trivial
  cases thread with
  | none => trivial
  | some k => exact within_modifyWhen fun w h => .joins h

end XiaozhiClient

namespace App

theorem handler_queuePayload {payload : Option Bytes} : (queuePayload payload).Handler := by
  cases payload with
  | none => trivial
  | some text => exact XiaozhiClient.handler_queueText

theorem handler_sendHello : sendHello.Handler := .bind handler_read fun _ => handler_queuePayload

theorem handler_sendListenStart : sendListenStart.Handler :=
  .bind handler_read fun _ => within_ite trivial handler_queuePayload

theorem handler_sendListenStop : sendListenStop.Handler :=
  .bind handler_read fun _ => within_ite trivial handler_queuePayload

theorem handler_stopUpload : stopUpload.Handler :=
  .bind handler_setUploadEnabled fun _ => .bind handler_setUploading fun _ => handler_closeOpusDumpFile

theorem handler_connect : connect.Handler :=
  .bind handler_setSessionId fun _ => .bind handler_setTtsDone fun _ =>
  .bind XiaozhiClient.handler_start fun _ => within_ite handler_setClientStarted handler_pushError

theorem handler_startListen : startListen.Handler :=
  .bind handler_sendListenStart fun _ => within_ite
    (.bind handler_openOpusDumpFile fun _ => within_ite
      (.bind handler_setUploadEnabled fun _ => .bind handler_setState fun _ => handler_setUploading)
      handler_pushError)
    handler_pushError

theorem handler_stopListen : stopListen.Handler :=
  .bind handler_stopUpload fun _ => .bind handler_sendListenStop fun _ =>
  within_ite trivial handler_pushError

theorem handler_abort : abort.Handler :=
  .bind handler_stopUpload fun _ => .bind handler_queuePayload fun _ => .bind handler_requestStop fun _ =>
  .bind handler_read fun _ => .bind (within_when XiaozhiClient.handler_stop) fun _ =>
  .bind handler_setClientStarted fun _ => .bind handler_setSessionId fun _ =>
  .bind XiaozhiClient.handler_start fun _ => within_ite handler_setClientStarted handler_pushError

theorem handler_returnToWake : returnToWake.Handler :=
  .bind handler_setUploadEnabled fun _ => .bind handler_setTtsDone fun _ =>
  .bind handler_setUploading fun _ => .bind handler_closeOpusDumpFile fun _ =>
  .bind handler_setSessionId fun _ => .bind handler_read fun _ =>
  .bind (within_when (.bind XiaozhiClient.handler_stop fun _ => handler_setClientStarted)) fun _ =>
  .bind handler_setState fun _ => .bind XiaozhiClient.handler_start fun _ =>
  within_when handler_setClientStarted

theorem handler_handleAction {action : SessionAction} : (handleAction action).Handler := by
  refine .bind (handler_record (fun _ => trivial) trivial) fun _ => ?_
  cases action with
  | connect => exact handler_connect
  | sendHello => exact .bind handler_sendHello fun _ => within_ite trivial handler_pushError
  | startListen => exact handler_startListen
  | stopListen => exact handler_stopListen
  | abort => exact handler_abort
  | returnToWake => exact handler_returnToWake
  | none => trivial
  | startPlayback => trivial

theorem handler_resetToIdle : resetToIdle.Handler :=
  .bind handler_setUploadEnabled fun _ => .bind handler_setTtsDone fun _ =>
  .bind handler_setUploading fun _ => .bind handler_closeOpusDumpFile fun _ =>
  .bind handler_lookConnected fun _ => within_ite handler_setState handler_setState

theorem handler_initDecoder {sampleRate channels : Int} : (initDecoder sampleRate channels).Handler :=
  within_ite trivial (.bind (within_choose fun _ => .quiet rfl rfl rfl rfl) fun _ => within_ite
    (.bind (within_modify fun _ => .quiet rfl rfl rfl rfl) fun _ => within_modify fun _ => .quiet rfl rfl rfl rfl) trivial)

theorem handler_handleSessionEvent {type : AppEventType} : (handleSessionEvent type).Handler :=
  .bind handler_sessionHandleEvent fun _ => handler_handleAction

theorem handler_handleHello {event : XiaozhiIncomingEvent} : (handleHello event).Handler :=
  .bind (within_when handler_setSessionId) fun _ =>
  .bind (.bind handler_read fun _ => within_ite trivial
    (.bind (within_modify fun _ => .quiet rfl rfl rfl rfl) fun _ => handler_initDecoder)) fun _ =>
  handler_handleSessionEvent

theorem handler_handleTtsStart : handleTtsStart.Handler :=
  .bind handler_setUploadEnabled fun _ => .bind handler_setUploading fun _ =>
  .bind handler_setState fun _ => handler_setTtsDone

theorem handler_handleTtsStop : handleTtsStop.Handler :=
  .bind handler_setTtsDone fun _ => .bind handler_findQueueSize fun _ => within_when handler_resetToIdle

theorem handler_handleProtocolEvent {event : XiaozhiIncomingEvent} :
    (handleProtocolEvent event).Handler := by
  refine .bind (handler_record (fun _ => trivial) trivial) fun _ => ?_
  split
  · exact handler_handleHello
  · exact handler_handleTtsStart
  · exact handler_handleTtsStop
  · trivial

theorem handler_requestStop' : (requestStop .main).Handler :=
  .bind (within_modify fun _ => .quiet rfl rfl rfl rfl) fun _ => handler_pushEvent (by nofun)

theorem handler_pollStdin : pollStdin.Handler := by
  refine .bind (within_ask fun _ => .quiet rfl rfl rfl rfl) fun answer => ?_
  split
  · exact within_ite handler_requestStop' (within_ite trivial
      (.bind handler_read fun _ => within_ite (handler_pushEvent (by nofun)) (handler_pushEvent (by nofun))))
  · exact handler_requestStop'
  · trivial

theorem main_eventQueuePop : eventQueuePop.Main := by
  refine ⟨fun _ => .bind (within_atomic fun w => ?_) fun event => ?_, fun _ => trivial⟩
  · split
    · next h => exact .takes h
    · exact .quiet rfl rfl rfl rfl
  · cases event with
    | none => exact within_ask fun _ => .quiet rfl rfl rfl rfl
    | some event => trivial

variable {cjsonParse : Bytes → Option Json}

theorem main_handleText {text : Bytes} : (handleText cjsonParse text).Main := by
  refine .bind (within_modify fun _ => .records trivial) fun _ => ?_
  split
  · exact handler_handleProtocolEvent.main
  · trivial

theorem handler_handlePlaybackFinished : handlePlaybackFinished.Handler :=
  .bind handler_read fun _ => within_when handler_resetToIdle

theorem main_handleEvent {event : AppEvent} : (handleEvent cjsonParse event).Main := by
  unfold handleEvent
  split <;> first | exact handler_handleSessionEvent.main | exact main_handleText | skip
  · exact handler_handlePlaybackFinished.main
  · exact within_modify fun _ => .quiet rfl rfl rfl rfl
  all_goals trivial

theorem handler_runStart : runStart.Handler :=
  .bind handler_resetToIdle fun _ => .bind handler_read fun _ => within_when
    (.bind handler_setState fun _ => handler_handleAction)

theorem main_runLoop : (runLoop cjsonParse).Main := by
  refine .bind (within_await fun _ => .quiet rfl rfl rfl rfl) fun _ => .bind handler_read.main fun _ =>
    within_ite (within_modify fun _ => .quiet rfl rfl rfl rfl) (.bind main_eventQueuePop fun popped => ?_)
  cases popped with
  | event event => exact .bind main_handleEvent fun _ => handler_pollStdin.main
  | timeout => exact handler_pollStdin.main
  | failed => exact within_modify fun _ => .quiet rfl rfl rfl rfl

end App

/-! ## The service threads -/

/-- The footprint of the service thread `k`. -/
abbrev Thread.Service {α : Type} (k : Nat) (p : Thread α) : Prop := p.Within (ServiceStep k)

/-- The footprint of the callbacks other than `writeable`. -/
abbrev Thread.Call {α : Type} (k : Nat) (p : Thread α) : Prop := p.Within (CallStep k)

theorem Thread.Call.service {α : Type} {k : Nat} {p : Thread α} (h : p.Call k) : p.Service k :=
  h.mono fun _ _ h => h.step

/-- The footprint of the calls that neither receive a message nor hand one over. -/
abbrev Thread.Notice {α : Type} (k : Nat) (p : Thread α) : Prop := p.Within (NoticeStep k)

theorem Thread.Notice.call {α : Type} {k : Nat} {p : Thread α} (h : p.Notice k) : p.Call k :=
  h.mono fun _ _ h => h.step

theorem Thread.Notice.service {α : Type} {k : Nat} {p : Thread α} (h : p.Notice k) :
    p.Service k := h.call.service

namespace XiaozhiClient

variable {k : Nat}

theorem notice_read {α : Type} {f : World → α} : Thread.Notice k (.read f) :=
  within_read fun _ => .quiet rfl rfl

theorem notice_choose : Thread.choose.Notice k := within_choose fun _ => .quiet rfl rfl

theorem notice_requestWritable {wsi : Option Nat} :
    Thread.Notice k (.modify (·.requestWritable wsi)) :=
  within_modify fun w => by cases wsi <;> exact .quiet rfl rfl

theorem notice_onConnected : (appClientOnConnected k).Notice k :=
  within_modify fun _ => .pushes rfl (.inl rfl)

theorem notice_onDisconnected {code : Int} : (appClientOnDisconnected k code).Notice k :=
  .bind notice_read fun _ => within_ite trivial (within_modify fun _ => .pushes rfl (.inr rfl))

theorem notice_onError {message : Bytes} : (appClientOnError k message).Notice k :=
  within_modify fun _ => .pushes rfl (.inr rfl)

theorem call_onText {payload : Bytes} : (appClientOnText k payload).Call k :=
  within_modify fun _ => .delivers

theorem notice_decodeFrame {packet : Bytes} {capacity : Nat} :
    (OpusDecoder.decodeFrame packet capacity).Notice k :=
  .bind notice_read fun dec => by
    cases dec with
    | none => trivial
    | some dec => exact within_ite trivial (within_ask fun _ => .quiet rfl rfl)

theorem notice_enqueue {pcm : Bytes} {frames : Nat} {rate : Int} :
    (AudioPlayback.enqueue pcm frames rate).Notice k := by
  refine within_ite trivial (.bind (within_atomic fun w => ?_) fun _ => within_ite
    (.bind (within_modify fun _ => .quiet rfl rfl) fun _ => trivial) trivial)
  dsimp only
  split
  · next h => exact .enqueues h
  · exact .quiet rfl rfl

/-- `app_client_on_binary` after its first test. -/
theorem notice_play {data : Bytes} {ignored : Bool} : Thread.Notice k (if ignored then
      pure ()
    else do
      let (frames, pcm) ← OpusDecoder.decodeFrame data 4096
      if frames > 0 then
        let rate ← Prog.read fun w => w.decoderSampleRate
        let _ ← AudioPlayback.enqueue pcm frames.toNat rate
      else
        pure ()) :=
  within_ite trivial (.bind notice_decodeFrame fun _ => within_ite
    (.bind notice_read fun _ => .bind notice_enqueue fun _ => trivial) trivial)

theorem call_onBinary {data : Bytes} : (appClientOnBinary data).Call k :=
  .bind (within_atomic fun _ => .deliversBinary) fun _ => notice_play.call

theorem call_feedBinaryFragment {payload : Bytes} {final : Bool} :
    (feedBinaryFragment payload final).Call k := by
  refine within_ite trivial (.bind (within_atomic fun w => ?_) fun message => ?_)
  · dsimp only
    split <;> exact .collects
  · cases message with
    | none => trivial
    | some message =>
      exact within_ite (.bind call_onBinary fun _ =>
        .bind (within_modify fun _ => .collects) fun _ => trivial) trivial

theorem call_onReceive {binary final : Bool} {payload : Bytes} :
    (onReceive k binary payload final).Call k := by
  refine within_ite
    (.bind call_feedBinaryFragment fun _ => within_ite trivial notice_onError.call)
    (.bind (within_atomic fun w => ?_) fun message => ?_)
  · dsimp only
    split <;> exact .collects
  · cases message with
    | none => exact notice_onError.call
    | some message =>
      exact within_ite (.bind call_onText fun _ => within_modify fun _ => .collects) trivial

theorem notice_rearm : (rearm k).Notice k :=
  .bind notice_read fun _ => within_when notice_requestWritable

theorem notice_clearConnection : clearConnection.Notice k := within_modify fun _ => .quiet rfl rfl

theorem notice_createContext : createContext.Notice k := by
  refine within_act fun c w b w' h => ?_
  cases c <;> obtain ⟨⟩ := h
  all_goals exact .quiet rfl rfl

theorem notice_closeContext :
    Thread.Notice k (.modify fun w => { w with client.context := false }) :=
  within_modify fun _ => .quiet rfl rfl

/-- A callback that neither receives nor sends. -/
theorem notice_callback {reason : LwsReason} (hw : reason ≠ .writeable)
    (hr : ∀ binary payload final, reason ≠ .receive binary payload final) :
    (callback k reason).Notice k := by
  cases reason with
  | established =>
    exact .bind (within_modify fun _ => .quiet rfl rfl) fun _ => .bind notice_onConnected fun _ =>
      .bind (.bind notice_read fun _ => notice_requestWritable) fun _ => trivial
  | receive binary payload final => exact absurd rfl (hr binary payload final)
  | writeable => exact absurd rfl hw
  | connectionError message =>
    exact .bind notice_clearConnection fun _ => .bind notice_onError fun _ => trivial
  | closed =>
    exact .bind notice_clearConnection fun _ => .bind notice_onDisconnected fun _ => trivial

/-- A callback other than `writeable`. -/
theorem call_callback {reason : LwsReason} (h : reason ≠ .writeable) :
    (callback k reason).Call k := by
  cases reason with
  | receive binary payload final => exact .bind call_onReceive fun _ => trivial
  | _ => exact (notice_callback h nofun).call

theorem service_popPending : (popPending k).Service k :=
  within_act fun c w popped w' h => by
    dsimp only at h
    split at h
    · next hitems =>
      obtain ⟨⟩ := h
      exact .popsText hitems
    · next hitems =>
      split at h
      · next hpop =>
        cases c <;> obtain ⟨⟩ := h
        · exact .popsBinary hitems hpop
        · exact .popsBinary hitems hpop
      · obtain ⟨⟩ := h
        exact .quiet rfl rfl

theorem service_lwsWrite {frame : Frame} : (lwsWrite k frame).Service k :=
  within_act fun c w b w' h => by
    cases c <;> obtain ⟨⟩ := h
    · exact .writes rfl
    · exact .quiet rfl rfl

theorem service_onWriteable : (onWriteable k).Service k := by
  refine .bind service_popPending fun popped => ?_
  cases popped with
  | message frame =>
    exact .bind notice_choose.service fun _ => within_ite
      (.bind service_lwsWrite fun _ => within_ite (.bind notice_rearm.service fun _ => trivial)
        trivial) trivial
  | nothing => exact .bind notice_rearm.service fun _ => trivial
  | failed => trivial

theorem service_callback {reason : LwsReason} : (callback k reason).Service k := by
  by_cases h : reason = .writeable
  · subst h
    exact service_onWriteable
  · exact (call_callback h).service

/-- What libwebsockets does to connection `k` leaves the other connections alone. -/
theorem ServiceStep.setLws {w : World} {state : LwsState} :
    ServiceStep k w { w with lws := Function.update w.lws k state } :=
  .connection (fun _ hj => Function.update_of_ne hj _ _) rfl rfl (.inl rfl)

theorem service_nextCallback : (nextCallback k).Service k :=
  within_act fun c w b w' h => by
    cases c with
    | nothing =>
      obtain ⟨⟩ := h
      exact .quiet rfl rfl
    | callback reason =>
      obtain ⟨w₁, hw, h⟩ := Option.map_eq_some_iff.mp h
      obtain ⟨state, -, rfl⟩ := Option.map_eq_some_iff.mp hw
      obtain ⟨⟩ := h
      refine .connection (fun _ hj => Function.update_of_ne hj _ _) rfl rfl ?_
      cases reason with
      | receive binary data final => exact .inr ⟨_, rfl, rfl⟩
      | _ => exact .inl rfl
    | _ => cases h

theorem service_lwsService : (lwsService k).Service k := by
  refine ⟨fun _ => .bind service_nextCallback fun reason => ?_, fun _ => trivial⟩
  cases reason with
  | none => trivial
  | some reason =>
    exact .bind service_callback fun _ => within_ite trivial
      (.bind (within_modify fun _ => ServiceStep.setLws) fun _ => trivial)

theorem service_lastCallback : (lastCallback k).Service k := by
  refine within_act fun c w b w' h => ?_
  have hw : w' = { w with lws := Function.update w.lws k .gone } := by
    dsimp only at h
    split at h <;> first | (cases h; done) | (obtain ⟨⟩ := h; rfl)
  rw [hw]
  exact ServiceStep.setLws

theorem service_contextDestroy : (contextDestroy k).Service k := by
  refine .bind service_lastCallback fun reason => ?_
  cases reason with
  | none => exact notice_closeContext.service
  | some reason => exact .bind service_callback fun _ => notice_closeContext.service

theorem service_connectViaInfo : (connectViaInfo k).Service k := by
  refine within_act fun c w b w' h => ?_
  dsimp only at h
  split at h <;> obtain ⟨⟩ := h
  · exact .connection (fun _ hj => Function.update_of_ne hj _ _) rfl rfl (.inl rfl)
  · exact .quiet rfl rfl
  · exact .quiet rfl rfl

theorem service_serviceMain : (serviceMain k).Service k := by
  refine .bind notice_createContext.service fun _ => within_ite
    (.bind notice_choose.service fun _ => within_ite (.bind service_connectViaInfo fun result => ?_)
      (.bind notice_onError.service fun _ => service_contextDestroy))
    notice_onError.service
  split
  · exact .bind (within_while notice_read.service service_lwsService) fun _ =>
      .bind service_contextDestroy fun _ => within_modify fun _ => .quiet rfl rfl
  · exact .bind service_callback fun _ => .bind notice_onError.service fun _ => service_contextDestroy
  · exact .bind notice_onError.service fun _ => service_contextDestroy

theorem service_serviceThread : (serviceThread k).Within (Step (.service k)) :=
  .bind (within_await fun _ => .inl (.quiet rfl rfl)) fun _ =>
  .bind (service_serviceMain.mono fun _ _ h => .inl h) fun _ => within_modify fun _ => .inr rfl

end XiaozhiClient

/-! ## The playback thread -/

/-- The footprint of the playback thread. -/
abbrev Thread.Playback {α : Type} (p : Thread α) : Prop := p.Within PlaybackStep

/-- The footprint of the playback thread while it plays a block, if any. -/
abbrev Thread.Plays {α : Type} (p : Thread α) (block : Option Nat) : Prop := p.Within (BlockStep block)

theorem Thread.Plays.playback {α : Type} {p : Thread α} {b : Option Nat} (h : p.Plays b) :
    p.Playback := h.mono fun _ _ h => h.step

namespace AudioPlayback

variable {b : Option Nat}

theorem playback_read {α : Type} {f : World → α} : Thread.Playback (.read f) :=
  within_read fun _ => .quiet rfl rfl

theorem plays_read {α : Type} {f : World → α} : Thread.Plays (.read f) b :=
  within_read fun _ => .quiet rfl rfl

theorem plays_closeDevice : closeDevice.Plays b := within_modify fun _ => .quiet rfl rfl

theorem plays_pushPlaybackFinished : pushPlaybackFinished.Plays b :=
  within_modify fun _ => .finishes rfl

theorem plays_waitForWork : waitForWork.Plays b := by
  refine ⟨fun _ => .bind (within_atomic fun w => ?_) fun running => ?_, fun _ => trivial⟩
  · dsimp only
    split <;> exact .quiet rfl rfl
  · cases running with
    | some running => trivial
    | none =>
      refine .bind (within_act fun c w b w' h => ?_) fun _ => trivial
      obtain ⟨-, h⟩ := Option.ite_none_right_eq_some.mp h
      obtain ⟨⟩ := h
      exact .quiet rfl rfl

theorem plays_openDevice {sampleRate : Int} : (openDevice sampleRate).Plays b :=
  within_act fun c w b w' h => by
    cases c <;> obtain ⟨⟩ := h
    · exact .records (.opens true) rfl trivial trivial rfl
    · exact .records (.opens false) rfl trivial trivial rfl

theorem plays_readyDevice {sampleRate : Int} : (readyDevice sampleRate).Plays b :=
  .bind plays_read fun _ => within_ite trivial
    (.bind (within_when plays_closeDevice) fun _ => plays_openDevice)

theorem plays_writeFrames {block : AudioBlock Nat} {frames written : Nat} :
    (writeFrames block frames written).Plays (some block.tag) :=
  within_act fun c w x w' h => by
    dsimp only at h
    split at h
    · split at h
      · split at h
        · obtain ⟨⟩ := h
          exact .records .writeFails rfl trivial trivial rfl
        · obtain ⟨-, h⟩ := Option.ite_none_right_eq_some.mp h
          obtain ⟨⟩ := h
          exact .records (.writes block.tag _) rfl trivial rfl rfl
      · split at h <;> obtain ⟨⟩ := h
        · exact .quiet rfl rfl
        · exact .records .writeFails rfl trivial trivial rfl
      · cases h
    · obtain ⟨⟩ := h
      exact .quiet rfl rfl

theorem plays_writeAllFrames {block : AudioBlock Nat} {frames : Nat} :
    (writeAllFrames block frames).Plays (some block.tag) :=
  within_ite (.bind (within_modify fun _ => .records .writeFails rfl trivial trivial rfl) fun _ => trivial)
    ⟨fun _ => plays_writeFrames, fun _ => trivial⟩

theorem plays_playBlock {block : AudioBlock Nat} : (playBlock block).Plays (some block.tag) :=
  .bind plays_readyDevice fun _ => within_ite
    (.bind plays_read fun _ => .bind plays_writeAllFrames fun _ => within_ite
      (.bind plays_read fun _ => within_when plays_pushPlaybackFinished) trivial) trivial

theorem playback_clearStop : clearStop.Playback :=
  within_modify fun _ => .records (e := .stops _) rfl rfl rfl

theorem playback_popBlock : popBlock.Playback := by
  refine within_atomic fun w => ?_
  split
  · next h => exact .pops h
  · exact .quiet rfl rfl

theorem playback_thread : thread.Playback := by
  have hidle {α : Type} {p : Thread α} (h : p.Plays none) : p.Playback := h.playback
  refine .bind (hidle plays_waitForWork) fun _ => within_ite (.bind playback_read fun _ => within_ite
    (.bind playback_clearStop fun _ => .bind (hidle plays_closeDevice) fun _ =>
      hidle plays_pushPlaybackFinished)
    (.bind playback_popBlock fun block => ?_)) (hidle plays_closeDevice)
  cases block with
  | none => trivial
  | some block => exact plays_playBlock.playback

end AudioPlayback

/-! ## The capture thread -/

/-- The footprint of the capture thread. -/
abbrev Thread.Capture {α : Type} (p : Thread α) : Prop := p.Within CaptureStep

/-- The footprint of the capture thread where it neither reads for an upload nor encodes. -/
abbrev Thread.Upload {α : Type} (p : Thread α) : Prop := p.Within UploadStep

theorem Thread.Upload.capture {α : Type} {p : Thread α} (h : p.Upload) : p.Capture :=
  h.mono fun _ _ h => h.step

namespace AudioCapture

theorem upload_read {α : Type} {f : World → α} : Thread.Upload (.read f) :=
  within_read fun _ => .quiet rfl rfl

theorem upload_openDevice : openDevice.Upload :=
  within_act fun c w b w' h => by
    cases c <;> obtain ⟨⟩ := h
    all_goals exact .quiet rfl rfl

theorem capture_encode {pcm : List Int16} : (OpusEncoder.encode pcm).Capture :=
  within_act fun c w b w' h => by
    dsimp only at h
    split at h
    · obtain ⟨-, h⟩ := Option.ite_none_right_eq_some.mp h
      obtain ⟨⟩ := h
      exact .records
    · obtain ⟨⟩ := h
      exact .records
    · cases h

theorem capture_uploads {pcm : List Int16} : (uploads pcm).Capture :=
  within_atomic fun w => by
    dsimp only
    split
    · exact .records
    · exact .quiet rfl rfl

theorem capture_encodeFrame {pcm : List Int16} : (OpusEncoder.encodeFrame pcm).Capture :=
  .bind upload_read.capture fun enc => by
    cases enc with
    | none => trivial
    | some enc => exact within_ite trivial capture_encode

/-- The dump file stays open, or closed, whatever is written. -/
theorem upload_writeOpusPacket {packet : Bytes} : (appWriteOpusPacket packet).Upload :=
  within_act fun c w b w' h => by
    dsimp only at h
    split at h
    · obtain ⟨⟩ := h
      exact .quiet rfl rfl
    · split at h
      · obtain ⟨⟩ := h
        exact .quiet rfl rfl
      · next hfile =>
        obtain ⟨⟩ := h
        exact .quiet rfl (by simp [World.mainView, hfile])
      · cases h

theorem upload_queueBinary {payload : Bytes} : (XiaozhiClient.queueBinary payload).Upload := by
  refine within_ite trivial (.bind (within_atomic fun w => ?_) fun _ => within_ite
    (.bind (.bind upload_read fun wsi => within_modify fun w => ?_) fun _ => trivial) trivial)
  · split
    · next h => exact .pushesBinary h
    · exact .quiet rfl rfl
  · cases wsi <;> exact .quiet rfl rfl

/-- What becomes of a packet, if there is one. -/
theorem upload_packet (packet : Option Bytes) : Thread.Upload (match packet with
    | some packet =>
      if packet = [] then
        pure ()
      else do
        let _ ← appWriteOpusPacket packet
        let _ ← XiaozhiClient.queueBinary packet
    | none => pure ()) := by
  cases packet with
  | none => trivial
  | some packet =>
    exact within_ite trivial (.bind upload_writeOpusPacket fun _ =>
      .bind upload_queueBinary fun _ => trivial)

theorem capture_onPcm {pcm : List Int16} : (appCaptureOnPcm pcm).Capture :=
  .bind capture_uploads fun _ => within_ite
    (.bind capture_encodeFrame fun packet => (upload_packet packet).capture) trivial

theorem upload_setSilence {ms : Int} : (setSilence ms).Upload :=
  within_modify fun _ => .quiet rfl rfl

theorem upload_detectSilence {uploading : Bool} {pcm : List Int16} :
    (detectSilence uploading pcm).Upload :=
  .bind upload_read fun _ => within_ite
    (within_ite
      (.bind (within_atomic fun _ => .quiet rfl rfl) fun _ => within_ite
        (.bind (within_modify fun _ => .pushes rfl rfl) fun _ => upload_setSilence) trivial)
      upload_setSilence)
    upload_setSilence

theorem upload_await {q : World → Bool} : Thread.Upload (.await q) :=
  within_await fun _ => .quiet rfl rfl

theorem upload_readFrames : readFrames.Upload :=
  within_act fun c w b w' h => by
    split at h
    · obtain ⟨-, h⟩ := Option.ite_none_right_eq_some.mp h
      obtain ⟨⟩ := h
      exact .quiet rfl rfl
    · obtain ⟨⟩ := h
      exact .quiet rfl rfl
    · cases h

/-- The loop ends, and the device is closed. -/
theorem upload_stop : Thread.Upload
    (.modify fun w => { w with capture := { w.capture with pcm := false } }) :=
  within_modify fun _ => .quiet rfl rfl

theorem capture_thread : thread.Capture := by
  refine .bind upload_await.capture fun _ => .bind upload_read.capture fun _ => within_ite
    (.bind upload_readFrames.capture fun pcm => ?_) upload_stop.capture
  cases pcm with
  | none => trivial
  | some pcm => exact .bind capture_onPcm fun _ => upload_detectSilence.capture

end AudioCapture

/-! ## The system -/

namespace System

variable {cjsonParse : Bytes → Option Json} {ok : ThreadId → World → World → Prop}
  {config : AppConfig} {cfg cfg' : Config}

theorem within_body : (i : ThreadId) → (body cjsonParse i).Within (Step i)
  | .main => App.main_runLoop
  | .service _ => XiaozhiClient.service_serviceThread
  | .playback => AudioPlayback.playback_thread
  | .capture => AudioCapture.capture_thread
  | .signal => .bind (within_modify fun _ => .quiet rfl rfl) fun _ =>
      within_modify fun _ => .pushes rfl rfl

theorem within_init (i : ThreadId) (p : Thread Unit) (h : (init config).cur i = some p) :
    p.Within (Step i) := by
  cases i with
  | main => obtain rfl := Option.some.inj h; exact App.handler_runStart.main
  | capture => obtain rfl := Option.some.inj h; exact AudioCapture.upload_openDevice.capture
  | _ => cases h

/-- Every step of a run is one of the steps of the thread that makes it. -/
theorem Reach.steps (hr : Reach cjsonParse ok config cfg) :
    Reach cjsonParse (fun i w w' => ok i w w' ∧ Step i w w') config cfg :=
  Threads.Reach.strengthen (fun _ _ _ _ hr hs hok =>
    ⟨hok, Threads.Reach.step_within Step.refl within_body within_init hr hs⟩) hr

end System

end Xiaozhi
