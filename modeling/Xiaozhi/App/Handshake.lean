-- SUMMARY: When a session that is ready has shaken hands with the server.
import Xiaozhi.App.MainLoop

/-!
# Handshake

A ready session needs a hello of the server on its connection, and the session
id from it. The state machine enters the ready state on the hello, whether or
not it carries an id, and `app_reset_to_idle` enters it when the client is
connected, whether or not there has been a hello.
-/

namespace Xiaozhi

open Threads Threads.Prog World App

/-- A hello has been handled since the latest connection was started. -/
def greeted : List MainEntry → Bool
  | [] => false
  | .starts _ :: _ => false
  | .handles event :: log => decide (event.type = .hello) || greeted log
  | _ :: log => greeted log

/-- The server has said hello on this connection, and the session id is known. -/
def MainView.Greeted (v : MainView) : Prop := greeted v.log = true ∧ v.sessionId ≠ []

instance (v : MainView) : Decidable v.Greeted := inferInstanceAs (Decidable (_ ∧ _))

/-- The hello that ends the handshake leaves the session with an id, and the
    session is reset with the client connected only after that. -/
def GreetsFirst (v : MainView) : MainEntry → Prop
  | .handles event => event.type = .hello ∧ v.session = .handshaking →
      event.sessionId ≠ [] ∨ v.sessionId ≠ []
  | .resets _ connected => connected = true → v.Greeted
  | _ => True

instance (v : MainView) : (entry : MainEntry) → Decidable (GreetsFirst v entry)
  | .handles _ | .resets .. => inferInstanceAs (Decidable (_ → _))
  | .takes _ | .parses _ | .performs _ | .finds _ | .pushes .. | .queues _ | .runsAlready
  | .starts _ | .startFails _ => .isTrue trivial

/-- The session uploads, or is ready for it. -/
def SessionState.Open (state : SessionState) : Prop := state = .ready ∨ state = .uploadingAudio

/-- In the states that need it, the handshake is complete. -/
def HandshakeOk (v : MainView) : Prop := v.session.Open → v.Greeted

namespace HandshakeOk

variable {v v' : MainView}

/-- The state does not need the handshake. -/
theorem closed (h : ¬v.session.Open) : HandshakeOk v := fun ho => absurd ho h

theorem done (h : v.Greeted) : HandshakeOk v := fun _ => h

theorem connect (hs : v.session = .connecting) :
    App.connect.vwp mainView (entryContract GreetsFirst) (fun _ => HandshakeOk) v := by
  simp [App.connect, vwp_ite, closed, SessionState.Open, hs, GreetsFirst]

theorem abort (hs : v.session = .connecting) :
    App.abort.vwp mainView (entryContract GreetsFirst) (fun _ => HandshakeOk) v := by
  simp [App.abort, sendAbort, stopUpload, vwp_ite, closed, SessionState.Open, hs, GreetsFirst]

theorem returnToWake :
    App.returnToWake.vwp mainView (entryContract GreetsFirst) (fun _ => HandshakeOk) v := by
  simp [App.returnToWake, closed, SessionState.Open, GreetsFirst]

theorem startListen (h : v.Greeted) :
    App.startListen.vwp mainView (entryContract GreetsFirst) (fun _ => HandshakeOk) v := by
  simp [App.startListen, vwp_ite, HandshakeOk, MainView.Greeted, greeted, h.1, h.2, GreetsFirst]

theorem stopListen (hs : ¬v.session.Open) :
    App.stopListen.vwp mainView (entryContract GreetsFirst) (fun _ => HandshakeOk) v := by
  simp [App.stopListen, stopUpload, vwp_ite, closed, hs, GreetsFirst]

theorem resetToIdle :
    App.resetToIdle.vwp mainView (entryContract GreetsFirst) (fun _ => HandshakeOk) v := by
  simp only [App.resetToIdle, vwp_bind, vwp_setUploadEnabled, vwp_setTtsDone, vwp_setUploading,
    vwp_closeOpusDumpFile, vwp_lookConnected, vwp_ite, vwp_setState, after_same, after_record]
  exact fun _ hg => ⟨fun hc => done (hg hc), fun _ => closed (by simp [SessionState.Open])⟩

/-- The state machine gets to the ready state by a hello only. -/
theorem handleSessionEvent (h : HandshakeOk v) {type : AppEventType}
    (hhello : type = .wsHello → v.session = .handshaking → v.Greeted) :
    (App.handleSessionEvent type).vwp mainView (entryContract GreetsFirst)
      (fun _ => HandshakeOk) v := by
  simp only [App.handleSessionEvent, vwp_bind, vwp_sessionHandleEvent, handleAction, vwp_record,
    after_same, after_record, GreetsFirst, forall_const]
  obtain he | ⟨-, he⟩ | ⟨-, he⟩ | ⟨-, -, he⟩ | ⟨hs, ht, he⟩ | ⟨hs, he⟩ | ⟨-, -, he⟩ | ⟨-, he⟩ :=
    Session.handleEvent_cases v.session type <;> rw [he]
  · exact h
  · exact returnToWake
  · exact connect rfl
  · simp [vwp_ite, closed, SessionState.Open, GreetsFirst]
  · exact done (hhello ht hs)
  · exact startListen (h (.inl hs))
  · exact stopListen (by simp [SessionState.Open])
  · exact abort rfl

theorem handleProtocolEvent (h : HandshakeOk v) {event : XiaozhiIncomingEvent}
    (hid : CString.copy 64 event.sessionId = event.sessionId) :
    (App.handleProtocolEvent event).vwp mainView (entryContract GreetsFirst)
      (fun _ => HandshakeOk) v := by
  simp only [App.handleProtocolEvent, vwp_bind, vwp_record, after_record]
  intro hgreets
  have hhandles : HandshakeOk (v.record (.handles event)) := fun ho =>
    ⟨Bool.or_eq_true_iff.mpr (.inr (h ho).1), (h ho).2⟩
  split
  · next htype =>
    have hlog : greeted (.handles event :: v.log) = true := by simp [greeted, htype]
    simp only [handleHello, vwp_bind, vwp_when, vwp_setSessionId, after_same,
      vwp_updateDecoderFromHello, decide_eq_true_eq, decide_eq_false_iff_not, not_not, hid]
    refine ⟨fun hne => ?_, fun hempty => ?_⟩
    · exact handleSessionEvent (done ⟨hlog, hne⟩) fun _ _ => ⟨hlog, hne⟩
    · refine hhandles.handleSessionEvent fun _ hs => ⟨hlog, ?_⟩
      exact (hgreets ⟨htype, hs⟩).resolve_left (not_not.mpr hempty)
  · simp [handleTtsStart, closed, SessionState.Open]
  · simp only [handleTtsStop, vwp_bind, vwp_setTtsDone, vwp_findQueueSize, vwp_when, after_same,
      after_record, GreetsFirst, forall_const]
    exact fun size => ⟨fun _ => resetToIdle, fun _ => hhandles⟩
  · exact hhandles

theorem handleEvent {cjsonParse : Bytes → Option Json} (h : HandshakeOk v) (e : AppEvent) :
    (App.handleEvent cjsonParse e).vwp mainView (entryContract GreetsFirst)
      (fun _ => HandshakeOk) v := by
  unfold App.handleEvent
  split <;> first | exact handleSessionEvent h (by simp [*]) | exact h | skip
  · simp only [handleText, vwp_bind, vwp_record, after_record, GreetsFirst, forall_const]
    have hparsed : HandshakeOk (v.record (.parses e.text)) := h
    split
    · next hparse => exact hparsed.handleProtocolEvent (XiaozhiProtocol.copy_sessionId hparse)
    · exact hparsed
  · simp only [handlePlaybackFinished, vwp_bind, vwp_readTtsDone, vwp_when]
    exact ⟨fun _ => resetToIdle, fun _ => h⟩
  · simpa using h

end HandshakeOk

namespace System

variable {cjsonParse : Bytes → Option Json} {config : AppConfig} {cfg : Config}

/-- In every run in which the handshake ends with a session id, and the session
    is not reset with the client connected before: a session that is ready or
    uploads has handled a hello on its connection and knows the session id. -/
theorem ready_greeted (hr : Reach cjsonParse (Admits GreetsFirst) config cfg) (hb : AtBoundary cfg)
    (ho : cfg.shared.session.Open) :
    greeted cfg.shared.log = true ∧ cfg.shared.sessionId ≠ [] := by
  have hstart : App.runStart.vwp mainView (entryContract GreetsFirst) (fun _ => HandshakeOk)
      (World.init config).mainView := by
    simp only [runStart, vwp_bind]
    refine HandshakeOk.resetToIdle.mono fun _ v hv => ?_
    simp only [vwp_readClientStarted, vwp_when, vwp_bind, vwp_setState, after_same, handleAction,
      vwp_record, after_record, GreetsFirst, forall_const]
    exact ⟨fun _ => HandshakeOk.connect rfl, fun _ => hv⟩
  refine Reach.atBoundary (fun _ _ h => h) hstart (fun v hv => ?_) hr hb ho
  exact runLoop_keeps (fun v e _ _ h => after_record.mpr fun _ => h)
    (fun v _ h => (after_same (by rfl)).mpr h)
    (fun v e h => after_record.mpr fun _ =>
      HandshakeOk.handleEvent (v := v.record (.takes e)) h e) v hv

/-- The server says hello with a session id. -/
theorem ready_greeted_hello :
    ∃ cfg, Reach sampleParse (Admits GreetsFirst) ⟨1, 16000, 1200, 500⟩ cfg ∧ AtBoundary cfg ∧
      cfg.shared.session = .ready ∧ greeted cfg.shared.log = true ∧ cfg.shared.sessionId ≠ [] := by
  have h : (play sampleParse (admits GreetsFirst) ⟨1, 16000, 1200, 500⟩ [
      (.main, 15, [.ok]),
      (.service 1, 23, [.ok, .ok, .ok, .callback .established, receives 0, .nothing]),
      (.main, 28, [.ok, .ok, .nothing, .nothing])]).any (fun cfg =>
        (cfg.cur .main).isNone && decide (cfg.shared.session = .ready)) = true := by
    decide +kernel
  obtain ⟨cfg, hr, hp⟩ := exists_of_play admits_iff h
  simp only [Bool.and_eq_true, Option.isNone_iff_eq_none, decide_eq_true_eq] at hp
  obtain ⟨hb, hs⟩ := hp
  exact ⟨cfg, hr, hb, hs, ready_greeted hr hb (.inl hs)⟩

/-- The hello of the server has no session id, and the session becomes ready. -/
theorem ready_without_id : ∃ cfg, Reach sampleParse anyStep ⟨1, 16000, 1200, 500⟩ cfg ∧
    AtBoundary cfg ∧ cfg.shared.session = .ready ∧ cfg.shared.sessionId = [] := by
  have h : (play sampleParse (fun _ _ _ => true) ⟨1, 16000, 1200, 500⟩ [
      (.main, 15, [.ok]),
      (.service 1, 23, [.ok, .ok, .ok, .callback .established, receives 1, .nothing]),
      (.main, 27, [.ok, .ok, .nothing, .nothing])]).any (fun cfg => (cfg.cur .main).isNone &&
        (decide (cfg.shared.session = .ready) && decide (cfg.shared.sessionId = []))) = true := by
    decide +kernel
  obtain ⟨cfg, hr, hp⟩ := exists_of_play (fun _ _ _ _ => trivial) h
  simp only [Bool.and_eq_true, Option.isNone_iff_eq_none, decide_eq_true_eq] at hp
  exact ⟨cfg, hr, hp⟩

end System

end Xiaozhi
