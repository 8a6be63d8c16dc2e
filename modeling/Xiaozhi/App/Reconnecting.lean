-- SUMMARY: When the session state stays connecting from the start of a connection to its outcome.
import Xiaozhi.App.MainLoop

/-!
# Waiting for a connection

After each start of the client the session waits in the connecting state for
the outcome. Events of the turn before can still be queued then, and some of
them write the session state directly.
-/

namespace Xiaozhi

open Threads Threads.Prog World App

/-- The actions that start the client. -/
def SessionAction.Restarts (a : SessionAction) : Prop :=
  a = .connect ∨ a = .abort ∨ a = .returnToWake

instance (a : SessionAction) : Decidable a.Restarts := inferInstanceAs (Decidable (_ ∨ _))

/-- The client has been started, and the outcome has not been handled since. -/
def awaitsOutcome : List MainEntry → Bool
  | [] => false
  | .performs action :: log => decide action.Restarts || awaitsOutcome log
  | .takes event :: log => !decide event.IsOutcome && awaitsOutcome log
  | _ :: log => awaitsOutcome log

/-- While the session connects, no tts start is handled, no tts stop with an
    empty playback queue, and no end of the playback after a tts stop. -/
def NoStaleTurn (v : MainView) : MainEntry → Prop
  | .handles event => event.type = .ttsStart → v.session ≠ .connecting
  | .finds size => size = 0 → v.session ≠ .connecting
  | .takes event => event.type = .playbackFinished → v.ttsDone = true → v.session ≠ .connecting
  | _ => True

instance (v : MainView) : (entry : MainEntry) → Decidable (NoStaleTurn v entry)
  | .handles _ | .finds _ | .takes _ => inferInstanceAs (Decidable (_ → _))
  | .parses _ | .performs _ | .resets .. | .pushes .. | .queues _ | .runsAlready | .starts _
  | .startFails _ => .isTrue trivial

/-- While the outcome is awaited, the session connects. -/
def ConnectingOk (v : MainView) : Prop := awaitsOutcome v.log = true → v.session = .connecting

namespace ConnectingOk

variable {v v' : MainView}

theorem congr (h : ConnectingOk v) (h₁ : v'.log = v.log) (h₂ : v'.session = v.session) :
    ConnectingOk v' := by
  intro ha
  rw [h₂]
  exact h (h₁ ▸ ha)

/-- No outcome is awaited. -/
theorem quiet (h : awaitsOutcome v.log = false) : ConnectingOk v := fun ha => by simp [h] at ha

theorem awaits_eq_false (h : ConnectingOk v) (hs : v.session ≠ .connecting) :
    awaitsOutcome v.log = false := by
  by_contra ha
  exact hs (h (Bool.eq_true_of_not_eq_false ha))

theorem connect (hs : v.session = .connecting) :
    App.connect.vwp mainView (entryContract NoStaleTurn) (fun _ => ConnectingOk) v := by
  simp [App.connect, vwp_ite, ConnectingOk, hs, NoStaleTurn]

theorem abort (hs : v.session = .connecting) :
    App.abort.vwp mainView (entryContract NoStaleTurn) (fun _ => ConnectingOk) v := by
  simp [App.abort, sendAbort, stopUpload, vwp_ite, ConnectingOk, hs, NoStaleTurn]

theorem returnToWake :
    App.returnToWake.vwp mainView (entryContract NoStaleTurn) (fun _ => ConnectingOk) v := by
  simp [App.returnToWake, ConnectingOk, NoStaleTurn]

theorem startListen (h : awaitsOutcome v.log = false) :
    App.startListen.vwp mainView (entryContract NoStaleTurn) (fun _ => ConnectingOk) v := by
  simp [App.startListen, vwp_ite, quiet, awaitsOutcome, h, NoStaleTurn]

theorem stopListen (h : awaitsOutcome v.log = false) :
    App.stopListen.vwp mainView (entryContract NoStaleTurn) (fun _ => ConnectingOk) v := by
  simp [App.stopListen, stopUpload, vwp_ite, quiet, awaitsOutcome, h, NoStaleTurn]

theorem resetToIdle (h : awaitsOutcome v.log = false) :
    App.resetToIdle.vwp mainView (entryContract NoStaleTurn) (fun _ => ConnectingOk) v := by
  simp [App.resetToIdle, vwp_ite, quiet, awaitsOutcome, h, NoStaleTurn]

/-- The state machine leaves the connecting state only on an outcome. -/
theorem handleSessionEvent (h : ConnectingOk v) {type : AppEventType}
    (hc : type = .wsConnected → awaitsOutcome v.log = false) :
    (App.handleSessionEvent type).vwp mainView (entryContract NoStaleTurn)
      (fun _ => ConnectingOk) v := by
  simp only [App.handleSessionEvent, vwp_bind, vwp_sessionHandleEvent, handleAction, vwp_record,
    after_same, after_record, NoStaleTurn, forall_const]
  obtain he | ⟨-, he⟩ | ⟨-, he⟩ | ⟨-, ht, he⟩ | ⟨hs, -, he⟩ | ⟨hs, he⟩ | ⟨hs, -, he⟩ | ⟨-, he⟩ :=
    Session.handleEvent_cases v.session type <;> rw [he]
  · exact h
  · exact returnToWake
  · exact connect rfl
  · have ha := hc ht
    simp [vwp_ite, quiet, awaitsOutcome, SessionAction.Restarts, ha, NoStaleTurn]
  · exact quiet (h.awaits_eq_false (by simp [hs]))
  · exact startListen (h.awaits_eq_false (by simp [hs]))
  · exact stopListen (h.awaits_eq_false (by simp [hs]))
  · exact abort rfl

theorem handleProtocolEvent (h : ConnectingOk v) (event : XiaozhiIncomingEvent) :
    (App.handleProtocolEvent event).vwp mainView (entryContract NoStaleTurn)
      (fun _ => ConnectingOk) v := by
  simp only [App.handleProtocolEvent, vwp_bind, vwp_record, after_record]
  intro hstart
  have h : ConnectingOk (v.record (.handles event)) := h
  split
  · simp only [handleHello, vwp_bind, vwp_when, vwp_setSessionId, after_same,
      vwp_updateDecoderFromHello]
    exact ⟨fun _ => handleSessionEvent (h.congr (by rfl) (by rfl)) (by simp), fun _ => handleSessionEvent h (by simp)⟩
  · next htype =>
    have ha := h.awaits_eq_false (hstart htype)
    simp only [handleTtsStart, vwp_bind, vwp_setUploadEnabled, vwp_setUploading, vwp_setState,
      vwp_setTtsDone, after_same]
    exact quiet ha
  · simp only [handleTtsStop, vwp_bind, vwp_setTtsDone, vwp_findQueueSize, vwp_when, after_same,
      after_record, decide_eq_true_eq]
    exact fun size hfinds => ⟨fun hz => resetToIdle (h.awaits_eq_false (hfinds hz)), fun _ => h⟩
  · exact h

theorem handleEvent {cjsonParse : Bytes → Option Json} {e : AppEvent} (h : ConnectingOk v)
    (hf : e.type = .playbackFinished → v.ttsDone = true → v.session ≠ .connecting) :
    (App.handleEvent cjsonParse e).vwp mainView (entryContract NoStaleTurn)
      (fun _ => ConnectingOk) (v.record (.takes e)) := by
  have hrec : ConnectingOk (v.record (.takes e)) := fun ha => h (Bool.and_eq_true_iff.mp ha).2
  have hsession {type : AppEventType} (htype : e.type = type) :
      (App.handleSessionEvent type).vwp mainView (entryContract NoStaleTurn)
        (fun _ => ConnectingOk) (v.record (.takes e)) := by
    refine hrec.handleSessionEvent fun hc => ?_
    simp [awaitsOutcome, AppEvent.IsOutcome, htype, hc]
  unfold App.handleEvent
  split <;> first | exact hsession ‹_› | exact hsession rfl | exact hrec | skip
  · simp only [handleText, vwp_bind, vwp_record, after_record, NoStaleTurn, forall_const]
    have hparsed : ConnectingOk ((v.record (.takes e)).record (.parses e.text)) := hrec
    split
    · exact hparsed.handleProtocolEvent _
    · exact hparsed
  · next htype =>
    simp only [handlePlaybackFinished, vwp_bind, vwp_readTtsDone, vwp_when]
    exact ⟨fun hd => resetToIdle (hrec.awaits_eq_false (hf htype hd)), fun _ => hrec⟩
  · simpa using hrec

end ConnectingOk

namespace System

variable {cjsonParse : Bytes → Option Json} {config : AppConfig} {cfg : Config}

/-- In every run in which no event of an earlier turn reaches a session that
    connects, the session connects from each start of the client until the
    outcome is handled. -/
theorem stays_connecting (hr : Reach cjsonParse (Admits NoStaleTurn) config cfg)
    (hb : AtBoundary cfg) (ha : awaitsOutcome cfg.shared.log = true) :
    cfg.shared.session = .connecting := by
  have hstart : App.runStart.vwp mainView (entryContract NoStaleTurn) (fun _ => ConnectingOk)
      (World.init config).mainView := by
    simp only [runStart, vwp_bind]
    refine (ConnectingOk.resetToIdle rfl).mono fun _ v hv => ?_
    simp only [vwp_readClientStarted, vwp_when, vwp_bind, vwp_setState, after_same, handleAction,
      vwp_record, after_record, NoStaleTurn, forall_const]
    exact ⟨fun _ => ConnectingOk.connect rfl, fun _ => hv⟩
  refine Reach.atBoundary (fun _ _ h => h) hstart (fun v hv => ?_) hr hb ha
  exact runLoop_keeps (fun v e _ _ h => after_record.mpr fun _ => h)
    (fun v _ h => (after_same (by rfl)).mpr h)
    (fun v e h => after_record.mpr fun hf => h.handleEvent hf) v hv

/-- Enter interrupts the answer of the server, and the second connection has been
    started. -/
theorem stays_connecting_abort :
    ∃ cfg, Reach sampleParse (Admits NoStaleTurn) ⟨1, 16000, 1200, 500⟩ cfg ∧ AtBoundary cfg ∧
      cfg.shared.session = .connecting ∧ cfg.shared.started = 2 := by
  have h : (play sampleParse (admits NoStaleTurn) ⟨1, 16000, 1200, 500⟩ [
      (.main, 15, [.ok]),
      (.service 1, 28, [.ok, .ok, .ok, .callback .established, receives 0, receives 2, .nothing]),
      (.main, 43, [.ok, .ok, .nothing, .nothing, .input [10]]),
      (.main, 19, [.ok]),
      (.service 1, 12, [.nothing]),
      (.main, 9, [.ok, .nothing])]).any (fun cfg => (cfg.cur .main).isNone &&
        (awaitsOutcome cfg.shared.log && decide (cfg.shared.started = 2))) = true := by
    decide +kernel
  obtain ⟨cfg, hr, hp⟩ := exists_of_play admits_iff h
  simp only [Bool.and_eq_true, Option.isNone_iff_eq_none, decide_eq_true_eq] at hp
  obtain ⟨hb, ha, hs⟩ := hp
  exact ⟨cfg, hr, hb, stays_connecting hr hb ha, hs⟩

/-- Enter interrupts the answer of the server, whose tts stop arrives before the
    connection is stopped. It is handled after the second connection has been
    started, and the session becomes idle. -/
theorem leaves_connecting : ∃ cfg, Reach sampleParse anyStep ⟨1, 16000, 1200, 500⟩ cfg ∧
    AtBoundary cfg ∧ awaitsOutcome cfg.shared.log = true ∧ cfg.shared.session ≠ .connecting := by
  have h : (play sampleParse (fun _ _ _ => true) ⟨1, 16000, 1200, 500⟩ [
      (.main, 15, [.ok]),
      (.service 1, 28, [.ok, .ok, .ok, .callback .established, receives 0, receives 2, .nothing]),
      (.main, 43, [.ok, .ok, .nothing, .nothing, .input [10]]),
      (.service 1, 5, [receives 3]),
      (.main, 19, [.ok]),
      (.service 1, 12, [.nothing]),
      (.main, 26, [.ok, .nothing, .nothing])]).any (fun cfg => (cfg.cur .main).isNone &&
        (awaitsOutcome cfg.shared.log && decide (cfg.shared.session ≠ .connecting))) = true := by
    decide +kernel
  obtain ⟨cfg, hr, hp⟩ := exists_of_play (fun _ _ _ _ => trivial) h
  simp only [Bool.and_eq_true, Option.isNone_iff_eq_none, decide_eq_true_eq] at hp
  exact ⟨cfg, hr, hp⟩

end System

end Xiaozhi
