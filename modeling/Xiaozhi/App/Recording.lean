-- SUMMARY: The dump file is open only during an upload, unless the server starts to speak during one.
import Xiaozhi.App.MainLoop

/-!
# Recording

All branches that end an upload close the dump file, but for the start of a
speech of the server. If that comes only while no dump file is open, the file is
open only while the upload is enabled.
-/

namespace Xiaozhi

open Threads Threads.Prog World App

/-- A tts start is handled only while no dump file is open. -/
def SpeechStartsClosed (v : MainView) (entry : MainEntry) : Prop :=
  ∀ event, entry = .handles event → event.type = .ttsStart → v.dumpOpen = false

instance (v : MainView) (entry : MainEntry) : Decidable (SpeechStartsClosed v entry) :=
  match entry with
  | .handles event => decidable_of_iff (event.type = .ttsStart → v.dumpOpen = false)
      ⟨fun h _ heq => by cases heq; exact h, fun h => h event rfl⟩
  | .takes _ | .parses _ | .performs _ | .resets _ _ | .finds _ | .pushes _ _ | .queues _
  | .runsAlready | .starts _ | .startFails _ => .isTrue fun _ h => nomatch h

/-- The dump file is open only while the upload is enabled. -/
def Recording (v : MainView) : Prop := v.dumpOpen = true → v.uploadEnabled = true

namespace Recording

variable {v : MainView}

theorem closed (h : v.dumpOpen = false) : Recording v := fun hopen => by simp [h] at hopen

@[simp] theorem record_iff {entry : MainEntry} : Recording (v.record entry) ↔ Recording v := Iff.rfl

/-- What leaves the dump file and the flag alone keeps the recording. -/
theorem congr {v' : MainView} (h : Recording v) (h₁ : v'.dumpOpen = v.dumpOpen)
    (h₂ : v'.uploadEnabled = v.uploadEnabled) : Recording v' := by
  unfold Recording
  rw [h₁, h₂]
  exact h

/-- Starting the client changes nothing about the recording. -/
theorem start {Q : Bool → MainView → Prop} (h : Recording v) (hQ : ∀ b v, Recording v → Q b v) :
    XiaozhiClient.start.vwp mainView (entryContract SpeechStartsClosed) Q v := by
  have hkeep (b : Bool) {v' : MainView} (h₁ : v'.dumpOpen = v.dumpOpen)
      (h₂ : v'.uploadEnabled = v.uploadEnabled) : Q b v' := hQ b v' (h.congr h₁ h₂)
  simp [hkeep]

theorem connect (h : Recording v) :
    App.connect.vwp mainView (entryContract SpeechStartsClosed) (fun _ => Recording) v := by
  simp only [App.connect, vwp_bind, vwp_setSessionId, vwp_setTtsDone, after_same]
  refine start h fun started v h => ?_
  have hkeep (started : Bool) : Recording { v with clientStarted := started } := h.congr rfl rfl
  cases started <;> simp [h, hkeep]

theorem startListen (h : Recording v) :
    App.startListen.vwp mainView (entryContract SpeechStartsClosed) (fun _ => Recording) v := by
  simp only [App.startListen, vwp_bind, vwp_sendListenStart, vwp_ite,
    vwp_openOpusDumpFile, Bool.forall_bool]
  refine ⟨by simp [h], fun _ text _ => ?_⟩
  simp only [after_record]
  refine fun _ => ⟨fun _ => ⟨?_, ?_⟩, by simp⟩
  · simp [closed]
  · simp [Recording]

theorem stopListen :
    App.stopListen.vwp mainView (entryContract SpeechStartsClosed) (fun _ => Recording) v := by
  simp [App.stopListen, stopUpload, vwp_ite, closed]

theorem abort : App.abort.vwp mainView (entryContract SpeechStartsClosed) (fun _ => Recording) v := by
  simp [App.abort, sendAbort, stopUpload, vwp_ite, closed]

theorem returnToWake :
    App.returnToWake.vwp mainView (entryContract SpeechStartsClosed) (fun _ => Recording) v := by
  simp [App.returnToWake, closed]

theorem resetToIdle :
    App.resetToIdle.vwp mainView (entryContract SpeechStartsClosed) (fun _ => Recording) v := by
  simp [App.resetToIdle, vwp_ite, closed]

/-- The state machine and its actions keep the recording. -/
theorem handleSessionEvent (h : Recording v) (type : AppEventType) :
    (App.handleSessionEvent type).vwp mainView (entryContract SpeechStartsClosed)
      (fun _ => Recording) v := by
  simp only [App.handleSessionEvent, vwp_bind, vwp_sessionHandleEvent, after_same, handleAction,
    vwp_record, after_record]
  intro _
  have hsame : Recording (({ v with session := (Session.handleEvent v.session type).1 }).record
      (.performs (Session.handleEvent v.session type).2)) := h.congr rfl rfl
  split
  · exact connect hsame
  · simp [vwp_ite, hsame]
  · exact startListen hsame
  · exact stopListen
  · exact abort
  · exact returnToWake
  · exact hsame
  · exact hsame

/-- The start of a speech clears the flag, when the dump file is closed. -/
theorem handleProtocolEvent (h : Recording v) (event : XiaozhiIncomingEvent) :
    (App.handleProtocolEvent event).vwp mainView (entryContract SpeechStartsClosed)
      (fun _ => Recording) v := by
  simp only [App.handleProtocolEvent, vwp_bind, vwp_record, after_record]
  intro hspeech
  have h : Recording (v.record (.handles event)) := record_iff.mpr h
  split
  · simp only [handleHello, vwp_bind, vwp_when, vwp_setSessionId, after_same,
      vwp_updateDecoderFromHello]
    refine ⟨fun _ => ?_, fun _ => handleSessionEvent h _⟩
    apply handleSessionEvent
    exact h.congr rfl rfl
  · next hstart =>
    have hclosed : v.dumpOpen = false := hspeech event rfl hstart
    simp [handleTtsStart, closed, hclosed]
  · simp only [handleTtsStop, vwp_bind, vwp_setTtsDone, vwp_findQueueSize, vwp_when, after_same,
      after_record]
    exact fun n _ => ⟨fun _ => resetToIdle, fun _ => h.congr rfl rfl⟩
  · exact h

theorem handleEvent {cjsonParse : Bytes → Option Json} (h : Recording v) (e : AppEvent) :
    (App.handleEvent cjsonParse e).vwp mainView (entryContract SpeechStartsClosed)
      (fun _ => Recording) v := by
  unfold App.handleEvent
  split <;> first | exact handleSessionEvent h _ | exact h | skip
  · simp only [handleText, vwp_bind, vwp_record, after_record]
    intro _
    have h : Recording (v.record (.parses e.text)) := record_iff.mpr h
    split
    · exact handleProtocolEvent h _
    · exact h
  · simp only [handlePlaybackFinished, vwp_bind, vwp_readTtsDone, vwp_when]
    exact ⟨fun _ => resetToIdle, fun _ => h⟩
  · simpa using h

end Recording

namespace System

/-- In every run in which each tts start is handled while no dump file is open:
    at every boundary of the main loop the dump file is open only if the upload
    is enabled. -/
theorem recording_closed {cjsonParse : Bytes → Option Json} {config : AppConfig} {cfg : Config}
    (hr : Reach cjsonParse (Admits SpeechStartsClosed) config cfg) (hb : AtBoundary cfg) :
    cfg.shared.opusDumpFile.isSome = true → cfg.shared.uploadEnabled = true := by
  have hstart : App.runStart.vwp mainView (entryContract SpeechStartsClosed)
      (fun _ => Recording) (World.init config).mainView := by
    simp [runStart, resetToIdle, vwp_ite, handleAction, connect, Recording.closed]
  have hloop (v : MainView) (h : Recording v) :
      (App.runLoop cjsonParse).vwp mainView (entryContract SpeechStartsClosed)
        (fun _ => Recording) v := by
    refine runLoop_keeps (fun v e accepted _ h => ?_) (fun v result h => ?_) (fun v e h => ?_) v h
    · exact after_record.mpr fun _ => h
    · have hleft : Recording { v with returned := some result } := h.congr rfl rfl
      simpa using hleft
    · have h : Recording (v.record (.takes e)) := Recording.record_iff.mpr h
      exact after_record.mpr fun _ => h.handleEvent e
  exact Reach.atBoundary (fun _ _ h => h) hstart hloop hr hb

/-- Enter is pressed after the handshake, and the server stays silent. -/
theorem recording_closed_enter :
    ∃ cfg, Reach sampleParse (Admits SpeechStartsClosed) ⟨1, 16000, 1200, 500⟩ cfg ∧
      AtBoundary cfg ∧ cfg.shared.opusDumpFile.isSome = true ∧ cfg.shared.uploadEnabled = true := by
  have h : (play sampleParse (admits SpeechStartsClosed) ⟨1, 16000, 1200, 500⟩ [
      (.main, 15, [.ok]),
      (.service 1, 23, [.ok, .ok, .ok, .callback .established, receives 0, .nothing]),
      (.main, 57, [.ok, .ok, .nothing, .nothing, .nothing, .input [10], .ok, .ok, .nothing])]).any
        (fun cfg => (cfg.cur .main).isNone && cfg.shared.opusDumpFile.isSome) = true := by
    decide +kernel
  obtain ⟨cfg, hr, hp⟩ := exists_of_play admits_iff h
  simp only [Bool.and_eq_true, Option.isNone_iff_eq_none] at hp
  obtain ⟨hb, hopen⟩ := hp
  exact ⟨cfg, hr, hb, hopen, recording_closed hr hb hopen⟩

/-- The server starts to speak during an upload: the upload is over and its
    recording goes on. -/
theorem recording_left_open : ∃ cfg, Reach sampleParse anyStep ⟨1, 16000, 1200, 500⟩ cfg ∧
    AtBoundary cfg ∧ cfg.shared.opusDumpFile.isSome = true ∧ cfg.shared.uploadEnabled = false := by
  have h : (play sampleParse (fun _ _ _ => true) ⟨1, 16000, 1200, 500⟩ [
      (.main, 15, [.ok]),
      (.service 1, 23, [.ok, .ok, .ok, .callback .established, receives 0, .nothing]),
      (.main, 57, [.ok, .ok, .nothing, .nothing, .nothing, .input [10], .ok, .ok, .nothing]),
      (.service 1, 9, [receives 2, .nothing]),
      (.main, 13, [.nothing])]).any (fun cfg => (cfg.cur .main).isNone &&
        cfg.shared.opusDumpFile.isSome && !cfg.shared.uploadEnabled) = true := by decide +kernel
  obtain ⟨cfg, hr, hp⟩ := exists_of_play (fun _ _ _ _ => trivial) h
  simp only [Bool.and_eq_true, Option.isNone_iff_eq_none, Bool.not_eq_true'] at hp
  obtain ⟨⟨hb, hopen⟩, hu⟩ := hp
  exact ⟨cfg, hr, hb, hopen, hu⟩

end System

end Xiaozhi
