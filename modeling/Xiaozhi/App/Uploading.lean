-- SUMMARY: The variables that say that an upload is going on agree at every boundary of the main loop.
import Xiaozhi.App.MainLoop

/-!
# Upload state

An upload is going on when `upload_enabled` is set. The session state, the
capture's flag, the dump file and the session id follow it, through every
action and every failure on the way.
-/

namespace Xiaozhi

open Threads Threads.Prog World App

/-- The variables of an upload agree. -/
structure UploadConsistent (v : MainView) : Prop where
  enabled : v.uploadEnabled = true →
    v.session = .uploadingAudio ∧ v.uploading = true ∧ v.dumpOpen = true ∧ v.sessionId ≠ []
  uploading : v.uploading = true → v.uploadEnabled = true

namespace UploadConsistent

variable {v : MainView}

/-- No upload is going on. -/
theorem off (h₁ : v.uploadEnabled = false) (h₂ : v.uploading = false) : UploadConsistent v :=
  ⟨fun h => by simp [h₁] at h, fun h => by simp [h₂] at h⟩

/-- Outside of the uploading state no upload is going on. -/
theorem isOff (h : UploadConsistent v) (hs : v.session ≠ .uploadingAudio) :
    v.uploadEnabled = false ∧ v.uploading = false := by
  have hen : v.uploadEnabled = false := by
    cases hu : v.uploadEnabled with
    | false => rfl
    | true => exact absurd (h.enabled hu).1 hs
  refine ⟨hen, ?_⟩
  cases hu : v.uploading with
  | false => rfl
  | true => exact absurd (h.uploading hu) (by simp [hen])

@[simp] theorem record_iff {entry : MainEntry} :
    UploadConsistent (v.record entry) ↔ UploadConsistent v :=
  ⟨fun ⟨h₁, h₂⟩ => ⟨h₁, h₂⟩, fun ⟨h₁, h₂⟩ => ⟨h₁, h₂⟩⟩

/-- Starting the client changes nothing about an upload. -/
theorem start {Q : Bool → MainView → Prop} (h₁ : v.uploadEnabled = false)
    (h₂ : v.uploading = false)
    (hQ : ∀ b v, v.uploadEnabled = false → v.uploading = false → Q b v) :
    XiaozhiClient.start.vwp mainView (.any _) Q v := by
  simp [h₁, h₂, hQ]

/-- Stopping the client changes nothing about an upload. -/
theorem stop {Q : Unit → MainView → Prop} (h₁ : v.uploadEnabled = false)
    (h₂ : v.uploading = false)
    (hQ : ∀ v, v.uploadEnabled = false → v.uploading = false → Q () v) :
    XiaozhiClient.stop.vwp mainView (.any _) Q v := by
  simp [h₁, h₂, hQ]

theorem connect (h₁ : v.uploadEnabled = false) (h₂ : v.uploading = false) :
    App.connect.vwp mainView (.any _) (fun _ => UploadConsistent) v := by
  simp only [App.connect, vwp_bind, vwp_setSessionId, vwp_setTtsDone, ViewContract.after_any]
  refine start h₁ h₂ fun started v h₁ h₂ => ?_
  simp [vwp_ite, off, h₁, h₂]

theorem startListen (h₁ : v.uploadEnabled = false) (h₂ : v.uploading = false) :
    App.startListen.vwp mainView (.any _) (fun _ => UploadConsistent) v := by
  simp only [App.startListen, vwp_bind, vwp_sendListenStart, vwp_ite, ViewContract.after_any,
    vwp_openOpusDumpFile, Bool.forall_bool]
  refine ⟨by simp [off, h₁, h₂], fun hid text _ => ⟨fun _ => ⟨?_, ?_⟩, by simp⟩⟩
  · simp [off, h₁, h₂]
  · simp only [forall_const, not_true, false_imp_iff, and_true, vwp_setUploadEnabled,
      vwp_setState, vwp_setUploading, ViewContract.after_any]
    exact ⟨fun _ => ⟨rfl, rfl, rfl, hid⟩, fun _ => rfl⟩

theorem stopListen : App.stopListen.vwp mainView (.any _) (fun _ => UploadConsistent) v := by
  simp [App.stopListen, stopUpload, vwp_ite, off]

theorem abort : App.abort.vwp mainView (.any _) (fun _ => UploadConsistent) v := by
  simp [App.abort, sendAbort, stopUpload, vwp_ite, off]

theorem returnToWake : App.returnToWake.vwp mainView (.any _) (fun _ => UploadConsistent) v := by
  simp [App.returnToWake, off]

theorem resetToIdle : App.resetToIdle.vwp mainView (.any _) (fun _ => UploadConsistent) v := by
  simp [App.resetToIdle, vwp_ite, off]

/-- The state machine and its actions keep the variables of an upload consistent. -/
theorem handleSessionEvent (h : UploadConsistent v) (type : AppEventType) :
    (App.handleSessionEvent type).vwp mainView (.any _) (fun _ => UploadConsistent) v := by
  simp only [App.handleSessionEvent, vwp_bind, vwp_sessionHandleEvent, ViewContract.after_any,
    handleAction, vwp_record]
  obtain he | ⟨-, he⟩ | ⟨hs, he⟩ | ⟨hs, -, he⟩ | ⟨hs, -, he⟩ | ⟨hs, he⟩ | ⟨hs, -, he⟩ | ⟨hs, he⟩ :=
    Session.handleEvent_cases v.session type <;> rw [he]
  · simpa using h
  · exact returnToWake
  · obtain ⟨h₁, h₂⟩ := h.isOff (by obtain hs | hs := hs <;> simp [hs])
    exact connect h₁ h₂
  · obtain ⟨h₁, h₂⟩ := h.isOff (by simp [hs])
    simp [vwp_ite, off, h₁, h₂]
  · obtain ⟨h₁, h₂⟩ := h.isOff (by simp [hs])
    simp [off, h₁, h₂]
  · obtain ⟨h₁, h₂⟩ := h.isOff (by simp [hs])
    exact startListen h₁ h₂
  · exact stopListen
  · exact abort

/-- A session id that is not empty stays so in the buffer that it is copied into. -/
theorem handleProtocolEvent (h : UploadConsistent v) {event : XiaozhiIncomingEvent}
    (hid : CString.copy 64 event.sessionId = event.sessionId) :
    (App.handleProtocolEvent event).vwp mainView (.any _) (fun _ => UploadConsistent) v := by
  simp only [App.handleProtocolEvent, vwp_bind, vwp_record, ViewContract.after_any]
  have h : UploadConsistent (v.record (.handles event)) := record_iff.mpr h
  split
  · simp only [handleHello, vwp_bind, vwp_when, vwp_setSessionId, ViewContract.after_any,
      vwp_updateDecoderFromHello, decide_eq_true_eq, decide_eq_false_iff_not]
    refine ⟨fun hne => ?_, fun _ => handleSessionEvent h _⟩
    apply handleSessionEvent
    refine ⟨fun hen => ?_, h.uploading⟩
    obtain ⟨hs, hu, hd, -⟩ := h.enabled hen
    exact ⟨hs, hu, hd, by rwa [hid]⟩
  · simp [handleTtsStart, off]
  · simp only [handleTtsStop, vwp_bind, vwp_setTtsDone, vwp_findQueueSize, vwp_when,
      ViewContract.after_any]
    exact fun n => ⟨fun _ => resetToIdle, fun _ => record_iff.mpr ⟨h.enabled, h.uploading⟩⟩
  · exact h

theorem handleEvent {cjsonParse : Bytes → Option Json} (h : UploadConsistent v) (e : AppEvent) :
    (App.handleEvent cjsonParse e).vwp mainView (.any _) (fun _ => UploadConsistent) v := by
  unfold App.handleEvent
  split <;> first | exact handleSessionEvent h _ | exact h | skip
  · simp only [handleText, vwp_bind, vwp_record, ViewContract.after_any]
    split
    · next hparse =>
      exact handleProtocolEvent (record_iff.mpr h) (XiaozhiProtocol.copy_sessionId hparse)
    · exact record_iff.mpr h
  · simp only [handlePlaybackFinished, vwp_bind, vwp_readTtsDone, vwp_when]
    exact ⟨fun _ => resetToIdle, fun _ => h⟩
  · simpa using h

end UploadConsistent

namespace System

/-- At every boundary of the main loop, in every run: an upload is enabled only
    in the uploading state, with the capture's flag set, the dump file open and
    a session id; and the capture's flag is set only while it is enabled. -/
theorem upload_consistent {cjsonParse : Bytes → Option Json} {config : AppConfig} {cfg : Config}
    (hr : Reach cjsonParse anyStep config cfg) (hb : AtBoundary cfg) :
    (cfg.shared.uploadEnabled = true →
      cfg.shared.session = .uploadingAudio ∧ cfg.shared.capture.uploading = true ∧
      cfg.shared.opusDumpFile.isSome = true ∧ cfg.shared.sessionId ≠ []) ∧
    (cfg.shared.capture.uploading = true → cfg.shared.uploadEnabled = true) := by
  have hstart : App.runStart.vwp mainView (.any _) (fun _ => UploadConsistent)
      (World.init config).mainView := by
    simp [runStart, resetToIdle, vwp_ite, handleAction, connect, UploadConsistent.off]
  have hloop (v : MainView) (h : UploadConsistent v) :
      (App.runLoop cjsonParse).vwp mainView (.any _) (fun _ => UploadConsistent) v :=
    runLoop_keeps (by simp) (fun v result h => by simpa using ⟨h.enabled, h.uploading⟩)
      (fun v e h => ViewContract.after_any.mpr (UploadConsistent.record_iff.mpr h |>.handleEvent e))
      v h
  obtain ⟨h₁, h₂⟩ := Reach.atBoundary (fun _ _ _ => trivial) hstart hloop hr hb
  exact ⟨h₁, h₂⟩

/-- Enter is pressed after the handshake. -/
theorem upload_consistent_enter :
    ∃ cfg, Reach sampleParse anyStep ⟨1, 16000, 1200, 500⟩ cfg ∧ AtBoundary cfg ∧
      cfg.shared.uploadEnabled = true ∧ cfg.shared.session = .uploadingAudio ∧
      cfg.shared.capture.uploading = true ∧ cfg.shared.opusDumpFile.isSome = true ∧
      cfg.shared.sessionId ≠ [] := by
  have h : (play sampleParse (fun _ _ _ => true) ⟨1, 16000, 1200, 500⟩ [
      (.main, 15, [.ok]),
      (.service 1, 23, [.ok, .ok, .ok, .callback .established, receives 0, .nothing]),
      (.main, 57, [.ok, .ok, .nothing, .nothing, .nothing, .input [10], .ok, .ok, .nothing])]).any
        (fun cfg => (cfg.cur .main).isNone && cfg.shared.uploadEnabled) = true := by decide +kernel
  obtain ⟨cfg, hr, hp⟩ := exists_of_play (fun _ _ _ _ => trivial) h
  simp only [Bool.and_eq_true, Option.isNone_iff_eq_none] at hp
  obtain ⟨hb, hu⟩ := hp
  exact ⟨cfg, hr, hb, hu, (upload_consistent hr hb).1 hu⟩

end System

end Xiaozhi
