-- SUMMARY: When the end of the playback is reported after the last block.
import Xiaozhi.App.MainLoop

/-!
# The end of the playback

After a tts stop with blocks still queued, the session waits for the event that
the playback thread pushes when it has played the last one. The thread pushes
it only if the device could be opened and has taken the block.
-/

namespace Xiaozhi

open Threads Threads.Prog World App

/-- No block has been popped since the end of the playback was reported last. -/
def drainReported : List PlaybackEntry → Bool
  | [] => true
  | .finishes accepted :: log => accepted || drainReported log
  | .pops _ :: _ => false
  | _ :: log => drainReported log

/-- The device fails only while another block is queued, and the event queue has
    room for the end of the playback. -/
def PlaysLast (_ : ThreadId) (w w' : World) : Prop :=
  ∀ entry, w'.playback.log = entry :: w.playback.log →
    (entry = .opens false ∨ entry = .writeFails → w.playback.queue.size ≠ 0) ∧
    entry ≠ .finishes false

/-! ## The playback thread -/

/-- The other threads add blocks only, and only the playback thread takes them. -/
def drainContract : Contract World where
  rely w w' := w'.playback.log = w.playback.log ∧
    (w.playback.queue.size ≠ 0 → w'.playback.queue.size ≠ 0)
  assume w w' := PlaysLast .playback w w'
  guar _ _ := True
  rely_refl _ := ⟨rfl, id⟩
  rely_trans h₁ h₂ := ⟨h₂.1.trans h₁.1, h₂.2 ∘ h₁.2⟩

/-- If the queue is empty, the end of the playback has been reported. -/
def Drained (w : World) : Prop :=
  w.playback.queue.size = 0 → drainReported w.playback.log = true

namespace Drained

variable {w w' : World}

theorem rely (h : Drained w) (hr : drainContract.rely w w') : Drained w' := by
  intro hz
  rw [hr.1]
  refine h ?_
  by_contra hne
  exact hr.2 hne hz

theorem of_size (h : w.playback.queue.size ≠ 0) : Drained w := fun hz => absurd hz h

/-- An entry other than a pop, with the same queue. -/
theorem record (h : Drained w) {e : PlaybackEntry}
    (hlog : w'.playback.log = e :: w.playback.log)
    (hq : w'.playback.queue = w.playback.queue) (hpop : ∀ block, e ≠ .pops block) :
    Drained w' := by
  intro hz
  have hr := h (hq ▸ hz)
  rw [hlog]
  cases e with
  | pops block => exact absurd rfl (hpop block)
  | finishes accepted => exact Bool.or_eq_true_iff.mpr (.inr hr)
  | _ => exact hr

end Drained

/-- Playing a block does not touch the queue. -/
theorem BlockStep.queue {block : Option Nat} {w w' : World} (h : BlockStep block w w') :
    w'.playback.queue = w.playback.queue := by
  obtain ⟨hs, hplays⟩ := h
  cases hs with
  | quiet hq => exact hq.queue
  | records _ hq => exact hq.queue
  | finishes hw => subst hw; rfl
  | pops _ =>
    obtain hl | ⟨entry, hentry, hl⟩ := hplays
    · exact absurd hl (List.cons_ne_self _ _)
    · obtain ⟨rfl, -⟩ := List.cons.inj hl
      exact hentry.elim

namespace AudioPlayback

variable {w : World}

/-- Playing a block keeps the queue drained. -/
theorem drained_wp {α : Type} {p : Thread α} {b : Option Nat} (hp : p.Plays b)
    (h : Drained w) : p.wp drainContract (fun _ => Drained) w := by
  refine Within.wp (C := drainContract) hp (fun _ _ hr h => h.rely hr) (fun w w' h hs _ => ⟨trivial, ?_⟩) h
  obtain hl | ⟨entry, hplays, hl⟩ := hs.plays
  · intro hz
    rw [hl]
    exact h (hs.queue ▸ hz)
  · refine h.record hl hs.queue fun block => ?_
    rintro rfl
    exact hplays

theorem any_wp {α : Type} {p : Thread α} {b : Option Nat} (hp : p.Plays b) :
    p.wp drainContract (fun _ _ => True) w :=
  Within.wp (C := drainContract) (I := fun _ => True) hp (fun _ _ _ _ => trivial)
    (fun _ _ _ _ _ => ⟨trivial, trivial⟩) trivial

/-- The device cannot be opened only while another block is queued. -/
theorem readyDevice_wp {sampleRate : Int} : (readyDevice sampleRate).wp drainContract
    (fun ready w => ready = false → w.playback.queue.size ≠ 0) w := by
  have hopen {w : World} : (openDevice sampleRate).wp drainContract
      (fun ready w => ready = false → w.playback.queue.size ≠ 0) w := by
    refine wp_act fun w₁ _ c ready w₂ hs hok => ⟨trivial, fun w₃ h₃ hr => h₃.2 ?_⟩
    cases c <;> obtain ⟨⟩ := hs
    · cases hr
    · exact (hok (.opens false) rfl).1 (.inl rfl)
  refine wp.bind ((any_wp (b := none) plays_read).mono fun device w _ => ?_)
  dsimp only
  split
  · exact wp_ret fun _ _ h => nomatch h
  · exact wp.bind ((any_wp (b := none) (within_when plays_closeDevice)).mono fun _ _ _ => hopen)

/-- The device refuses a block only while another one is queued. -/
theorem writeAllFrames_wp {block : AudioBlock Nat} {frames : Nat} :
    (writeAllFrames block frames).wp drainContract
      (fun written w => written = false → w.playback.queue.size ≠ 0) w := by
  unfold writeAllFrames
  split
  · refine wp.bind (wp_modify fun w₁ _ hok => ⟨trivial, fun w₂ h₂ w₃ h₃ _ => ?_⟩)
    exact h₃.2 (h₂.2 ((hok .writeFails rfl).1 (.inr rfl)))
  · refine ⟨fun _ _ => True, fun _ _ _ _ _ => trivial, trivial, fun written w _ => ?_⟩
    refine wp_act fun w₁ _ c result w₂ hs hok => ⟨trivial, fun w₃ h₃ => ?_⟩
    cases result with
    | inl written => trivial
    | inr done =>
      intro w₄ h₄ hd
      subst hd
      refine h₄.2 (h₃.2 ?_)
      have hfails : w₂ = { w₁ with playback := w₁.playback.record .writeFails } := by
        dsimp only at hs
        split at hs
        · split at hs
          · split at hs
            · obtain ⟨⟩ := hs; rfl
            · obtain ⟨-, hs⟩ := Option.ite_none_right_eq_some.mp hs
              cases hs
          · split at hs
            · cases hs
            · obtain ⟨⟩ := hs; rfl
          · cases hs
        · cases hs
      subst hfails
      exact (hok .writeFails rfl).1 (.inr rfl)

/-- A block that is played out is reported, unless another one is queued. -/
theorem playBlock_wp {block : AudioBlock Nat} : (playBlock block).wp drainContract (fun _ => Drained) w := by
  refine wp.bind (readyDevice_wp.mono fun ready w h => ?_)
  cases ready with
  | false => exact wp_ret fun w' hr => (Drained.of_size (h rfl)).rely hr
  | true =>
    refine wp.bind ((any_wp (b := none) plays_read).mono fun frames w _ => ?_)
    refine wp.bind (writeAllFrames_wp.mono fun written w h => ?_)
    cases written with
    | false => exact wp_ret fun w' hr => (Drained.of_size (h rfl)).rely hr
    | true =>
      refine wp.bind (wp_read fun w₁ _ => ⟨trivial, fun w₂ h₂ => ?_⟩)
      by_cases hz : w₁.playback.queue.size = 0
      · rw [decide_eq_true hz]
        refine wp_modify fun w₃ _ hok => ⟨trivial, fun w₄ h₄ => Drained.rely (fun _ => ?_) h₄⟩
        have hroom : decide (¬w₃.events.Full) ≠ false := fun hfull =>
          (hok _ rfl).2 (congrArg PlaybackEntry.finishes hfull)
        exact Bool.or_eq_true_iff.mpr (.inl (Bool.eq_true_of_not_eq_false hroom))
      · rw [decide_eq_false hz]
        exact wp_ret fun w' hr => (Drained.of_size (h₂.2 hz)).rely hr

theorem thread_drain_wp (h : Drained w) : thread.wp drainContract (fun _ => Drained) w := by
  refine wp.bind ((drained_wp (b := none) plays_waitForWork h).mono fun running w h => ?_)
  cases running with
  | false => exact drained_wp (b := none) plays_closeDevice h
  | true =>
    refine wp.bind ((drained_wp (b := none) plays_read h).mono fun stop w h => ?_)
    cases stop with
    | true =>
      refine wp.bind (wp_modify fun w₁ h₁ _ => ⟨trivial, fun w₂ h₂ => wp.bind ?_⟩)
      have hstop : Drained w₂ := by
        refine Drained.rely ?_ h₂
        exact (h.rely h₁).record (e := .stops w₁.playback.stopMark) rfl rfl fun _ => nofun
      exact (drained_wp (b := none) plays_closeDevice hstop).mono fun _ _ h =>
        drained_wp (b := none) plays_pushPlaybackFinished h
    | false =>
      refine wp.bind (wp_atomic fun w₁ h₁ _ => ⟨trivial, fun w₂ h₂ => ?_⟩)
      cases hpop : w₁.playback.queue.pop with
      | some popped => exact playBlock_wp
      | none =>
        simp only [hpop] at h₂
        exact wp_ret fun w' hr => ((h.rely h₁).rely h₂).rely hr

/-- What holds at the end of an iteration holds while the thread sleeps: when the
    playback is stopped then, the iteration ends without a report. -/
theorem drained_of_sleeping (h : sleeping.wp drainContract (fun _ => Drained) w) : Drained w := by
  intro hz
  have hquiet {w₁ w₂ : World} (hlog : w₂.playback.log = w₁.playback.log) :
      drainContract.assume w₁ w₂ :=
    fun entry hentry => absurd (hentry.symm.trans hlog) (List.cons_ne_self _ _)
  let w₁ : World := { w with playback := { w.playback with running := false } }
  let w₂ : World := { w₁ with playback := { w₁.playback with waiting := false } }
  let w₃ : World := { w₂ with playback := { w₂.playback with pcm := false, currentRate := 0 } }
  have hawake : thread.wp drainContract (fun _ => Drained) w₂ :=
    (h w₁ ⟨rfl, id⟩ .spurious () w₂ (if_pos (.inr rfl)) (hquiet rfl)).2
  have hfinds : drainContract.assume w₂ w₂ := hquiet rfl
  have hcloses : drainContract.assume w₂ w₃ := hquiet rfl
  have hround := (hawake.step (c := .ok) (by rfl) hfinds).2
  have hstopped := (hround.step (c := .ok) (by rfl) hfinds).2
  have hclosed := (hstopped.step (c := .ok) (by rfl) hcloses).2
  exact hclosed w₃ (drainContract.rely_refl w₃) hz

end AudioPlayback

/-! ## The main loop -/

/-- Blocks were queued at the latest tts stop, and no end of the playback has
    been taken since. -/
def finishAwaited : List MainEntry → Bool
  | [] => false
  | .finds size :: _ => decide (size ≠ 0)
  | .takes event :: log => decide (event.type ≠ .playbackFinished) && finishAwaited log
  | _ :: log => finishAwaited log

/-- A session that plays on after a tts stop waits for the end of the playback. -/
def FinishOk (v : MainView) : Prop :=
  v.session = .playingTts → v.ttsDone = true → finishAwaited v.log = true

namespace FinishOk

variable {v v' : MainView}

/-- The session does not play. -/
theorem other (h : v.session ≠ .playingTts) : FinishOk v := fun hs => absurd hs h

theorem congr (h : FinishOk v) (h₁ : v'.session = v.session) (h₂ : v'.ttsDone = v.ttsDone)
    (h₃ : v'.log = v.log) : FinishOk v' := by
  intro hs hd
  rw [h₃]
  exact h (h₁ ▸ hs) (h₂ ▸ hd)

theorem connect (hs : v.session = .connecting) :
    App.connect.vwp mainView (.any _) (fun _ => FinishOk) v := by
  simp [App.connect, vwp_ite, other, hs]

theorem abort (hs : v.session = .connecting) :
    App.abort.vwp mainView (.any _) (fun _ => FinishOk) v := by
  simp [App.abort, sendAbort, stopUpload, vwp_ite, other, hs]

theorem returnToWake : App.returnToWake.vwp mainView (.any _) (fun _ => FinishOk) v := by
  simp [App.returnToWake, other]

theorem startListen (hs : v.session = .uploadingAudio) :
    App.startListen.vwp mainView (.any _) (fun _ => FinishOk) v := by
  simp [App.startListen, vwp_ite, other, hs]

theorem stopListen (hs : v.session = .waitingTts) :
    App.stopListen.vwp mainView (.any _) (fun _ => FinishOk) v := by
  simp [App.stopListen, stopUpload, vwp_ite, other, hs]

theorem resetToIdle : App.resetToIdle.vwp mainView (.any _) (fun _ => FinishOk) v := by
  simp [App.resetToIdle, vwp_ite, other]

/-- No action leads to the playing state. -/
theorem handleSessionEvent (h : FinishOk v) {type : AppEventType} :
    (App.handleSessionEvent type).vwp mainView (.any _) (fun _ => FinishOk) v := by
  simp only [App.handleSessionEvent, vwp_bind, vwp_sessionHandleEvent, handleAction, vwp_record,
    ViewContract.after_any]
  obtain he | ⟨-, he⟩ | ⟨-, he⟩ | ⟨-, -, he⟩ | ⟨-, -, he⟩ | ⟨-, he⟩ | ⟨-, -, he⟩ | ⟨-, he⟩ :=
    Session.handleEvent_cases v.session type <;> rw [he]
  · exact h
  · exact returnToWake
  · exact connect rfl
  · simp [vwp_ite, other]
  · exact other (by simp)
  · exact startListen rfl
  · exact stopListen rfl
  · exact abort rfl

theorem handleProtocolEvent (h : FinishOk v) (event : XiaozhiIncomingEvent) :
    (App.handleProtocolEvent event).vwp mainView (.any _) (fun _ => FinishOk) v := by
  simp only [App.handleProtocolEvent, vwp_bind, vwp_record, ViewContract.after_any]
  have h : FinishOk (v.record (.handles event)) := h
  split
  · simp only [handleHello, vwp_bind, vwp_when, vwp_setSessionId, ViewContract.after_any,
      vwp_updateDecoderFromHello]
    exact ⟨fun _ => handleSessionEvent (h.congr (by rfl) (by rfl) (by rfl)), fun _ => handleSessionEvent h⟩
  · simp [handleTtsStart, FinishOk]
  · simp only [handleTtsStop, vwp_bind, vwp_setTtsDone, vwp_findQueueSize, vwp_when,
      ViewContract.after_any, decide_eq_false_iff_not]
    exact fun size => ⟨fun _ => resetToIdle, fun hne _ _ => decide_eq_true hne⟩
  · exact h

theorem handleEvent {cjsonParse : Bytes → Option Json} (h : FinishOk v) (e : AppEvent) :
    (App.handleEvent cjsonParse e).vwp mainView (.any _) (fun _ => FinishOk)
      (v.record (.takes e)) := by
  have htakes (hne : e.type ≠ .playbackFinished) : FinishOk (v.record (.takes e)) := by
    simpa [FinishOk, finishAwaited, hne] using h
  unfold App.handleEvent
  split
  all_goals first
    | exact handleSessionEvent (htakes (by simp_all))
    | exact htakes (by simp_all)
    | simpa using htakes (by simp_all)
    | skip
  · simp only [handleText, vwp_bind, vwp_record, ViewContract.after_any]
    have hparsed : FinishOk ((v.record (.takes e)).record (.parses e.text)) := htakes (by simp_all)
    split
    · exact hparsed.handleProtocolEvent _
    · exact hparsed
  · simp only [handlePlaybackFinished, vwp_bind, vwp_readTtsDone, vwp_when]
    refine ⟨fun _ => resetToIdle, fun hd _ hd' => ?_⟩
    exact absurd (hd.symm.trans hd') (by simp)

end FinishOk

/-! ## The event queue -/

/-- The end of the playback is in the event queue. -/
def World.FinishQueued (w : World) : Prop := ∃ e ∈ w.events.toList, e.type = .playbackFinished

/-- While the main loop waits for the end of the playback, a block is queued or
    being played, or the end is queued. -/
def FinishDue (w : World) : Prop := finishAwaited w.log = true →
  w.playback.queue.size ≠ 0 ∨ drainReported w.playback.log = false ∨ w.FinishQueued

theorem FinishDue.step {i : ThreadId} {w w' : World} (h : FinishDue w) (hs : Step i w w')
    (hok : PlaysLast i w w') : FinishDue w' := by
  intro ha
  -- it was due before, or this step has found a block in the queue
  have hprev : w.playback.queue.size ≠ 0 ∨ drainReported w.playback.log = false ∨
      w.FinishQueued := by
    cases hs.history with
    | same hl => exact h (hl ▸ ha)
    | records entry hplain hl =>
      rw [hl] at ha
      cases entry with
      | finds size =>
        obtain rfl : size = w.playback.queue.size := hplain
        exact .inl (of_decide_eq_true ha)
      | takes _ => exact hplain.elim
      | pushes _ _ => exact hplain.elim
      | _ => exact h ha
    | takes event hl =>
      rw [hl] at ha
      exact h (Bool.and_eq_true_iff.mp ha).2
    | pushes event accepted _ _ hl =>
      rw [hl] at ha
      split at ha <;> exact h ha
  -- an end that is queued stays queued until it is taken, which ends the waiting
  have hqueued : w.FinishQueued → w'.FinishQueued := by
    rintro ⟨e, he, htype⟩
    cases hs.history with
    | same _ hev => exact ⟨e, hev ▸ he, htype⟩
    | records _ _ _ hev => exact ⟨e, hev ▸ he, htype⟩
    | takes event hl hev =>
      rw [hl] at ha
      obtain rfl | he := List.mem_cons.mp (hev ▸ he)
      · exact absurd htype (of_decide_eq_true (Bool.and_eq_true_iff.mp ha).1)
      · exact ⟨e, he, htype⟩
    | pushes event accepted _ _ _ hev =>
      refine ⟨e, ?_, htype⟩
      rw [hev]
      split
      · exact List.mem_append_left _ he
      · exact he
  cases hs.sound with
  | same hq _ _ hl => rw [hq, hl]; exact hprev.imp_right (.imp_right hqueued)
  | enqueues _ _ hpush => exact .inl (AudioBuffer.push_size hpush ▸ Nat.succ_ne_zero _)
  | records entry _ ho hq _ _ hl =>
    rw [hq, hl]
    refine hprev.imp_right (.imp (fun hd => ?_) hqueued)
    cases entry with
    | pops _ => exact ho.elim
    | finishes _ => exact ho.elim
    | _ => exact hd
  | pops block _ _ _ _ hl => exact .inr (.inl (by rw [hl]; rfl))
  | finishes accepted _ _ _ _ hl hp =>
    -- the end is reported, and by the condition there is room for it
    obtain rfl : accepted = true :=
      Bool.eq_true_of_not_eq_false fun hf => (hok _ hl).2 (by rw [hf])
    exact .inr (.inr ⟨_, hs.history.mem_of_push hp, rfl⟩)

namespace System

variable {cjsonParse : Bytes → Option Json} {config : AppConfig} {cfg : Config}

/-- The playback thread is between two iterations, or sleeps in one. -/
def PlaybackRests (cfg : Config) : Prop :=
  cfg.cur .playback = none ∨ cfg.cur .playback = some AudioPlayback.sleeping

/-- In every run in which the device fails only while another block is queued,
    and the event queue has room for the end of the playback: whenever the
    playback thread is between two iterations or sleeps, and the queue is empty,
    it has reported the end since its last pop; and a session that plays on after
    a tts stop has the report in the event queue. -/
theorem drained_finishes (hr : Reach cjsonParse PlaysLast config cfg)
    (hp : PlaybackRests cfg) (hq : cfg.shared.playback.queue.size = 0) :
    drainReported cfg.shared.playback.log = true ∧
    (AtBoundary cfg → cfg.shared.session = .playingTts → cfg.shared.ttsDone = true →
      ∃ e ∈ cfg.shared.events.toList, e.type = .playbackFinished) := by
  have hbody (w : World) (h : Drained w) :
      (body cjsonParse .playback).wp drainContract (fun _ => Drained) w :=
    AudioPlayback.thread_drain_wp h
  have hinit : (init config).Local .playback (fun p => p.wp drainContract fun _ => Drained)
      Drained := fun _ => rfl
  have hrely {j : ThreadId} {w w' : World} (hj : j ≠ .playback) (h : Step j w w') :
      drainContract.rely w w' := by
    refine ⟨h.playbackLog hj, fun hne => ?_⟩
    cases h.sound with
    | same hq => rwa [hq]
    | enqueues _ _ hpush => exact AudioBuffer.push_size hpush ▸ Nat.succ_ne_zero _
    | records _ hi => exact absurd hi hj
    | pops _ hi => exact absurd hi hj
    | finishes _ hi => exact absurd hi hj
  -- the log is written by the playback thread alone, so its own contract says what is in it
  have hdrained : drainReported cfg.shared.playback.log = true := by
    have hlocal := Threads.Reach.thread (fun _ _ h => h.1) (fun _ _ _ hj h => hrely hj h.2)
      (fun _ _ h hr => Drained.rely h hr) hbody hinit hr.steps
    unfold Threads.Config.Local at hlocal
    rcases hp with hnone | hsleeps
    · rw [hnone] at hlocal
      exact hlocal hq
    · rw [hsleeps] at hlocal
      exact AudioPlayback.drained_of_sleeping hlocal hq
  refine ⟨hdrained, fun hb hs hd => ?_⟩
  have hstart : App.runStart.vwp mainView (.any _) (fun _ => FinishOk)
      (World.init config).mainView := by
    simp [runStart, App.resetToIdle, vwp_ite, handleAction, App.connect, FinishOk.other]
  -- a session that plays on after its tts stop waits for the end
  have hawaited := Reach.atBoundary (S := .any _) (J := FinishOk) (fun _ _ _ => trivial) hstart
    (fun v hv => runLoop_keeps (by simp [FinishOk, finishAwaited])
      (fun v _ h => ViewContract.after_any.mpr (h.congr rfl rfl rfl))
      (fun v e h => ViewContract.after_any.mpr (h.handleEvent e)) v hv) hr hb hs hd
  have hinit : FinishDue (World.init config) := fun h => absurd h Bool.false_ne_true
  have hdue : FinishDue cfg.shared :=
    Threads.Reach.invariant hinit (fun _ _ _ h hd => hd.step h.2 h.1) hr.steps
  obtain hne | hdrain | hqueued := hdue hawaited
  · exact absurd hq hne
  · exact absurd (hdrain.symm.trans hdrained) (by simp)
  · exact hqueued

/-- The test for `PlaysLast`. -/
def playsLast (_ : ThreadId) (w w' : World) : Bool :=
  match added w.playback.log w'.playback.log with
  | some (.opens false) | some .writeFails => decide (w.playback.queue.size ≠ 0)
  | some (.finishes accepted) => accepted
  | _ => true

theorem playsLast_iff (i : ThreadId) (w w' : World) (h : playsLast i w w' = true) :
    PlaysLast i w w' := by
  intro entry hlog
  simp only [playsLast, hlog, added_cons] at h
  refine ⟨?_, ?_⟩
  · rintro (rfl | rfl) <;> simpa using h
  · rintro rfl
    simp at h

/-- The session waits after a tts stop, and the last block is played. -/
theorem drained_finishes_played :
    ∃ cfg, Reach sampleParse PlaysLast ⟨1, 16000, 1200, 500⟩ cfg ∧ PlaybackRests cfg ∧
      cfg.shared.playback.queue.size = 0 ∧ drainReported cfg.shared.playback.log = true ∧
      AtBoundary cfg ∧ cfg.shared.session = .playingTts ∧ cfg.shared.ttsDone = true ∧
      ∃ e ∈ cfg.shared.events.toList, e.type = .playbackFinished := by
  have h : (play sampleParse playsLast ⟨1, 16000, 1200, 500⟩ [
      (.main, 15, [.ok]),
      (.service 1, 43, [.ok, .ok, .ok, .callback .established, receives 0, receives 2,
        .callback (.receive true [1] true), .decoded 1 [0, 0], receives 3, .nothing]),
      (.main, 52, [.ok, .ok, .nothing, .nothing, .nothing, .nothing]),
      (.playback, 15, [.ok, .count 1])]).any (fun cfg => ((cfg.cur .playback).isNone &&
        (cfg.cur .main).isNone) && (decide (cfg.shared.playback.queue.size = 0) &&
        (decide (cfg.shared.session = .playingTts) && cfg.shared.ttsDone))) = true := by
    decide +kernel
  obtain ⟨cfg, hr, hp⟩ := exists_of_play playsLast_iff h
  simp only [Bool.and_eq_true, Option.isNone_iff_eq_none, decide_eq_true_eq] at hp
  obtain ⟨⟨hplay, hmain⟩, hq, hs, hd⟩ := hp
  obtain ⟨hdrained, hqueued⟩ := drained_finishes hr (.inl hplay) hq
  exact ⟨cfg, hr, .inl hplay, hq, hdrained, hmain, hs, hd, hqueued hmain hs hd⟩

/-- The session waits after a tts stop, and the device cannot be opened for the
    last block. -/
theorem drained_unreported : ∃ cfg, Reach sampleParse anyStep ⟨1, 16000, 1200, 500⟩ cfg ∧
    cfg.cur .playback = none ∧ AtBoundary cfg ∧ cfg.shared.playback.queue.size = 0 ∧
    drainReported cfg.shared.playback.log = false ∧ cfg.shared.session = .playingTts ∧
    cfg.shared.ttsDone = true ∧ cfg.shared.events.toList = [] := by
  have h : (play sampleParse (fun _ _ _ => true) ⟨1, 16000, 1200, 500⟩ [
      (.main, 15, [.ok]),
      (.service 1, 43, [.ok, .ok, .ok, .callback .established, receives 0, receives 2,
        .callback (.receive true [1] true), .decoded 1 [0, 0], receives 3, .nothing]),
      (.main, 52, [.ok, .ok, .nothing, .nothing, .nothing, .nothing]),
      (.playback, 8, [.fail])]).any (fun cfg => (cfg.cur .playback).isNone &&
        ((cfg.cur .main).isNone && (decide (cfg.shared.playback.queue.size = 0) &&
        (!drainReported cfg.shared.playback.log && (decide (cfg.shared.session = .playingTts) &&
        (cfg.shared.ttsDone && decide (cfg.shared.events.toList = []))))))) = true := by
    decide +kernel
  obtain ⟨cfg, hr, hp⟩ := exists_of_play (fun _ _ _ _ => trivial) h
  simp only [Bool.and_eq_true, Option.isNone_iff_eq_none, decide_eq_true_eq,
    Bool.not_eq_true'] at hp
  exact ⟨cfg, hr, hp⟩

end System

end Xiaozhi
