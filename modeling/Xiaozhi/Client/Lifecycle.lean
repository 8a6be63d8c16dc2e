-- SUMMARY: The life of the service threads: a thread is created only when all earlier ones have been joined, and joined only after it has ended.
import Xiaozhi.App.MainLoop

/-!
# Life of the service threads

`running` says whether there is a service thread to join, and `client_started`
agrees with it at every boundary of the main loop. So at most one service
thread is alive, and the threads before the latest one have all ended.
-/

namespace Xiaozhi

open Threads Threads.Prog World App

/-- The service threads up to `n` have been joined. -/
def MainView.JoinedTo (v : MainView) (n : Nat) : Prop := ∀ k, 0 < k → k ≤ n → k ∈ v.joined

/-- The variables of the client. -/
def MainView.clientVars (v : MainView) : Nat × Option Nat × Bool × List Nat :=
  (v.started, v.thread, v.running, v.joined)

/-- What the client's variables say about the service threads. -/
structure ClientOk (v : MainView) : Prop where
  idle : v.running = false → v.thread = none ∧ v.JoinedTo v.started
  live : v.running = true → v.thread = some v.started ∧ 0 < v.started ∧ v.JoinedTo (v.started - 1)

/-- What the steps of the main thread do about service threads: a new one is
    created only after all others have been joined, and none is taken up again. -/
def clientContract : ViewContract MainView where
  assume _ _ := True
  guar v v' :=
    (v'.started = v.started ∨ v'.started = v.started + 1 ∧ v.JoinedTo v.started) ∧
    ∀ k, v'.thread = some k → v'.running = true →
      v.thread = some k ∧ v.running = true ∨ v'.started = v.started + 1 ∧ k = v'.started
  assume_refl _ := trivial
  guar_refl _ := ⟨.inl rfl, fun _ h₁ h₂ => .inl ⟨h₁, h₂⟩⟩

namespace ClientOk

variable {v v' : MainView} {P : Prop}

/-- The step does not concern the client. -/
@[simp] theorem after_same (h₁ : v'.started = v.started) (h₂ : v'.thread = v.thread)
    (h₃ : v'.running = v.running) : clientContract.After v v' P ↔ P := by
  refine ⟨fun h => (h trivial).2, fun h _ => ⟨⟨.inl h₁, fun k hk hr => .inl ⟨?_, ?_⟩⟩, h⟩⟩
  · rw [← h₂, hk]
  · rw [← h₃, hr]

theorem after (hg : clientContract.guar v v') (h : P) : clientContract.After v v' P :=
  fun _ => ⟨hg, h⟩

/-- The client's variables are the same. -/
theorem congr (h : ClientOk v) (hv : v'.clientVars = v.clientVars) : ClientOk v' := by
  simp only [MainView.clientVars, Prod.mk.injEq] at hv
  obtain ⟨h₁, h₂, h₃, h₄⟩ := hv
  obtain ⟨hi, hl⟩ := h
  unfold MainView.JoinedTo at hi hl
  refine ⟨fun hr => ?_, fun hr => ?_⟩
  · unfold MainView.JoinedTo
    rw [h₁, h₂, h₄]
    exact hi (h₃ ▸ hr)
  · unfold MainView.JoinedTo
    rw [h₁, h₂, h₄]
    exact hl (h₃ ▸ hr)

theorem start {Q : Bool → MainView → Prop} (h : ClientOk v)
    (hQ : ∀ b v', ClientOk v' → v'.running = b → v'.clientStarted = v.clientStarted →
      (b = false → v.running = false) → Q b v') :
    XiaozhiClient.start.vwp mainView clientContract Q v := by
  rw [XiaozhiClient.vwp_start]
  refine ⟨fun hr => ?_, fun hr => ?_⟩
  · refine (after_same (by rfl) (by rfl) (by rfl)).mpr ?_
    exact hQ _ _ (h.congr (by rfl)) hr rfl (by simp)
  · obtain ⟨ht, hj⟩ := h.idle hr
    refine after ⟨.inl rfl, fun k hk => by simp [ht] at hk⟩ ?_
    simp only [XiaozhiClient.vwp_createThread]
    constructor
    · refine after ⟨.inr ⟨rfl, hj⟩, fun k hk _ => .inr ⟨rfl, by simpa using hk.symm⟩⟩ ?_
      refine ⟨fun _ => hQ _ _ ⟨by simp, fun _ => ⟨rfl, by simp, fun k h₁ h₂ => ?_⟩⟩ rfl rfl
        (by simp), by simp⟩
      exact hj k h₁ (by simpa using h₂)
    · intro b
      refine (after_same (by rfl) (by rfl) (by rfl)).mpr ⟨by simp, fun _ => ?_⟩
      refine after ⟨.inl rfl, by simp⟩ ?_
      exact hQ _ _ ⟨fun _ => ⟨ht, hj⟩, by simp⟩ rfl rfl fun _ => hr

theorem stop {Q : Unit → MainView → Prop} (h : ClientOk v)
    (hQ : ∀ v', ClientOk v' → v'.running = false → v'.clientStarted = v.clientStarted → Q () v') :
    XiaozhiClient.stop.vwp mainView clientContract Q v := by
  rw [XiaozhiClient.vwp_stop]
  refine after ⟨.inl rfl, by simp⟩ ⟨fun hr => ?_, fun hr => ?_⟩
  · exact hQ _ ⟨fun _ => h.idle hr, by simp⟩ rfl rfl
  · obtain ⟨ht, hpos, hj⟩ := h.live hr
    simp only [XiaozhiClient.vwp_joinThread, after_same]
    refine ⟨by simp [ht], fun k hk => ?_⟩
    refine after ⟨.inl rfl, by simp⟩ ?_
    obtain rfl := Option.some.inj (ht.symm.trans hk)
    refine hQ _ ⟨fun _ => ⟨rfl, fun k h₁ h₂ => ?_⟩, by simp⟩ rfl rfl
    -- the thread that has just been joined is the latest one
    obtain rfl | hlt := Nat.eq_or_lt_of_le h₂
    · exact List.mem_cons_self
    · exact List.mem_cons_of_mem _ (hj k h₁ (Nat.le_sub_one_of_lt hlt))

/-- What holds of the client at every boundary of the main loop. -/
structure AtBoundary (v : MainView) : Prop where
  ok : ClientOk v
  started : v.clientStarted = v.running

namespace AtBoundary

/-- The client's variables are the same. -/
theorem congr (h : AtBoundary v) (hv : v'.clientVars = v.clientVars)
    (hs : v'.clientStarted = v.clientStarted) : AtBoundary v' := by
  refine ⟨h.ok.congr hv, ?_⟩
  simp only [MainView.clientVars, Prod.mk.injEq] at hv
  rw [hs, hv.2.2.1, h.started]

@[simp] theorem record (h : AtBoundary v) {entry : MainEntry} : AtBoundary (v.record entry) :=
  h.congr rfl rfl

/-- The end of the actions that start the client. -/
theorem restart {p : Thread Unit} (h : AtBoundary v)
    (hp : ∀ v, AtBoundary v → p.vwp mainView clientContract (fun _ => AtBoundary) v) :
    (XiaozhiClient.start >>= fun b => if b = true then setClientStarted true else p).vwp
      mainView clientContract (fun _ => AtBoundary) v := by
  rw [vwp_bind]
  refine start h.ok fun b v' hok hr hs hb => vwp_ite.mpr ⟨fun hb => ?_, fun hb' => hp v' ⟨hok, ?_⟩⟩
  · subst hb
    simpa using ⟨hok.congr (by rfl), hr.symm⟩
  · have hb' : b = false := by simpa using hb'
    rw [hs, hr, hb', h.started, hb hb']

theorem pushError (h : AtBoundary v) {message : String} :
    (App.pushError message).vwp mainView clientContract (fun _ => AtBoundary) v := by
  simp [h]

theorem connect (h : AtBoundary v) :
    App.connect.vwp mainView clientContract (fun _ => AtBoundary) v := by
  simp only [App.connect, vwp_bind, vwp_setSessionId, vwp_setTtsDone, after_same]
  exact vwp_bind.mp (restart (h.congr (by rfl) (by rfl)) fun _ h => h.pushError)

/-- Whether a message is queued or not, the client's life goes on. -/
theorem queuePayload {payload : Option Bytes} {Q : Bool → MainView → Prop} (h : AtBoundary v)
    (hQ : ∀ b v, AtBoundary v → Q b v) :
    (App.queuePayload payload).vwp mainView clientContract Q v := by
  simp [h, hQ]

theorem abort (h : AtBoundary v) :
    App.abort.vwp mainView clientContract (fun _ => AtBoundary) v := by
  simp only [App.abort, stopUpload, sendAbort, vwp_bind, vwp_setUploadEnabled, vwp_setUploading,
    vwp_closeOpusDumpFile, after_same]
  refine queuePayload (h.congr (by rfl) (by rfl)) fun _ v h => ?_
  simp only [vwp_playback_requestStop, vwp_readClientStarted]
  have hend {v : MainView} (hok : ClientOk v) (hr : v.running = false) :
      (do setClientStarted false
          setSessionId []
          if ← XiaozhiClient.start then
            setClientStarted true
          else
            App.pushError "failed to restart websocket client" : Thread Unit).vwp
        mainView clientContract (fun _ => AtBoundary) v := by
    simp only [vwp_bind, vwp_setClientStarted, vwp_setSessionId, after_same]
    exact vwp_bind.mp (restart ⟨hok.congr (by rfl), hr.symm⟩ fun _ h => h.pushError)
  simp only [vwp_bind] at hend
  exact vwp_when.mpr ⟨fun _ => stop h.ok fun v hok hr _ => hend hok hr,
    fun hs => hend h.ok (h.started ▸ hs)⟩

theorem returnToWake (h : AtBoundary v) :
    App.returnToWake.vwp mainView clientContract (fun _ => AtBoundary) v := by
  simp only [App.returnToWake, vwp_bind, vwp_setUploadEnabled, vwp_setTtsDone, vwp_setUploading,
    vwp_closeOpusDumpFile, vwp_setSessionId, vwp_readClientStarted, after_same]
  have hend {v : MainView} (h : AtBoundary v) :
      (do setState .connecting
          Thread.when (← XiaozhiClient.start) (setClientStarted true) : Thread Unit).vwp
        mainView clientContract (fun _ => AtBoundary) v := by
    simp only [vwp_bind, vwp_setState, after_same]
    exact vwp_bind.mp (restart (p := pure ()) (h.congr (by rfl) (by rfl)) fun _ h => h)
  simp only [vwp_bind] at hend
  refine vwp_when.mpr ⟨fun _ => ?_, fun _ => hend (h.congr (by rfl) (by rfl))⟩
  refine vwp_bind.mpr (stop (h.ok.congr (by rfl)) fun v hok hr _ => ?_)
  simp only [vwp_setClientStarted, after_same]
  exact hend ⟨hok.congr (by rfl), hr.symm⟩

theorem startListen (h : AtBoundary v) :
    App.startListen.vwp mainView clientContract (fun _ => AtBoundary) v := by
  simp only [App.startListen, vwp_bind, vwp_sendListenStart, vwp_openOpusDumpFile, vwp_ite,
    vwp_setUploadEnabled, vwp_setState, vwp_setUploading, after_same, MainView.record_started,
    MainView.record_thread, MainView.record_running]
  refine ⟨⟨by simp, fun _ => h.pushError⟩, fun _ _ _ => ⟨fun _ b => ⟨fun _ => ?_, fun _ => ?_⟩, by simp⟩⟩
  · exact h.congr rfl rfl
  · exact (h.congr (by rfl) (by rfl)).pushError

theorem stopListen (h : AtBoundary v) :
    App.stopListen.vwp mainView clientContract (fun _ => AtBoundary) v := by
  have h : AtBoundary { v with uploadEnabled := false, uploading := false, dumpOpen := false } :=
    h.congr rfl rfl
  simp only [App.stopListen, stopUpload, vwp_bind, vwp_sendListenStop, vwp_ite, pure_eq, vwp_ret,
    vwp_setUploadEnabled, vwp_setUploading, vwp_closeOpusDumpFile, after_same,
    MainView.record_started, MainView.record_thread, MainView.record_running]
  exact ⟨⟨by simp, fun _ => h.pushError⟩, fun _ _ _ => ⟨fun _ => h.record, by simp⟩⟩

theorem handleAction (h : AtBoundary v) (action : SessionAction) :
    (App.handleAction action).vwp mainView clientContract (fun _ => AtBoundary) v := by
  simp only [App.handleAction, vwp_bind, vwp_record]
  refine (after_same (by rfl) (by rfl) (by rfl)).mpr ?_
  have h : AtBoundary (v.record (.performs action)) := h.record
  cases action with
  | connect => exact h.connect
  | abort => exact h.abort
  | returnToWake => exact h.returnToWake
  | sendHello => simp [vwp_ite, h]
  | startListen => exact h.startListen
  | stopListen => exact h.stopListen
  | none => exact h
  | startPlayback => exact h

theorem handleSessionEvent (h : AtBoundary v) (type : AppEventType) :
    (App.handleSessionEvent type).vwp mainView clientContract (fun _ => AtBoundary) v := by
  simp only [App.handleSessionEvent, vwp_bind, vwp_sessionHandleEvent, after_same]
  exact handleAction (h.congr (by rfl) (by rfl)) _

theorem resetToIdle (h : AtBoundary v) :
    App.resetToIdle.vwp mainView clientContract (fun _ => AtBoundary) v := by
  simp only [App.resetToIdle, vwp_bind, vwp_setUploadEnabled, vwp_setTtsDone, vwp_setUploading,
    vwp_closeOpusDumpFile, vwp_lookConnected, vwp_ite, vwp_setState, after_same,
    MainView.record_started, MainView.record_thread, MainView.record_running]
  exact fun _ => ⟨fun _ => h.congr rfl rfl, fun _ => h.congr rfl rfl⟩

theorem handleProtocolEvent (h : AtBoundary v) (event : XiaozhiIncomingEvent) :
    (App.handleProtocolEvent event).vwp mainView clientContract (fun _ => AtBoundary) v := by
  simp only [App.handleProtocolEvent, vwp_bind, vwp_record]
  refine (after_same (by rfl) (by rfl) (by rfl)).mpr ?_
  have h : AtBoundary (v.record (.handles event)) := h.record
  split
  · simp only [handleHello, vwp_bind, vwp_when, vwp_setSessionId, vwp_updateDecoderFromHello,
      after_same]
    exact ⟨fun _ => handleSessionEvent (h.congr (by rfl) (by rfl)) _,
      fun _ => handleSessionEvent h _⟩
  · simp only [handleTtsStart, vwp_bind, vwp_setUploadEnabled, vwp_setUploading, vwp_setState,
      vwp_setTtsDone, after_same]
    exact h.congr rfl rfl
  · simp only [handleTtsStop, vwp_bind, vwp_setTtsDone, vwp_findQueueSize, vwp_when, after_same,
      MainView.record_started, MainView.record_thread, MainView.record_running]
    exact fun _ => ⟨fun _ => resetToIdle (h.congr (by rfl) (by rfl)),
      fun _ => h.congr rfl rfl⟩
  · exact h

theorem handleEvent {cjsonParse : Bytes → Option Json} (h : AtBoundary v) (e : AppEvent) :
    (App.handleEvent cjsonParse e).vwp mainView clientContract (fun _ => AtBoundary) v := by
  unfold App.handleEvent
  split <;> first | exact handleSessionEvent h _ | exact h | skip
  · simp only [handleText, vwp_bind, vwp_record]
    refine (after_same (by rfl) (by rfl) (by rfl)).mpr ?_
    split
    · exact handleProtocolEvent h.record _
    · exact h.record
  · simp only [handlePlaybackFinished, vwp_bind, vwp_readTtsDone, vwp_when]
    exact ⟨fun _ => resetToIdle h, fun _ => h⟩
  · simpa using h

end AtBoundary

end ClientOk

namespace System

variable {cjsonParse : Bytes → Option Json} {config : AppConfig}

theorem client_start :
    App.runStart.vwp mainView clientContract (fun _ => ClientOk.AtBoundary)
      (World.init config).mainView := by
  have hinit : ClientOk.AtBoundary (World.init config).mainView := by
    refine ⟨⟨fun _ => ⟨rfl, fun k h₁ h₂ => ?_⟩, fun h => (nomatch h)⟩, rfl⟩
    exact absurd (Nat.lt_of_lt_of_le h₁ h₂) (Nat.lt_irrefl 0)
  simp only [runStart, vwp_bind]
  refine (hinit.resetToIdle).mono fun _ v h => ?_
  simp only [vwp_readClientStarted, vwp_when, vwp_bind, vwp_setState, ClientOk.after_same]
  exact ⟨fun _ => ClientOk.AtBoundary.handleAction (h.congr (by rfl) (by rfl)) _, fun _ => h⟩

theorem client_loop (v : MainView) (h : ClientOk.AtBoundary v) :
    (App.runLoop cjsonParse).vwp mainView clientContract (fun _ => ClientOk.AtBoundary) v :=
  runLoop_keeps (fun v _ _ _ h => (ClientOk.after_same (by rfl) (by rfl) (by rfl)).mpr h.record)
    (fun v _ h => (ClientOk.after_same (by rfl) (by rfl) (by rfl)).mpr (h.congr (by rfl) (by rfl)))
    (fun v e h => (ClientOk.after_same (by rfl) (by rfl) (by rfl)).mpr (h.record.handleEvent e)) v h

end System

/-! ## The service threads -/

/-- The service thread `k` has been created and has not ended. -/
structure World.Alive (w : World) (k : Nat) : Prop where
  pos : 0 < k
  created : k ≤ w.started
  running : w.exited k = false

/-- What the service thread `k` relies on: only it ends itself, and a created
    thread stays so. It guarantees that it acts only while it is alive. -/
def serviceContract (k : Nat) : Contract World where
  rely w w' := w'.exited k = w.exited k ∧ w.started ≤ w'.started
  assume _ _ := True
  guar w _ := w.Alive k
  rely_refl _ := ⟨rfl, Nat.le_refl _⟩
  rely_trans h₁ h₂ := ⟨h₂.1.trans h₁.1, h₁.2.trans h₂.2⟩

theorem World.Alive.rely {k : Nat} {w w' : World} (h : w.Alive k)
    (hr : (serviceContract k).rely w w') : w'.Alive k :=
  ⟨h.pos, h.created.trans hr.2, hr.1.trans h.running⟩

theorem Step.started_le {i : ThreadId} {w w' : World} (h : Step i w w') :
    w.started ≤ w'.started := by
  by_cases hi : i = .main
  · subst hi
    cases h with
    | quiet _ _ hs _ => exact hs.ge
    | starts => exact Nat.le_succ _
    | _ => exact Nat.le_refl _
  · exact (congrArg MainView.started (h.mainView hi)).ge

theorem serviceThread_wp (k : Nat) (w : World) :
    (XiaozhiClient.serviceThread k).wp (serviceContract k) (fun _ _ => True) w := by
  refine wp.bind (wp_await fun w₁ _ hw => ?_)
  have halive : w₁.Alive k := by
    simp only [Bool.and_eq_true, decide_eq_true_eq, Bool.not_eq_true'] at hw
    exact ⟨hw.1.1, hw.1.2, hw.2⟩
  refine ⟨halive, fun w₂ h₂ => wp.bind ?_⟩
  refine (Within.wp (I := (World.Alive · k)) XiaozhiClient.service_serviceMain
    (fun _ _ hr h => h.rely hr) (fun w w' h hs _ => ⟨h, ?_⟩) (halive.rely h₂)).mono fun _ w h => ?_
  · exact h.rely ⟨by rw [hs.exited], (Step.started_le (i := .service k) (.inl hs))⟩
  · exact wp_modify fun w₁ h₁ _ => ⟨h.rely h₁, fun _ _ => trivial⟩

/-- What is known of every step of every run: which step it is, that service
    threads are created one after the other, and that a service thread acts
    only as the latest one, between its creation and its end. -/
structure System.Base (i : ThreadId) (w w' : World) : Prop where
  step : Step i w w'
  main : i = .main → clientContract.guar w.mainView w'.mainView
  service : ∀ k, i = .service k → w' = w ∨ w.Alive k ∧ k = w.started

/-- The earlier service threads have been joined, and joined threads have ended. -/
structure World.LifeOk (w : World) : Prop where
  earlier : ∀ k, 0 < k → k < w.started → k ∈ w.joined
  ended : ∀ k ∈ w.joined, w.exited k = true

namespace World.LifeOk

variable {w w' : World} {i : ThreadId}

/-- The service thread that is alive is the latest one. -/
theorem eq_started (h : w.LifeOk) {k : Nat} (hk : w.Alive k) : k = w.started := by
  by_contra hne
  have hlt : k < w.started := Nat.lt_of_le_of_ne hk.created hne
  have := h.ended k (h.earlier k hk.pos hlt)
  simp [hk.running] at this

theorem step (h : w.LifeOk) (hs : Step i w w')
    (hg : i = .main → clientContract.guar w.mainView w'.mainView) : w'.LifeOk := by
  have hended {k : Nat} (hk : w.exited k = true) : w'.exited k = true := by
    by_cases hi : i = .service k
    · subst hi
      obtain hs | rfl := hs
      · rw [hs.exited, hk]
      · exact Function.update_self ..
    · rw [hs.exited_of_ne hi, hk]
  by_cases hi : i = .main
  · subst hi
    have hjoined {k : Nat} (hk : k ∈ w.joined) : k ∈ w'.joined := by
      cases hs with
      | quiet _ _ _ hj => exact hj ▸ hk
      | joins _ => exact List.mem_cons_of_mem _ hk
      | _ => exact hk
    refine ⟨fun k h₁ h₂ => hjoined ?_, ?_⟩
    · obtain ⟨heq | ⟨heq, hj⟩, -⟩ := hg rfl
      · have heq : w'.started = w.started := heq
        exact h.earlier k h₁ (heq ▸ h₂)
      · have heq : w'.started = w.started + 1 := heq
        exact hj k h₁ (show k ≤ w.started by omega)
    · cases hs with
      | quiet hq _ _ hj => rw [hj, hq.exited]; exact h.ended
      | joins hk => exact List.forall_mem_cons.mpr ⟨hk, h.ended⟩
      | _ => exact h.ended
  · have hv := hs.mainView hi
    have hst : w'.started = w.started := congrArg MainView.started hv
    have hjo : w'.joined = w.joined := congrArg MainView.joined hv
    exact ⟨hst ▸ hjo ▸ h.earlier, fun k hk => hended (h.ended k (hjo ▸ hk))⟩

end World.LifeOk

namespace System

variable {cjsonParse : Bytes → Option Json} {ok : ThreadId → World → World → Prop}
  {config : AppConfig} {cfg : Config}

/-- Every run consists of steps that satisfy `Base`. -/
theorem Reach.base (hr : Reach cjsonParse ok config cfg) :
    Reach cjsonParse (fun i w w' => ok i w w' ∧ Base i w w') config cfg := by
  have hr₁ := Reach.strengthen_main (S := clientContract) (fun _ _ _ => trivial) client_start
    client_loop hr
  have hr₂ : Reach cjsonParse (fun i w w' => (ok i w w' ∧ Step i w w' ∧
      (i = .main → clientContract.guar w.mainView w'.mainView)) ∧
      ∀ k, i = .service k → w' = w ∨ w.Alive k) config cfg := by
    refine Threads.Reach.strengthen (fun cfg cfg' i c hr hs hok => ⟨hok, ?_⟩) hr₁
    rintro k rfl
    have hbody (w : World) (_ : True) :
        (body cjsonParse (.service k)).wp (serviceContract k) (fun _ _ => True) w :=
      serviceThread_wp k w
    have hinit : (init config).Local (.service k)
        (fun p => p.wp (serviceContract k) fun _ _ => True) fun _ => True := trivial
    exact (Threads.Reach.thread_guar (C := serviceContract k) (fun _ _ _ => trivial)
      (fun j w w' hj h => ⟨h.2.1.exited_of_ne hj, h.2.1.started_le⟩)
      (fun _ _ _ _ => trivial) hbody hinit hr hs hok).symm
  refine Threads.Reach.strengthen (fun cfg cfg' i c hr hs hok => ?_) hr₂
  obtain ⟨⟨hok, hstep, hg⟩, hk⟩ := hok
  refine ⟨hok, hstep, hg, fun k hi => ?_⟩
  have hlife : cfg.shared.LifeOk := Threads.Reach.invariant
    ⟨fun k h₁ h₂ => absurd (h₁.trans h₂) (Nat.lt_irrefl 0), fun _ h => absurd h List.not_mem_nil⟩
    (fun _ _ _ h hl => hl.step h.1.2.1 h.1.2.2) hr
  exact (hk k hi).imp_right fun h => ⟨h, hlife.eq_started h⟩

/-- At every boundary of the main loop `client_started` says whether the client
    runs, and at most one service thread has been created and not been joined. -/
theorem one_service_thread (hr : Reach cjsonParse anyStep config cfg) (hb : AtBoundary cfg) :
    cfg.shared.clientStarted = cfg.shared.client.running ∧
    ∀ j k, 0 < j → j ≤ cfg.shared.started → j ∉ cfg.shared.joined →
      0 < k → k ≤ cfg.shared.started → k ∉ cfg.shared.joined → j = k := by
  have h : ClientOk.AtBoundary cfg.shared.mainView :=
    Reach.atBoundary (S := clientContract) (fun _ _ _ => trivial) client_start client_loop hr hb
  -- a thread that has not been joined is the latest one
  have hlatest {k : Nat} (hpos : 0 < k) (hk : k ≤ cfg.shared.started) (hj : k ∉ cfg.shared.joined) :
      k = cfg.shared.started := by
    by_contra hne
    cases hrunning : cfg.shared.client.running with
    | false => exact hj ((h.ok.idle hrunning).2 k hpos hk)
    | true =>
      have hearlier : k ≤ cfg.shared.started - 1 := by omega
      exact hj ((h.ok.live hrunning).2.2 k hpos hearlier)
  refine ⟨h.started, fun j k hj hjs hju hk hks hku => ?_⟩
  rw [hlatest hj hjs hju, hlatest hk hks hku]

/-- After the prologue of `app_run` the first service thread is the only one. -/
theorem one_service_thread_started :
    ∃ cfg, Reach sampleParse anyStep ⟨1, 16000, 1200, 500⟩ cfg ∧ AtBoundary cfg ∧
      cfg.shared.client.running = true ∧ cfg.shared.started = 1 ∧ cfg.shared.joined = [] ∧
      cfg.shared.clientStarted = true := by
  have h : (play sampleParse (fun _ _ _ => true) ⟨1, 16000, 1200, 500⟩ [(.main, 15, [.ok])]).any
      (fun cfg => decide (cfg.shared.client.running = true) && decide (cfg.shared.started = 1) &&
        decide (cfg.shared.joined = []) && (cfg.cur .main).isNone) = true := by decide +kernel
  obtain ⟨cfg, hr, hp⟩ := exists_of_play (fun _ _ _ _ => trivial) h
  simp only [Bool.and_eq_true, decide_eq_true_eq, Option.isNone_iff_eq_none] at hp
  obtain ⟨⟨⟨hrunning, hstarted⟩, hjoined⟩, hb⟩ := hp
  exact ⟨cfg, hr, hb, hrunning, hstarted, hjoined, (one_service_thread hr hb).1.trans hrunning⟩

end System

end Xiaozhi
