-- SUMMARY: When a session that connects has a connection whose outcome is still to come.
import Xiaozhi.App.Reconnecting
import Xiaozhi.Client.Outcomes

/-!
# Connection attempts

A session that connects leaves this state by an outcome only: `WS_CONNECTED` or
an error. Someone has to report one: the service thread that was created when
the session began to connect, or the main loop itself when there is none.
-/

namespace Xiaozhi

open Threads Threads.Prog World App

/-- The service thread created since the session began to connect. -/
def attempt : List MainEntry → Option Nat
  | [] => none
  | .starts k :: _ => some k
  | .performs action :: log => if action.Restarts then none else attempt log
  | _ :: log => attempt log

/-- An error is known to be queued: one was found there or accepted, and none
    has been taken since. -/
def errorPending : List MainEntry → Bool
  | [] => false
  | .takes event :: log => !decide (event.type = .error) && errorPending log
  | .pushes event accepted :: log => accepted && decide (event.type = .error) || errorPending log
  | .startFails errorQueued :: log => errorQueued || errorPending log
  | _ :: log => errorPending log

/-- The action that was performed last. -/
def lastAction : List MainEntry → Option SessionAction
  | [] => none
  | .performs action :: _ => some action
  | _ :: log => lastAction log

/-- The client is started only when it does not run, and a failure to start it
    is followed by an error event: in `SESSION_ACTION_RETURN_TO_WAKE` there is
    one in the queue, and otherwise there is room for one. -/
def ReportsStarts (v : MainView) : MainEntry → Prop
  | .runsAlready => False
  | .startFails errorQueued => lastAction v.log = some .returnToWake → errorQueued = true
  | .pushes event accepted => event.type = .error ∧ v.session = .connecting →
      accepted = true ∨ errorPending v.log = true
  | _ => True

instance (v : MainView) : (entry : MainEntry) → Decidable (ReportsStarts v entry)
  | .runsAlready => .isFalse id
  | .startFails _ | .pushes .. => inferInstanceAs (Decidable (_ → _))
  | .takes _ | .parses _ | .handles _ | .performs _ | .resets .. | .finds _ | .queues _
  | .starts _ => .isTrue trivial

/-! ## The main loop -/

/-- An outcome is awaited, and an error is queued or a service thread runs for it. -/
structure MainView.Attempted (v : MainView) : Prop where
  awaits : awaitsOutcome v.log = true
  attempted : errorPending v.log = true ∨
    ∃ k, attempt v.log = some k ∧ v.thread = some k ∧ v.running = true

/-- While the session connects, there is an attempt. -/
def AttemptOk (v : MainView) : Prop := v.session = .connecting → v.Attempted

namespace AttemptOk

variable {v v' : MainView}

/-- The session does not connect. -/
theorem other (h : v.session ≠ .connecting) : AttemptOk v := fun hs => absurd hs h

theorem congr (h : AttemptOk v) (h₁ : v'.session = v.session) (h₂ : v'.log = v.log)
    (h₃ : v'.thread = v.thread) (h₄ : v'.running = v.running) : AttemptOk v' := by
  intro hs
  obtain ⟨ha, hk⟩ := h (h₁ ▸ hs)
  exact ⟨h₂ ▸ ha, by rw [h₂, h₃, h₄]; exact hk⟩

/-- An entry that is not about connections. -/
theorem record (h : AttemptOk v) {entry : MainEntry}
    (hawaits : awaitsOutcome (entry :: v.log) = awaitsOutcome v.log )
    (hattempt : attempt (entry :: v.log) = attempt v.log)
    (herror : errorPending v.log = true → errorPending (entry :: v.log) = true) :
    AttemptOk (v.record entry) := by
  intro hs
  obtain ⟨ha, hk⟩ := h hs
  refine ⟨hawaits.trans ha, ?_⟩
  exact hk.imp herror fun ⟨k, hk, ht⟩ => ⟨k, hattempt.trans hk, ht⟩

theorem pushes (h : AttemptOk v) {event : AppEvent} {accepted : Bool} :
    AttemptOk (v.record (.pushes event accepted)) :=
  h.record rfl rfl fun he => Bool.or_eq_true_iff.mpr (.inr he)

/-- A thread is created for the attempt, or the main loop has to report the failure. -/
theorem start {Q : Bool → MainView → Prop} (ha : awaitsOutcome v.log = true)
    (htrue : ∀ v', v'.Attempted → Q true v')
    (hfalse : ∀ v', awaitsOutcome v'.log = true → v'.session = v.session →
      (lastAction v.log = some .returnToWake → errorPending v'.log = true) → Q false v') :
    XiaozhiClient.start.vwp mainView (entryContract ReportsStarts) Q v := by
  simp only [XiaozhiClient.vwp_start, XiaozhiClient.vwp_createThread, after_record, after_create,
    after_same, ReportsStarts]
  refine ⟨fun _ => False.elim, fun _ => ⟨fun _ => ⟨fun _ => ?_, by simp⟩, fun b hb => ?_⟩⟩
  · exact htrue _ ⟨ha, .inr ⟨v.started + 1, rfl, rfl, rfl⟩⟩
  · refine ⟨by simp, fun _ => hfalse _ ha rfl fun hlast => ?_⟩
    exact Bool.or_eq_true_iff.mpr (.inl (hb hlast))

/-- The error that is pushed when the client could not be started. -/
theorem pushError {message : String} (hs : v.session = .connecting)
    (ha : awaitsOutcome v.log = true) :
    (App.pushError message).vwp mainView (entryContract ReportsStarts) (fun _ => AttemptOk) v := by
  simp only [vwp_pushError, after_record, ReportsStarts]
  intro accepted hroom _
  refine ⟨ha, .inl ?_⟩
  obtain rfl | he := hroom ⟨AppEvent.make_type, hs⟩
  · rfl
  · exact Bool.or_eq_true_iff.mpr (.inr he)

/-- The end of the actions that start the client. -/
theorem restart {message : String} (hs : v.session = .connecting)
    (ha : awaitsOutcome v.log = true) :
    (XiaozhiClient.start >>= fun b => if b = true then setClientStarted true else
      App.pushError message).vwp mainView (entryContract ReportsStarts) (fun _ => AttemptOk) v := by
  rw [vwp_bind]
  refine start ha (fun v' h => ?_) fun v' ha hs' _ => pushError (hs'.trans hs) ha
  simp only [if_true, vwp_setClientStarted, after_same]
  exact congr (fun _ => h) rfl rfl rfl rfl

/-- Stopping the client is not about attempts. -/
theorem stop {Q : Unit → MainView → Prop}
    (hQ : ∀ v', v'.session = v.session → v'.log = v.log → Q () v') :
    XiaozhiClient.stop.vwp mainView (entryContract ReportsStarts) Q v := by
  simp [hQ]

theorem connect (hs : v.session = .connecting) (ha : awaitsOutcome v.log = true) :
    App.connect.vwp mainView (entryContract ReportsStarts) (fun _ => AttemptOk) v := by
  simp only [App.connect, vwp_bind, vwp_setSessionId, vwp_setTtsDone, after_same]
  exact vwp_bind.mp (restart hs ha)

/-- Whether a message is queued or not, the outcome is still awaited. -/
theorem queuePayload {payload : Option Bytes} {Q : Bool → MainView → Prop}
    (hs : v.session = .connecting) (ha : awaitsOutcome v.log = true)
    (hQ : ∀ b v', v'.session = .connecting → awaitsOutcome v'.log = true → Q b v') :
    (App.queuePayload payload).vwp mainView (entryContract ReportsStarts) Q v := by
  simp only [vwp_queuePayload, after_record]
  exact ⟨hQ _ _ hs ha, fun _ _ _ => hQ _ _ hs ha⟩

theorem abort (hs : v.session = .connecting) (ha : awaitsOutcome v.log = true) :
    App.abort.vwp mainView (entryContract ReportsStarts) (fun _ => AttemptOk) v := by
  simp only [App.abort, stopUpload, sendAbort, vwp_bind, vwp_setUploadEnabled, vwp_setUploading,
    vwp_closeOpusDumpFile, after_same]
  refine queuePayload hs ha fun _ v hs ha => ?_
  simp only [vwp_playback_requestStop, vwp_readClientStarted]
  have hend {v : MainView} (hs : v.session = .connecting) (ha : awaitsOutcome v.log = true) :
      (do setClientStarted false
          setSessionId []
          if ← XiaozhiClient.start then
            setClientStarted true
          else
            App.pushError "failed to restart websocket client" : Thread Unit).vwp
        mainView (entryContract ReportsStarts) (fun _ => AttemptOk) v := by
    simp only [vwp_bind, vwp_setClientStarted, vwp_setSessionId, after_same]
    exact vwp_bind.mp (restart hs ha)
  simp only [vwp_bind] at hend
  exact vwp_when.mpr ⟨fun _ => stop fun v' hs' hl => hend (hs'.trans hs) (hl ▸ ha),
    fun _ => hend hs ha⟩

theorem returnToWake (ha : awaitsOutcome v.log = true)
    (hlast : lastAction v.log = some .returnToWake) :
    App.returnToWake.vwp mainView (entryContract ReportsStarts) (fun _ => AttemptOk) v := by
  simp only [App.returnToWake, vwp_bind, vwp_setUploadEnabled, vwp_setTtsDone, vwp_setUploading,
    vwp_closeOpusDumpFile, vwp_setSessionId, vwp_readClientStarted, after_same]
  have hend {v : MainView} (ha : awaitsOutcome v.log = true)
      (hlast : lastAction v.log = some .returnToWake) :
      (do setState .connecting
          Thread.when (← XiaozhiClient.start) (setClientStarted true) : Thread Unit).vwp
        mainView (entryContract ReportsStarts) (fun _ => AttemptOk) v := by
    simp only [vwp_bind, vwp_setState, after_same]
    refine start ha (fun v' h => ?_) fun v' ha _ he => ?_
    · simp only [Thread.when, if_true, vwp_setClientStarted, after_same]
      exact congr (fun _ => h) rfl rfl rfl rfl
    · exact fun _ => ⟨ha, .inl (he hlast)⟩
  simp only [vwp_bind] at hend
  refine vwp_when.mpr ⟨fun _ => ?_, fun _ => hend ha hlast⟩
  refine vwp_bind.mpr (stop fun v' _ hl => ?_)
  simp only [vwp_setClientStarted, after_same]
  exact hend (hl ▸ ha) (hl ▸ hlast)

theorem startListen (hs : v.session = .uploadingAudio) :
    App.startListen.vwp mainView (entryContract ReportsStarts) (fun _ => AttemptOk) v := by
  simp [App.startListen, vwp_ite, other, hs, ReportsStarts]

theorem stopListen (hs : v.session = .waitingTts) :
    App.stopListen.vwp mainView (entryContract ReportsStarts) (fun _ => AttemptOk) v := by
  simp [App.stopListen, stopUpload, vwp_ite, other, hs, ReportsStarts]

theorem resetToIdle :
    App.resetToIdle.vwp mainView (entryContract ReportsStarts) (fun _ => AttemptOk) v := by
  simp [App.resetToIdle, vwp_ite, other, ReportsStarts]

/-- The state machine enters the connecting state with an action that starts the
    client, and leaves it on an outcome. -/
theorem handleSessionEvent {type : AppEventType}
    (h : type ≠ .wsConnected → type ≠ .error → AttemptOk v) :
    (App.handleSessionEvent type).vwp mainView (entryContract ReportsStarts)
      (fun _ => AttemptOk) v := by
  simp only [App.handleSessionEvent, vwp_bind, vwp_sessionHandleEvent, handleAction, vwp_record,
    after_same, after_record, ReportsStarts, forall_const]
  obtain he | ⟨-, he⟩ | ⟨-, he⟩ | ⟨-, -, he⟩ | ⟨-, -, he⟩ | ⟨-, he⟩ | ⟨-, -, he⟩ | ⟨-, he⟩ :=
    Session.handleEvent_cases v.session type <;> rw [he]
  · intro hs
    -- an outcome would change the state
    refine (h ?_ ?_).record rfl rfl id hs
    · rintro rfl
      rw [show v.session = .connecting from hs] at he
      exact absurd he (by decide)
    · rintro rfl
      rw [show v.session = .connecting from hs] at he
      exact absurd he (by decide)
  · exact returnToWake rfl rfl
  · exact connect rfl rfl
  · simp [vwp_ite, other, ReportsStarts]
  · exact other (by simp)
  · exact startListen rfl
  · exact stopListen rfl
  · exact abort rfl rfl

theorem handleProtocolEvent (h : AttemptOk v) (event : XiaozhiIncomingEvent) :
    (App.handleProtocolEvent event).vwp mainView (entryContract ReportsStarts)
      (fun _ => AttemptOk) v := by
  simp only [App.handleProtocolEvent, vwp_bind, vwp_record, after_record, ReportsStarts,
    forall_const]
  have h : AttemptOk (v.record (.handles event)) := h.record rfl rfl id
  split
  · simp only [handleHello, vwp_bind, vwp_when, vwp_setSessionId, after_same,
      vwp_updateDecoderFromHello]
    exact ⟨fun _ => handleSessionEvent fun _ _ => h.congr rfl rfl rfl rfl, fun _ => handleSessionEvent fun _ _ => h⟩
  · simp [handleTtsStart, other]
  · simp only [handleTtsStop, vwp_bind, vwp_setTtsDone, vwp_findQueueSize, vwp_when, after_same,
      after_record, ReportsStarts, forall_const]
    refine fun size => ⟨fun _ => resetToIdle, fun _ => ?_⟩
    exact AttemptOk.record (h.congr (by rfl) (by rfl) (by rfl) (by rfl)) rfl rfl id
  · exact h

theorem handleEvent {cjsonParse : Bytes → Option Json} (h : AttemptOk v) (e : AppEvent) :
    (App.handleEvent cjsonParse e).vwp mainView (entryContract ReportsStarts)
      (fun _ => AttemptOk) (v.record (.takes e)) := by
  have htakes (hc : e.type ≠ .wsConnected) (he : e.type ≠ .error) :
      AttemptOk (v.record (.takes e)) :=
    h.record (by simp [awaitsOutcome, AppEvent.IsOutcome, hc, he]) rfl (by simp [errorPending, he])
  unfold App.handleEvent
  split
  all_goals first
    | exact handleSessionEvent htakes
    | exact handleSessionEvent (by simp_all)
    | exact htakes (by simp_all) (by simp_all)
    | skip
  · simp only [handleText, vwp_bind, vwp_record, after_record, ReportsStarts, forall_const]
    have hparsed : AttemptOk ((v.record (.takes e)).record (.parses e.text)) :=
      (htakes (by simp_all) (by simp_all)).record rfl rfl id
    split
    · exact hparsed.handleProtocolEvent _
    · exact hparsed
  · simp only [handlePlaybackFinished, vwp_bind, vwp_readTtsDone, vwp_when]
    exact ⟨fun _ => resetToIdle, fun _ => htakes (by simp_all) (by simp_all)⟩
  · simpa using htakes (by simp_all) (by simp_all)

end AttemptOk

/-! ## The event queue -/

/-- The outcome of connection `k` is queued or still to come, and none has been handled. -/
structure World.OutcomeDue (w : World) (k : Nat) : Prop where
  untaken : ∀ e, .takes e ∈ w.log → ¬e.IsOutcomeOf k
  due : (∃ e ∈ w.events.toList, e.IsOutcomeOf k) ∨
    w.exited k = false ∧ ∀ p ∈ w.pushes, ¬p.1.IsOutcomeOf k

/-- Events come from threads that have been created, and an event that has found
    room stays in the queue until it is taken. -/
structure EventsKept (w : World) : Prop where
  queued : ∀ e ∈ w.events.toList, ∀ k, e.origin = .service k → k ≤ w.started
  taken : ∀ e, .takes e ∈ w.log → ∀ k, e.origin = .service k → k ≤ w.started
  kept : ∀ e, (e, true) ∈ w.pushes → e ∈ w.events.toList ∨ .takes e ∈ w.log

/-- The connection of the attempt has been created after all events that have
    been taken from it, and no outcome of it is among them. -/
def Untaken (w : World) : Prop :=
  ∀ k, attempt w.log = some k → awaitsOutcome w.log = true →
    ∀ e, .takes e ∈ w.log → ¬e.IsOutcomeOf k

/-- An error that is known to be queued is queued. -/
def ErrorKept (w : World) : Prop :=
  errorPending w.log = true → ∃ e ∈ w.events.toList, e.type = .error

/-- One of the outcomes that a service thread has pushed has found room. -/
def FirstReported (w : World) : Prop :=
  ∀ p ∈ w.pushes, ∀ k, p.1.IsOutcomeOf k → w.Reported k

section Step

variable {w w' : World} {i : ThreadId}

theorem EventsKept.step (h : EventsKept w) (hb : System.Base i w w') : EventsKept w' := by
  have hst := hb.step.started_le
  cases hb.step.history with
  | same hl he hp =>
    refine ⟨fun e hm k hk => ?_, fun e hm k hk => ?_, fun e hm => ?_⟩
    · exact (h.queued e (he ▸ hm) k hk).trans hst
    · exact (h.taken e (hl ▸ hm) k hk).trans hst
    · rw [he, hl]; exact h.kept e (hp ▸ hm)
  | records entry hplain hl he hp =>
    have hne (e : AppEvent) : .takes e ≠ entry := by rintro rfl; exact hplain
    refine ⟨fun e hm k hk => ?_, fun e hm k hk => ?_, fun e hm => ?_⟩
    · exact (h.queued e (he ▸ hm) k hk).trans hst
    · rw [hl] at hm
      exact (h.taken e ((List.mem_cons.mp hm).resolve_left (hne e)) k hk).trans hst
    · rw [he, hl]
      exact (h.kept e (hp ▸ hm)).imp_right (List.mem_cons_of_mem _)
  | takes event hl he hp =>
    refine ⟨fun e hm k hk => ?_, fun e hm k hk => ?_, fun e hm => ?_⟩
    · exact (h.queued e (he ▸ List.mem_cons_of_mem _ hm) k hk).trans hst
    · rw [hl] at hm
      obtain heq | hm := List.mem_cons.mp hm
      · obtain rfl := MainEntry.takes.inj heq
        exact (h.queued e (he ▸ List.mem_cons_self) k hk).trans hst
      · exact (h.taken e hm k hk).trans hst
    · rw [hl]
      obtain hm | hm := h.kept e (hp ▸ hm)
      · obtain rfl | hm := List.mem_cons.mp (he ▸ hm)
        · exact .inr List.mem_cons_self
        · exact .inl hm
      · exact .inr (List.mem_cons_of_mem _ hm)
  | pushes event accepted ho _ hl he hp =>
    have hlog {e : AppEvent} : .takes e ∈ w'.log ↔ .takes e ∈ w.log := by
      rw [hl]; split <;> simp
    refine ⟨fun e hm k hk => ?_, fun e hm k hk => (h.taken e (hlog.mp hm) k hk).trans hst,
      fun e hm => ?_⟩
    · have hm : e ∈ w.events.toList ∨ e = event := by
        rw [he] at hm; split at hm <;> simp_all
      obtain hm | rfl := hm
      · exact (h.queued e hm k hk).trans hst
      · -- the outcome of a connection is pushed by its thread, which has been created
        obtain hsame | ⟨halive, -⟩ := hb.service k (ho.symm.trans hk)
        · exact absurd hp.symm (by rw [hsame]; exact List.cons_ne_self _ _)
        · exact halive.created.trans hst
    · rw [hlog, he]
      obtain heq | hm := List.mem_cons.mp (hp ▸ hm)
      · obtain ⟨rfl, rfl⟩ := Prod.mk.inj heq
        exact .inl (by simp)
      · refine (h.kept e hm).imp_left fun hm => ?_
        split
        · exact List.mem_append_left _ hm
        · exact hm

theorem Untaken.step (h : Untaken w) (hk : EventsKept w) (hs : Step i w w') : Untaken w' := by
  cases hs.history with
  | same hl _ _ => unfold Untaken; rw [hl]; exact h
  | records entry hplain hl _ _ =>
    intro k hat ha e hm ho
    rw [hl] at hat ha hm
    have hold : .takes e ∈ w.log :=
      (List.mem_cons.mp hm).resolve_left (by rintro rfl; exact hplain)
    cases entry with
    | starts j =>
      -- no outcome of a connection is taken before it has been started
      obtain rfl : j = k := Option.some.inj hat
      obtain rfl : j = w.started + 1 := hplain
      exact absurd (hk.taken e hold _ ho.2) (by omega)
    | performs action =>
      simp only [attempt, awaitsOutcome] at hat ha
      split at hat
      · cases hat
      · next hr => exact h k hat (by simpa [hr] using ha) e hold ho
    | takes _ => exact hplain
    | pushes _ _ => exact hplain
    | _ => exact h k hat ha e hold ho
  | takes event hl _ _ =>
    intro k hat ha e hm ho
    rw [hl] at hat ha hm
    simp only [awaitsOutcome, Bool.and_eq_true, Bool.not_eq_true', decide_eq_false_iff_not] at ha
    obtain heq | hm := List.mem_cons.mp hm
    · obtain rfl := MainEntry.takes.inj heq
      exact ha.1 ho.1
    · exact h k hat ha.2 e hm ho
  | pushes event accepted _ _ hl =>
    unfold Untaken
    rw [hl]
    split
    · simpa [attempt, awaitsOutcome, Untaken] using h
    · exact h

theorem ErrorKept.step (h : ErrorKept w) (hs : Step i w w') : ErrorKept w' := by
  unfold ErrorKept at h ⊢
  cases hs.history with
  | same hl he _ => rw [hl, he]; exact h
  | records entry hplain hl he _ =>
    rw [hl, he]
    cases entry with
    | startFails errorQueued =>
      intro hp
      obtain hq | hp := Bool.or_eq_true_iff.mp hp
      · obtain rfl : errorQueued = w.errorQueued := hplain
        simpa [errorQueued] using hq
      · exact h hp
    | takes _ => exact hplain.elim
    | pushes _ _ => exact hplain.elim
    | _ => exact h
  | takes event hl he _ =>
    rw [hl]
    intro hp
    -- an error that is taken is not pending any more
    simp only [errorPending, Bool.and_eq_true, Bool.not_eq_true', decide_eq_false_iff_not] at hp
    obtain ⟨e, hm, htype⟩ := h hp.2
    obtain rfl | hm := List.mem_cons.mp (he ▸ hm)
    · exact absurd htype hp.1
    · exact ⟨e, hm, htype⟩
  | pushes event accepted _ _ hl he =>
    have hold {e : AppEvent} (hm : e ∈ w.events.toList) : e ∈ w'.events.toList := by
      rw [he]; split
      · exact List.mem_append_left _ hm
      · exact hm
    intro hp
    have hp : accepted = true ∧ event.type = .error ∨ errorPending w.log = true := by
      rw [hl] at hp
      split at hp
      · simpa [errorPending] using hp
      · exact .inr hp
    obtain ⟨rfl, htype⟩ | hp := hp
    · exact ⟨event, by rw [he]; simp, htype⟩
    · exact (h hp).imp fun e hm => ⟨hold hm.1, hm.2⟩

theorem FirstReported.step (h : FirstReported w) (hs : Step i w w')
    (hfits : System.OutcomeFits i w w') : FirstReported w' := by
  intro p hm k ho
  have hold {q : AppEvent × Bool} (hm : q ∈ w.pushes) (ho : q.1.IsOutcomeOf k) : w'.Reported k :=
    (h q hm k ho).mono hs.pushes_subset
  cases hs.history with
  | same _ _ hp => exact hold (hp ▸ hm) ho
  | records _ _ _ _ hp => exact hold (hp ▸ hm) ho
  | takes _ _ _ hp => exact hold (hp ▸ hm) ho
  | pushes event accepted hi _ _ _ hp =>
    obtain rfl | hm := List.mem_cons.mp (hp ▸ hm)
    · cases accepted with
      | true => exact ⟨event, by rw [hp]; exact List.mem_cons_self, ho⟩
      | false => exact (hfits k event (hi.symm.trans ho.2) hp ho.1).mono hs.pushes_subset
    · exact hold hm ho

end Step

namespace System

variable {cjsonParse : Bytes → Option Json} {config : AppConfig} {cfg : Config}

/-- The client is started only when it does not run, its failures to start are
    reported, and the first outcome that each service thread reports finds room. -/
def StartsCleanly (i : ThreadId) (w w' : World) : Prop :=
  Admits ReportsStarts i w w' ∧ OutcomeFits i w w'

/-- What is known of the event queue and of the service threads in every run. -/
structure OutcomesOk (w : World) : Prop where
  kept : EventsKept w
  untaken : Untaken w
  error : ErrorKept w
  reported : FirstReported w
  ended : ∀ k, w.exited k = true → w.Settled k

theorem Reach.outcomesOk (hr : Reach cjsonParse StartsCleanly config cfg) :
    OutcomesOk cfg.shared := by
  have hinit : OutcomesOk (World.init config) := by
    refine ⟨⟨?_, ?_, ?_⟩, ?_, nofun, ?_, nofun⟩
    · exact fun e he => absurd he List.not_mem_nil
    · exact fun e he => absurd he List.not_mem_nil
    · exact fun e he => absurd he List.not_mem_nil
    · exact fun k hk => nomatch hk
    · exact fun p hp => absurd hp List.not_mem_nil
  refine Threads.Reach.invariant hinit (fun i w w' hok h => ?_) (hr.outcomes fun _ _ _ h => h.2)
  obtain ⟨⟨-, hfits⟩, hb, hended⟩ := hok
  refine ⟨h.kept.step hb, h.untaken.step h.kept hb.step, h.error.step hb.step,
    h.reported.step hb.step hfits, fun k he => ?_⟩
  by_cases hi : i = .service k
  · exact (hended k hi he).elim (fun he => hb.settled (h.ended k he)) id
  · rw [hb.step.exited_of_ne hi] at he
    exact hb.settled (h.ended k he)

/-- In every run in which the starts of the client are clean: while the session
    connects, an error is queued, or the service thread created for this attempt
    has its outcome queued or still to report, and the main loop has handled none. -/
theorem connecting_has_outcome (hr : Reach cjsonParse StartsCleanly config cfg)
    (hb : AtBoundary cfg) (hs : cfg.shared.session = .connecting) :
    (∃ e ∈ cfg.shared.events.toList, e.type = .error) ∨
    ∃ k, attempt cfg.shared.log = some k ∧ cfg.shared.OutcomeDue k := by
  have hstart : App.runStart.vwp mainView (entryContract ReportsStarts) (fun _ => AttemptOk)
      (World.init config).mainView := by
    simp only [runStart, vwp_bind]
    refine AttemptOk.resetToIdle.mono fun _ v hv => ?_
    simp only [vwp_readClientStarted, vwp_when, vwp_bind, vwp_setState, after_same, handleAction,
      vwp_record, after_record, ReportsStarts, forall_const]
    exact ⟨fun _ => AttemptOk.connect rfl rfl, fun _ => hv⟩
  have hloop (v : MainView) (hv : AttemptOk v) : (App.runLoop cjsonParse).vwp mainView
      (entryContract ReportsStarts) (fun _ => AttemptOk) v :=
    runLoop_keeps (fun v e _ _ h => after_record.mpr fun _ => h.pushes)
      (fun v _ h => (after_same (by rfl)).mpr (h.congr rfl rfl rfl rfl))
      (fun v e h => after_record.mpr fun _ => h.handleEvent e) v hv
  obtain ⟨ha, hattempt⟩ := Reach.atBoundary (fun _ _ h => h.1) hstart hloop hr hb hs
  have hok := hr.outcomesOk
  obtain he | ⟨k, hk, hthread, hrun⟩ := hattempt
  · exact .inl (hok.error he)
  refine .inr ⟨k, hk, hok.untaken k hk ha, ?_⟩
  -- what has been reported is still queued
  have hqueued (h : cfg.shared.Reported k) : ∃ e ∈ cfg.shared.events.toList, e.IsOutcomeOf k := by
    obtain ⟨e, he, ho⟩ := h
    exact ⟨e, (hok.kept.kept e he).resolve_right fun ht => hok.untaken k hk ha e ht ho, ho⟩
  by_cases hp : ∃ p ∈ cfg.shared.pushes, p.1.IsOutcomeOf k
  · obtain ⟨p, hp, ho⟩ := hp
    exact .inl (hqueued (hok.reported p hp k ho))
  · cases he : cfg.shared.exited k with
    | true =>
      refine .inl (hqueued ((hok.ended k he).resolve_right fun h => h.2 ⟨hthread, hrun⟩))
    | false => exact .inr ⟨rfl, fun p hm ho => hp ⟨p, hm, ho⟩⟩

/-- A test for `StartsCleanly`: every push finds room. -/
def startsCleanly (i : ThreadId) (w w' : World) : Bool :=
  admits ReportsStarts i w w' && (added w.pushes w'.pushes).all (·.2)

theorem startsCleanly_iff (i : ThreadId) (w w' : World) (h : startsCleanly i w w' = true) :
    StartsCleanly i w w' := by
  obtain ⟨hentry, hroom⟩ := Bool.and_eq_true_iff.mp h
  refine ⟨admits_iff i w w' hentry, fun k e _ hp => ?_⟩
  simp [hp] at hroom

/-- The first connection fails, and the second one has been started. -/
theorem connecting_has_outcome_retry :
    ∃ cfg, Reach (fun _ => none) StartsCleanly ⟨1, 16000, 1200, 500⟩ cfg ∧ AtBoundary cfg ∧
      cfg.shared.session = .connecting ∧ cfg.shared.started = 2 ∧
      ((∃ e ∈ cfg.shared.events.toList, e.type = .error) ∨
        ∃ k, attempt cfg.shared.log = some k ∧ cfg.shared.OutcomeDue k) := by
  have h : (play (fun _ => none) startsCleanly ⟨1, 16000, 1200, 500⟩ [
      (.main, 15, [.ok]),
      (.service 1, 16, [.ok, .ok, .ok, .callback (.connectionError none), .nothing]),
      (.main, 15, []),
      (.service 1, 9, [.nothing, .nothing]),
      (.main, 9, [.ok, .nothing])]).any (fun cfg => (cfg.cur .main).isNone &&
        (decide (cfg.shared.session = .connecting) && decide (cfg.shared.started = 2))) = true := by
    decide +kernel
  obtain ⟨cfg, hr, hp⟩ := exists_of_play startsCleanly_iff h
  simp only [Bool.and_eq_true, Option.isNone_iff_eq_none, decide_eq_true_eq] at hp
  obtain ⟨hb, hs, h₂⟩ := hp
  exact ⟨cfg, hr, hb, hs, h₂, connecting_has_outcome hr hb hs⟩

/-- The first connection fails, and then `pthread_create` fails. The session
    connects, the event queue is empty, and no service thread was created. -/
theorem connecting_for_ever : ∃ cfg,
    Reach (fun _ => none) anyStep ⟨1, 16000, 1200, 500⟩ cfg ∧ AtBoundary cfg ∧
    cfg.shared.session = .connecting ∧ cfg.shared.events.toList = [] ∧
    attempt cfg.shared.log = none := by
  have h : (play (fun _ => none) (fun _ _ _ => true) ⟨1, 16000, 1200, 500⟩ [
      (.main, 15, [.ok]),
      (.service 1, 16, [.ok, .ok, .ok, .callback (.connectionError none), .nothing]),
      (.main, 15, []),
      (.service 1, 9, [.nothing, .nothing]),
      (.main, 9, [.fail, .nothing])]).any (fun cfg => (cfg.cur .main).isNone &&
        (decide (cfg.shared.session = .connecting) && (decide (cfg.shared.events.toList = []) &&
          decide (attempt cfg.shared.log = none)))) = true := by
    decide +kernel
  obtain ⟨cfg, hr, hp⟩ := exists_of_play (fun _ _ _ _ => trivial) h
  simp only [Bool.and_eq_true, Option.isNone_iff_eq_none, decide_eq_true_eq] at hp
  exact ⟨cfg, hr, hp⟩

end System

end Xiaozhi
