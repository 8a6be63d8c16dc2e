-- SUMMARY: Weakest preconditions of the main thread's steps on the main thread's variables.
import Xiaozhi.App.MainView

/-!
# Rules for the main thread

One equation for each step of the main thread, and for the calls of the client
that it makes. `simp` computes the weakest precondition of a handler with them.
-/

namespace Xiaozhi

open Threads Threads.Prog World

variable {S : ViewContract MainView} {v : MainView}

/-- Any observation that an action makes can be made on any view. -/
theorem World.exists_view {β : Type} {o : World → β} {x : β}
    (h : ∃ w, (∀ v, o (withView w v) = o w) ∧ o w = x) (v : MainView) :
    ∃ w, mainView w = v ∧ o w = x := by
  obtain ⟨w, ho, hx⟩ := h
  exact ⟨w.withView v, mainView_withView w v, (ho v).trans hx⟩

@[simp] theorem vwp_choose {Q : Bool → MainView → Prop} :
    Thread.choose.vwp mainView S Q v ↔ ∀ b, Q b v := by
  rw [Thread.choose, vwp_ask mainView_surjective]
  constructor
  · intro h b
    cases b
    · exact h .fail false rfl
    · exact h .ok true rfl
  · exact fun h _ b _ => h b

@[simp] theorem vwp_when {Q : Unit → MainView → Prop} {cond : Bool} {p : Thread Unit} :
    (Thread.when cond p).vwp mainView S Q v ↔
      (cond = true → p.vwp mainView S Q v) ∧ (cond = false → Q () v) := by
  cases cond <;> simp [Thread.when]

namespace App

variable {Q : Unit → MainView → Prop}

@[simp] theorem vwp_setUploadEnabled {enabled : Bool} :
    (setUploadEnabled enabled).vwp mainView S Q v ↔
      S.After v { v with uploadEnabled := enabled } (Q () { v with uploadEnabled := enabled }) :=
  vwp_modify (g := fun v => { v with uploadEnabled := enabled }) mainView_surjective fun _ => rfl

@[simp] theorem vwp_setTtsDone {done : Bool} :
    (setTtsDone done).vwp mainView S Q v ↔
      S.After v { v with ttsDone := done } (Q () { v with ttsDone := done }) :=
  vwp_modify (g := fun v => { v with ttsDone := done }) mainView_surjective fun _ => rfl

@[simp] theorem vwp_setState {state : SessionState} :
    (setState state).vwp mainView S Q v ↔
      S.After v { v with session := state } (Q () { v with session := state }) :=
  vwp_modify (g := fun v => { v with session := state }) mainView_surjective fun _ => rfl

@[simp] theorem vwp_setClientStarted {started : Bool} :
    (setClientStarted started).vwp mainView S Q v ↔
      S.After v { v with clientStarted := started } (Q () { v with clientStarted := started }) :=
  vwp_modify (g := fun v => { v with clientStarted := started }) mainView_surjective fun _ => rfl

@[simp] theorem vwp_setSessionId {id : Bytes} :
    (setSessionId id).vwp mainView S Q v ↔
      S.After v { v with sessionId := CString.copy 64 id }
        (Q () { v with sessionId := CString.copy 64 id }) :=
  vwp_modify (g := fun v => { v with sessionId := CString.copy 64 id }) mainView_surjective
    fun _ => rfl

@[simp] theorem vwp_setUploading {enabled : Bool} :
    (AudioCapture.setUploading enabled).vwp mainView S Q v ↔
      S.After v { v with uploading := enabled } (Q () { v with uploading := enabled }) :=
  vwp_modify (g := fun v => { v with uploading := enabled }) mainView_surjective fun _ => rfl

@[simp] theorem vwp_closeOpusDumpFile :
    closeOpusDumpFile.vwp mainView S Q v ↔
      S.After v { v with dumpOpen := false } (Q () { v with dumpOpen := false }) :=
  vwp_modify (g := fun v => { v with dumpOpen := false }) mainView_surjective fun _ => rfl

@[simp] theorem vwp_openOpusDumpFile {Q : Bool → MainView → Prop} :
    openOpusDumpFile.vwp mainView S Q v ↔
      ∀ b, S.After v { v with dumpOpen := b } (Q b { v with dumpOpen := b }) := by
  constructor
  · intro h b
    obtain ⟨w, rfl⟩ := mainView_surjective v
    cases b
    · exact h .fail w false _ rfl rfl
    · exact h .ok w true _ rfl rfl
  · intro h c w b w' hw hs ha
    subst hw
    cases c <;> obtain ⟨⟩ := hs
    · exact h true ha
    · exact h false ha

@[simp] theorem vwp_record {entry : MainEntry} :
    (record entry).vwp mainView S Q v ↔ S.After v (v.record entry) (Q () (v.record entry)) :=
  vwp_modify (g := fun v => v.record entry) mainView_surjective fun _ => rfl

@[simp] theorem vwp_leave {result : Int} :
    (leave result).vwp mainView S Q v ↔
      S.After v { v with returned := some result } (Q () { v with returned := some result }) :=
  vwp_modify (g := fun v => { v with returned := some result }) mainView_surjective fun _ => rfl

@[simp] theorem vwp_playback_requestStop :
    AudioPlayback.requestStop.vwp mainView S Q v ↔ Q () v :=
  vwp_modify_other mainView_surjective fun _ => rfl

@[simp] theorem vwp_sessionHandleEvent {Q : SessionAction → MainView → Prop}
    {event : AppEventType} :
    (sessionHandleEvent event).vwp mainView S Q v ↔
      S.After v { v with session := (Session.handleEvent v.session event).1 }
        (Q (Session.handleEvent v.session event).2
          { v with session := (Session.handleEvent v.session event).1 }) :=
  vwp_atomic (r := fun v => (Session.handleEvent v.session event).2)
    (g := fun v => { v with session := (Session.handleEvent v.session event).1 })
    mainView_surjective (fun _ => rfl) fun _ => rfl

/-- A push may find room or not. -/
@[simp] theorem vwp_pushEvent {type : AppEventType} {text : Option Bytes} {code : Int} :
    (pushEvent type text code).vwp mainView S Q v ↔
      ∀ accepted, S.After v (v.record (.pushes (.make type text code .main) accepted))
        (Q () (v.record (.pushes (.make type text code .main) accepted))) := by
  refine vwp_modify_of (o := fun w : World => decide (¬w.events.Full))
    (g := fun b (v : MainView) => v.record (.pushes (.make type text code .main) b))
    (fun v x => ?_) fun w => ?_
  · obtain ⟨q, hq⟩ := EventQueue.exists_full x
    exact exists_view ⟨{ blank with events := q }, fun _ => rfl, hq⟩ v
  · simp [World.pushEvent, mainView, MainView.record, EventQueue.push_fst_eq]

@[simp] theorem vwp_pushError {message : String} :
    (pushError message).vwp mainView S Q v ↔
      ∀ accepted, S.After v
        (v.record (.pushes (.make .error (some (CString.ofString message)) (-1) .main) accepted))
        (Q () (v.record
          (.pushes (.make .error (some (CString.ofString message)) (-1) .main) accepted))) :=
  vwp_pushEvent

@[simp] theorem vwp_lookConnected {Q : Bool → MainView → Prop} :
    lookConnected.vwp mainView S Q v ↔
      ∀ b, S.After v (v.record (.resets v.session (v.clientStarted && b)))
        (Q (v.clientStarted && b) (v.record (.resets v.session (v.clientStarted && b)))) := by
  refine vwp_atomic_of (o := XiaozhiClient.isConnected)
    (r := fun b (v : MainView) => v.clientStarted && b)
    (g := fun b (v : MainView) => v.record (.resets v.session (v.clientStarted && b)))
    (fun v x => ?_) (fun _ => rfl) fun _ => rfl
  exact exists_view
    ⟨{ blank with client := { blank.client with connected := x } }, fun _ => rfl, rfl⟩ v

@[simp] theorem vwp_findQueueSize {Q : Nat → MainView → Prop} :
    findQueueSize.vwp mainView S Q v ↔
      ∀ n, S.After v (v.record (.finds n)) (Q n (v.record (.finds n))) := by
  refine vwp_atomic_of (o := fun w : World => w.playback.queue.size) (r := fun n _ => n)
    (g := fun n (v : MainView) => v.record (.finds n)) (fun v x => ?_) (fun _ => rfl) fun _ => rfl
  let queue := { blank.playback.queue with blocks.count := x }
  exact exists_view
    ⟨{ blank with playback := { blank.playback with queue } }, fun _ => rfl, rfl⟩ v

@[simp] theorem vwp_tryPop {Q : Option AppEvent → MainView → Prop} :
    tryPop.vwp mainView S Q v ↔
      Q none v ∧ ∀ e, S.After v (v.record (.takes e)) (Q (some e) (v.record (.takes e))) := by
  refine (vwp_atomic_of (o := fun w : World => w.events.pop.map Prod.fst) (r := fun x _ => x)
    (g := fun x (v : MainView) => x.elim v fun e => v.record (.takes e))
    (fun v x => ?_) (fun w => ?_) fun w => ?_).trans ?_
  · obtain ⟨q, hq⟩ := EventQueue.exists_pop x
    exact exists_view ⟨{ blank with events := q }, fun _ => rfl, hq⟩ v
  · split <;> simp_all
  · split <;> simp_all [mainView, World.record, MainView.record]
  · rw [Option.forall]
    simp only [Option.elim_none, Option.elim_some, ViewContract.after_self]

/-- `event_queue_pop` hands out any event, or none. -/
@[simp] theorem vwp_eventQueuePop {Q : Popped → MainView → Prop} :
    eventQueuePop.vwp mainView S Q v ↔
      (∀ e, S.After v (v.record (.takes e)) (Q (.event e) (v.record (.takes e)))) ∧
      Q .timeout v ∧ Q .failed v := by
  constructor
  · rintro ⟨I, hv, hI⟩
    have h := hI () v hv
    simp only [vwp_bind, vwp_tryPop, waitEvent, vwp_ask mainView_surjective] at h
    exact ⟨h.2, h.1 .nothing _ rfl, h.1 .fail _ rfl⟩
  · rintro ⟨hevent, htimeout, hfailed⟩
    refine ⟨fun _ v' => v' = v, rfl, ?_⟩
    rintro _ _ rfl
    simp only [vwp_bind, vwp_tryPop, waitEvent, vwp_ask mainView_surjective]
    refine ⟨fun c b hb => ?_, hevent⟩
    cases c <;> obtain ⟨⟩ := hb
    · trivial
    · exact hfailed
    · exact htimeout

end App

/-! ## Calls of the client -/

namespace XiaozhiClient

@[simp] theorem vwp_ensureTextCapacity {Q : Bool → MainView → Prop} :
    ensureTextCapacity.vwp mainView S Q v ↔ ∀ b, Q b v := by
  refine (vwp_act_other fun c w b w' hs => ?_).trans (forall_congr' fun b => ?_)
  · dsimp only at hs
    split at hs
    · obtain ⟨rfl, rfl⟩ := Prod.mk.inj (Option.some.inj hs)
      rfl
    · cases c <;> obtain ⟨⟩ := hs <;> rfl
  · refine ⟨fun h => h ?_, fun h _ => h⟩
    cases b
    · exact ⟨.fail, blank.withView v, mainView_withView _ _, rfl⟩
    · exact ⟨.ok, blank.withView v, mainView_withView _ _, rfl⟩

@[simp] theorem vwp_signalWritable {Q : Unit → MainView → Prop} :
    signalWritable.vwp mainView S Q v ↔ Q () v := by
  simp only [signalWritable, vwp_bind]
  rw [vwp_read_other fun v x => exists_view
    ⟨{ blank with client := { blank.client with wsi := x } }, fun _ => rfl, rfl⟩ v]
  have hmodify (wsi : Option Nat) :
      (modify (·.requestWritable wsi) : Thread Unit).vwp mainView S Q v ↔ Q () v :=
    vwp_modify_other mainView_surjective fun w => by cases wsi <;> rfl
  simp only [hmodify, forall_const]

@[simp] theorem vwp_appendText {payload : Bytes} {Q : Unit → MainView → Prop} :
    (appendText payload).vwp mainView S Q v ↔
      S.After v (v.record (.queues payload)) (Q () (v.record (.queues payload))) :=
  vwp_modify (g := fun v => v.record (.queues payload)) mainView_surjective fun _ => rfl

/-- A text is queued, or an allocation fails. -/
@[simp] theorem vwp_queueText {payload : Bytes} {Q : Bool → MainView → Prop} :
    (queueText payload).vwp mainView S Q v ↔
      Q false v ∧ S.After v (v.record (.queues payload)) (Q true (v.record (.queues payload))) := by
  simp only [queueText, vwp_bind, vwp_ensureTextCapacity, Bool.forall_bool]
  simp

@[simp] theorem vwp_testAndSetRunning {Q : Bool → MainView → Prop} :
    testAndSetRunning.vwp mainView S Q v ↔
      (v.running = true → S.After v (v.record .runsAlready) (Q true (v.record .runsAlready))) ∧
      (v.running = false → S.After v { v with running := true }
        (Q false { v with running := true })) := by
  refine (vwp_atomic (r := fun v => v.running)
    (g := fun v => if v.running then v.record .runsAlready else { v with running := true })
    mainView_surjective (fun w => ?_) fun w => ?_).trans ?_
  · dsimp only
    split <;> simp_all [mainView]
  · dsimp only
    split <;> simp_all [mainView, World.record, MainView.record]
  · cases h : v.running <;> simp

@[simp] theorem vwp_createThread {Q : Bool → MainView → Prop} :
    createThread.vwp mainView S Q v ↔
      S.After v v.create (Q true v.create) ∧
      ∀ b, S.After v (v.record (.startFails b)) (Q false (v.record (.startFails b))) := by
  constructor
  · intro h
    constructor
    · obtain ⟨w, rfl⟩ := mainView_surjective v
      exact h .ok w true _ rfl rfl
    · intro b
      obtain ⟨w, rfl, rfl⟩ := exists_view (o := World.errorQueued) (x := b) (by
        cases b
        · exact ⟨blank, fun _ => rfl, rfl⟩
        · let e : AppEvent := .ofType .error .main
          exact ⟨{ blank with events := (EventQueue.init64.push e).2 }, fun _ => rfl, rfl⟩) v
      exact h .fail w false _ rfl rfl
  · rintro ⟨hok, hfail⟩ c w b w' rfl hs
    cases c <;> obtain ⟨⟩ := hs
    · exact hok
    · exact hfail _

/-- The client runs already, or a thread is created, or it cannot be created. -/
@[simp] theorem vwp_start {Q : Bool → MainView → Prop} :
    start.vwp mainView S Q v ↔
      (v.running = true → S.After v (v.record .runsAlready) (Q true (v.record .runsAlready))) ∧
      (v.running = false →
        S.After v { v with running := true } (createThread.vwp mainView S (fun created v =>
          (created = true → Q true v) ∧ (created = false →
            S.After v { v with running := false } (Q false { v with running := false })))
          { v with running := true })) := by
  have hclear {v : MainView} {Q : Unit → MainView → Prop} :
      (modify fun w => { w with client.running := false } : Thread Unit).vwp mainView S Q v ↔
        S.After v { v with running := false } (Q () { v with running := false }) :=
    vwp_modify (g := fun v => { v with running := false }) mainView_surjective fun _ => rfl
  simp [start, vwp_ite, hclear]

@[simp] theorem vwp_testAndClearRunning {Q : Bool → MainView → Prop} :
    testAndClearRunning.vwp mainView S Q v ↔
      S.After v { v with running := false } (Q v.running { v with running := false }) :=
  vwp_atomic (r := fun v => v.running) (g := fun v => { v with running := false })
    mainView_surjective (fun _ => rfl) fun _ => rfl

@[simp] theorem vwp_join {k : Nat} {Q : Unit → MainView → Prop} :
    (join k).vwp mainView S Q v ↔
      S.After v { v with joined := k :: v.joined } (Q () { v with joined := k :: v.joined }) :=
  vwp_modifyWhen (g := fun v => { v with joined := k :: v.joined })
    (exists_view ⟨{ blank with exited := fun _ => true }, fun _ => rfl, rfl⟩) fun _ => rfl

@[simp] theorem vwp_readThread {Q : Option Nat → MainView → Prop} :
    (read fun w => w.client.thread : Thread (Option Nat)).vwp mainView S Q v ↔ Q v.thread v :=
  vwp_read (r := MainView.thread) mainView_surjective fun _ => rfl

@[simp] theorem vwp_joinThread {Q : Unit → MainView → Prop} :
    joinThread.vwp mainView S Q v ↔
      (v.thread = none → Q () v) ∧
      ∀ k, v.thread = some k →
        S.After v { v with joined := k :: v.joined } (Q () { v with joined := k :: v.joined }) := by
  simp only [joinThread, vwp_bind, vwp_readThread]
  split
  · next h => simp [h]
  · next h => simp [h]

/-- The thread is joined, if the client runs. -/
@[simp] theorem vwp_stop {Q : Unit → MainView → Prop} :
    stop.vwp mainView S Q v ↔
      S.After v { v with running := false }
        ((v.running = false → Q () { v with running := false }) ∧
         (v.running = true → joinThread.vwp mainView S (fun _ v =>
            S.After v { v with thread := none } (Q () { v with thread := none }))
          { v with running := false })) := by
  have hclear {v : MainView} {Q : Unit → MainView → Prop} :
      (modify fun w => { w with client.thread := none } : Thread Unit).vwp mainView S Q v ↔
        S.After v { v with thread := none } (Q () { v with thread := none }) :=
    vwp_modify (g := fun v => { v with thread := none }) mainView_surjective fun _ => rfl
  cases h : v.running <;> simp [stop, h, hclear]

end XiaozhiClient

/-! ## Reads, and steps on the variables of others -/

namespace App

@[simp] theorem vwp_readClientStarted {Q : Bool → MainView → Prop} :
    (read fun w => w.clientStarted : Thread Bool).vwp mainView S Q v ↔ Q v.clientStarted v :=
  vwp_read (r := MainView.clientStarted) mainView_surjective fun _ => rfl

@[simp] theorem vwp_readTtsDone {Q : Bool → MainView → Prop} :
    (read fun w => w.ttsDone : Thread Bool).vwp mainView S Q v ↔ Q v.ttsDone v :=
  vwp_read (r := MainView.ttsDone) mainView_surjective fun _ => rfl

@[simp] theorem vwp_readSession {Q : SessionState → MainView → Prop} :
    (read fun w => w.session : Thread SessionState).vwp mainView S Q v ↔ Q v.session v :=
  vwp_read (r := MainView.session) mainView_surjective fun _ => rfl

@[simp] theorem vwp_readSessionId {Q : Bytes → MainView → Prop} :
    (read fun w => w.sessionId : Thread Bytes).vwp mainView S Q v ↔ Q v.sessionId v :=
  vwp_read (r := MainView.sessionId) mainView_surjective fun _ => rfl

@[simp] theorem vwp_readConfig {Q : AppConfig → MainView → Prop} :
    (read fun w => w.config : Thread AppConfig).vwp mainView S Q v ↔ ∀ x, Q x v :=
  vwp_read_other fun v x => exists_view ⟨{ blank with config := x }, fun _ => rfl, rfl⟩ v

@[simp] theorem vwp_readStopRequested {Q : Bool → MainView → Prop} :
    (read fun w => w.stopRequested : Thread Bool).vwp mainView S Q v ↔ ∀ x, Q x v :=
  vwp_read_other fun v x => exists_view ⟨{ blank with stopRequested := x }, fun _ => rfl, rfl⟩ v

@[simp] theorem vwp_readDecoderSampleRate {Q : Int → MainView → Prop} :
    (read fun w => w.decoderSampleRate : Thread Int).vwp mainView S Q v ↔ ∀ x, Q x v :=
  vwp_read_other fun v x =>
    exists_view ⟨{ blank with decoderSampleRate := x }, fun _ => rfl, rfl⟩ v

@[simp] theorem vwp_awaitReturned {Q : Unit → MainView → Prop} :
    (await fun w => w.returned.isNone : Thread Unit).vwp mainView S Q v ↔
      (v.returned = none → Q () v) := by
  rw [← Option.isNone_iff_eq_none]
  exact vwp_await (r := fun v => v.returned.isNone) mainView_surjective fun _ => rfl

variable {Q : Unit → MainView → Prop}

/-- The decoder is none of the main view's business. -/
@[simp] theorem vwp_updateDecoderFromHello {event : XiaozhiIncomingEvent} :
    (updateDecoderFromHello event).vwp mainView S Q v ↔ Q () v := by
  have hdecoder {v : MainView} {Q : Unit → MainView → Prop} {d : Option OpusDecoder} :
      (modify fun w => { w with decoder := d } : Thread Unit).vwp mainView S Q v ↔ Q () v :=
    vwp_modify_other mainView_surjective fun _ => rfl
  have hrate {v : MainView} {Q : Unit → MainView → Prop} {r : Int} :
      (modify fun w => { w with decoderSampleRate := r } : Thread Unit).vwp mainView S Q v ↔
        Q () v :=
    vwp_modify_other mainView_surjective fun _ => rfl
  have hinit {sampleRate channels : Int} :
      (initDecoder sampleRate channels).vwp mainView S Q v ↔ Q () v := by
    simp only [initDecoder, vwp_ite, vwp_bind, pure_eq, vwp_ret, vwp_choose, hdecoder, hrate,
      Classical.imp_and_neg_imp_iff, forall_const]
  simp only [updateDecoderFromHello, vwp_bind, vwp_readDecoderSampleRate, vwp_ite, pure_eq, vwp_ret,
    hdecoder, hinit, Classical.imp_and_neg_imp_iff, forall_const]

@[simp] theorem vwp_shutdown :
    (modify fun w => { w with stopRequested := true } : Thread Unit).vwp mainView S Q v ↔ Q () v :=
  vwp_modify_other mainView_surjective fun _ => rfl

@[simp] theorem vwp_requestStop :
    (requestStop .main).vwp mainView S Q v ↔
      ∀ accepted, S.After v (v.record (.pushes (.make .shutdown none 0 .main) accepted))
        (Q () (v.record (.pushes (.make .shutdown none 0 .main) accepted))) := by
  simp only [requestStop, vwp_bind, vwp_shutdown]
  exact vwp_pushEvent

@[simp] theorem vwp_readStdin {Q : Answer → MainView → Prop} :
    readStdin.vwp mainView S Q v ↔
      (∀ line, line.length ≤ 127 → Q (.input line) v) ∧ Q .eof v ∧ Q .nothing v := by
  rw [readStdin, vwp_ask mainView_surjective]
  constructor
  · exact fun h => ⟨fun line hl => h (.input line) _ (by simp [hl]), h .eof _ rfl, h .nothing _ rfl⟩
  · rintro ⟨hinput, heof, hnothing⟩ c b hb
    cases c with
    | input line =>
      obtain ⟨hl, ⟨⟩⟩ := Option.ite_none_right_eq_some.mp hb
      exact hinput line hl
    | eof => obtain ⟨⟩ := hb; exact heof
    | nothing => obtain ⟨⟩ := hb; exact hnothing
    | _ => cases hb

/-! ## Messages -/

@[simp] theorem vwp_queuePayload {payload : Option Bytes} {Q : Bool → MainView → Prop} :
    (queuePayload payload).vwp mainView S Q v ↔
      Q false v ∧ ∀ text, payload = some text →
        S.After v (v.record (.queues text)) (Q true (v.record (.queues text))) := by
  cases payload <;> simp [queuePayload]

@[simp] theorem vwp_sendHello {Q : Bool → MainView → Prop} :
    sendHello.vwp mainView S Q v ↔
      Q false v ∧ ∀ config : AppConfig, ∀ text,
        XiaozhiProtocol.buildHello ⟨config.protocolVersion, config.inputSampleRate, 1, 60⟩ 512 =
          some text →
        S.After v (v.record (.queues text)) (Q true (v.record (.queues text))) := by
  simp only [sendHello, vwp_bind, vwp_readConfig, vwp_queuePayload]
  exact ⟨fun h => ⟨(h blank.config).1, fun c => (h c).2⟩, fun h c => ⟨h.1, h.2 c⟩⟩

@[simp] theorem vwp_sendListenStart {Q : Bool → MainView → Prop} :
    sendListenStart.vwp mainView S Q v ↔
      Q false v ∧ (v.sessionId ≠ [] → ∀ text,
        XiaozhiProtocol.buildListenStartManual v.sessionId 256 = some text →
        S.After v (v.record (.queues text)) (Q true (v.record (.queues text)))) := by
  by_cases h : v.sessionId = [] <;> simp [sendListenStart, h]

@[simp] theorem vwp_sendListenStop {Q : Bool → MainView → Prop} :
    sendListenStop.vwp mainView S Q v ↔
      Q false v ∧ (v.sessionId ≠ [] → ∀ text,
        XiaozhiProtocol.buildListenStopManual v.sessionId 256 = some text →
        S.After v (v.record (.queues text)) (Q true (v.record (.queues text)))) := by
  by_cases h : v.sessionId = [] <;> simp [sendListenStop, h]

end App

end Xiaozhi
