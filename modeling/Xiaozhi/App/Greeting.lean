-- SUMMARY: When the first frame of every connection is a hello, and none was queued before the connection was started.
import Xiaozhi.Client.Frames

/-!
# Greeting

The application says hello when a connection has been established, and sends
other messages in the states that follow. The pending queues outlive a
connection, and the states that send can be entered without a hello.
-/

namespace Xiaozhi

open Threads Threads.Prog World App

/-- The text is a hello that the application can send. -/
def IsHello (text : Bytes) : Prop := ∃ config, XiaozhiProtocol.buildHello config 512 = some text

/-- A text has been queued since the latest connection was started. -/
def hasQueued : List MainEntry → Bool
  | [] => false
  | .starts _ :: _ => false
  | .queues _ :: _ => true
  | _ :: log => hasQueued log

theorem hasQueued_cons {entry : MainEntry} {log : List MainEntry} (h : ¬entry.Sends) :
    hasQueued (entry :: log) = hasQueued log := by
  cases entry <;> first | rfl | exact absurd trivial h

/-- The states in which the session sends messages other than a hello. -/
def SessionState.Speaks (state : SessionState) : Prop :=
  state = .ready ∨ state = .uploadingAudio ∨ state = .playingTts

/-- The session enters the states that send only after a text has been queued on
    the connection. -/
def SpeaksAfterHello (v : MainView) : MainEntry → Prop
  | .handles event =>
    event.type = .ttsStart ∨ event.type = .hello ∧ v.session = .handshaking → hasQueued v.log = true
  | .resets _ connected => connected = true → hasQueued v.log = true
  | _ => True

instance (v : MainView) : (entry : MainEntry) → Decidable (SpeaksAfterHello v entry)
  | .handles _ | .resets .. => inferInstanceAs (Decidable (_ → _))
  | .takes _ | .parses _ | .performs _ | .finds _ | .pushes .. | .queues _ | .runsAlready
  | .starts _ | .startFails _ => .isTrue trivial

/-! ## The main thread -/

/-- In the runs that `SpeaksAfterHello` admits, the first text queued on a
    connection is a hello. -/
def greetContract : ViewContract MainView where
  assume v v' := ∀ entry, v'.log = entry :: v.log → SpeaksAfterHello v entry
  guar v v' := ∀ text, v'.log = .queues text :: v.log → IsHello text ∨ hasQueued v.log = true
  assume_refl _ _ h := absurd h.symm (List.cons_ne_self _ _)
  guar_refl _ _ h := absurd h.symm (List.cons_ne_self _ _)

/-- A session that sends has queued a text on the connection. -/
def GreetOk (v : MainView) : Prop := v.session.Speaks → hasQueued v.log = true

namespace GreetOk

variable {v v' : MainView} {P : Prop}

@[simp] theorem after_same (h : v'.log = v.log) : greetContract.After v v' P ↔ P :=
  ⟨fun hP => (hP fun _ he => absurd (he.symm.trans h) (List.cons_ne_self _ _)).2,
    fun hP _ => ⟨fun _ he => absurd (he.symm.trans h) (List.cons_ne_self _ _), hP⟩⟩

theorem after_cons {entry : MainEntry} (hq : ∀ text, entry ≠ .queues text)
    (h : v'.log = entry :: v.log) :
    greetContract.After v v' P ↔ (SpeaksAfterHello v entry → P) := by
  refine ⟨fun hP hA => (hP fun e he => ?_).2, fun hP ha => ⟨fun text he => ?_, hP (ha entry h)⟩⟩
  · obtain rfl := (List.cons.inj (h.symm.trans he)).1
    exact hA
  · exact absurd (List.cons.inj (h.symm.trans he)).1 (hq text)

@[simp] theorem after_record {entry : MainEntry} (hq : ∀ text, entry ≠ .queues text) :
    greetContract.After v (v.record entry) P ↔ (SpeaksAfterHello v entry → P) := after_cons hq rfl

@[simp] theorem after_create : greetContract.After v v.create P ↔ P :=
  (after_cons (by simp) (show v.create.log = .starts (v.started + 1) :: v.log from rfl)).trans
    (by simp [SpeaksAfterHello])

/-- A text may be queued if it is a hello, or another one has been queued. -/
@[simp] theorem after_queues {text : Bytes} :
    greetContract.After v (v.record (.queues text)) P ↔
      (IsHello text ∨ hasQueued v.log = true) ∧ P := by
  refine ⟨fun h => ?_, fun h _ => ⟨fun t ht => ?_, h.2⟩⟩
  · obtain ⟨hg, hP⟩ := h fun e he => by obtain rfl := (List.cons.inj he).1; trivial
    exact ⟨hg text rfl, hP⟩
  · obtain ⟨⟩ := (List.cons.inj ht).1
    exact h.1

/-- The session and the history are the same. -/
theorem congr (h : GreetOk v) (h₁ : v'.log = v.log) (h₂ : v'.session = v.session) :
    GreetOk v' := by
  rw [GreetOk, h₁, h₂]
  exact h

/-- The session does not send. -/
theorem silent (h : ¬v.session.Speaks) : GreetOk v := fun hs => absurd hs h

theorem done (h : hasQueued v.log = true) : GreetOk v := fun _ => h

theorem connect (hs : v.session = .connecting) :
    App.connect.vwp mainView greetContract (fun _ => GreetOk) v := by
  simp [App.connect, vwp_ite, silent, SessionState.Speaks, hs, SpeaksAfterHello]

theorem abort (hs : v.session = .connecting) (hq : hasQueued v.log = true) :
    App.abort.vwp mainView greetContract (fun _ => GreetOk) v := by
  simp [App.abort, sendAbort, stopUpload, vwp_ite, silent, SessionState.Speaks, hs, hq,
    SpeaksAfterHello]

theorem returnToWake : App.returnToWake.vwp mainView greetContract (fun _ => GreetOk) v := by
  simp [App.returnToWake, silent, SessionState.Speaks, SpeaksAfterHello]

theorem startListen (hq : hasQueued v.log = true) :
    App.startListen.vwp mainView greetContract (fun _ => GreetOk) v := by
  simp [App.startListen, vwp_ite, GreetOk, hasQueued, hq, SpeaksAfterHello]

theorem stopListen (hq : hasQueued v.log = true) :
    App.stopListen.vwp mainView greetContract (fun _ => GreetOk) v := by
  simp [App.stopListen, stopUpload, vwp_ite, GreetOk, hasQueued, hq, SpeaksAfterHello]

theorem resetToIdle : App.resetToIdle.vwp mainView greetContract (fun _ => GreetOk) v := by
  simp only [App.resetToIdle, vwp_bind, vwp_setUploadEnabled, vwp_setTtsDone, vwp_setUploading,
    vwp_closeOpusDumpFile, vwp_lookConnected, vwp_ite, vwp_setState, after_same]
  refine fun connected => (after_record (by simp)).mpr fun hq => ⟨fun hc => done (hq hc), fun _ => ?_⟩
  exact silent (by simp [SessionState.Speaks])

/-- The session sends a hello when the connection is established, and nothing before. -/
theorem handleSessionEvent (h : GreetOk v) {type : AppEventType}
    (hhello : type = .wsHello → v.session = .handshaking → hasQueued v.log = true) :
    (App.handleSessionEvent type).vwp mainView greetContract (fun _ => GreetOk) v := by
  simp only [App.handleSessionEvent, vwp_bind, vwp_sessionHandleEvent, handleAction, vwp_record,
    after_same]
  refine (after_record (by simp)).mpr fun _ => ?_
  obtain he | ⟨-, he⟩ | ⟨-, he⟩ | ⟨hs, -, he⟩ | ⟨hs, ht, he⟩ | ⟨hs, he⟩ | ⟨hs, -, he⟩ | ⟨hs, he⟩ :=
    Session.handleEvent_cases v.session type <;> rw [he]
  · exact h
  · exact returnToWake
  · exact connect rfl
  · simp only [vwp_bind, vwp_sendHello, vwp_ite]
    refine ⟨by simp [silent, SessionState.Speaks, SpeaksAfterHello], fun config text htext => ?_⟩
    exact after_queues.mpr ⟨.inl ⟨_, htext⟩, by simp [done, hasQueued]⟩
  · exact done (hhello ht hs)
  · exact startListen (h (.inl hs))
  · exact stopListen (h (.inr (.inl hs)))
  · exact abort rfl (h (.inr (.inr hs)))

theorem handleProtocolEvent (h : GreetOk v) (event : XiaozhiIncomingEvent) :
    (App.handleProtocolEvent event).vwp mainView greetContract (fun _ => GreetOk) v := by
  simp only [App.handleProtocolEvent, vwp_bind, vwp_record]
  refine (after_record (by simp)).mpr fun hspeaks => ?_
  have h : GreetOk (v.record (.handles event)) := h
  split
  · next htype =>
    have hq (hs : v.session = .handshaking) : hasQueued v.log = true := hspeaks (.inr ⟨htype, hs⟩)
    simp only [handleHello, vwp_bind, vwp_when, vwp_setSessionId, vwp_updateDecoderFromHello,
      after_same]
    exact ⟨fun _ => handleSessionEvent (h.congr (by rfl) (by rfl)) fun _ => hq, fun _ => handleSessionEvent h fun _ => hq⟩
  · next htype =>
    simp only [handleTtsStart, vwp_bind, vwp_setUploadEnabled, vwp_setUploading, vwp_setState,
      vwp_setTtsDone, after_same]
    exact done (hspeaks (.inl htype))
  · simp only [handleTtsStop, vwp_bind, vwp_setTtsDone, vwp_findQueueSize, vwp_when, after_same]
    exact fun size => (after_record (by simp)).mpr fun _ => ⟨fun _ => resetToIdle, fun _ => h⟩
  · exact h

theorem handleEvent {cjsonParse : Bytes → Option Json} (h : GreetOk v) (e : AppEvent) :
    (App.handleEvent cjsonParse e).vwp mainView greetContract (fun _ => GreetOk) v := by
  unfold App.handleEvent
  split <;> first | exact handleSessionEvent h (by simp [*]) | exact h | skip
  · simp only [handleText, vwp_bind, vwp_record]
    refine (after_record (by simp)).mpr fun _ => ?_
    have hparsed : GreetOk (v.record (.parses e.text)) := h
    split
    · exact hparsed.handleProtocolEvent _
    · exact hparsed
  · simp only [handlePlaybackFinished, vwp_bind, vwp_readTtsDone, vwp_when]
    exact ⟨fun _ => resetToIdle, fun _ => h⟩
  · simpa using h

end GreetOk

namespace System

variable {cjsonParse : Bytes → Option Json} {config : AppConfig}

theorem greet_start : App.runStart.vwp mainView greetContract (fun _ => GreetOk)
    (World.init config).mainView := by
  simp only [runStart, vwp_bind]
  refine GreetOk.resetToIdle.mono fun _ v hv => ?_
  simp only [vwp_readClientStarted, vwp_when, vwp_bind, vwp_setState, handleAction, vwp_record,
    GreetOk.after_same]
  exact ⟨fun _ => (GreetOk.after_record (by simp)).mpr fun _ => GreetOk.connect rfl, fun _ => hv⟩

theorem greet_loop (v : MainView) (h : GreetOk v) :
    (App.runLoop cjsonParse).vwp mainView greetContract (fun _ => GreetOk) v :=
  runLoop_keeps (fun _ _ _ _ h => (GreetOk.after_record (by simp)).mpr fun _ => h)
    (fun _ _ h => (GreetOk.after_same (by rfl)).mpr h)
    (fun v e h => (GreetOk.after_record (by simp)).mpr fun _ =>
      GreetOk.handleEvent (v := v.record (.takes e)) h e) v h

end System

/-! ## The frames -/

/-- Every message that waits was queued after connection `k` was started. -/
structure World.PendingFrom (w : World) (k : Nat) : Prop where
  texts : ∀ m ∈ w.client.pendingText.items, k ≤ m.queuedIn
  binary : ∀ r ∈ w.client.pendingBinary.records, k ≤ r.tag

instance (w : World) (k : Nat) : Decidable (w.PendingFrom k) :=
  decidable_of_iff ((∀ m ∈ w.client.pendingText.items, k ≤ m.queuedIn) ∧
      ∀ r ∈ w.client.pendingBinary.records, k ≤ r.tag)
    ⟨fun h => ⟨h.1, h.2⟩, fun h => ⟨h.texts, h.binary⟩⟩

/-- The texts that wait and were queued on the latest connection. -/
def World.ownTexts (w : World) : List TextMessage :=
  w.client.pendingText.items.filter (·.queuedIn = w.started)

/-- No message of an earlier connection waits when a connection is established,
    the session enters the states that send only after a text has been queued on
    the connection, and no sound is taken before that. -/
structure FreshStart (i : ThreadId) (w w' : World) : Prop where
  speaks : Admits SpeaksAfterHello i w w'
  established : ∀ k, i = .service k → w'.lws k = .established →
    w.lws k = .established ∨ w.PendingFrom k
  binary : ∀ frame, w'.dequeued = frame :: w.dequeued → frame.opcode = .binary →
    hasQueued w.log = true

/-- What is known of the pending queues and the frames, with a fresh start of
    every connection. -/
structure FramesOk (w : World) : Prop where
  wf : w.client.pendingBinary.WF
  queued : ∀ m ∈ w.client.pendingText.items, m.queuedIn ≤ w.started
  idle : ∀ k, w.started < k → (w.link k).state = .absent ∧ (w.link k).taken = []
  fresh : (w.link w.started).state = .established → w.PendingFrom w.started
  waiting : (w.link w.started).taken = [] →
    hasQueued w.log = false ∧ w.ownTexts = [] ∨ ∃ m rest, w.ownTexts = m :: rest ∧ IsHello m.payload
  late : ∀ frame ∈ w.dequeued, frame.connection ≤ frame.queuedIn
  first : ∀ k frame, (w.link k).taken.getLast? = some frame →
    frame.opcode = .text ∧ IsHello frame.payload
  sent : ∀ k, (w.link k).sent <:+ (w.link k).taken

namespace FramesOk

variable {w w' : World} {i : ThreadId} {k : Nat}

/-- Neither the messages nor the connections change. -/
theorem congr (h : FramesOk w) (hu : w.Unsent w') (hst : w'.started = w.started)
    (hq : hasQueued w'.log = hasQueued w.log) : FramesOk w' := by
  have hown : w'.ownTexts = w.ownTexts := by rw [ownTexts, hu.texts, hst, ownTexts]
  refine ⟨hu.binary ▸ h.wf, ?_, fun k hk => ?_, fun hs => ?_, fun ht => ?_, ?_, fun k => ?_,
    fun k => ?_⟩
  · rw [hu.texts, hst]; exact h.queued
  · rw [hu.link]; exact h.idle k (hst ▸ hk)
  · rw [hst, hu.link] at hs
    obtain ⟨htexts, hbinary⟩ := h.fresh hs
    exact ⟨by rw [hu.texts, hst]; exact htexts, by rw [hu.binary, hst]; exact hbinary⟩
  · rw [hst, hu.link] at ht
    rw [hq, hown]; exact h.waiting ht
  · rw [hu.dequeued]; exact h.late
  · rw [hu.link]; exact h.first k
  · rw [hu.link]; exact h.sent k

/-- A text is queued: it is a hello, or not the first on its connection. -/
theorem queuesText (h : FramesOk w) {payload : Bytes}
    (hu : ({ w with
      client.pendingText.items := w'.client.pendingText.items
      queued := ⟨.text, payload⟩ :: w.queued } : World).Unsent w')
    (hitems : w'.client.pendingText.items = w.client.pendingText.items ++ [⟨payload, w.started⟩])
    (hst : w'.started = w.started) (hhello : IsHello payload ∨ hasQueued w.log = true) : FramesOk w' := by
  have hlink (k : Nat) : w'.link k = w.link k := hu.link
  have hbinary : w'.client.pendingBinary = w.client.pendingBinary := hu.binary
  have hdequeued : w'.dequeued = w.dequeued := hu.dequeued
  have hown : w'.ownTexts = w.ownTexts ++ [⟨payload, w.started⟩] := by
    simp [ownTexts, hitems, hst]
  refine ⟨hbinary ▸ h.wf, ?_, fun k hk => ?_, fun hs => ?_, fun ht => .inr ?_, ?_, fun k => ?_,
    fun k => ?_⟩
  · rw [hitems, hst]
    exact List.forall_mem_append.mpr ⟨h.queued, List.forall_mem_singleton.mpr (Nat.le_refl _)⟩
  · rw [hlink]; exact h.idle k (hst ▸ hk)
  · rw [hst, hlink] at hs
    obtain ⟨htexts, hrecords⟩ := h.fresh hs
    refine ⟨?_, by rw [hbinary, hst]; exact hrecords⟩
    rw [hitems, hst]
    exact List.forall_mem_append.mpr ⟨htexts, List.forall_mem_singleton.mpr (Nat.le_refl _)⟩
  · rw [hst, hlink] at ht
    rw [hown]
    obtain ⟨hnone, hnil⟩ | ⟨m, rest, hm, hello⟩ := h.waiting ht
    · refine ⟨⟨payload, w.started⟩, [], by rw [hnil, List.nil_append], ?_⟩
      exact hhello.resolve_right (by simp [hnone])
    · exact ⟨m, rest ++ [⟨payload, w.started⟩], by rw [hm, List.cons_append], hello⟩
  · rw [hdequeued]; exact h.late
  · rw [hlink]; exact h.first k
  · rw [hlink]; exact h.sent k

/-- A new connection has no messages of its own yet. -/
theorem starts (h : FramesOk w) (hu : w.Unsent w') (hst : w'.started = w.started + 1)
    (hlog : w'.log = .starts (w.started + 1) :: w.log) : FramesOk w' := by
  have hlink (k : Nat) : w'.link k = w.link k := hu.link
  refine ⟨hu.binary ▸ h.wf, ?_, fun k hk => ?_, fun hs => ?_, fun _ => .inl ⟨by rw [hlog]; rfl, ?_⟩,
    ?_, fun k => ?_, fun k => ?_⟩
  · rw [hu.texts, hst]
    exact fun m hm => (h.queued m hm).trans (Nat.le_succ _)
  · rw [hlink]; exact h.idle k (by omega)
  · rw [hst, hlink, (h.idle _ (Nat.lt_succ_self _)).1] at hs
    cases hs
  · refine List.filter_eq_nil_iff.mpr fun m hm => ?_
    have := h.queued m (hu.texts ▸ hm)
    simp only [decide_eq_true_eq, hst]
    omega
  · rw [hu.dequeued]; exact h.late
  · rw [hlink]; exact h.first k
  · rw [hlink]; exact h.sent k

/-- Sound is queued. -/
theorem setBinary (h : FramesOk w) {m : Message}
    (hu : ({ w with
      client.pendingBinary := w'.client.pendingBinary
      queued := m :: w.queued } : World).Unsent w')
    (hwf : w'.client.pendingBinary.WF)
    (hrecords : ∀ r ∈ w'.client.pendingBinary.records,
      r ∈ w.client.pendingBinary.records ∨ r.tag = w.started)
    (hst : w'.started = w.started) (hlog : w'.log = w.log) : FramesOk w' := by
  have hlink (k : Nat) : w'.link k = w.link k := hu.link
  have hitems : w'.client.pendingText.items = w.client.pendingText.items := hu.texts
  have hdequeued : w'.dequeued = w.dequeued := hu.dequeued
  have hown : w'.ownTexts = w.ownTexts := by rw [ownTexts, hitems, hst, ownTexts]
  refine ⟨hwf, ?_, fun k hk => ?_, fun hs => ?_, fun ht => ?_, ?_, fun k => ?_, fun k => ?_⟩
  · rw [hitems, hst]; exact h.queued
  · rw [hlink]; exact h.idle k (hst ▸ hk)
  · rw [hst, hlink] at hs
    obtain ⟨htexts, hold⟩ := h.fresh hs
    refine ⟨by rw [hitems, hst]; exact htexts, fun r hr => ?_⟩
    rw [hst]
    exact (hrecords r hr).elim (hold r) Eq.ge
  · rw [hst, hlink] at ht
    rw [hlog, hown]; exact h.waiting ht
  · rw [hdequeued]; exact h.late
  · rw [hlink]; exact h.first k
  · rw [hlink]; exact h.sent k

/-- A message is taken on the latest connection. -/
theorem takes (h : FramesOk w) {frame : Frame} (hc : frame.connection = w.started)
    (hd : w'.dequeued = frame :: w.dequeued) (hwire : w'.wire = w.wire) (hlws : w'.lws = w.lws)
    (hst : w'.started = w.started)
    (htexts : w'.client.pendingText.items ⊆ w.client.pendingText.items)
    (hwf : w'.client.pendingBinary.WF)
    (hrecords : w'.client.pendingBinary.records ⊆ w.client.pendingBinary.records)
    (hqueued : w.started ≤ frame.queuedIn)
    (hfirst : (w.link w.started).taken = [] → frame.opcode = .text ∧ IsHello frame.payload) :
    FramesOk w' := by
  -- only the link of the latest connection changes
  have hself : w'.link w.started =
      { w.link w.started with taken := frame :: (w.link w.started).taken } := by
    rw [link, hd, framesOn_cons_self hc, hwire, hlws]
    rfl
  have hother {k : Nat} (hk : k ≠ w.started) : w'.link k = w.link k := by
    rw [link, hd, framesOn_cons_of_ne (hc ▸ hk.symm), hwire, hlws]
    rfl
  refine ⟨hwf, ?_, fun k hk => ?_, fun hs => ?_, fun ht => ?_, ?_, fun k => ?_, fun k => ?_⟩
  · rw [hst]
    exact fun m hm => h.queued m (htexts hm)
  · rw [hst] at hk
    rw [hother hk.ne']
    exact h.idle k hk
  · rw [hst, hself] at hs
    obtain ⟨hold, holdr⟩ := h.fresh hs
    rw [hst]
    exact ⟨fun m hm => hold m (htexts hm), fun r hr => holdr r (hrecords hr)⟩
  · rw [hst, hself] at ht
    cases ht
  · rw [hd]
    exact List.forall_mem_cons.mpr ⟨hc ▸ hqueued, h.late⟩
  · by_cases hk : k = w.started
    · subst hk
      rw [hself]
      intro f hf
      cases hold : (w.link w.started).taken with
      | nil =>
        obtain rfl : frame = f := by simpa [hold] using hf
        exact hfirst hold
      | cons g rest =>
        rw [hold, List.getLast?_cons_cons] at hf
        exact h.first w.started f (hold ▸ hf)
    · rw [hother hk]
      exact h.first k
  · by_cases hk : k = w.started
    · subst hk
      rw [hself]
      exact (h.sent _).trans (List.suffix_cons _ _)
    · rw [hother hk]
      exact h.sent k

/-- The latest message taken is written. -/
theorem writes (h : FramesOk w) {frame : Frame} (hc : frame.connection = k)
    (ha : (w.link k).Ahead frame) : FramesOk { w with wire := frame :: w.wire } := by
  refine ⟨h.wf, h.queued, h.idle, fun hs => ?_, h.waiting, h.late, h.first, fun j => ?_⟩
  · obtain ⟨htexts, hbinary⟩ := h.fresh hs
    exact ⟨htexts, hbinary⟩
  · by_cases hj : j = k
    · subst hj
      show framesOn j (frame :: w.wire) <:+ framesOn j w.dequeued
      rw [framesOn_cons_self hc]
      exact ⟨[], Eq.symm ha⟩
    · show framesOn j (frame :: w.wire) <:+ framesOn j w.dequeued
      rw [framesOn_cons_of_ne (hc ▸ Ne.symm hj)]
      exact h.sent j

/-- The latest connection changes its state. -/
theorem setLws (h : FramesOk w) (hothers : ∀ j, j ≠ w.started → w'.lws j = w.lws j)
    (hu : ({ w with lws := w'.lws, received := w'.received } : World).Unsent w')
    (hst : w'.started = w.started)
    (hlog : w'.log = w.log)
    (hfresh : w'.lws w.started = .established →
      w.lws w.started = .established ∨ w.PendingFrom w.started) : FramesOk w' := by
  have hitems : w'.client.pendingText.items = w.client.pendingText.items := hu.texts
  have hbinary : w'.client.pendingBinary = w.client.pendingBinary := hu.binary
  have hdequeued : w'.dequeued = w.dequeued := hu.dequeued
  have hwire : w'.wire = w.wire := hu.wire
  have hown : w'.ownTexts = w.ownTexts := by rw [ownTexts, hitems, hst, ownTexts]
  have htaken (k : Nat) : (w'.link k).taken = (w.link k).taken := by
    rw [link, hdequeued]
    rfl
  have hsent (k : Nat) : (w'.link k).sent = (w.link k).sent := by
    rw [link, hwire]
    rfl
  refine ⟨hbinary ▸ h.wf, ?_, fun k hk => ?_, fun hs => ?_, fun ht => ?_, ?_, fun k => ?_,
    fun k => ?_⟩
  · rw [hitems, hst]; exact h.queued
  · rw [hst] at hk
    rw [htaken]
    exact ⟨(hothers k hk.ne').trans (h.idle k hk).1, (h.idle k hk).2⟩
  · rw [hst] at hs
    obtain ⟨htexts, hrecords⟩ := (hfresh hs).elim h.fresh id
    exact ⟨by rw [hitems, hst]; exact htexts, by rw [hbinary, hst]; exact hrecords⟩
  · rw [hst, htaken] at ht
    rw [hlog, hown]; exact h.waiting ht
  · rw [hdequeued]; exact h.late
  · rw [htaken]; exact h.first k
  · rw [htaken, hsent]; exact h.sent k

/-- A text that waits at the head is the first of the latest connection. -/
theorem hello_of_head (h : FramesOk w) {m : TextMessage} {rest : List TextMessage}
    (hitems : w.client.pendingText.items = m :: rest) (hm : m.queuedIn = w.started)
    (ht : (w.link w.started).taken = []) : IsHello m.payload := by
  have hown : w.ownTexts = m :: rest.filter (·.queuedIn = w.started) := by
    simp [ownTexts, hitems, hm]
  obtain ⟨-, hnil⟩ | ⟨m', rest', hm', hello⟩ := h.waiting ht
  · cases hown.symm.trans hnil
  · obtain ⟨rfl, -⟩ := List.cons.inj (hown.symm.trans hm')
    exact hello

theorem service (h : FramesOk w) (hs : ServiceStep w.started w w')
    (hview : w'.mainView = w.mainView) (hok : FreshStart (.service w.started) w w')
    (hg : (frameContract w.started).guar w w') : FramesOk w' := by
  have hst : w'.started = w.started := congrArg MainView.started hview
  have hlog : w'.log = w.log := congrArg MainView.log hview
  cases hs with
  | quiet hq _ => exact h.congr hq.unsent hst (by rw [hlog])
  | pushes _ _ => exact h.congr ⟨rfl, rfl, rfl, rfl, rfl, rfl⟩ rfl (by rw [hlog])
  | delivers => exact h.congr ⟨rfl, rfl, rfl, rfl, rfl, rfl⟩ rfl (by rw [hlog])
  | deliversBinary => exact h.congr ⟨rfl, rfl, rfl, rfl, rfl, rfl⟩ rfl rfl
  | collects => exact h.congr ⟨rfl, rfl, rfl, rfl, rfl, rfl⟩ rfl rfl
  | enqueues _ => exact h.congr ⟨rfl, rfl, rfl, rfl, rfl, rfl⟩ rfl rfl
  | popsText hitems =>
    have hpending := h.fresh (hg.2 (List.cons_ne_self _ _)).1
    have hhead := hpending.texts _ (hitems ▸ List.mem_cons_self)
    have heq := Nat.le_antisymm (h.queued _ (hitems ▸ List.mem_cons_self)) hhead
    exact h.takes rfl rfl rfl rfl rfl (by rw [hitems]; exact List.subset_cons_self _ _) h.wf
      (List.Subset.refl _) hhead fun ht => ⟨rfl, h.hello_of_head hitems heq ht⟩
  | popsBinary hitems hpop =>
    have hrec := AudioBuffer.pop_records h.wf hpop
    have hpending := h.fresh (hg.2 (List.cons_ne_self _ _)).1
    refine h.takes rfl rfl rfl rfl rfl (List.Subset.refl _) (AudioBuffer.pop_wf h.wf hpop)
      (hrec ▸ List.subset_cons_self _ _) ?_ fun ht => ?_
    · exact hpending.binary _ (hrec ▸ List.mem_cons_self)
    · -- a text has been queued on the connection, and none waits
      have hq := hok.binary _ rfl rfl
      obtain ⟨hnone, -⟩ | ⟨m, rest, hm, -⟩ := h.waiting ht
      · simp [hq] at hnone
      · simp [ownTexts, hitems] at hm
  | writes hc => exact h.writes hc (hg.1 _ rfl)
  | connection hothers hq _ => exact h.setLws hothers hq.unsent hst hlog (hok.established _ rfl)

theorem step (h : FramesOk w) (hb : System.Base i w w') (hok : FreshStart i w w')
    (hframes : ∀ k, i = .service k → (frameContract k).guar w w')
    (hgreet : i = .main → greetContract.guar w.mainView w'.mainView) : FramesOk w' := by
  cases hb.step.frames with
  | same hu hst hlog =>
    refine h.congr hu hst ?_
    obtain hlog | ⟨entry, hs, hlog⟩ := hlog
    · rw [hlog]
    · rw [hlog, hasQueued_cons hs]
  | queuesText payload hi hu hitems hst hlog =>
    exact h.queuesText hu hitems hst (hgreet hi payload hlog)
  | starts _ hu hst hlog => exact h.starts hu hst hlog
  | queuesBinary payload _ hu hpush hst hlog =>
    have hrec := AudioBuffer.push_records h.wf hpush
    refine h.setBinary hu (AudioBuffer.push_wf h.wf hpush) (fun r hr => ?_) hst hlog
    obtain hr | hr := List.mem_append.mp (hrec ▸ hr)
    · exact .inl hr
    · exact .inr (by rw [List.mem_singleton.mp hr])
  | service k hi hs =>
    obtain rfl | ⟨-, rfl⟩ := hb.service k hi
    · exact h
    · subst hi
      exact h.service hs (hb.step.mainView (by simp)) hok (hframes _ rfl)

end FramesOk

namespace System

variable {cjsonParse : Bytes → Option Json} {config : AppConfig} {cfg : Config}

/-- In every run in which each connection has a fresh start: no frame written on
    a connection was queued before the connection was started, and the first
    frame is a hello. -/
theorem first_frame_hello (hr : Reach cjsonParse FreshStart config cfg) (k : Nat) :
    (∀ frame ∈ (cfg.shared.link k).sent, k ≤ frame.queuedIn) ∧
    ∀ frame, (cfg.shared.link k).sent.getLast? = some frame →
      frame.opcode = .text ∧ IsHello frame.payload := by
  have hsteps := Reach.strengthen_main (S := greetContract) (fun _ _ h => h.1.speaks)
    greet_start greet_loop hr.frames
  have hinit : FramesOk (World.init config) := by
    refine ⟨AudioBuffer.init_wf (AudioBuffer.init32_eq (by decide)),
      fun _ hm => absurd hm List.not_mem_nil,
      fun _ _ => ⟨rfl, rfl⟩, nofun, fun _ => .inl ⟨rfl, rfl⟩, nofun, fun k frame hf => ?_,
      fun k => List.suffix_refl _⟩
    cases hf
  have h : FramesOk cfg.shared := Threads.Reach.invariant hinit
    (fun _ _ _ h hok => hok.step h.1.2.1 h.1.1 h.1.2.2 h.2.2) hsteps
  refine ⟨fun frame hf => ?_, fun frame hf => h.first k frame ?_⟩
  · obtain ⟨hmem, hk⟩ := List.mem_filter.mp ((h.sent k).mem hf)
    exact of_decide_eq_true hk ▸ h.late frame hmem
  · obtain ⟨newer, hnewer⟩ := h.sent k
    rw [← hnewer, List.getLast?_append, hf]
    rfl

/-- The test for `FreshStart`. -/
def freshStart (i : ThreadId) (w w' : World) : Bool :=
  let established : Bool := match i with
    | .service k => decide (w'.lws k = .established → w.lws k = .established ∨ w.PendingFrom k)
    | _ => true
  let binary := (added w.dequeued w'.dequeued).all fun frame =>
    decide (frame.opcode = .binary → hasQueued w.log = true)
  admits SpeaksAfterHello i w w' && (established && binary)

theorem freshStart_iff (i : ThreadId) (w w' : World) (h : freshStart i w w' = true) :
    FreshStart i w w' := by
  simp only [freshStart, Bool.and_eq_true] at h
  obtain ⟨hspeaks, hestablished, hbinary⟩ := h
  refine ⟨admits_iff i w w' hspeaks, ?_, fun frame hd => ?_⟩
  · rintro k rfl
    exact of_decide_eq_true hestablished
  · simpa only [hd, added_cons, Option.all_some, decide_eq_true_eq] using hbinary

/-- The hello is written on the first connection. -/
theorem first_frame_hello_written :
    ∃ cfg, Reach sampleParse FreshStart ⟨1, 16000, 1200, 500⟩ cfg ∧
      ∃ frame, (cfg.shared.link 1).sent.getLast? = some frame ∧ 1 ≤ frame.queuedIn ∧
        frame.opcode = .text ∧ IsHello frame.payload := by
  have h : (play sampleParse freshStart ⟨1, 16000, 1200, 500⟩ [
      (.main, 15, [.ok]),
      (.service 1, 18, [.ok, .ok, .ok, .callback .established, .nothing]),
      (.main, 15, [.ok, .ok, .nothing]),
      (.service 1, 10, [.callback .writeable, .ok, .ok, .nothing])]).any (fun cfg =>
        (cfg.shared.link 1).sent.getLast?.isSome) = true := by
    decide +kernel
  obtain ⟨cfg, hr, hp⟩ := exists_of_play freshStart_iff h
  obtain ⟨frame, hf⟩ := Option.isSome_iff_exists.mp hp
  obtain ⟨hlate, hfirst⟩ := first_frame_hello hr 1
  exact ⟨cfg, hr, frame, hf, hlate frame (List.mem_of_getLast? hf), hfirst frame hf⟩

/-- Enter interrupts the answer of the server. The abort message is queued just
    before the connection is stopped, and it is written on the next connection. -/
theorem stale_frame : ∃ cfg, Reach sampleParse anyStep ⟨1, 16000, 1200, 500⟩ cfg ∧
    ∃ frame ∈ (cfg.shared.link 2).sent, frame.queuedIn < 2 := by
  have h : (play sampleParse (fun _ _ _ => true) ⟨1, 16000, 1200, 500⟩ [
      (.main, 15, [.ok]),
      (.service 1, 18, [.ok, .ok, .ok, .callback .established, .nothing]),
      (.main, 15, [.ok, .ok, .nothing]),
      (.service 1, 20, [.callback .writeable, .ok, .ok, receives 0, receives 2, .nothing]),
      (.main, 28, [.nothing, .input [10]]),
      (.main, 19, [.ok]),
      (.service 1, 12, [.nothing]),
      (.main, 9, [.ok, .nothing]),
      (.service 2, 20, [.ok, .ok, .ok, .callback .established, .callback .writeable, .ok,
        .ok])]).any (fun cfg => (cfg.shared.link 2).sent.any fun frame =>
          decide (frame.queuedIn < 2)) = true := by
    decide +kernel
  obtain ⟨cfg, hr, hp⟩ := exists_of_play (fun _ _ _ _ => trivial) h
  simp only [List.any_eq_true, decide_eq_true_eq] at hp
  exact ⟨cfg, hr, hp⟩

end System

end Xiaozhi
