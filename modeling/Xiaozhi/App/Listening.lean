-- SUMMARY: The listen messages carry the session id of the server exactly when the id is short and needs no escapes.
import Xiaozhi.App.MainLoop
import Xiaozhi.Data.JsonText

/-!
# Listen messages

The session id goes from the hello message of the server through two buffers
into the listen messages, which are written without any quoting. What the
document means that comes out is read with the JSON grammar.
-/

namespace Xiaozhi

open Threads Threads.Prog World App CString XiaozhiProtocol

/-! ## The message -/

/-- The text is a JSON document that asks for the state `state` in the session `id`. -/
def IsListenMessage (state : String) (id text : Bytes) : Prop :=
  ∃ document, JsonText.parse text = some document ∧
    document.member (ofString "session_id") = some (.string id) ∧
    document.member (ofString "type") = some (.string (ofString "listen")) ∧
    document.member (ofString "state") = some (.string (ofString state)) ∧
    document.member (ofString "mode") = some (.string (ofString "manual"))

/-- The members of a listen message after the session id. -/
def listenTail (state : String) : List (Bytes × Bytes) :=
  [(ofString "type", ofString "listen"), (ofString "state", ofString state),
    (ofString "mode", ofString "manual")]

/-- The members of a listen message. -/
def listenMembers (state : String) (id : Bytes) : List (Bytes × Bytes) :=
  (ofString "session_id", id) :: listenTail state

/-- A listen message fits the buffer of its sender. -/
theorem buildListenManual_eq {state : String} {id : Bytes} (hid : id ≠ [])
    (hlen : id.length ≤ 63) (hstate : state = "start" ∨ state = "stop") :
    buildListenManual state id 256 = some (JsonText.quoteObject (listenMembers state id)) := by
  have hno : ¬(id = [] ∨ 256 = 0) := by simp [hid]
  have hhead : ofString "\x7b\"session_id\":\"" = byte '\x7b' :: byte '"' ::
      (ofString "session_id" ++ [byte '"', byte ':', byte '"']) := by decide
  have htail : ofString "\",\"type\":\"listen\",\"state\":\"" ++ (ofString state ++
      ofString "\",\"mode\":\"manual\"\x7d") =
      byte '"' :: byte ',' :: JsonText.quoteMembers (listenTail state) := by
    rcases hstate with rfl | rfl <;> decide
  have hlong : (JsonText.quoteMembers (listenTail state)).length < 100 := by
    rcases hstate with rfl | rfl <;> decide
  have htext : ofString "\x7b\"session_id\":\"" ++ id ++
      ofString "\",\"type\":\"listen\",\"state\":\"" ++ ofString state ++
      ofString "\",\"mode\":\"manual\"\x7d" =
      JsonText.quoteObject (listenMembers state id) := by
    rw [List.append_assoc, List.append_assoc, htail, hhead]
    simp [JsonText.quoteObject, listenMembers, listenTail, JsonText.quoteMembers_cons_cons,
      JsonText.quoteMember]
  have hfits : ¬(JsonText.quoteObject (listenMembers state id)).length ≥ 256 := by
    rw [← htext, List.append_assoc, List.append_assoc, htail]
    simp only [List.length_append, List.length_cons]
    have hshort : (ofString "\x7b\"session_id\":\"").length = 15 := by decide
    omega
  rw [buildListenManual, if_neg hno, htext, fits, if_neg hfits]

/-- The message that is built for what the buffers leave of an id is a listen
    message for that id exactly when the id is plain and has been left whole. -/
theorem isListenMessage_iff {state : String} {id : Bytes} (hnul : ofBytes id = id)
    (hstate : state = "start" ∨ state = "stop") :
    IsListenMessage state id (JsonText.quoteObject (listenMembers state (copy 64 id))) ↔
      JsonText.Plain id ∧ id.length ≤ 63 := by
  have hcopy : copy 64 id = id.take 63 := by rw [copy, hnul]
  have hkey : JsonText.Plain (ofString "session_id") := by decide
  constructor
  · rintro ⟨document, hparse, hid, -⟩
    have hpre : copy 64 id <+: id := hcopy ▸ List.take_prefix _ _
    obtain ⟨hwhole, hplain⟩ := JsonText.parse_quoteObject_prefix hkey hpre hparse hid
    rw [← hwhole] at hplain
    refine ⟨hplain, ?_⟩
    rw [hwhole, hcopy, List.length_take]
    omega
  · rintro ⟨hplain, hlen⟩
    rw [hcopy, List.take_of_length_le hlen]
    have hmembers : ∀ m ∈ listenMembers state id, JsonText.Plain m.1 ∧ JsonText.Plain m.2 := by
      intro m hm
      rcases List.mem_cons.mp hm with rfl | hm
      · exact ⟨hkey, hplain⟩
      · have hrest : ∀ m ∈ listenTail state,
            JsonText.Plain m.1 ∧ JsonText.Plain m.2 := by
          rcases hstate with rfl | rfl <;> decide
        exact hrest m hm
    refine ⟨_, JsonText.parse_quoteObject (List.cons_ne_nil _ _) hmembers, ?_⟩
    exact ⟨rfl, rfl, rfl, rfl⟩

/-! ## The session id in force -/

/-- The session id that a hello message carries, as the C string that cJSON
    decodes it to, and the empty string for other messages. -/
def helloId (root : Json) : Bytes :=
  if isString (root.getObjectItem (ofString "type")) "hello" then
    match root.getObjectItem (ofString "session_id") with
    | some (.string id) => ofBytes id
    | _ => []
  else
    []

/-- The latest session id that a hello message carried. -/
def lastSessionId (cjsonParse : Bytes → Option Json) : List MainEntry → Bytes
  | [] => []
  | .parses text :: log =>
    let id := ((cjsonParse text).map helloId).getD []
    if id ≠ [] then id else lastSessionId cjsonParse log
  | _ :: log => lastSessionId cjsonParse log

theorem ofBytes_helloId {root : Json} : ofBytes (helloId root) = helloId root := by
  unfold helloId
  split
  · split
    · exact ofBytes_ofBytes
    · rfl
  · rfl

theorem ofBytes_lastSessionId {cjsonParse : Bytes → Option Json} {log : List MainEntry} :
    ofBytes (lastSessionId cjsonParse log) = lastSessionId cjsonParse log := by
  fun_induction lastSessionId cjsonParse log with
  | case1 => rfl
  | case2 text log id hid =>
    cases hparse : cjsonParse text with
    | none => simp [id, hparse] at hid
    | some root => simpa [id, hparse] using ofBytes_helloId
  | case3 text log id hid ih => exact ih
  | case4 entry log hentry ih => exact ih

/-- Exactly the hello messages become hello events. -/
theorem type_eq_hello_iff {root : Json} : (readIncomingJson root).type = .hello ↔
    isString (root.getObjectItem (ofString "type")) "hello" = true := by
  have htype : (readIncomingJson root).type = parseType (root.getObjectItem (ofString "type"))
      (root.getObjectItem (ofString "state")) := rfl
  rw [htype, parseType]
  split_ifs with hhello <;> simp_all

/-- The id of a hello event is the one carried, cut to the size of its buffer. -/
theorem sessionId_of_hello {root : Json} (h : (readIncomingJson root).type = .hello) :
    (readIncomingJson root).sessionId = copy 64 (helloId root) := by
  have hid : (readIncomingJson root).sessionId =
      copyJsonString 64 (root.getObjectItem (ofString "session_id")) := rfl
  rw [hid, helloId, if_pos (type_eq_hello_iff.mp h)]
  cases root.getObjectItem (ofString "session_id") with
  | none => exact copy_nil.symm
  | some item =>
    cases item with
    | string id => exact copy_ofBytes.symm
    | _ => exact copy_nil.symm

/-- Only hello messages carry a session id. -/
theorem helloId_of_ne {root : Json} (h : (readIncomingJson root).type ≠ .hello) :
    helloId root = [] := if_neg fun htype => h (type_eq_hello_iff.mpr htype)

/-! ## Sending -/

/-- The actions that send a listen message, with the state it asks for and what
    is reported when it cannot be sent. -/
def listenSend : SessionAction → Option (String × String)
  | .startListen => some ("start", "failed to queue listen start")
  | .stopListen => some ("stop", "failed to queue listen stop")
  | _ => none

/-- The main thread is not at the beginning of an action that sends a listen message. -/
def NotSending (log : List MainEntry) : Prop :=
  ∀ action rest, log = .performs action :: rest → listenSend action = none

@[simp] theorem notSending_cons {entry : MainEntry} {log : List MainEntry} :
    NotSending (entry :: log) ↔ ∀ action, entry = .performs action → listenSend action = none :=
  ⟨fun h action he => h action log (by rw [he]), fun h action _ he =>
    h action (List.cons.inj he).1⟩

/-- What becomes of a listen message for the session id in force: it is queued,
    or the failure is reported. -/
def Sent (id : Bytes) (send : String × String) (entry : MainEntry) : Prop :=
  (id ≠ [] ∧ entry = .queues (JsonText.quoteObject (listenMembers send.1 (copy 64 id)))) ∨
  ∃ accepted, entry = .pushes (.make .error (some (ofString send.2)) (-1) .main) accepted

/-- The main thread's part: an action that sends a listen message has sent it, or
    reported the failure, as soon as it has added to the history. -/
def sendContract (cjsonParse : Bytes → Option Json) : ViewContract MainView where
  assume _ _ := True
  guar v v' := ∀ entry action rest send, v'.log = entry :: v.log → v.log = .performs action :: rest →
    listenSend action = some send → Sent (lastSessionId cjsonParse rest) send entry
  assume_refl _ := trivial
  guar_refl _ _ _ _ _ h := absurd h.symm (List.cons_ne_self _ _)

/-- The session id of the main thread is the latest one, cut to its buffer, or
    none, and no listen message is about to be sent. -/
def IdKnown (cjsonParse : Bytes → Option Json) (v : MainView) : Prop :=
  (v.sessionId = [] ∨ v.sessionId = copy 64 (lastSessionId cjsonParse v.log)) ∧ NotSending v.log

namespace IdKnown

variable {cjsonParse : Bytes → Option Json} {v v' : MainView} {P : Prop}

@[simp] theorem after_same (h : v'.log = v.log) : (sendContract cjsonParse).After v v' P ↔ P :=
  ⟨fun hP => (hP trivial).2, fun hP _ =>
    ⟨fun _ _ _ _ he => absurd (he.symm.trans h) (List.cons_ne_self _ _), hP⟩⟩

@[simp] theorem after_of_notSending (h : NotSending v.log) :
    (sendContract cjsonParse).After v v' P ↔ P :=
  ⟨fun hP => (hP trivial).2, fun hP _ =>
    ⟨fun _ action rest _ _ hlog hsend => absurd hsend (by rw [h action rest hlog]; nofun), hP⟩⟩

/-- The contract asks nothing of handlers that send no listen message. -/
theorem connect (hq : NotSending v.log) :
    App.connect.vwp mainView (sendContract cjsonParse) (fun _ => IdKnown cjsonParse) v := by
  simp [App.connect, vwp_ite, IdKnown, hq]

theorem abort (hq : NotSending v.log) :
    App.abort.vwp mainView (sendContract cjsonParse) (fun _ => IdKnown cjsonParse) v := by
  simp [App.abort, sendAbort, stopUpload, vwp_ite, IdKnown, hq]

theorem returnToWake (hq : NotSending v.log) :
    App.returnToWake.vwp mainView (sendContract cjsonParse) (fun _ => IdKnown cjsonParse) v := by
  simp [App.returnToWake, IdKnown, hq]

theorem resetToIdle (h : IdKnown cjsonParse v) :
    App.resetToIdle.vwp mainView (sendContract cjsonParse) (fun _ => IdKnown cjsonParse) v := by
  obtain ⟨hid, hq⟩ := h
  simp [App.resetToIdle, vwp_ite, IdKnown, hq, lastSessionId, hid]

/-- The message that is built is the one for the latest session id. -/
theorem sent_queues {send : String × String} {text id : Bytes} (hne : v.sessionId ≠ [])
    (hid : v.sessionId = [] ∨ v.sessionId = copy 64 id)
    (hstate : send.1 = "start" ∨ send.1 = "stop")
    (h : buildListenManual send.1 v.sessionId 256 = some text) : Sent id send (.queues text) := by
  have hcopy : v.sessionId = copy 64 id := hid.resolve_left hne
  rw [hcopy] at h hne
  have hlen : (copy 64 id).length ≤ 63 := List.length_take_le _ _
  rw [buildListenManual_eq hne hlen hstate] at h
  cases h
  refine .inl ⟨?_, rfl⟩
  rintro rfl
  exact hne copy_nil

theorem after_sent {action : SessionAction} {rest : List MainEntry} {send : String × String}
    {entry : MainEntry} (hlog : v.log = .performs action :: rest)
    (hsend : listenSend action = some send)
    (h : Sent (lastSessionId cjsonParse rest) send entry) :
    (sendContract cjsonParse).After v (v.record entry) P ↔ P := by
  refine ⟨fun hP => (hP trivial).2, fun hP _ => ⟨fun entry' action' rest' send' he hlog' hsend' => ?_, hP⟩⟩
  obtain ⟨rfl, -⟩ := List.cons.inj he
  obtain ⟨hperforms, rfl⟩ := List.cons.inj (hlog.symm.trans hlog')
  cases hperforms
  cases hsend.symm.trans hsend'
  exact h

/-- The end of an action that could not send its message. -/
theorem pushError {action : SessionAction} {rest : List MainEntry} {state message : String}
    (hlog : v.log = .performs action :: rest) (hsend : listenSend action = some (state, message))
    (hid : v.sessionId = [] ∨ v.sessionId = copy 64 (lastSessionId cjsonParse rest)) :
    (App.pushError message).vwp mainView (sendContract cjsonParse) (fun _ => IdKnown cjsonParse) v := by
  rw [vwp_pushError]
  intro accepted
  rw [after_sent hlog hsend (.inr ⟨accepted, rfl⟩)]
  simpa [IdKnown, hlog, lastSessionId] using hid

theorem stopListen {rest : List MainEntry} (hlog : v.log = .performs .stopListen :: rest)
    (hid : v.sessionId = [] ∨ v.sessionId = copy 64 (lastSessionId cjsonParse rest)) :
    App.stopListen.vwp mainView (sendContract cjsonParse) (fun _ => IdKnown cjsonParse) v := by
  simp only [App.stopListen, stopUpload, vwp_bind, vwp_setUploadEnabled, vwp_setUploading,
    vwp_closeOpusDumpFile, after_same, vwp_sendListenStop, vwp_ite]
  refine ⟨⟨fun h => absurd h Bool.false_ne_true, fun _ => pushError hlog rfl hid⟩, ?_⟩
  intro hne text hbuild
  have hsend : listenSend .stopListen = some ("stop", "failed to queue listen stop") := rfl
  refine (after_sent ?_ hsend (sent_queues hne hid (.inr rfl) hbuild)).mpr ?_
  · exact hlog
  · simpa [IdKnown, hlog, lastSessionId] using hid

theorem startListen {rest : List MainEntry} (hlog : v.log = .performs .startListen :: rest)
    (hid : v.sessionId = [] ∨ v.sessionId = copy 64 (lastSessionId cjsonParse rest)) :
    App.startListen.vwp mainView (sendContract cjsonParse) (fun _ => IdKnown cjsonParse) v := by
  simp only [App.startListen, vwp_bind, vwp_sendListenStart, vwp_ite]
  refine ⟨⟨fun h => absurd h Bool.false_ne_true, fun _ => pushError hlog rfl hid⟩, ?_⟩
  intro hne text hbuild
  rw [after_sent hlog rfl (sent_queues hne hid (.inl rfl) hbuild)]
  simpa [IdKnown, hlog, lastSessionId] using hid

/-- The state machine and its actions keep what is known of the session id, and
    send what the contract says. -/
theorem handleSessionEvent (h : IdKnown cjsonParse v) (type : AppEventType) :
    (App.handleSessionEvent type).vwp mainView (sendContract cjsonParse)
      (fun _ => IdKnown cjsonParse) v := by
  obtain ⟨hid, hq⟩ := h
  simp only [App.handleSessionEvent, vwp_bind, vwp_sessionHandleEvent, after_same, handleAction,
    vwp_record]
  refine (after_of_notSending ?_).mpr ?_
  · exact hq
  obtain he | ⟨-, he⟩ | ⟨-, he⟩ | ⟨-, -, he⟩ | ⟨-, -, he⟩ | ⟨-, he⟩ | ⟨-, -, he⟩ | ⟨-, he⟩ :=
    Session.handleEvent_cases v.session type <;> rw [he]
  · simpa [IdKnown, lastSessionId, listenSend] using hid
  · exact returnToWake (by simp [listenSend])
  · exact connect (by simp [listenSend])
  · simp [vwp_ite, IdKnown, lastSessionId, listenSend, hid]
  · simpa [IdKnown, lastSessionId, listenSend] using hid
  · exact startListen rfl hid
  · exact stopListen rfl hid
  · exact abort (by simp [listenSend])

theorem record (h : IdKnown cjsonParse v) {entry : MainEntry}
    (hentry : ∀ text, entry ≠ .parses text) (hq : NotSending (entry :: v.log)) :
    IdKnown cjsonParse (v.record entry) := by
  refine ⟨?_, hq⟩
  rw [MainView.record_sessionId, MainView.record_log, lastSessionId]
  · exact h.1
  · exact hentry

theorem handleProtocolEvent {root : Json} {text : Bytes} (h : IdKnown cjsonParse v)
    (hroot : cjsonParse text = some root) :
    (App.handleProtocolEvent (readIncomingJson root)).vwp mainView (sendContract cjsonParse)
      (fun _ => IdKnown cjsonParse) (v.record (.parses text)) := by
  obtain ⟨hid, -⟩ := h
  have hlast : lastSessionId cjsonParse (.parses text :: v.log) =
      if helloId root ≠ [] then helloId root else lastSessionId cjsonParse v.log := by
    rw [lastSessionId, hroot]
    rfl
  -- a message that is no hello with an id leaves the known one alone
  have hkept (hnil : helloId root = []) : IdKnown cjsonParse
      ((v.record (.parses text)).record (.handles (readIncomingJson root))) := by
    refine ⟨?_, by simp⟩
    simpa [lastSessionId, hroot, hnil] using hid
  simp only [App.handleProtocolEvent, vwp_bind, vwp_record]
  refine (after_of_notSending ?_).mpr ?_
  · simp
  split
  · next htype =>
    simp only [handleHello, vwp_bind, vwp_when, vwp_setSessionId, vwp_updateDecoderFromHello,
      decide_eq_true_eq, decide_eq_false_iff_not, sessionId_of_hello htype]
    refine ⟨fun hne => (after_same rfl).mpr ?_, fun hno => ?_⟩
    · have hcarried : helloId root ≠ [] := by
        intro hnil
        rw [hnil] at hne
        exact hne copy_nil
      refine handleSessionEvent ⟨.inr ?_, by simp⟩ _
      simp [lastSessionId, hroot, hcarried]
    · have hnil : helloId root = [] := by
        have hcopy : copy 64 (helloId root) = [] := by simpa using hno
        rwa [copy_eq_nil_iff (by omega), ofBytes_helloId] at hcopy
      exact handleSessionEvent (hkept hnil) _
  · next htype =>
    have hno : (readIncomingJson root).type ≠ .hello := by simp [htype]
    simp only [handleTtsStart, vwp_bind, vwp_setUploadEnabled, vwp_setUploading, vwp_setState,
      vwp_setTtsDone, after_same]
    exact hkept (helloId_of_ne hno)
  · next htype =>
    have hno : (readIncomingJson root).type ≠ .hello := by simp [htype]
    have hknown := hkept (helloId_of_ne hno)
    simp only [handleTtsStop, vwp_bind, vwp_setTtsDone, vwp_findQueueSize, vwp_when]
    refine (after_same rfl).mpr fun n => (after_of_notSending hknown.2).mpr ?_
    have hfinds : IdKnown cjsonParse (MainView.record _ (.finds n)) :=
      hknown.record (by simp) (by simp)
    exact ⟨fun _ => resetToIdle hfinds, fun _ => hfinds⟩
  · next hhello _ _ => exact hkept (helloId_of_ne hhello)

theorem handleEvent {e : AppEvent} (h : IdKnown cjsonParse v) :
    (App.handleEvent cjsonParse e).vwp mainView (sendContract cjsonParse)
      (fun _ => IdKnown cjsonParse) v := by
  unfold App.handleEvent
  split <;> first | exact handleSessionEvent h _ | exact h | skip
  · simp only [handleText, vwp_bind, vwp_record]
    refine (after_of_notSending h.2).mpr ?_
    split
    · next event hparse =>
      obtain ⟨root, hroot, rfl⟩ := Option.map_eq_some_iff.mp hparse
      exact handleProtocolEvent h hroot
    · next hparse =>
      have hnone : cjsonParse e.text = none := Option.map_eq_none_iff.mp hparse
      refine ⟨?_, by simp⟩
      simpa [lastSessionId, hnone] using h.1
  · simp only [handlePlaybackFinished, vwp_bind, vwp_readTtsDone, vwp_when]
    exact ⟨fun _ => resetToIdle h, fun _ => h⟩
  · simpa using h

end IdKnown

namespace System

variable {cjsonParse : Bytes → Option Json} {config : AppConfig} {cfg : Config}

/-- Whenever the main thread has gone on from the beginning of an action that
    sends a listen message, it has sent the one for the latest session id, or
    reported the failure. -/
theorem Reach.sent (hr : Reach cjsonParse anyStep config cfg) :
    ∀ entry action rest send, cfg.shared.log = entry :: .performs action :: rest →
      listenSend action = some send → Sent (lastSessionId cjsonParse rest) send entry := by
  have hstart : App.runStart.vwp mainView (sendContract cjsonParse) (fun _ => IdKnown cjsonParse)
      (World.init config).mainView := by
    have hquiet : NotSending (World.init config).log :=
      fun _ _ h => absurd h.symm (List.cons_ne_nil _ _)
    have hreset : App.resetToIdle.vwp mainView (sendContract cjsonParse)
        (fun _ => IdKnown cjsonParse) (World.init config).mainView :=
      IdKnown.resetToIdle ⟨.inl rfl, hquiet⟩
    simp only [runStart, vwp_bind, vwp_readClientStarted, vwp_when]
    refine hreset.mono fun _ v hv => ⟨fun _ => ?_, fun _ => hv⟩
    simp only [vwp_setState, IdKnown.after_same, handleAction, vwp_bind, vwp_record]
    refine (IdKnown.after_of_notSending hv.2).mpr (IdKnown.connect ?_)
    simp [listenSend]
  have hloop (v : MainView) (hv : IdKnown cjsonParse v) : (App.runLoop cjsonParse).vwp mainView
      (sendContract cjsonParse) (fun _ => IdKnown cjsonParse) v := by
    refine runLoop_keeps (fun v e accepted _ h => ?_) (fun v result h => ?_) (fun v e h => ?_) v hv
    · exact (IdKnown.after_of_notSending h.2).mpr (h.record (by simp) (by simp))
    · exact (IdKnown.after_same rfl).mpr h
    · refine (IdKnown.after_of_notSending h.2).mpr (IdKnown.handleEvent ?_)
      exact h.record (by simp) (by simp)
  have hsteps := hr.strengthen_main (S := sendContract cjsonParse) (fun _ _ _ => trivial) hstart hloop
  let Inv (w : World) : Prop := ∀ entry action rest send, w.log = entry :: .performs action :: rest →
    listenSend action = some send → Sent (lastSessionId cjsonParse rest) send entry
  have hinit : Inv (World.init config) :=
    fun _ _ _ _ hlog => absurd hlog.symm (List.cons_ne_nil _ _)
  -- the entry behind an action is written by the main thread, under its contract
  refine Threads.Reach.invariant hinit (fun i w w' hstep h => ?_) hsteps
  obtain ⟨-, hs, hg⟩ := hstep
  intro entry action rest send hlog hsend
  obtain hsame | ⟨entry', hcons⟩ := hs.log_cases
  · exact h entry action rest send (hsame ▸ hlog) hsend
  · obtain ⟨rfl, hrest⟩ := List.cons.inj (hcons.symm.trans hlog)
    exact hg (hs.main_of_log hcons) entry' action rest send hcons hrest hsend

/-- In every run: a listen message that the main thread queues is a JSON document
    with the session id that the server gave, and with the state that was asked
    for, exactly when this id is at most 63 bytes long and needs no escapes; and
    when it queues none, it reports the failure. -/
theorem listen_message_iff (hr : Reach cjsonParse anyStep config cfg) {entry : MainEntry}
    {action : SessionAction} {rest : List MainEntry} {state message : String}
    (hlog : cfg.shared.log = entry :: .performs action :: rest)
    (hsend : listenSend action = some (state, message)) :
    (∀ text, entry = .queues text →
      (IsListenMessage state (lastSessionId cjsonParse rest) text ↔
        JsonText.Plain (lastSessionId cjsonParse rest) ∧
        (lastSessionId cjsonParse rest).length ≤ 63)) ∧
    ((∀ text, entry ≠ .queues text) →
      ∃ accepted, entry = .pushes (.make .error (some (ofString message)) (-1) .main) accepted) := by
  have hstate : state = "start" ∨ state = "stop" := by
    cases action <;> simp only [listenSend, reduceCtorEq, Option.some.injEq, Prod.mk.injEq] at hsend
    · exact .inl hsend.1.symm
    · exact .inr hsend.1.symm
  rcases hr.sent _ _ _ _ hlog hsend with ⟨hne, rfl⟩ | ⟨accepted, rfl⟩
  · refine ⟨fun text htext => ?_, fun hno => absurd rfl (hno _)⟩
    cases htext
    exact isListenMessage_iff ofBytes_lastSessionId hstate
  · exact ⟨fun _ htext => (nomatch htext), fun _ => ⟨accepted, rfl⟩⟩

/-- A hello message with a session id. -/
def helloWith (id : Bytes) : Json :=
  .object [(ofString "type", .string (ofString "hello")), (ofString "session_id", .string id)]

/-- `cJSON_Parse` on a hello message. -/
def parseHello (id json : Bytes) : Option Json :=
  if json = (helloWith id).printUnformatted then some (helloWith id) else none

/-- The main thread has just queued the start message for the given id. -/
def queuedStart (id : Bytes) (cfg : Config) : Bool :=
  match cfg.shared.log with
  | .queues _ :: .performs .startListen :: log => decide (lastSessionId (parseHello id) log = id)
  | _ => false

theorem queuedStart_eq {id : Bytes} (h : queuedStart id cfg = true) :
    ∃ text log, cfg.shared.log = .queues text :: .performs .startListen :: log ∧
      lastSessionId (parseHello id) log = id := by
  unfold queuedStart at h
  split at h
  · next text log hlog => exact ⟨text, log, hlog, of_decide_eq_true h⟩
  · cases h

/-- The server says hello with the given id, and Enter is pressed. -/
def startTurns (id : Bytes) : List (ThreadId × Nat × List Answer) :=
  [(.main, 15, [.ok]),
    (.service 1, 23, [.ok, .ok, .ok, .callback .established,
      .callback (.receive false (helloWith id).printUnformatted true), .nothing]),
    (.main, 49, [.ok, .ok, .nothing, .nothing, .nothing, .input [10], .ok])]

/-- The start message for the session `s1`. -/
theorem listen_message_plain : ∃ cfg text log,
    Reach (parseHello (ofString "s1")) anyStep ⟨1, 16000, 1200, 500⟩ cfg ∧
    cfg.shared.log = .queues text :: .performs .startListen :: log ∧
    IsListenMessage "start" (ofString "s1") text := by
  have h : (play (parseHello (ofString "s1")) (fun _ _ _ => true) ⟨1, 16000, 1200, 500⟩
      (startTurns (ofString "s1"))).any (queuedStart (ofString "s1")) = true := by decide +kernel
  obtain ⟨cfg, hr, hp⟩ := exists_of_play (fun _ _ _ _ => trivial) h
  obtain ⟨text, log, hlog, hid⟩ := queuedStart_eq hp
  have hiff := (listen_message_iff hr hlog rfl).1 text rfl
  rw [hid] at hiff
  exact ⟨cfg, text, log, hr, hlog, hiff.mpr (by decide)⟩

/-- A session id with a quote in it comes out as a text that is no message for it. -/
theorem listen_message_quote : ¬∀ (cjsonParse : Bytes → Option Json) (config : AppConfig)
    (cfg : Config) (entry : MainEntry) (action : SessionAction) (rest : List MainEntry)
    (state message : String), Reach cjsonParse anyStep config cfg →
    cfg.shared.log = entry :: .performs action :: rest → listenSend action = some (state, message) →
    ∀ text, entry = .queues text → IsListenMessage state (lastSessionId cjsonParse rest) text := by
  intro hall
  have h : (play (parseHello (ofString "a\"b")) (fun _ _ _ => true) ⟨1, 16000, 1200, 500⟩
      (startTurns (ofString "a\"b"))).any (queuedStart (ofString "a\"b")) = true := by decide +kernel
  obtain ⟨cfg, hr, hp⟩ := exists_of_play (fun _ _ _ _ => trivial) h
  obtain ⟨text, log, hlog, hid⟩ := queuedStart_eq hp
  have hmessage := hall _ _ _ _ _ _ _ _ hr hlog rfl text rfl
  rcases hr.sent _ _ _ _ hlog rfl with ⟨-, htext⟩ | ⟨accepted, herror⟩
  · cases htext
    rw [hid] at hmessage
    have hiff : IsListenMessage "start" (ofString "a\"b") _ ↔ _ :=
      isListenMessage_iff (by decide) (.inl rfl)
    exact absurd (hiff.mp hmessage) (by decide)
  · cases herror

end System

end Xiaozhi
