-- SUMMARY: What becomes of the messages of the server: the application acts on whole messages only, in their order, and on none twice.
import Xiaozhi.App.Texts
import Xiaozhi.Protocol.Cutting

/-!
# Deliveries

A message can be lost where the event queue is full, and it is cut where it does
not fit an event. What is handled in the end are messages as the server sent
them, in the order in which they were handed to `on_text`, whatever the threads
do in between.
-/

namespace Xiaozhi

open Threads Threads.Prog World XiaozhiProtocol

/-- The messages handled, the latest first. -/
def handledMessages : List MainEntry → List XiaozhiIncomingEvent
  | [] => []
  | .handles event :: log => event :: handledMessages log
  | _ :: log => handledMessages log

/-- The texts parsed before, where the latest one has not been handled yet. -/
def parsedBefore : List MainEntry → List Bytes
  | .parses _ :: log => parsed log
  | log => parsed log

/-! ## From the parser to the handler -/

/-- A message is handled just after a text has been parsed to it. -/
def handlingContract (cjsonParse : Bytes → Option Json) : ViewContract MainView where
  assume _ _ := True
  guar v v' := ∀ event, v'.log = .handles event :: v.log →
    ∃ text, v.log.head? = some (.parses text) ∧ parseIncomingJson cjsonParse text = some event
  assume_refl _ := trivial
  guar_refl _ _ h := absurd h.symm (List.cons_ne_self _ _)

section

variable {cjsonParse : Bytes → Option Json} {v v' : MainView} {P : Prop}

@[simp] theorem after_handling_same (h : v'.log = v.log) :
    (handlingContract cjsonParse).After v v' P ↔ P :=
  ⟨fun hP => (hP trivial).2,
    fun hP _ => ⟨fun _ hl => absurd (hl.symm.trans h) (List.cons_ne_self _ _), hP⟩⟩

@[simp] theorem after_handling_record {entry : MainEntry} (h : ∀ event, entry ≠ .handles event) :
    (handlingContract cjsonParse).After v (v.record entry) P ↔ P :=
  ⟨fun hP => (hP trivial).2, fun hP _ => ⟨fun event hl => absurd (List.cons.inj hl).1 (h event), hP⟩⟩

@[simp] theorem after_handling_create : (handlingContract cjsonParse).After v v.create P ↔ P :=
  ⟨fun hP => (hP trivial).2, fun hP _ => ⟨fun event hl => absurd (List.cons.inj hl).1 (by simp), hP⟩⟩

end

namespace App

variable {cjsonParse : Bytes → Option Json} {v : MainView}

theorem handling_connect :
    connect.vwp mainView (handlingContract cjsonParse) (fun _ _ => True) v := by
  simp [connect, vwp_ite]

theorem handling_resetToIdle :
    resetToIdle.vwp mainView (handlingContract cjsonParse) (fun _ _ => True) v := by
  simp [resetToIdle, vwp_ite]

theorem handling_handleAction {action : SessionAction} :
    (handleAction action).vwp mainView (handlingContract cjsonParse) (fun _ _ => True) v := by
  have hperforms : ∀ event, MainEntry.performs action ≠ .handles event := by simp
  simp only [handleAction, vwp_bind, vwp_record, after_handling_record hperforms]
  cases action with
  | connect => exact handling_connect
  | sendHello => simp [vwp_ite]
  | startListen => simp [startListen, vwp_ite]
  | stopListen => simp [stopListen, stopUpload, vwp_ite]
  | abort => simp [abort, sendAbort, stopUpload, vwp_ite]
  | returnToWake => simp [returnToWake]
  | none => trivial
  | startPlayback => trivial

theorem handling_handleSessionEvent {type : AppEventType} :
    (handleSessionEvent type).vwp mainView (handlingContract cjsonParse) (fun _ _ => True) v := by
  simp only [handleSessionEvent, vwp_bind, vwp_sessionHandleEvent]
  exact (after_handling_same rfl).mpr handling_handleAction

/-- The handler is called where the text has just been parsed. -/
theorem handling_handleProtocolEvent {event : XiaozhiIncomingEvent} {text : Bytes}
    (hparse : parseIncomingJson cjsonParse text = some event) :
    (handleProtocolEvent event).vwp mainView (handlingContract cjsonParse) (fun _ _ => True)
      (v.record (.parses text)) := by
  simp only [handleProtocolEvent, vwp_bind, vwp_record]
  refine fun _ => ⟨fun event' hl => ?_, ?_⟩
  · obtain rfl := MainEntry.handles.inj (List.cons.inj hl).1
    exact ⟨text, rfl, hparse⟩
  · split
    · simp only [handleHello, vwp_bind, vwp_when, vwp_setSessionId, vwp_updateDecoderFromHello]
      exact ⟨fun _ => (after_handling_same rfl).mpr handling_handleSessionEvent,
        fun _ => handling_handleSessionEvent⟩
    · simp [handleTtsStart]
    · simp only [handleTtsStop, vwp_bind, vwp_setTtsDone, vwp_findQueueSize, vwp_when]
      refine (after_handling_same rfl).mpr fun size => ?_
      refine (after_handling_record (by simp)).mpr ⟨fun _ => handling_resetToIdle, fun _ => trivial⟩
    · trivial

theorem handling_handleEvent {e : AppEvent} :
    (handleEvent cjsonParse e).vwp mainView (handlingContract cjsonParse) (fun _ _ => True) v := by
  unfold handleEvent
  split
  all_goals first
    | exact handling_handleSessionEvent
    | exact trivial
    | skip
  · simp only [handleText, vwp_bind, vwp_record]
    refine (after_handling_record (by simp)).mpr ?_
    split
    · next hparse => exact handling_handleProtocolEvent hparse
    · trivial
  · simp only [handlePlaybackFinished, vwp_bind, vwp_readTtsDone, vwp_when]
    exact ⟨fun _ => handling_resetToIdle, fun _ => trivial⟩
  · simp

theorem handling_runStart :
    runStart.vwp mainView (handlingContract cjsonParse) (fun _ _ => True) v := by
  have hconnect {v : MainView} :
      (setState .connecting >>= fun _ => handleAction .connect).vwp mainView
        (handlingContract cjsonParse) (fun _ _ => True) v := by
    simp only [vwp_bind, vwp_setState]
    exact (after_handling_same rfl).mpr handling_handleAction
  simp only [runStart, vwp_bind]
  refine handling_resetToIdle.mono fun _ v _ => ?_
  simp only [vwp_readClientStarted, vwp_when]
  exact ⟨fun _ => hconnect, fun _ => trivial⟩

theorem handling_runLoop :
    (runLoop cjsonParse).vwp mainView (handlingContract cjsonParse) (fun _ _ => True) v := by
  refine runLoop_keeps (fun v e accepted _ _ => ?_) (fun v result _ => ?_) (fun v e _ => ?_) v trivial
  · exact (after_handling_record (by simp)).mpr trivial
  · exact (after_handling_same rfl).mpr trivial
  · exact (after_handling_record (by simp)).mpr handling_handleEvent

end App

/-! ## Runs -/

/-- What was taken from the queue and what is still in it are texts of the server, as
    far as they fit, in their order. -/
def TextsOrdered (w : World) : Prop :=
  List.Sublist ((textsOf w.events.toList).reverse ++ takenTexts w.log)
    (w.texts.map (CString.copy 1024))

/-- No text is handled twice, and none that has not been parsed. -/
def HandledOnce (cjsonParse : Bytes → Option Json) (log : List MainEntry) : Prop :=
  (handledMessages log).Sublist ((parsedBefore log).filterMap (parseIncomingJson cjsonParse))

section

variable {cjsonParse : Bytes → Option Json} {i : ThreadId} {w w' : World} {log : List MainEntry}
  {entry : MainEntry}

theorem TextsOrdered.step (h : TextsOrdered w) (hs : Step i w w') : TextsOrdered w' := by
  unfold TextsOrdered at h ⊢
  cases hs.history with
  | same hl he _ ht =>
    rw [ht, he, hl]
    exact h
  | records entry hplain hl he _ ht =>
    rw [ht, he, hl]
    cases entry with
    | takes _ => exact hplain.elim
    | pushes _ _ => exact hplain.elim
    | _ => exact h
  | takes event hl he _ ht =>
    rw [ht, hl]
    rw [he] at h
    by_cases htype : event.type = .wsText <;> simpa [textsOf, takenTexts, htype] using h
  | pushes event accepted _ _ hl he _ ht =>
    have hlog : takenTexts w'.log = takenTexts w.log := by
      rw [hl]
      split <;> rfl
    rw [he, hlog]
    obtain ⟨htype, ht⟩ | ⟨text, rfl, ht⟩ := ht
    · rw [ht]
      split
      · simpa [textsOf, htype] using h
      · exact h
    · rw [ht, List.map_cons]
      split
      · -- the text has found room behind the others
        simpa [textsOf, AppEvent.make] using h
      · exact h.cons _

theorem parsedBefore_sublist : (parsedBefore log).Sublist (parsed log) := by
  cases log with
  | nil => exact .refl _
  | cons entry log =>
    cases entry with
    | parses text => exact List.sublist_cons_self _ _
    | _ => exact .refl _

theorem HandledOnce.sublist (h : HandledOnce cjsonParse log) :
    (handledMessages log).Sublist ((parsed log).filterMap (parseIncomingJson cjsonParse)) :=
  h.trans (parsedBefore_sublist.filterMap _)

theorem HandledOnce.cons (h : HandledOnce cjsonParse log)
    (hentry : ∀ event, entry = .handles event →
      ∃ text, log.head? = some (.parses text) ∧ parseIncomingJson cjsonParse text = some event) :
    HandledOnce cjsonParse (entry :: log) := by
  cases entry with
  | handles event =>
    obtain ⟨text, hhead, hparse⟩ := hentry event rfl
    obtain ⟨log, rfl⟩ : ∃ l, log = .parses text :: l := ⟨_, List.eq_cons_of_mem_head? hhead⟩
    have hmap : (parsedBefore (.handles event :: .parses text :: log)).filterMap
        (parseIncomingJson cjsonParse) =
        event :: (parsed log).filterMap (parseIncomingJson cjsonParse) :=
      List.filterMap_cons_some hparse
    unfold HandledOnce
    rw [hmap]
    exact h.cons_cons event
  | _ => exact h.sublist

theorem HandledOnce.step (h : HandledOnce cjsonParse w.log) (hs : Step i w w')
    (hguar : i = .main → (handlingContract cjsonParse).guar w.mainView w'.mainView) :
    HandledOnce cjsonParse w'.log := by
  obtain hl | ⟨entry, hl⟩ := hs.log_cases
  · rwa [hl]
  · rw [hl]
    refine h.cons fun event heq => ?_
    subst heq
    exact hguar (hs.main_of_log hl) event hl

end

/-- A value that is found where something was found before is found in the same order. -/
theorem filterMap_sublist {α β γ : Type} {f : α → β} {g : β → Option γ} {g' : α → Option γ}
    (h : ∀ x y, g (f x) = some y → g' x = some y) (l : List α) :
    ((l.map f).filterMap g).Sublist (l.filterMap g') := by
  induction l with
  | nil => exact .refl _
  | cons x l ih =>
    rw [List.map_cons, List.filterMap_cons, List.filterMap_cons]
    cases hg : g (f x) with
    | some y =>
      rw [h x y hg]
      exact ih.cons_cons y
    | none =>
      cases g' x with
      | none => exact ih
      | some y => exact ih.cons y

/-- What is known of the messages in every run. -/
structure Delivered (cjsonParse : Bytes → Option Json) (w : World) : Prop where
  ordered : TextsOrdered w
  parsed : parsed w.log <:+ takenTexts w.log
  handled : HandledOnce cjsonParse w.log

namespace System

variable {cjsonParse : Bytes → Option Json} {ok : ThreadId → World → World → Prop}
  {config : AppConfig} {cfg : Config}

/-- The main thread parses only what it has taken from the queue, in every run. -/
theorem Reach.textSteps (hr : Reach cjsonParse ok config cfg) :
    Reach cjsonParse (fun i w w' => ok i w w' ∧ Step i w w' ∧
      (i = .main → textContract.guar w.mainView w'.mainView)) config cfg := by
  have htakes {v : MainView} {e : AppEvent} (h : parsed v.log <:+ takenTexts v.log) :
      parsed (.takes e :: v.log) <:+ takenTexts (.takes e :: v.log) := by
    simp only [parsed, takenTexts]
    split
    · exact h.trans (List.suffix_cons _ _)
    · exact h
  have hloop (v : MainView) (hv : TextsParsed v) : (App.runLoop cjsonParse).vwp mainView
      textContract (fun _ => TextsParsed) v :=
    App.runLoop_keeps (fun v e _ _ h _ => ⟨id, h⟩) (fun v _ h _ => ⟨id, h⟩)
      (fun v e h _ => ⟨htakes, h.handleEvent⟩) v hv
  exact hr.strengthen_main (fun _ _ _ => trivial) (TextsParsed.keeps App.handler_runStart rfl) hloop

theorem Reach.delivered (hr : Reach cjsonParse ok config cfg) : Delivered cjsonParse cfg.shared := by
  have hsteps := Reach.strengthen_main (S := handlingContract cjsonParse) (J := fun _ => True)
    (fun _ _ _ => trivial) App.handling_runStart (fun _ _ => App.handling_runLoop) hr.textSteps
  have hinit : Delivered cjsonParse (World.init config) := ⟨.refl _, List.suffix_refl _, .refl _⟩
  refine Threads.Reach.invariant hinit (fun i w w' ⟨⟨_, _, htext⟩, hs, hhandling⟩ h => ?_) hsteps
  refine ⟨h.ordered.step hs, ?_, h.handled.step hs hhandling⟩
  by_cases hi : i = .main
  · exact htext hi h.parsed
  · rw [hs.log_of_ne hi]
    exact h.parsed

/-- In every run, the messages handled so far are among those that the texts of
    the server stand for, in the order in which these came; however the texts were
    cut, and whatever was lost. -/
theorem handledMessages_sublist (hr : Reach CJson.cjsonParse ok config cfg) :
    (handledMessages cfg.shared.log).reverse.Sublist
      (cfg.shared.texts.reverse.filterMap (parseIncomingJson CJson.cjsonParse)) := by
  obtain ⟨hordered, hparsed, hhandled⟩ := hr.delivered
  rw [List.filterMap_reverse]
  have hcopied : ∀ text event,
      parseIncomingJson CJson.cjsonParse (CString.copy 1024 text) = some event →
        parseIncomingJson CJson.cjsonParse text = some event :=
    fun _ _ h => parseIncomingJson_copy h
  have htaken : (parsed cfg.shared.log).Sublist (cfg.shared.texts.map (CString.copy 1024)) :=
    (hparsed.sublist.trans (List.sublist_append_right _ _)).trans hordered
  have hevents : (handledMessages cfg.shared.log).Sublist
      (cfg.shared.texts.filterMap (parseIncomingJson CJson.cjsonParse)) :=
    (hhandled.sublist.trans (htaken.filterMap _)).trans (filterMap_sublist hcopied _)
  exact hevents.reverse

/-- The server says hello in a message that goes on behind the end of the event,
    and both its messages so far have been handled. -/
theorem handledMessages_sublist_long :
    ∃ cfg, Reach CJson.cjsonParse anyStep ⟨1, 16000, 1200, 500⟩ cfg ∧
      cfg.shared.texts.any (1024 < ·.length) ∧ (handledMessages cfg.shared.log).length = 2 ∧
      (handledMessages cfg.shared.log).reverse.Sublist
        (cfg.shared.texts.reverse.filterMap (parseIncomingJson CJson.cjsonParse)) := by
  have h : (play CJson.cjsonParse (fun _ _ _ => true) ⟨1, 16000, 1200, 500⟩ [
      (.main, 15, [.ok]),
      (.service 1, 28, [.ok, .ok, .ok, .callback .established,
        .callback (.receive false (CString.ofString "\x7b\"type\":\"hello\",\"session_id\":\"s1\"\x7d" ++
          List.replicate 1000 32) true),
        receives 2, .nothing]),
      (.main, 43, [.ok, .ok, .nothing, .nothing, .input [10]])]).any (fun cfg =>
        cfg.shared.texts.any (1024 < ·.length) &&
          decide ((handledMessages cfg.shared.log).length = 2)) = true := by decide +kernel
  obtain ⟨cfg, hr, hp⟩ : ∃ cfg, Reach CJson.cjsonParse anyStep ⟨1, 16000, 1200, 500⟩ cfg ∧ _ :=
    exists_of_play (fun _ _ _ _ => trivial) h
  obtain ⟨hlong, hlen⟩ := Bool.and_eq_true_iff.mp hp
  exact ⟨cfg, hr, hlong, of_decide_eq_true hlen, handledMessages_sublist hr⟩

end System

end Xiaozhi
