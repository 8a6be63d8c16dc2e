-- SUMMARY: When Enter starts and stops an upload in turn, however many events are waiting.
import Xiaozhi.App.MainLoop

/-!
# Start and stop in turn

What Enter means is decided when the line is read, and it takes effect when its
event is taken from the queue. From a ready session the first Enter starts an
upload and the second one stops it, if each of them finds the one before it
taken and room in the queue.
-/

namespace Xiaozhi

open Threads Threads.Prog World App

/-! ## Lines and their effects -/

/-- The event of an Enter line. -/
def AppEvent.IsLine (e : AppEvent) : Prop :=
  e.origin = .main ∧ (e.type = .manualStart ∨ e.type = .manualStop)

instance (e : AppEvent) : Decidable e.IsLine := inferInstanceAs (Decidable (_ ∧ _))

/-- What the Enter lines among some events mean. -/
def lineTypes (events : List AppEvent) : List AppEventType :=
  (events.filter fun e => e.IsLine).map (·.type)

/-- The Enter lines that have been read, oldest first: has the event found room? -/
def enters : List MainEntry → List Bool
  | [] => []
  | .pushes e accepted :: entries =>
    if e.IsLine then enters entries ++ [accepted] else enters entries
  | _ :: entries => enters entries

/-- The actions that have been performed, oldest first. -/
def effects : List MainEntry → List SessionAction
  | [] => []
  | .performs action :: entries => effects entries ++ [action]
  | _ :: entries => effects entries

/-- What the Enter lines mean whose events have found room, oldest first. -/
def pushed : List MainEntry → List AppEventType
  | [] => []
  | .pushes e accepted :: entries =>
    if e.IsLine ∧ accepted = true then pushed entries ++ [e.type] else pushed entries
  | _ :: entries => pushed entries

/-- What the Enter lines mean whose events have been taken, oldest first. -/
def taken : List MainEntry → List AppEventType
  | [] => []
  | .takes e :: entries => if e.IsLine then taken entries ++ [e.type] else taken entries
  | _ :: entries => taken entries

/-- The first Enter starts an upload and the second one stops it, as soon as
    their events are taken: both events find room, none gets lost or overtaken,
    and an action is performed for each. -/
structure Alternating (entries : List MainEntry) (queued : List AppEventType) : Prop where
  room : ∀ k < 2, (enters entries)[k]? ≠ some false
  inOrder : taken entries ++ queued = pushed entries
  performed : (effects entries).length = (taken entries).length
  turns : (effects entries).take 2 <+: [.startListen, .stopListen]

namespace MainEntry

/-- The main thread handles the events of lines, messages that do not change the
    session, and requests to stop, and nothing that it does fails. -/
def Permitted : MainEntry → Prop
  | .takes e => e.IsLine ∨ e.type = .wsText ∨ e.type = .shutdown
  | .handles event => event.type ≠ .hello ∧ event.type ≠ .ttsStart ∧ event.type ≠ .ttsStop
  | .pushes e _ => e.type ≠ .error
  | _ => True

/-- An Enter line that starts an upload is read when no other one that does so
    is waiting; it finds room, as does the first one that stops the upload. -/
def Heeded (session : SessionState) (queued : List AppEventType) : MainEntry → Prop
  | .pushes e accepted => e.IsLine →
    (session = .ready → accepted = true ∧ .manualStart ∉ queued) ∧
    (session = .uploadingAudio → accepted = true ∨ .manualStop ∈ queued)
  | _ => True

instance : DecidablePred Permitted
  | .takes e => inferInstanceAs (Decidable (e.IsLine ∨ e.type = .wsText ∨ e.type = .shutdown))
  | .handles event => inferInstanceAs (Decidable
      (event.type ≠ .hello ∧ event.type ≠ .ttsStart ∧ event.type ≠ .ttsStop))
  | .pushes e _ => inferInstanceAs (Decidable (e.type ≠ .error))
  | .parses _ | .performs _ | .resets _ _ | .finds _ | .queues _ | .runsAlready | .starts _
  | .startFails _ => .isTrue trivial

instance (session : SessionState) (queued : List AppEventType) :
    DecidablePred (Heeded session queued)
  | .pushes e accepted => inferInstanceAs (Decidable (e.IsLine →
      (session = .ready → accepted = true ∧ .manualStart ∉ queued) ∧
      (session = .uploadingAudio → accepted = true ∨ .manualStop ∈ queued)))
  | .takes _ | .handles _ | .parses _ | .performs _ | .resets _ _ | .finds _ | .queues _
  | .runsAlready | .starts _ | .startFails _ => .isTrue trivial

end MainEntry

/-- The steps of runs in which only lines and idle messages are handled. -/
def OnlyLines (_ : ThreadId) (w w' : World) : Prop :=
  ∀ entry, w'.log = entry :: w.log → entry.Permitted

/-- The steps at which every Enter line is heeded. -/
def LinesHeeded (_ : ThreadId) (w w' : World) : Prop :=
  ∀ entry, w'.log = entry :: w.log → entry.Heeded w.session (lineTypes w.events.toList)

/-! ## The queue and the history -/

/-- What the Enter lines mean whose events wait in the queue. -/
def pending : List MainEntry → List AppEventType
  | [] => []
  | .pushes e accepted :: entries =>
    if e.IsLine ∧ accepted = true then pending entries ++ [e.type] else pending entries
  | .takes e :: entries => if e.IsLine then (pending entries).tail else pending entries
  | _ :: entries => pending entries

/-- Since the history was `start`, the lines in the queue are those that have
    been pushed and not taken. -/
def LinesKnown (start : List MainEntry) (w : World) : Prop :=
  ∃ entries, w.log = entries ++ start ∧ lineTypes w.events.toList = pending entries ∧
    taken entries ++ pending entries = pushed entries

theorem LinesKnown.step {start : List MainEntry} {i : ThreadId} {w w' : World}
    (h : LinesKnown start w) (hs : Step i w w') : LinesKnown start w' := by
  obtain ⟨entries, hlog, hlines, hpushed⟩ := h
  cases hs.history with
  | same hl hev => exact ⟨entries, hl.trans hlog, hev ▸ hlines, hpushed⟩
  | records entry hplain hl hev =>
    refine ⟨entry :: entries, by rw [hl, hlog, List.cons_append], ?_⟩
    rw [hev]
    cases entry <;> first | exact ⟨hlines, hpushed⟩ | exact absurd hplain id
  | takes event hl hev =>
    refine ⟨.takes event :: entries, by rw [hl, hlog, List.cons_append], ?_⟩
    rw [hev] at hlines
    by_cases hline : event.IsLine
    · have hpending : pending entries = event.type :: lineTypes w'.events.toList := by
        rw [← hlines]
        simp [lineTypes, hline]
      simp [pending, taken, pushed, hline, hpending, ← hpushed]
    · have hpending : pending entries = lineTypes w'.events.toList := by
        rw [← hlines]
        simp [lineTypes, hline]
      simp [pending, taken, pushed, hline, hpending, ← hpushed]
  | pushes event accepted ho _ hl hev =>
    by_cases hi : i = .main
    · rw [if_pos hi] at hl
      refine ⟨.pushes event accepted :: entries, by rw [hl, hlog, List.cons_append], ?_⟩
      rw [hev]
      by_cases hline : event.IsLine <;> cases accepted <;>
        simp [pending, taken, pushed, hline, ← hpushed, ← hlines, lineTypes]
    · have hno : ¬event.IsLine := fun hline => hi (ho ▸ hline.1)
      refine ⟨entries, by rw [hl, if_neg hi, hlog], ?_, hpushed⟩
      rw [hev, ← hlines]
      cases accepted <;> simp [lineTypes, hno]

/-- What the main thread may add to its history, as it can see it there. -/
def LineAdmitted (start : List MainEntry) (v : MainView) (entry : MainEntry) : Prop :=
  ∀ entries, v.log = entries ++ start → entry.Permitted ∧ entry.Heeded v.session (pending entries) ∧
    ∀ e, entry = .takes e → e.IsLine → (pending entries).head? = some e.type

theorem LinesKnown.admitted {start : List MainEntry} {w w' : World} (h : LinesKnown start w)
    (hs : Step .main w w') (hp : OnlyLines .main w w') (hh : LinesHeeded .main w w')
    (entry : MainEntry) (hlog : w'.log = entry :: w.log) :
    LineAdmitted start w.mainView entry := by
  obtain ⟨entries, hentries, hlines, -⟩ := h
  intro entries' hentries'
  obtain rfl : entries' = entries := List.append_cancel_right (hentries'.symm.trans hentries)
  refine ⟨hp entry hlog, hlines ▸ hh entry hlog, ?_⟩
  rintro e rfl hline
  have hqueue : ∃ rest, w.events.toList = e :: rest := by
    cases hs.history with
    | same hl => exact absurd (hlog.symm.trans hl) (List.cons_ne_self _ _)
    | records entry hplain hl =>
      obtain rfl := (List.cons.inj (hl.symm.trans hlog)).1
      exact absurd hplain id
    | takes event hl hev =>
      obtain ⟨⟨⟩, -⟩ := List.cons.inj (hl.symm.trans hlog)
      exact ⟨_, hev⟩
    | pushes event accepted _ _ hl => cases (List.cons.inj (hl.symm.trans hlog)).1
  obtain ⟨rest, hqueue⟩ := hqueue
  rw [← hlines, hqueue]
  simp [lineTypes, hline]

/-! ## The turns -/

/-- How the state of the session, the actions performed, the lines read and the
    lines in the queue go together. -/
inductive Turn : SessionState → List SessionAction → List Bool → List AppEventType → Prop where
  | ready : Turn .ready [] [] []
  | starting : Turn .ready [] [true] [.manualStart]
  | uploading : Turn .uploadingAudio [.startListen] [true] []
  | stopping {read : List Bool} {queued : List AppEventType} : (∀ type ∈ queued, type = .manualStop) →
      Turn .uploadingAudio [.startListen] (true :: true :: read) queued
  | stopped {actions : List SessionAction} {read : List Bool} {queued : List AppEventType} :
      Turn .waitingTts (.startListen :: .stopListen :: actions) (true :: true :: read) queued

/-- What an Enter line means in a state of the session. -/
def lineType (session : SessionState) : AppEventType :=
  if session = .uploadingAudio then .manualStop else .manualStart

theorem isLine_make (session : SessionState) :
    (AppEvent.make (lineType session) none 0 .main).IsLine := by
  refine ⟨rfl, ?_⟩
  by_cases h : session = .uploadingAudio
  · exact .inr (if_pos h)
  · exact .inl (if_neg h)

namespace Turn

variable {session : SessionState} {actions : List SessionAction} {read : List Bool}
  {queued : List AppEventType}

/-- A line is read and heeded. -/
theorem reads (h : Turn session actions read queued) {accepted : Bool}
    (hh : MainEntry.Heeded session queued (.pushes (.make (lineType session) none 0 .main) accepted)) :
    Turn session actions (read ++ [accepted])
      (if accepted = true then queued ++ [lineType session] else queued) := by
  obtain ⟨hready, huploading⟩ := hh (isLine_make session)
  cases h with
  | ready =>
    obtain ⟨rfl, -⟩ := hready rfl
    exact .starting
  | starting =>
    obtain ⟨-, hno⟩ := hready rfl
    exact absurd (.head _) hno
  | uploading =>
    obtain rfl | hin := huploading rfl
    · exact .stopping fun _ htype => List.mem_singleton.mp htype
    · cases hin
  | stopping hqueued =>
    refine .stopping fun type htype => ?_
    split at htype
    · obtain hold | hnew := List.mem_append.mp htype
      · exact hqueued type hold
      · exact List.mem_singleton.mp hnew
    · exact hqueued type htype
  | stopped => exact .stopped

/-- The event of a line is taken. -/
theorem takes (h : Turn session actions read queued) {type : AppEventType}
    (htype : type = .manualStart ∨ type = .manualStop) (hhead : queued.head? = some type) :
    Turn (Session.handleEvent session type).1
      (actions ++ [(Session.handleEvent session type).2]) read queued.tail ∧
    ((Session.handleEvent session type).1 = .uploadingAudio ∧
        (Session.handleEvent session type).2 = .startListen ∨
      (Session.handleEvent session type).2 = .stopListen ∨
      (Session.handleEvent session type).2 = .none) := by
  cases h with
  | ready => cases hhead
  | starting =>
    cases hhead
    exact ⟨.uploading, .inl ⟨rfl, rfl⟩⟩
  | uploading => cases hhead
  | stopping hqueued =>
    obtain rfl : type = .manualStop := hqueued type (List.mem_of_mem_head? hhead)
    exact ⟨.stopped, .inr (.inl rfl)⟩
  | stopped =>
    obtain rfl | rfl := htype
    · exact ⟨.stopped, .inr (.inr rfl)⟩
    · exact ⟨.stopped, .inr (.inr rfl)⟩

theorem room (h : Turn session actions read queued) {k : Nat} (hk : k < 2) :
    read[k]? ≠ some false := by
  match k, hk with
  | 0, _ => cases h <;> simp
  | 1, _ => cases h <;> simp

theorem turns (h : Turn session actions read queued) :
    actions.take 2 <+: [.startListen, .stopListen] := by
  cases h <;> simp

end Turn

/-! ## The main loop -/

/-- Since the history was `start`, the lines have been heeded in turn. -/
def InTurn (start : List MainEntry) (v : MainView) : Prop :=
  ∃ entries, v.log = entries ++ start ∧
    Turn v.session (effects entries) (enters entries) (pending entries) ∧
    (effects entries).length = (taken entries).length

namespace InTurn

variable {start : List MainEntry} {v v' : MainView}

theorem congr (h : InTurn start v) (hlog : v'.log = v.log) (hsession : v'.session = v.session) :
    InTurn start v' := by
  obtain ⟨entries, hentries, hturn, hcount⟩ := h
  exact ⟨entries, hlog.trans hentries, hsession ▸ hturn, hcount⟩

/-- An entry that is about no line. -/
theorem skip (h : InTurn start v) {entry : MainEntry}
    (hother : ∀ entries, effects (entry :: entries) = effects entries ∧
      enters (entry :: entries) = enters entries ∧ pending (entry :: entries) = pending entries ∧
      taken (entry :: entries) = taken entries) : InTurn start (v.record entry) := by
  obtain ⟨entries, hentries, hturn, hcount⟩ := h
  obtain ⟨heffects, henters, hpending, htaken⟩ := hother entries
  refine ⟨entry :: entries, congrArg (entry :: ·) hentries, ?_, ?_⟩
  · rw [heffects, henters, hpending]
    exact hturn
  · rw [heffects, htaken]
    exact hcount

/-- An event that is not of a line is taken. -/
theorem takes_other (h : InTurn start v) {e : AppEvent} (he : ¬e.IsLine) :
    InTurn start (v.record (.takes e)) :=
  h.skip fun _ => ⟨rfl, rfl, if_neg he, if_neg he⟩

/-- A request to stop is pushed. -/
theorem pushes_other (h : InTurn start v) {e : AppEvent} (he : ¬e.IsLine) {accepted : Bool} :
    InTurn start (v.record (.pushes e accepted)) :=
  h.skip fun _ => ⟨rfl, if_neg he, if_neg fun hline => he hline.1, rfl⟩

/-- A line is read and its event pushed. -/
theorem pushes_line (h : InTurn start v) {accepted : Bool}
    (ha : LineAdmitted start v (.pushes (.make (lineType v.session) none 0 .main) accepted)) :
    InTurn start (v.record (.pushes (.make (lineType v.session) none 0 .main) accepted)) := by
  obtain ⟨entries, hentries, hturn, hcount⟩ := h
  obtain ⟨-, hheeded, -⟩ := ha entries hentries
  have hline := isLine_make v.session
  have henters : enters (.pushes (.make (lineType v.session) none 0 .main) accepted :: entries) =
      enters entries ++ [accepted] := if_pos hline
  have hpending : pending (.pushes (.make (lineType v.session) none 0 .main) accepted :: entries) =
      if accepted = true then pending entries ++ [lineType v.session] else pending entries := by
    simp only [pending, hline, true_and]
    rfl
  refine ⟨_ :: entries, congrArg (_ :: ·) hentries, ?_, hcount⟩
  rw [henters, hpending]
  exact hturn.reads hheeded

/-- No handler reports an error. -/
theorem pushError (h : InTurn start v) {message : String} {Q : Unit → MainView → Prop} :
    (App.pushError message).vwp mainView (entryContract (LineAdmitted start)) Q v := by
  obtain ⟨entries, hentries, -⟩ := h
  rw [vwp_pushError]
  intro accepted
  refine after_record.mpr fun ha => ?_
  exact absurd rfl (ha entries hentries).1

theorem queues (h : InTurn start v) {text : Bytes} : InTurn start (v.record (.queues text)) :=
  h.skip fun _ => ⟨rfl, rfl, rfl, rfl⟩

/-- The upload starts: no failure is admitted on the way. -/
theorem startListen (h : InTurn start v) (hsession : v.session = .uploadingAudio) :
    App.startListen.vwp mainView (entryContract (LineAdmitted start)) (fun _ => InTurn start) v := by
  simp only [App.startListen, vwp_bind, vwp_sendListenStart, vwp_ite, vwp_openOpusDumpFile,
    Bool.forall_bool]
  refine ⟨⟨fun hno => absurd hno Bool.false_ne_true, fun _ => h.pushError⟩, fun _ text _ => ?_⟩
  have h : InTurn start (v.record (.queues text)) := h.queues
  refine after_record.mpr fun _ => ⟨fun _ => ⟨?_, ?_⟩, fun hno => absurd trivial hno⟩
  · have hclosed : InTurn start { v.record (.queues text) with dumpOpen := false } := h.congr rfl rfl
    simp only [after_same]
    exact ⟨fun hno => absurd hno Bool.false_ne_true, fun _ => hclosed.pushError⟩
  · have hstarted : InTurn start { v.record (.queues text) with
        dumpOpen := true, uploadEnabled := true, session := .uploadingAudio, uploading := true } :=
      h.congr rfl hsession.symm
    simpa using hstarted

theorem stopListen (h : InTurn start v) :
    App.stopListen.vwp mainView (entryContract (LineAdmitted start)) (fun _ => InTurn start) v := by
  have hstopped : InTurn start { v with
      uploadEnabled := false, uploading := false, dumpOpen := false } := h.congr rfl rfl
  simp only [App.stopListen, stopUpload, vwp_bind, vwp_setUploadEnabled, vwp_setUploading,
    vwp_closeOpusDumpFile, after_same, vwp_sendListenStop, vwp_ite]
  refine ⟨⟨fun hno => absurd hno Bool.false_ne_true, fun _ => hstopped.pushError⟩,
    fun _ text _ => after_record.mpr fun _ => ⟨fun _ => hstopped.queues, fun hno => absurd trivial hno⟩⟩

/-- The event of a line is taken, and its action performed. -/
theorem handleLine (h : InTurn start v) {e : AppEvent} (he : e.IsLine)
    (ha : LineAdmitted start v (.takes e)) :
    (App.handleSessionEvent e.type).vwp mainView (entryContract (LineAdmitted start))
      (fun _ => InTurn start) (v.record (.takes e)) := by
  obtain ⟨entries, hentries, hturn, hcount⟩ := h
  obtain ⟨-, -, hhead⟩ := ha entries hentries
  have hhead := hhead e rfl he
  obtain ⟨hnext, haction⟩ := hturn.takes he.2 hhead
  have hpending : pending (.takes e :: entries) = (pending entries).tail := if_pos he
  have htaken : taken (.takes e :: entries) = taken entries ++ [e.type] := if_pos he
  have hnow : InTurn start (({ v.record (.takes e) with
      session := (Session.handleEvent v.session e.type).1 }).record
        (.performs (Session.handleEvent v.session e.type).2)) := by
    refine ⟨.performs _ :: .takes e :: entries, congrArg (_ :: _ :: ·) hentries, ?_, ?_⟩
    · show Turn _ (effects entries ++ [_]) (enters entries) (pending (.takes e :: entries))
      rw [hpending]
      exact hnext
    · show (effects entries ++ [_]).length = (taken (.takes e :: entries)).length
      rw [htaken, List.length_append, List.length_append, hcount]
      rfl
  simp only [App.handleSessionEvent, vwp_bind, vwp_sessionHandleEvent, after_same, handleAction,
    vwp_record, MainView.record_session]
  refine after_record.mpr fun _ => ?_
  obtain ⟨hsession, hstart⟩ | hstop | hnone := haction
  · rw [hstart] at hnow ⊢
    exact hnow.startListen hsession
  · rw [hstop] at hnow ⊢
    exact hnow.stopListen
  · rw [hnone] at hnow ⊢
    exact hnow

/-- What is taken is handled in turn. -/
theorem handleEvent {cjsonParse : Bytes → Option Json} (h : InTurn start v) {e : AppEvent}
    (ha : LineAdmitted start v (.takes e)) :
    (App.handleEvent cjsonParse e).vwp mainView (entryContract (LineAdmitted start))
      (fun _ => InTurn start) (v.record (.takes e)) := by
  have hpermitted : MainEntry.Permitted (.takes e) := by
    obtain ⟨entries, hentries, -⟩ := h
    exact (ha entries hentries).1
  obtain hline | htext | hstop := hpermitted
  · have hmanual : App.handleEvent cjsonParse e = App.handleSessionEvent e.type := by
      obtain ⟨-, htype | htype⟩ := hline <;> simp only [App.handleEvent, htype]
    rw [hmanual]
    exact h.handleLine hline ha
  · have hother : ¬e.IsLine := fun hline => by simp [AppEvent.IsLine, htext] at hline
    have h : InTurn start ((v.record (.takes e)).record (.parses e.text)) :=
      (h.takes_other hother).skip fun _ => ⟨rfl, rfl, rfl, rfl⟩
    simp only [App.handleEvent, htext, handleText, vwp_bind, vwp_record]
    refine after_record.mpr fun _ => ?_
    split
    · next event _ =>
      simp only [handleProtocolEvent, vwp_bind, vwp_record]
      refine after_record.mpr fun ha => ?_
      obtain ⟨entries, hentries, hturn⟩ := h
      obtain ⟨hhello, hstart, hstop⟩ := (ha entries hentries).1
      have h : InTurn start (((v.record (.takes e)).record (.parses e.text)).record
          (.handles event)) :=
        InTurn.skip ⟨entries, hentries, hturn⟩ fun _ => ⟨rfl, rfl, rfl, rfl⟩
      split
      · next htype => exact absurd htype hhello
      · next htype => exact absurd htype hstart
      · next htype => exact absurd htype hstop
      · exact h
    · exact h
  · have hother : ¬e.IsLine := fun hline => by simp [AppEvent.IsLine, hstop] at hline
    have h := h.takes_other hother
    simpa [App.handleEvent, hstop] using h

/-- Enter pushes an event that says what it means. -/
theorem pollStdin (h : InTurn start v) :
    App.pollStdin.vwp mainView (entryContract (LineAdmitted start)) (fun _ => InTurn start) v := by
  have hstop : (requestStop .main).vwp mainView (entryContract (LineAdmitted start))
      (fun _ => InTurn start) v :=
    vwp_requestStop.mpr fun _ => after_record.mpr fun _ => h.pushes_other (by decide)
  have hline : (App.pushEvent (lineType v.session) none 0).vwp mainView
      (entryContract (LineAdmitted start)) (fun _ => InTurn start) v :=
    vwp_pushEvent.mpr fun _ => after_record.mpr h.pushes_line
  simp only [App.pollStdin, vwp_bind, vwp_readStdin, handleManualLine, vwp_ite, vwp_readSession]
  refine ⟨fun line _ => ⟨fun _ => hstop, fun _ => ⟨fun _ => h, fun _ => ?_⟩⟩, hstop, h⟩
  refine ⟨fun hs => ?_, fun hs => ?_⟩
  · have htype : lineType v.session = .manualStop := if_pos hs
    exact htype ▸ hline
  · have htype : lineType v.session = .manualStart := if_neg hs
    exact htype ▸ hline

theorem runLoop {cjsonParse : Bytes → Option Json} (h : InTurn start v) :
    (App.runLoop cjsonParse).vwp mainView (entryContract (LineAdmitted start))
      (fun _ => InTurn start) v := by
  refine runLoop_keeps_of_poll (fun v h => h.pollStdin) (fun v result h => ?_) (fun v e h => ?_) v h
  · have hleft : InTurn start { v with returned := some result } := h.congr rfl rfl
    simpa using hleft
  · exact after_record.mpr fun ha => h.handleEvent ha

end InTurn

namespace System

variable {cjsonParse : Bytes → Option Json} {config : AppConfig} {cfg₀ cfg : Config}

/-- In every run that goes on from a boundary in a ready session with no line in
    the queue, and in which only lines and messages that do not change the
    session are handled, nothing fails, and the lines are heeded: at every
    boundary the lines have started and stopped an upload in turn. -/
theorem enters_alternate (hr₀ : Reach cjsonParse anyStep config cfg₀) (hb₀ : AtBoundary cfg₀)
    (hready : cfg₀.shared.session = .ready) (hno : lineTypes cfg₀.shared.events.toList = [])
    (hr : Threads.Reach (body cjsonParse) (fun i w w' => OnlyLines i w w' ∧ LinesHeeded i w w')
      cfg₀ cfg) (hb : AtBoundary cfg) :
    ∃ entries, cfg.shared.log = entries ++ cfg₀.shared.log ∧
      Alternating entries (lineTypes cfg.shared.events.toList) := by
  have hwithin := Threads.Reach.within Step.refl within_body within_init hr₀
  have hknown₀ : LinesKnown cfg₀.shared.log cfg₀.shared := ⟨[], rfl, hno, rfl⟩
  -- Every step keeps to the footprint of its thread, and so what is known of the queue.
  have hsteps : Threads.Reach (body cjsonParse) (fun i w w' =>
      (OnlyLines i w w' ∧ LinesHeeded i w w') ∧ Step i w w') cfg₀ cfg :=
    hr.strengthen fun _ _ _ _ hr hs hok =>
      ⟨hok, Threads.Reach.step_within Step.refl within_body hwithin hr hs⟩
  have hknown {cfg : Config} (hr : Threads.Reach (body cjsonParse) (fun i w w' =>
      (OnlyLines i w w' ∧ LinesHeeded i w w') ∧ Step i w w') cfg₀ cfg) :
      LinesKnown cfg₀.shared.log cfg.shared :=
    hr.invariant hknown₀ fun _ _ _ hok h => h.step hok.2
  have hall : Threads.Reach (body cjsonParse) (fun i w w' => Step i w w' ∧
      (i = .main → (entryContract (LineAdmitted cfg₀.shared.log)).assume w.mainView w'.mainView))
      cfg₀ cfg :=
    hsteps.strengthen fun _ _ _ _ hr _ hok => ⟨hok.2, by
      rintro rfl
      exact (hknown hr).admitted hok.2 hok.1.1 hok.1.2⟩
  -- Between these steps the main thread runs as if it were alone.
  have hturn : Turn cfg₀.shared.session [] [] [] := hready ▸ .ready
  have hstart : InTurn cfg₀.shared.log cfg₀.shared.mainView := ⟨[], rfl, hturn, rfl⟩
  have hinit : cfg₀.Local .main (fun p => p.wp
      ((entryContract (LineAdmitted cfg₀.shared.log)).lift mainView)
        fun _ w => InTurn cfg₀.shared.log w.mainView) fun w => InTurn cfg₀.shared.log w.mainView := by
    unfold Threads.Config.Local
    rwa [show cfg₀.cur .main = none from hb₀]
  have hbody (w : World) (hw : InTurn cfg₀.shared.log w.mainView) :
      (body cjsonParse .main).wp ((entryContract (LineAdmitted cfg₀.shared.log)).lift mainView)
        (fun _ w => InTurn cfg₀.shared.log w.mainView) w := (InTurn.runLoop hw).wp
  have hlocal := Threads.Reach.thread (fun _ _ h => h.2 rfl) (fun _ _ _ hj h => h.1.mainView hj)
    (fun w w' hw (hv : w'.mainView = w.mainView) => hv ▸ hw) hbody hinit hall
  unfold Threads.Config.Local at hlocal
  rw [show cfg.cur .main = none from hb] at hlocal
  obtain ⟨entries, hentries, hturn, hcount⟩ := hlocal
  obtain ⟨entries', hentries', hlines, hpushed⟩ := hknown hsteps
  obtain rfl : entries' = entries := List.append_cancel_right (hentries'.symm.trans hentries)
  exact ⟨entries', hentries', fun _ hk => hturn.room hk, hlines ▸ hpushed, hcount, hturn.turns⟩

/-- `cJSON_Parse` where every text but the sample messages is what the user said. -/
def talkParse (json : Bytes) : Option Json :=
  (sampleParse json).or
    (some (.object [(CString.ofString "type", .string (CString.ofString "stt"))]))

/-- The test for both conditions on steps. -/
def onlyHeeded (_ : ThreadId) (w w' : World) : Bool :=
  (added w.log w'.log).all fun entry =>
    decide (entry.Permitted ∧ entry.Heeded w.session (lineTypes w.events.toList))

theorem onlyHeeded_iff (i : ThreadId) (w w' : World) (h : onlyHeeded i w w' = true) :
    OnlyLines i w w' ∧ LinesHeeded i w w' := by
  have hadmitted (entry : MainEntry) (hlog : w'.log = entry :: w.log) :
      entry.Permitted ∧ entry.Heeded w.session (lineTypes w.events.toList) := by
    simpa [onlyHeeded, hlog] using h
  exact ⟨fun entry hlog => (hadmitted entry hlog).1, fun entry hlog => (hadmitted entry hlog).2⟩

/-- The test that only lines and idle messages are handled. -/
def onlyLines (_ : ThreadId) (w w' : World) : Bool :=
  (added w.log w'.log).all fun entry => decide entry.Permitted

theorem onlyLines_iff (i : ThreadId) (w w' : World) (h : onlyLines i w w' = true) :
    OnlyLines i w w' := by
  intro entry hlog
  simpa [onlyLines, hlog] using h

/-- Enter is pressed after the handshake, and again when the upload has started. -/
theorem enters_alternate_twice : ∃ cfg₀ cfg,
    Reach talkParse anyStep ⟨1, 16000, 1200, 500⟩ cfg₀ ∧ cfg₀.shared.session = .ready ∧
    Threads.Reach (body talkParse) (fun i w w' => OnlyLines i w w' ∧ LinesHeeded i w w') cfg₀ cfg ∧
    cfg.shared.session = .waitingTts ∧
    ∃ entries, Alternating entries (lineTypes cfg.shared.events.toList) := by
  have h : (play talkParse (fun _ _ _ => true) ⟨1, 16000, 1200, 500⟩ [
      (.main, 15, [.ok]),
      (.service 1, 23, [.ok, .ok, .ok, .callback .established, receives 0, .nothing]),
      (.main, 28, [.ok, .ok, .nothing, .nothing])]).any (fun cfg₀ =>
        (cfg₀.cur .main).isNone && decide (cfg₀.shared.session = .ready) &&
        decide (lineTypes cfg₀.shared.events.toList = []) &&
        (cfg₀.play (body talkParse) onlyHeeded .spurious [
          (.main, 57, [.nothing, .input [10], .ok, .ok, .nothing, .nothing, .input [10], .ok,
            .nothing])]).any fun cfg =>
          (cfg.cur .main).isNone && decide (cfg.shared.session = .waitingTts)) = true := by
    decide +kernel
  obtain ⟨cfg₀, hr₀, hp⟩ := exists_of_play (fun _ _ _ _ => trivial) h
  simp only [Bool.and_eq_true, Option.isNone_iff_eq_none, decide_eq_true_eq, Option.any_eq_true]
    at hp
  obtain ⟨⟨⟨hb₀, hready⟩, hno⟩, cfg, hplay, hb, hwaiting⟩ := hp
  have hr := Threads.Reach.of_play onlyHeeded_iff .refl hplay
  obtain ⟨entries, -, halternating⟩ := enters_alternate hr₀ hb₀ hready hno hr hb
  exact ⟨cfg₀, cfg, hr₀, hready, hr, hwaiting, entries, halternating⟩

/-- Two messages of the server are waiting. Enter is pressed after each of them
    has been handled: the second line is read before the event of the first one
    is taken, and starts an upload that has started already. -/
theorem enter_dropped : ∃ cfg₀ cfg, Reach talkParse anyStep ⟨1, 16000, 1200, 500⟩ cfg₀ ∧
    AtBoundary cfg₀ ∧ cfg₀.shared.session = .ready ∧ cfg₀.shared.sessionId ≠ [] ∧
    lineTypes cfg₀.shared.events.toList = [] ∧
    Threads.Reach (body talkParse) OnlyLines cfg₀ cfg ∧ AtBoundary cfg ∧
    ∀ entries, cfg.shared.log = entries ++ cfg₀.shared.log →
      ¬Alternating entries (lineTypes cfg.shared.events.toList) := by
  have h : (play talkParse (fun _ _ _ => true) ⟨1, 16000, 1200, 500⟩ [
      (.main, 15, [.ok]),
      (.service 1, 23, [.ok, .ok, .ok, .callback .established, receives 0, .nothing]),
      (.main, 28, [.ok, .ok, .nothing, .nothing]),
      (.service 1, 14, [.callback (.receive false [1] true), .callback (.receive false [1] true),
        .nothing])]).any (fun cfg₀ =>
        (cfg₀.cur .main).isNone && decide (cfg₀.shared.session = .ready) &&
        decide (cfg₀.shared.sessionId ≠ []) &&
        decide (lineTypes cfg₀.shared.events.toList = []) &&
        (cfg₀.play (body talkParse) onlyLines .spurious [
          (.main, 50, [.input [10], .input [10], .ok, .ok, .nothing, .nothing])]).any fun cfg =>
          (cfg.cur .main).isNone &&
          decide (effects (cfg.shared.log.take (cfg.shared.log.length - cfg₀.shared.log.length)) =
            [.startListen, .none])) = true := by
    decide +kernel
  obtain ⟨cfg₀, hr₀, hp⟩ := exists_of_play (fun _ _ _ _ => trivial) h
  simp only [Bool.and_eq_true, Option.isNone_iff_eq_none, decide_eq_true_eq, Option.any_eq_true]
    at hp
  obtain ⟨⟨⟨⟨hb₀, hready⟩, hid⟩, hno⟩, cfg, hplay, hb, heffects⟩ := hp
  refine ⟨cfg₀, cfg, hr₀, hb₀, hready, hid, hno, .of_play onlyLines_iff .refl hplay, hb, ?_⟩
  intro entries hlog halternating
  have htake : cfg.shared.log.take (cfg.shared.log.length - cfg₀.shared.log.length) = entries := by
    rw [hlog, List.length_append, Nat.add_sub_cancel, List.take_left]
  rw [htake] at heffects
  have hturns := halternating.turns
  rw [heffects] at hturns
  revert hturns
  decide

end System

end Xiaozhi
