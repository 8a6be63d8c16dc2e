-- SUMMARY: Reasoning about runs through the main thread: what its loop keeps holds at every boundary, and what its steps guarantee holds of every step.
import Xiaozhi.App.MainRules
import Xiaozhi.App.Footprints

/-!
# Invariants of the main loop

An invariant `J` of the main thread's variables is shown for the start of
`app_run` and for one iteration of its loop, as if the main thread ran alone.
No other thread writes these variables, so `J` holds at the loop boundary in
every run of the whole system.
-/

namespace Xiaozhi

open Threads Threads.Prog World

/-- The runs in which the main thread adds to its history only what `A` admits. -/
def entryContract (A : MainView → MainEntry → Prop) : ViewContract MainView where
  assume v v' := ∀ entry, v'.log = entry :: v.log → A v entry
  guar _ _ := True
  assume_refl _ _ h := absurd h.symm (List.cons_ne_self _ _)
  guar_refl _ := trivial

/-- A step adds to the main thread's history only what `A` admits. -/
def Admits (A : MainView → MainEntry → Prop) (_ : ThreadId) (w w' : World) : Prop :=
  ∀ entry, w'.log = entry :: w.log → A w.mainView entry

/-- The test for `Admits`. -/
def admits (A : MainView → MainEntry → Prop) [∀ v entry, Decidable (A v entry)]
    (_ : ThreadId) (w w' : World) : Bool :=
  (System.added w.log w'.log).all fun entry => decide (A w.mainView entry)

theorem admits_iff {A : MainView → MainEntry → Prop} [∀ v entry, Decidable (A v entry)]
    (i : ThreadId) (w w' : World) (h : admits A i w w' = true) : Admits A i w w' := by
  intro entry hlog
  simpa [admits, hlog] using h

section

variable {A : MainView → MainEntry → Prop} {v v' : MainView} {P : Prop}

/-- A step that adds nothing to the history. -/
@[simp] theorem after_same (h : v'.log = v.log) :
    (entryContract A).After v v' P ↔ P :=
  ⟨fun hP => (hP fun _ he => absurd (he.symm.trans h) (List.cons_ne_self _ _)).2,
    fun hP _ => ⟨trivial, hP⟩⟩

theorem after_cons {entry : MainEntry} (h : v'.log = entry :: v.log) :
    (entryContract A).After v v' P ↔ (A v entry → P) := by
  refine ⟨fun hP hA => (hP fun e he => ?_).2, fun hP ha => ⟨trivial, hP (ha entry h)⟩⟩
  obtain rfl := (List.cons.inj (h.symm.trans he)).1
  exact hA

@[simp] theorem after_record {entry : MainEntry} :
    (entryContract A).After v (v.record entry) P ↔ (A v entry → P) := after_cons rfl

@[simp] theorem after_create :
    (entryContract A).After v v.create P ↔ (A v (.starts (v.started + 1)) → P) := after_cons rfl

end

namespace App

variable {S : ViewContract MainView} {J : MainView → Prop} {v : MainView}

/-- Manual input only pushes events that are not errors. -/
theorem pollStdin_keeps
    (hpush : ∀ (v : MainView) (e : AppEvent) (accepted : Bool), e.type ≠ .error → J v →
      S.After v (v.record (.pushes e accepted)) (J (v.record (.pushes e accepted))))
    (h : J v) : pollStdin.vwp mainView S (fun _ => J) v := by
  have hstop : (requestStop .main).vwp mainView S (fun _ => J) v :=
    vwp_requestStop.mpr fun accepted => hpush v _ accepted (by simp) h
  simp only [pollStdin, vwp_bind, vwp_readStdin]
  refine ⟨fun line _ => ?_, hstop, h⟩
  simp only [handleManualLine, vwp_ite, vwp_bind, vwp_readSession, vwp_pushEvent]
  exact ⟨fun _ => hstop, fun _ => ⟨fun _ => h, fun _ =>
    ⟨fun _ accepted => hpush v _ accepted (by simp) h,
     fun _ accepted => hpush v _ accepted (by simp) h⟩⟩⟩

/-- One iteration of the loop of `app_run` keeps what manual input and the events keep. -/
theorem runLoop_keeps_of_poll {cjsonParse : Bytes → Option Json}
    (hpoll : ∀ v, J v → pollStdin.vwp mainView S (fun _ => J) v)
    (hleave : ∀ (v : MainView) (result : Int), J v →
      S.After v { v with returned := some result } (J { v with returned := some result }))
    (hevent : ∀ (v : MainView) (e : AppEvent), J v → S.After v (v.record (.takes e))
      ((handleEvent cjsonParse e).vwp mainView S (fun _ => J) (v.record (.takes e))))
    (v : MainView) (h : J v) : (runLoop cjsonParse).vwp mainView S (fun _ => J) v := by
  simp only [runLoop, vwp_bind, vwp_awaitReturned, vwp_readStopRequested, vwp_ite, vwp_leave,
    vwp_eventQueuePop]
  refine fun _ _ => ⟨fun _ => hleave v 0 h, fun _ => ⟨fun e => ?_, ?_, hleave v (-1) h⟩⟩
  · intro ha
    obtain ⟨hg, hkeep⟩ := hevent v e h ha
    exact ⟨hg, hkeep.mono fun _ v hv => hpoll v hv⟩
  · exact hpoll v h

/-- One iteration of the loop of `app_run` keeps what the events keep. -/
theorem runLoop_keeps {cjsonParse : Bytes → Option Json}
    (hpush : ∀ (v : MainView) (e : AppEvent) (accepted : Bool), e.type ≠ .error → J v →
      S.After v (v.record (.pushes e accepted)) (J (v.record (.pushes e accepted))))
    (hleave : ∀ (v : MainView) (result : Int), J v →
      S.After v { v with returned := some result } (J { v with returned := some result }))
    (hevent : ∀ (v : MainView) (e : AppEvent), J v → S.After v (v.record (.takes e))
      ((handleEvent cjsonParse e).vwp mainView S (fun _ => J) (v.record (.takes e))))
    (v : MainView) (h : J v) : (runLoop cjsonParse).vwp mainView S (fun _ => J) v :=
  runLoop_keeps_of_poll (fun _ => pollStdin_keeps hpush) hleave hevent v h

end App

namespace System

variable {cjsonParse : Bytes → Option Json} {ok : ThreadId → World → World → Prop}
  {config : AppConfig} {cfg cfg' : Config} {S : ViewContract MainView} {J : MainView → Prop}
  (hassume : ∀ w w', ok .main w w' → S.assume w.mainView w'.mainView)
  (hstart : App.runStart.vwp mainView S (fun _ => J) (World.init config).mainView)
  (hloop : ∀ v, J v → (App.runLoop cjsonParse).vwp mainView S (fun _ => J) v)
include hassume hstart hloop

/-- An invariant of the main loop holds at its boundary in every run. -/
theorem Reach.atBoundary (hr : Reach cjsonParse ok config cfg) (hb : AtBoundary cfg) :
    J cfg.shared.mainView := by
  have hinit : (init config).Local .main (fun p => p.wp (S.lift mainView) fun _ w => J w.mainView)
      fun w => J w.mainView := hstart.wp
  have hbody (w : World) (hw : J w.mainView) :
      (body cjsonParse .main).wp (S.lift mainView) (fun _ w => J w.mainView) w := (hloop _ hw).wp
  have hlocal := Threads.Reach.thread (fun _ _ h => hassume _ _ h.1)
    (fun _ _ _ hj h => h.2.mainView hj) (fun w w' hw (hv : w'.mainView = w.mainView) => hv ▸ hw)
    hbody hinit hr.steps
  unfold Threads.Config.Local at hlocal
  rwa [show cfg.cur .main = none from hb] at hlocal

/-- Every step of the main thread keeps its guarantee, in every run. -/
theorem Reach.main_guar (hr : Reach cjsonParse ok config cfg) {c : Answer}
    (hs : cfg.step (body cjsonParse) .main c = some cfg') (hok : ok .main cfg.shared cfg'.shared) :
    S.guar cfg.shared.mainView cfg'.shared.mainView := by
  have hstep : Step .main cfg.shared cfg'.shared :=
    Threads.Reach.step_within Step.refl within_body within_init hr hs
  have hinit : (init config).Local .main (fun p => p.wp (S.lift mainView) fun _ w => J w.mainView)
      fun w => J w.mainView := hstart.wp
  have hbody (w : World) (hw : J w.mainView) :
      (body cjsonParse .main).wp (S.lift mainView) (fun _ w => J w.mainView) w := (hloop _ hw).wp
  obtain hg | hsame := Threads.Reach.thread_guar (fun _ _ h => hassume _ _ h.1)
    (fun _ _ _ hj h => h.2.mainView hj) (fun w w' hw (hv : w'.mainView = w.mainView) => hv ▸ hw)
    hbody hinit hr.steps hs ⟨hok, hstep⟩
  · exact hg
  · rw [hsame]
    exact S.guar_refl _

/-- The guarantee of the main thread as a condition on all steps. -/
theorem Reach.strengthen_main (hr : Reach cjsonParse ok config cfg) :
    Reach cjsonParse (fun i w w' => ok i w w' ∧ Step i w w' ∧
      (i = .main → S.guar w.mainView w'.mainView)) config cfg := by
  refine Threads.Reach.strengthen (fun cfg cfg' i c hr hs hok => ⟨hok, ?_, ?_⟩) hr
  · exact Threads.Reach.step_within Step.refl within_body within_init hr hs
  · rintro rfl
    exact Reach.main_guar hassume hstart hloop hr hs hok

end System

end Xiaozhi
