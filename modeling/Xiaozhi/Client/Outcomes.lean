-- SUMMARY: A service thread ends only after it has reported an outcome of its connection, or has been stopped.
import Xiaozhi.Client.Lifecycle

/-!
# Outcomes of connections

A service thread either fails before its loop, and reports that, or leaves its
loop because the client has been stopped.
-/

namespace Xiaozhi

open Threads Threads.Prog World

/-- The event reports an outcome of connection `k`. -/
def AppEvent.IsOutcomeOf (e : AppEvent) (k : Nat) : Prop := e.IsOutcome ∧ e.origin = .service k

namespace World

variable {k : Nat} {w w' : World}

/-- An outcome of connection `k` has found room in the event queue. -/
def Reported (w : World) (k : Nat) : Prop := ∃ e, (e, true) ∈ w.pushes ∧ e.IsOutcomeOf k

/-- Connection `k` is no longer the one that the client runs. -/
def Stopped (w : World) (k : Nat) : Prop :=
  k ≤ w.started ∧ ¬(w.client.thread = some k ∧ w.client.running = true)

/-- No outcome of connection `k` is missing. -/
def Settled (w : World) (k : Nat) : Prop := w.Reported k ∨ w.Stopped k

theorem Reported.mono (h : w.Reported k) (hp : w.pushes ⊆ w'.pushes) : w'.Reported k := by
  obtain ⟨e, he, ho⟩ := h
  exact ⟨e, hp he, ho⟩

theorem Stopped.congr (h : w.Stopped k) (hv : w'.mainView = w.mainView) : w'.Stopped k := by
  have hst : w'.started = w.started := congrArg MainView.started hv
  have hth : w'.client.thread = w.client.thread := congrArg MainView.thread hv
  have hru : w'.client.running = w.client.running := congrArg MainView.running hv
  exact ⟨hst ▸ h.1, by rw [hth, hru]; exact h.2⟩

end World

/-- Pushes are never forgotten. -/
theorem Step.pushes_subset {i : ThreadId} {w w' : World} (h : Step i w w') :
    w.pushes ⊆ w'.pushes := by
  by_cases hi : i = .main
  · subst hi
    cases h with
    | quiet hq => rw [hq.pushes]; exact List.Subset.refl _
    | pushes _ => exact List.subset_cons_self _ _
    | _ => exact List.Subset.refl _
  · obtain ⟨-, hp⟩ | ⟨e, -, -, hp⟩ := h.events_of_ne hi
    · rw [hp]; exact List.Subset.refl _
    · rw [hp]; exact List.subset_cons_self _ _

namespace System

/-- The first outcome that a service thread reports finds room in the event queue. -/
def OutcomeFits (i : ThreadId) (w w' : World) : Prop :=
  ∀ k e, i = .service k → w'.pushes = (e, false) :: w.pushes → e.IsOutcome → w.Reported k

theorem Base.settled {i : ThreadId} {w w' : World} {k : Nat} (hb : Base i w w')
    (h : w.Settled k) : w'.Settled k := by
  refine h.imp (·.mono hb.step.pushes_subset) fun h => ?_
  by_cases hi : i = .main
  · refine ⟨h.1.trans hb.step.started_le, fun ⟨ht, hr⟩ => ?_⟩
    obtain hold | ⟨hst, hk⟩ := (hb.main hi).2 k ht hr
    · exact h.2 hold
    · have hst : w'.started = w.started + 1 := hst
      have hk : k = w'.started := hk
      have := h.1
      omega
  · exact h.congr (hb.step.mainView hi)

end System

/-- What the service thread `k` relies on and guarantees about its outcome. -/
def outcomeContract (k : Nat) : Contract World where
  rely w w' := (w.Settled k → w'.Settled k) ∧ w.started ≤ w'.started
  assume w w' := System.OutcomeFits (.service k) w w'
  guar w w' := w'.exited k = true → w.exited k = true ∨ w'.Settled k
  rely_refl _ := ⟨id, Nat.le_refl _⟩
  rely_trans h₁ h₂ := ⟨h₂.1 ∘ h₁.1, h₁.2.trans h₂.2⟩

namespace XiaozhiClient

variable {k : Nat} {w : World}

/-- Once nothing is missing, it stays so. -/
theorem settled_wp {α : Type} {p : Thread α} (hp : p.Service k) (h : w.Settled k) :
    p.wp (outcomeContract k) (fun _ w => w.Settled k) w := by
  refine Within.wp (C := outcomeContract k) (I := fun w => w.Settled k) hp (fun _ _ hr h => hr.1 h)
    (fun w w' h hs _ => ⟨fun he => .inl ?_, ?_⟩) h
  · rwa [hs.exited] at he
  · have hstep : Step (.service k) w w' := .inl hs
    exact h.imp (·.mono hstep.pushes_subset) (·.congr (hstep.mainView (by simp)))

/-- The connection has been created. -/
theorem created_wp {α : Type} {p : Thread α} (hp : p.Service k) (h : k ≤ w.started) :
    p.wp (outcomeContract k) (fun _ w => k ≤ w.started) w := by
  refine Within.wp (C := outcomeContract k) (I := fun w => k ≤ w.started) hp
    (fun _ _ hr h => h.trans hr.2) (fun w w' h hs _ => ⟨fun he => .inl ?_, ?_⟩) h
  · rwa [hs.exited] at he
  · exact h.trans (Step.started_le (i := .service k) (.inl hs))

theorem notifyError_wp {message : String} :
    (notifyError k message).wp (outcomeContract k) (fun _ w => w.Settled k) w := by
  refine wp_modify fun w₁ _ ha => ⟨fun he => .inl he, fun w₂ h₂ => h₂.1 (.inl ?_)⟩
  let e : AppEvent := .make .error (some (CString.ofString message)) (-1) (.service k)
  have ho : e.IsOutcome := .inr rfl
  cases hroom : (w₁.events.push e).1 with
  | true => exact ⟨e, by rw [pushEvent_pushes, hroom]; exact List.mem_cons_self, ho, rfl⟩
  | false =>
    refine (ha k e rfl ?_ ho).mono (List.subset_cons_self _ _)
    rw [← hroom]
    exact pushEvent_pushes

/-- The loop ends because the client has been stopped. -/
theorem serviceLoop_wp (h : k ≤ w.started) :
    (serviceLoop k).wp (outcomeContract k) (fun _ w => w.Settled k) w := by
  have hloop : (while_ (.read fun w => w.client.running) (lwsService k) : Thread Unit).wp
      (outcomeContract k) (fun _ w => w.Settled k) w := by
    refine wp_while (I := fun w => k ≤ w.started) (fun _ _ hr h => h.trans hr.2)
      (fun _ _ hr h => hr.1 h) h fun w h => ?_
    refine wp_read fun w₁ h₁ => ⟨fun he => .inl he, fun w₂ h₂ => ⟨fun _ => ?_, fun hr => ?_⟩⟩
    · exact created_wp service_lwsService (h.trans (h₁.2.trans h₂.2))
    · exact h₂.1 (.inr ⟨h.trans h₁.2, fun ⟨_, hrun⟩ => by simp [hr] at hrun⟩)
  refine wp.bind (hloop.mono fun _ w h => wp.bind ?_)
  refine (settled_wp service_contextDestroy h).mono fun _ w h => ?_
  exact settled_wp (within_modify fun _ => .quiet rfl rfl) h

theorem serviceMain_wp (h : k ≤ w.started) :
    (serviceMain k).wp (outcomeContract k) (fun _ w => w.Settled k) w := by
  have hfail {message : String} {w : World} :
      (do notifyError k message; contextDestroy k : Thread Unit).wp (outcomeContract k)
        (fun _ w => w.Settled k) w :=
    wp.bind (notifyError_wp.mono fun _ _ h => settled_wp service_contextDestroy h)
  refine wp.bind ((created_wp notice_createContext.service h).mono fun created w h => ?_)
  cases created with
  | false => exact notifyError_wp
  | true =>
    refine wp.bind ((created_wp notice_choose.service h).mono fun parsed w h => ?_)
    cases parsed with
    | false => exact hfail
    | true =>
      refine wp.bind ((created_wp service_connectViaInfo h).mono fun result w h => ?_)
      obtain ⟨connected, reason⟩ := result
      cases connected with
      | true => exact serviceLoop_wp h
      | false =>
        cases reason with
        | none => exact hfail
        | some reason =>
          exact wp.bind ((created_wp service_callback h).mono fun _ _ _ => hfail)

theorem serviceThread_outcome :
    (serviceThread k).wp (outcomeContract k) (fun _ _ => True) w := by
  refine wp.bind (wp_await fun w₁ _ hw => ⟨fun he => .inl he, fun w₂ h₂ => wp.bind ?_⟩)
  simp only [Bool.and_eq_true, decide_eq_true_eq] at hw
  refine (serviceMain_wp (hw.1.2.trans h₂.2)).mono fun _ w h => ?_
  exact wp_modify fun w₁ h₁ _ => ⟨fun _ => .inr (h₁.1 h), fun _ _ => trivial⟩

end XiaozhiClient

namespace System

variable {cjsonParse : Bytes → Option Json} {ok : ThreadId → World → World → Prop}
  {config : AppConfig} {cfg : Config}

/-- A service thread that ends in a run leaves no outcome missing. -/
theorem Reach.outcomes (hok : ∀ i w w', ok i w w' → OutcomeFits i w w')
    (hr : Reach cjsonParse ok config cfg) :
    Reach cjsonParse (fun i w w' => ok i w w' ∧ Base i w w' ∧
      ∀ k, i = .service k → w'.exited k = true → w.exited k = true ∨ w'.Settled k) config cfg := by
  refine Threads.Reach.strengthen (fun cfg cfg' i c hr hs h => ⟨h.1, h.2, ?_⟩) hr.base
  rintro k rfl
  have hbody (w : World) (_ : True) :
      (body cjsonParse (.service k)).wp (outcomeContract k) (fun _ _ => True) w :=
    XiaozhiClient.serviceThread_outcome
  have hinit : (init config).Local (.service k)
      (fun p => p.wp (outcomeContract k) fun _ _ => True) fun _ => True := trivial
  obtain hg | hsame := Threads.Reach.thread_guar (C := outcomeContract k)
    (fun _ _ h => hok _ _ _ h.1) (fun j w w' _ h => ⟨h.2.settled, h.2.step.started_le⟩)
    (fun _ _ _ _ => trivial) hbody hinit hr hs h
  · exact hg
  · exact fun he => .inl (hsame ▸ he)

end System

end Xiaozhi
