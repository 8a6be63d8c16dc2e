-- SUMMARY: SIGINT delivered where it does no harm: the handler never waits for the thread it interrupts, and the loop ends on its request.
import Xiaozhi.Startup.Sigint
import Xiaozhi.Threads.Alone
import Xiaozhi.Threads.Points

/-!
# Serving SIGINT

In every run that delivers SIGINT only after `memset`, and never while the main
thread holds `events.mutex`, the handler does not wait for the thread that it
interrupts, and the next test of the loop is the last one.

The main thread's code takes the handler for one more thread that interferes:
`Disturbed` is all that it may find changed, and every action of the code keeps
the handler harmless wherever it may start next.
-/

namespace Xiaozhi

namespace Sigint

open Threads Threads.Prog

variable {ι : Type} [DecidableEq ι]

/-- What the other threads change. -/
def Others (s s' : State ι) : Prop :=
  ∃ events owner, s' = { s with events, owner } ∧ (owner = some .main ↔ s.owner = some .main)

omit [DecidableEq ι] in
theorem others_refl (s : State ι) : Others s s := ⟨s.events, s.owner, rfl, Iff.rfl⟩

omit [DecidableEq ι] in
theorem others_trans {s₁ s₂ s₃ : State ι} (h₁ : Others s₁ s₂) (h₂ : Others s₂ s₃) :
    Others s₁ s₃ := by
  obtain ⟨events₁, owner₁, rfl, ho₁⟩ := h₁
  obtain ⟨events₂, owner₂, rfl, ho₂⟩ := h₂
  exact ⟨events₂, owner₂, rfl, ho₂.trans ho₁⟩

omit [DecidableEq ι] in
theorem State.Served.others {s s' : State ι} (hs : s.Served) (h : Others s s') : s'.Served := by
  obtain ⟨events, owner, rfl, ho⟩ := h
  exact ⟨fun hh hm => hs.free hh (ho.mp hm), hs.kept, hs.found, hs.last⟩

/-- The other threads use the queue only. -/
theorem within_otherThread (i : ι) : (otherThread i).Within Others := by
  have hother : ∀ o : Option (QueueUser ι), (some (QueueUser.other i) = o) → o ≠ some .main := by
    rintro _ rfl h
    cases h
  refine (within_await others_refl).bind fun _ => (within_ask others_refl).bind fun c => ?_
  cases c with
  | push event =>
    refine (within_modifyWhen fun s hs => ?_).bind fun _ =>
      (within_modify fun s => ?_).bind fun _ => within_modify fun s => ?_
    · refine ⟨s.events, some (.other i), rfl, ?_⟩
      rw [Option.isNone_iff_eq_none.mp hs]
      simp
    · exact ⟨(s.events.push event).getD s.events, s.owner, rfl, Iff.rfl⟩
    · by_cases h : s.owner = some (.other i)
      · refine ⟨s.events, none, by simp [State.note, h], ?_⟩
        rw [h]
        simp
      · exact ⟨s.events, s.owner, by simp [State.note, h], Iff.rfl⟩
  | _ => trivial

/-! ## The handler -/

/-- The contract of the main thread and its handler. -/
def mainContract : Contract (State ι) where
  rely := Others
  assume := InterruptCondition .main
  guar _ s' := s'.Served
  rely_refl := others_refl
  rely_trans := others_trans

/-- The handler that began in `s₀` stands at `pt`; `held` says whether it holds the mutex, `set`
    whether it has set the flag. -/
def In (s₀ : State ι) (pt : HandlerPoint) (held set : Bool) (s : State ι) : Prop :=
  ∃ events owner, s = { s₀ with
      events
      owner
      handler := some pt
      stopRequested := s₀.stopRequested || set
      delivered := true } ∧
    (owner = some .main ↔ held = true)

variable {s₀ s s' : State ι} {pt pt' : HandlerPoint} {held held' set set' : Bool}

omit [DecidableEq ι] in
theorem In.others (h : In s₀ pt held set s) (ho : Others s s') : In s₀ pt held set s' := by
  obtain ⟨events₁, owner₁, rfl, h₁⟩ := h
  obtain ⟨events₂, owner₂, rfl, h₂⟩ := ho
  exact ⟨events₂, owner₂, rfl, h₂.trans h₁⟩

omit [DecidableEq ι] in
/-- Nothing goes wrong where the handler stands, if it waits without the mutex and sets the flag
    first. -/
theorem In.served (h : In s₀ pt held set s) (h₀ : s₀.Served)
    (hlock : pt = .locks → held = false) (hset : pt ≠ .looks → pt ≠ .sets → set = true) :
    s.Served := by
  obtain ⟨events, owner, rfl, ho⟩ := h
  refine ⟨fun hpt hm => ?_, fun _ => ?_, h₀.found, h₀.last⟩
  · cases (hlock (Option.some.inj hpt)).symm.trans (ho.mp hm)
  · by_cases hlooks : pt = .looks
    · exact .inl (congrArg some hlooks)
    · by_cases hsets : pt = .sets
      · exact .inr (.inl (congrArg some hsets))
      · refine .inr (.inr ?_)
        show (s₀.stopRequested || set) = true
        rw [hset hlooks hsets, Bool.or_true]

omit [DecidableEq ι] in
/-- An action of the handler takes it from one point to the next. -/
theorem wp_handler {f : State ι → State ι} (h : In s₀ pt held set s)
    (hf : ∀ s, In s₀ pt held set s → In s₀ pt' held' set' (f s))
    (hserved : ∀ s, In s₀ pt' held' set' s → s.Served) :
    (.modify f : Program ι Unit).wp mainContract (fun _ => In s₀ pt' held' set') s :=
  wp_modify fun _ h₁ _ =>
    ⟨hserved _ (hf _ (h.others h₁)), fun _ h₂ => (hf _ (h.others h₁)).others h₂⟩

omit [DecidableEq ι] in
theorem In.sets (h : In s₀ .sets false set s) :
    In s₀ .locks false true ({ s with stopRequested := true }.note true .locks) := by
  obtain ⟨events, owner, rfl, ho⟩ := h
  exact ⟨events, owner, by simp [State.note], ho⟩

omit [DecidableEq ι] in
theorem In.locks (h : In s₀ .locks false set s) :
    In s₀ .pushes true set ({ s with owner := some .main }.note true .pushes) := by
  obtain ⟨events, owner, rfl, ho⟩ := h
  exact ⟨events, some .main, rfl, by simp⟩

omit [DecidableEq ι] in
theorem In.pushes {event : AppEvent} (h : In s₀ .pushes true set s) :
    In s₀ .unlocks true set
      ({ s with events := (s.events.push event).getD s.events }.note true .unlocks) := by
  obtain ⟨events, owner, rfl, ho⟩ := h
  exact ⟨_, owner, rfl, ho⟩

theorem In.unlocks (h : In s₀ .unlocks true set s) :
    In s₀ .returns false set
      ((if s.owner = some .main then { s with owner := none } else s).note true .returns) := by
  obtain ⟨events, owner, rfl, ho⟩ := h
  obtain rfl := ho.mpr rfl
  exact ⟨events, none, by simp [State.note], by simp⟩

/-- `app_request_stop` in the handler: it sets the flag, and leaves the mutex as it was. -/
theorem wp_requestStop (h₀ : s₀.Served) (h : In s₀ .sets false set s) :
    (requestStop true).wp mainContract (fun _ => In s₀ .returns false true) s := by
  refine wp.bind ((wp_handler h (fun _ => In.sets) fun _ hs => ?_).mono fun _ s h => ?_)
  · exact hs.served h₀ (fun _ => rfl) fun _ _ => rfl
  refine wp.bind (wp_modifyWhen fun _ h₁ _ _ => ?_)
  have h := (h.others h₁).locks
  refine ⟨h.served h₀ nofun fun _ _ => rfl, fun _ h₂ => wp.bind ?_⟩
  refine (wp_handler (h.others h₂) (fun _ => In.pushes) fun _ hs => ?_).mono fun _ s h => ?_
  · exact hs.served h₀ nofun fun _ _ => rfl
  · exact wp_handler h (fun _ => In.unlocks) fun _ hs => hs.served h₀ nofun fun _ _ => rfl

/-- Where the handler may start. -/
structure State.Idle (s : State ι) : Prop extends s.Served where
  idle : s.handler = none
  cleared : s.delivered = true → s.clearedFlag = true

/-- What the main thread's code finds changed between two of its actions: the other threads have
    run, and so may the handler have. -/
structure Disturbed (s s' : State ι) : Prop where
  tests : s'.tests = s.tests
  clearedFlag : s'.clearedFlag = s.clearedFlag
  returned : s'.returned = s.returned
  idle : s.handler = none → s'.handler = none
  stop : s.stopRequested = true → s'.stopRequested = true
  delivered : s'.delivered = true →
    s.delivered = true ∨ s'.clearedFlag = true ∧ s'.stopRequested = true

omit [DecidableEq ι] in
theorem disturbed_refl (s : State ι) : Disturbed s s := ⟨rfl, rfl, rfl, id, id, .inl⟩

omit [DecidableEq ι] in
theorem disturbed_trans {s₁ s₂ s₃ : State ι} (h₁ : Disturbed s₁ s₂) (h₂ : Disturbed s₂ s₃) :
    Disturbed s₁ s₃ where
  tests := h₂.tests.trans h₁.tests
  clearedFlag := h₂.clearedFlag.trans h₁.clearedFlag
  returned := h₂.returned.trans h₁.returned
  idle h := h₂.idle (h₁.idle h)
  stop h := h₂.stop (h₁.stop h)
  delivered h := by
    obtain h | h := h₂.delivered h
    · obtain h | ⟨hc, hs⟩ := h₁.delivered h
      · exact .inl h
      · exact .inr ⟨h₂.clearedFlag.trans hc, h₂.stop hs⟩
    · exact .inr h

omit [DecidableEq ι] in
theorem disturbed_of_others (h : Others s s') : Disturbed s s' := by
  obtain ⟨events, owner, rfl, -⟩ := h
  exact ⟨rfl, rfl, rfl, id, id, .inl⟩

omit [DecidableEq ι] in
theorem State.Idle.disturbed (hs : s.Idle) (h : Disturbed s s') : s'.Idle := by
  have hidle := h.idle hs.idle
  have hkept : s'.delivered = true → s'.clearedFlag = true ∧ s'.stopRequested = true := by
    intro hd
    obtain hd | hd := h.delivered hd
    · refine ⟨h.clearedFlag.trans (hs.cleared hd), h.stop ?_⟩
      simpa [hs.idle] using hs.kept hd
    · exact hd
  refine ⟨⟨fun hl => ?_, fun hd => .inr (.inr (hkept hd).2), ?_, ?_⟩, hidle, fun hd => (hkept hd).1⟩
  · cases hidle.symm.trans hl
  · rw [h.tests]
    exact hs.found
  · rw [h.tests]
    exact hs.last

/-- The handler runs to its end wherever SIGINT is delivered. -/
theorem wp_sigintHandler (h₀ : s₀.Served) (hglobal : s₀.globalApp = true)
    (h : In s₀ .looks false set s) :
    sigintHandler.wp mainContract (fun _ => In s₀ .returns false true) s := by
  refine wp.bind (wp_atomic fun s₁ h₁ _ => ?_)
  have h := h.others h₁
  have hlook : s₁.globalApp = true := by
    obtain ⟨events, owner, rfl, -⟩ := h
    exact hglobal
  have h : In s₀ .sets false set (s₁.note true .sets) := by
    obtain ⟨events, owner, rfl, ho⟩ := h
    exact ⟨events, owner, rfl, ho⟩
  simp only [hlook, if_true]
  exact ⟨h.served h₀ nofun nofun, fun _ h₂ => wp_requestStop h₀ (h.others h₂)⟩

omit [DecidableEq ι] in
/-- The handler has returned. -/
theorem In.returns (h : In s₀ .returns false true s) (hcleared : s₀.clearedFlag = true) :
    Disturbed s₀ { s with handler := none } := by
  obtain ⟨events, owner, rfl, -⟩ := h
  exact ⟨rfl, rfl, rfl, fun _ => rfl, fun _ => Bool.or_true _, fun _ =>
    .inr ⟨hcleared, Bool.or_true _⟩⟩

/-- To the code that it interrupts, the handler is interference like that of the other threads. -/
theorem wp_sigint (hs : s.Idle) :
    sigint.wp mainContract (fun _ s' => Disturbed s s') s := by
  refine ⟨fun _ s' => Disturbed s s', fun _ s₁ s₂ h₁ h₂ =>
    disturbed_trans h₁ (disturbed_of_others h₂), disturbed_refl s, fun _ s₁ h₁ => ?_⟩
  refine wp.bind (wp_act fun s₂ h₂ c b s₃ hc hready => ?_)
  have h₂ := disturbed_trans h₁ (disturbed_of_others h₂)
  have hidle := hs.disturbed h₂
  by_cases hsig : c = .sigint
  · subst hsig
    obtain ⟨rfl, rfl⟩ := Prod.mk.inj (Option.some.inj hc)
    obtain ⟨hglobal, -, hcleared, howner⟩ := hready rfl hidle.idle nofun
    have hin : In s₂ .looks false false { s₂ with delivered := true, handler := some .looks } :=
      ⟨s₂.events, s₂.owner, by simp, by simpa using howner⟩
    refine ⟨hin.served hidle.toServed nofun nofun, fun s₄ h₄ => wp.bind ?_⟩
    refine (wp_sigintHandler hidle.toServed hglobal (hin.others h₄)).mono fun _ s₅ hin => wp.bind ?_
    refine wp_modify fun s₆ h₆ _ => ?_
    have h₆ := (hin.others h₆).returns hcleared
    refine ⟨(hidle.disturbed h₆).toServed, fun s₇ h₇ s₈ h₈ => ?_⟩
    have h₆₈ := disturbed_of_others (others_trans h₇ h₈)
    exact disturbed_trans h₂ (disturbed_trans h₆ h₆₈)
  · have hb : b = false ∧ s₃ = s₂ := by
      cases c <;> simp_all
    obtain ⟨rfl, rfl⟩ := hb
    refine ⟨hidle.toServed, fun s₄ h₄ s₅ h₅ s₆ h₆ => ?_⟩
    exact disturbed_trans h₂ (disturbed_of_others (others_trans h₄ (others_trans h₅ h₆)))

/-! ## The main thread -/

/-- The contract of the main thread's own code, which the handler may interrupt. -/
def codeContract : Contract (State ι) where
  rely := Disturbed
  assume _ _ := True
  guar _ s' := s'.Idle
  rely_refl := disturbed_refl
  rely_trans := disturbed_trans

/-- What most of the main thread's code does: it may set the flag, and it neither clears nor tests
    it. -/
structure Calm (s s' : State ι) : Prop where
  handler : s'.handler = s.handler
  delivered : s'.delivered = s.delivered
  tests : s'.tests = s.tests
  clearedFlag : s'.clearedFlag = s.clearedFlag
  stop : s.stopRequested = true → s'.stopRequested = true

omit [DecidableEq ι] in
theorem calm_refl (s : State ι) : Calm s s := ⟨rfl, rfl, rfl, rfl, id⟩

omit [DecidableEq ι] in
theorem State.Idle.calm (hs : s.Idle) (h : Calm s s') : s'.Idle := by
  have hidle := h.handler.trans hs.idle
  refine ⟨⟨fun hl => ?_, fun hd => .inr (.inr (h.stop ?_)), ?_, ?_⟩, hidle, fun hd => ?_⟩
  · cases hidle.symm.trans hl
  · simpa [hs.idle] using hs.kept (h.delivered ▸ hd)
  · rw [h.tests]
    exact hs.found
  · rw [h.tests]
    exact hs.last
  · exact h.clearedFlag.trans (hs.cleared (h.delivered ▸ hd))

/-- What the main thread and the handler do with the mutex: they never give it to another thread,
    and clearing the queue sets it free. -/
structure MainStep (s s' : State ι) : Prop where
  owner : ∀ i, s'.owner = some (.other i) → s.owner = some (.other i)
  cleared : s.clearedEvents = true → s'.clearedEvents = true
  clears : s'.clearedEvents = true → s.clearedEvents = true ∨ s'.owner = none

/-- The actions of the main thread's code, or of the handler. -/
def Own (inHandler : Bool) (s s' : State ι) : Prop :=
  MainStep s s' ∧ (inHandler = false → Calm s s')

omit [DecidableEq ι] in
theorem mainStep_of_eq (howner : s'.owner = s.owner) (hcleared : s'.clearedEvents = s.clearedEvents) :
    MainStep s s' :=
  ⟨fun _ h => howner ▸ h, fun h => hcleared ▸ h, fun h => .inl (hcleared ▸ h)⟩

omit [DecidableEq ι] in
/-- An action of the main thread's code that leaves the mutex alone. -/
theorem own_of_calm {inHandler : Bool} (howner : s'.owner = s.owner)
    (hcleared : s'.clearedEvents = s.clearedEvents) (h : Calm s s') : Own inHandler s s' :=
  ⟨mainStep_of_eq howner hcleared, fun _ => h⟩

omit [DecidableEq ι] in
theorem own_refl {inHandler : Bool} (s : State ι) : Own inHandler s s :=
  own_of_calm rfl rfl (calm_refl s)

section Note

variable {inHandler : Bool}

omit [DecidableEq ι] in
@[simp] theorem note_owner : (s.note inHandler pt).owner = s.owner := by
  cases inHandler <;> rfl

omit [DecidableEq ι] in
@[simp] theorem note_clearedEvents : (s.note inHandler pt).clearedEvents = s.clearedEvents := by
  cases inHandler <;> rfl

omit [DecidableEq ι] in
/-- The note of where the handler stands changes nothing else. -/
theorem Own.note (h : Own inHandler s s') : Own inHandler s (s'.note inHandler pt) := by
  cases inHandler with
  | true => exact ⟨⟨h.1.owner, h.1.cleared, h.1.clears⟩, nofun⟩
  | false => exact h

omit [DecidableEq ι] in
theorem within_own {f : State ι → State ι} (hf : ∀ s, Own inHandler s (f s)) :
    (.modify f : Program ι Unit).Within (Own inHandler) := within_modify hf

omit [DecidableEq ι] in
theorem within_lock : (lock (.main : QueueUser ι) inHandler).Within (Own inHandler) :=
  within_modifyWhen fun _ _ => Own.note ⟨⟨nofun, id, .inl⟩, fun _ => ⟨rfl, rfl, rfl, rfl, id⟩⟩

theorem within_unlock : (unlock (.main : QueueUser ι) inHandler).Within (Own inHandler) := by
  refine within_modify fun s => Own.note ?_
  by_cases h : s.owner = some .main
  · simp only [h, if_true]
    exact ⟨⟨nofun, id, .inl⟩, fun _ => ⟨rfl, rfl, rfl, rfl, id⟩⟩
  · simp only [h, if_false]
    exact own_refl s

theorem within_eventQueuePush (event : AppEvent) :
    (eventQueuePush (.main : QueueUser ι) event inHandler).Within (Own inHandler) := by
  refine within_lock.bind fun _ => (within_own fun s => Own.note ?_).bind fun _ => within_unlock
  exact own_of_calm rfl rfl ⟨rfl, rfl, rfl, rfl, id⟩

theorem within_requestStop : (requestStop inHandler : Program ι Unit).Within (Own inHandler) := by
  refine (within_own fun s => Own.note ?_).bind fun _ => within_eventQueuePush _
  exact own_of_calm rfl rfl ⟨rfl, rfl, rfl, rfl, fun _ => rfl⟩

end Note

omit [DecidableEq ι] in
theorem within_choose : (choose : Program ι Bool).Within (Own false) := within_ask own_refl

theorem within_mainCalls : (mainCalls : Program ι Unit).Within (Own false) := by
  refine ⟨fun _ => (within_ask own_refl).bind fun c => ?_, fun _ => trivial⟩
  cases c with
  | push event => exact (within_eventQueuePush event).bind fun _ => trivial
  | requestStop => exact within_requestStop.bind fun _ => trivial
  | shutdown =>
    refine (within_own fun s => ?_).bind fun _ => trivial
    exact own_of_calm rfl rfl ⟨rfl, rfl, rfl, rfl, fun _ => rfl⟩
  | _ => trivial

theorem within_eventQueuePop : (eventQueuePop : Program ι Popped).Within (Own false) := by
  refine within_lock.bind fun _ => ⟨fun _ => ?_, fun _ => within_unlock.bind fun _ => trivial⟩
  refine (within_atomic fun s => ?_).bind fun found => ?_
  · cases s.events.pop with
    | none => exact own_refl s
    | some popped => exact own_of_calm rfl rfl ⟨rfl, rfl, rfl, rfl, id⟩
  · cases found with
    | true => trivial
    | false =>
      exact within_unlock.bind fun _ => (within_ask own_refl).bind fun _ =>
        within_lock.bind fun _ => trivial

omit [DecidableEq ι] in
theorem within_leave : (leave : Program ι Unit).Within (Own false) :=
  within_own fun _ => own_of_calm rfl rfl ⟨rfl, rfl, rfl, rfl, id⟩

omit [DecidableEq ι] in
/-- An action that only sets the mutex free is calm. -/
theorem own_free (h : Calm s s') (howner : s'.owner = none)
    (hcleared : s.clearedEvents = true → s'.clearedEvents = true) : Own false s s' := by
  refine ⟨⟨fun i hi => ?_, hcleared, fun _ => .inr howner⟩, fun _ => h⟩
  cases howner.symm.trans hi

omit [DecidableEq ι] in
theorem within_clearEvents : (clearEvents : Program ι Unit).Within (Own false) :=
  within_own fun _ => own_free ⟨rfl, rfl, rfl, rfl, id⟩ rfl fun _ => rfl

omit [DecidableEq ι] in
theorem within_eventQueueInit : (eventQueueInit : Program ι Bool).Within (Own false) := by
  refine (within_own fun s => ?_).bind fun _ => within_choose.bind fun ok => ?_
  · exact own_free ⟨rfl, rfl, rfl, rfl, id⟩ rfl id
  · cases ok with
    | true =>
      refine (within_own fun s => ?_).bind fun _ => (within_own fun s => ?_).bind fun _ => trivial
      · exact own_of_calm rfl rfl ⟨rfl, rfl, rfl, rfl, id⟩
      · exact own_free ⟨rfl, rfl, rfl, rfl, id⟩ rfl id
    | false => trivial

theorem within_startUp : (startUp : Program ι Unit).Within (Own false) := by
  refine within_choose.bind fun configured => within_ite ?_ within_leave
  refine within_eventQueueInit.bind fun initialised => within_ite ?_ within_leave
  refine within_choose.bind fun connected => within_ite ?_ within_leave
  refine (within_own fun s => ?_).bind fun _ => within_mainCalls.bind fun _ =>
    within_choose.bind fun ready => within_ite trivial within_leave
  exact own_of_calm rfl rfl ⟨rfl, rfl, rfl, rfl, id⟩

/-- What follows the test of the loop. -/
theorem within_iteration : (do
    match ← eventQueuePop with
    | .failed => leave
    | _ => mainCalls : Program ι Unit).Within (Own false) := by
  refine within_eventQueuePop.bind fun popped => ?_
  cases popped with
  | failed => exact within_leave
  | _ => exact within_mainCalls

/-! ## The loop -/

/-- The handler may start, and no test of the loop has found the request. -/
structure State.Looping (s : State ι) : Prop extends s.Idle where
  unseen : ∀ t ∈ s.tests, t.found = false

omit [DecidableEq ι] in
theorem State.Looping.disturbed (hs : s.Looping) (h : Disturbed s s') : s'.Looping := by
  refine ⟨hs.toIdle.disturbed h, ?_⟩
  rw [h.tests]
  exact hs.unseen

omit [DecidableEq ι] in
/-- Calm code keeps the request unseen, and clears nothing. -/
theorem wp_calm {α : Type} {p : Program ι α} (hp : p.Within (Own false)) (hs : s.Looping) :
    p.wp codeContract (fun _ s' => s'.Looping ∧ s'.clearedFlag = s.clearedFlag) s := by
  refine hp.wp (C := codeContract) (I := fun s' => s'.Looping ∧ s'.clearedFlag = s.clearedFlag)
    (fun s₁ s₂ hr h => ⟨h.1.disturbed hr, hr.clearedFlag.trans h.2⟩) (fun s₁ s₂ h hc _ => ?_) ⟨hs, rfl⟩
  have hc := hc.2 rfl
  have hidle := h.1.toIdle.calm hc
  refine ⟨hidle, ⟨hidle, ?_⟩, hc.clearedFlag.trans h.2⟩
  rw [hc.tests]
  exact h.1.unseen

/-- Between two iterations: the handler may start, and the loop goes on only while it finds no
    request. -/
def State.Boundary (s : State ι) : Prop := s.Idle ∧ (s.returned = false → s.Looping)

omit [DecidableEq ι] in
theorem State.Boundary.disturbed (hs : s.Boundary) (h : Disturbed s s') : s'.Boundary :=
  ⟨hs.1.disturbed h, fun hr => (hs.2 (h.returned ▸ hr)).disturbed h⟩

omit [DecidableEq ι] in
theorem State.Looping.boundary (hs : s.Looping) : s.Boundary := ⟨hs.toIdle, fun _ => hs⟩

omit [DecidableEq ι] in
/-- `memset` clears the flag before SIGINT may be delivered. -/
theorem wp_clearFlag (hs : s.Looping) (hcleared : s.clearedFlag = false) :
    clearFlag.wp codeContract (fun _ s => s.Looping) s := by
  refine wp_modify fun s₁ h₁ _ => ?_
  have hs := hs.disturbed h₁
  have hnot : s₁.delivered = true → False := by
    intro hd
    cases (h₁.clearedFlag.trans hcleared).symm.trans (hs.cleared hd)
  have hs' : State.Looping { s₁ with stopRequested := false, clearedFlag := true } :=
    ⟨⟨⟨hs.free, fun hd => (hnot hd).elim, hs.found, hs.last⟩, hs.idle, fun _ => rfl⟩, hs.unseen⟩
  exact ⟨hs'.toIdle, fun _ h₂ => hs'.disturbed h₂⟩

omit [DecidableEq ι] in
theorem wp_clearApp (hs : s.Looping) (hcleared : s.clearedFlag = false) :
    clearApp.wp codeContract (fun _ s => s.Looping) s := by
  refine wp.bind ((wp_calm within_choose hs).mono fun order s₁ ⟨hs, h₁⟩ => ?_)
  have hcleared := h₁.trans hcleared
  cases order with
  | true =>
    refine wp.bind ((wp_calm within_clearEvents hs).mono fun _ s₂ ⟨hs, h₂⟩ => ?_)
    exact wp_clearFlag hs (h₂.trans hcleared)
  | false =>
    refine wp.bind ((wp_clearFlag hs hcleared).mono fun _ s₂ hs => ?_)
    exact (wp_calm within_clearEvents hs).mono fun _ _ h => h.1

/-- `app_init` forgets no request that the condition admits. -/
theorem wp_mainStart (hs : s.Looping) (hcleared : s.clearedFlag = false) :
    mainStart.wp codeContract (fun _ s => s.Boundary) s := by
  have hglobal : (.modify fun s => { s with globalApp := true } : Program ι Unit).Within
      (Own false) := within_own fun _ => own_of_calm rfl rfl ⟨rfl, rfl, rfl, rfl, id⟩
  refine wp.bind ((wp_calm hglobal hs).mono fun _ s₁ ⟨hs, h₁⟩ => ?_)
  refine wp.bind ((wp_clearApp hs (h₁.trans hcleared)).mono fun _ s₂ hs => ?_)
  exact (wp_calm within_startUp hs).mono fun _ _ h => h.1.boundary

/-- An iteration of the loop sees the request at its test, and returns then. -/
theorem wp_runLoop (hs : s.Boundary) : runLoop.wp codeContract (fun _ s => s.Boundary) s := by
  refine wp.bind (wp_await fun s₁ h₁ hret => ?_)
  have hs := (hs.disturbed h₁).2 (by simpa using hret)
  refine ⟨hs.toIdle, fun s₂ h₂ => wp.bind (wp_atomic fun s₃ h₃ _ => ?_)⟩
  have hs := hs.disturbed (disturbed_trans h₂ h₃)
  have hidle : State.Idle { s₃ with tests := ⟨s₃.delivered, s₃.stopRequested⟩ :: s₃.tests } := by
    refine ⟨⟨hs.free, hs.kept, fun t ht hd => ?_, hs.unseen⟩, hs.idle, hs.cleared⟩
    obtain rfl | ht := List.mem_cons.mp ht
    · simpa [hs.idle] using hs.kept hd
    · exact hs.found t ht hd
  refine ⟨hidle, fun s₄ h₄ => ?_⟩
  by_cases hstop : s₃.stopRequested = true
  · simp only [hstop, if_true]
    refine wp_modify fun s₅ h₅ _ => ?_
    have hcalm : Calm s₅ { s₅ with returned := true } := ⟨rfl, rfl, rfl, rfl, id⟩
    have hidle := (hidle.disturbed (disturbed_trans h₄ h₅)).calm hcalm
    refine ⟨hidle, fun s₆ h₆ => ⟨hidle.disturbed h₆, fun hr => ?_⟩⟩
    cases h₆.returned.symm.trans hr
  · have hlooping : State.Looping { s₃ with tests := ⟨s₃.delivered, s₃.stopRequested⟩ :: s₃.tests } := by
      refine ⟨hidle, fun t ht => ?_⟩
      obtain rfl | ht := List.mem_cons.mp ht
      · exact Bool.eq_false_iff.mpr hstop
      · exact hs.unseen t ht
    simp only [hstop]
    exact (wp_calm within_iteration (hlooping.disturbed h₄)).mono fun _ _ h => h.1.boundary

/-! ## Every run -/

/-- The main thread's code with the handler between any two of its actions. -/
theorem wp_interrupted {p : Program ι Unit} (hs : s.Boundary)
    (hp : p.wp codeContract (fun _ s => s.Boundary) s) :
    (interruptible sigint p).wp mainContract (fun _ s => s.Boundary) s := by
  refine (wp_interruptible ?_ ?_ ?_ ?_ ?_ (fun _ => wp_sigint) hs.1 hp).mono fun _ _ h => h.1
  · exact fun _ _ => disturbed_of_others
  · exact fun _ _ _ => trivial
  · exact fun _ _ h => h.toServed
  · exact fun _ _ => State.Idle.disturbed
  · exact fun _ _ _ h => h

/-- What the threads keep to. -/
def Footprint : QueueUser ι → State ι → State ι → Prop
  | .main => MainStep
  | .other _ => Others

omit [DecidableEq ι] in
theorem mainStep_refl (s : State ι) : MainStep s s := mainStep_of_eq rfl rfl

theorem within_sigint : (sigint : Program ι Unit).Within MainStep := by
  refine ⟨fun _ => (within_act fun c s b s' h => ?_).bind fun delivered => ?_, fun _ => trivial⟩
  · cases c <;> obtain ⟨rfl, rfl⟩ := Prod.mk.inj (Option.some.inj h) <;> exact mainStep_of_eq rfl rfl
  · refine within_ite (Within.bind ?_ fun _ => ?_) trivial
    · refine (within_atomic fun s => ?_).bind fun known => within_ite ?_ trivial
      · exact mainStep_of_eq note_owner note_clearedEvents
      · exact within_requestStop.mono fun _ _ h => h.1
    · refine (within_modify fun s => ?_).bind fun _ => trivial
      exact mainStep_of_eq rfl rfl

theorem within_runLoop : (runLoop : Program ι Unit).Within MainStep := by
  refine (within_await mainStep_refl).bind fun _ => (within_atomic fun s => ?_).bind fun stop => ?_
  · exact mainStep_of_eq rfl rfl
  · refine within_ite (within_leave.mono fun _ _ h => h.1) (within_iteration.mono fun _ _ h => h.1)

omit [DecidableEq ι] in
theorem within_clearFlag : (clearFlag : Program ι Unit).Within MainStep :=
  within_modify fun _ => mainStep_of_eq rfl rfl

theorem within_mainStart : (mainStart : Program ι Unit).Within MainStep := by
  have hclear : (clearEvents : Program ι Unit).Within MainStep :=
    within_clearEvents.mono fun _ _ h => h.1
  refine (within_modify fun s => ?_).bind fun _ => Within.bind ?_ fun _ =>
    within_startUp.mono fun _ _ h => h.1
  · exact mainStep_of_eq rfl rfl
  · refine (within_choose.mono fun _ _ h => h.1).bind fun order => within_ite ?_ ?_
    · exact hclear.bind fun _ => within_clearFlag
    · exact within_clearFlag.bind fun _ => hclear

theorem within_body (i : QueueUser ι) : (body i).Within (Footprint i) := by
  cases i with
  | main => exact within_interruptible within_sigint within_runLoop
  | other i => exact within_otherThread i

omit [DecidableEq ι] in
theorem Footprint.refl (i : QueueUser ι) (s : State ι) : Footprint i s s := by
  cases i with
  | main => exact mainStep_refl s
  | other i => exact others_refl s

/-! ## The other threads give the mutex back -/

/-- Where another thread stands. -/
inductive OtherPoint where
  | between
  | awaits
  | asks
  | locks (event : AppEvent)
  | pushes (event : AppEvent)
  | unlocks
  | ends

namespace OtherPoint

/-- What is left of the round. -/
def program (i : ι) : OtherPoint → Option (Program ι Unit)
  | between => none
  | awaits => some (otherThread i)
  | asks => some do
    match ← (.ask fun c => some c : Program ι Answer) with
    | .push event => eventQueuePush (.other i) event false
    | _ => pure ()
  | locks event => some (eventQueuePush (.other i) event false)
  | pushes event => some do
    pushLocked event false
    unlock (.other i) false
  | unlocks => some (unlock (.other i) false)
  | ends => some (pure ())

/-- The thread holds the mutex. -/
def Critical : OtherPoint → Prop
  | pushes _ => True
  | unlocks => True
  | _ => False

/-- The steps of another thread. -/
inductive Moves (i : ι) (s : State ι) : OtherPoint → State ι → OtherPoint → Prop where
  | enters : Moves i s between s awaits
  | awaits : Moves i s awaits s asks
  | picks {event : AppEvent} : Moves i s asks s (locks event)
  | nothing : Moves i s asks s ends
  | locks {event : AppEvent} : Moves i s (locks event) { s with owner := some (.other i) } (pushes event)
  | pushes {event : AppEvent} {events : RingBuffer AppEvent} :
      Moves i s (pushes event) { s with events } unlocks
  | unlocks : Moves i s unlocks
      (if s.owner = some (.other i) then { s with owner := none } else s) ends
  | leaves : Moves i s ends s between

theorem moves (i : ι) (pt : OtherPoint) (c : Answer) (s s' : State ι)
    (p' : Option (Program ι Unit)) (h : turn (otherThread i) c s (pt.program i) = some (s', p')) :
    ∃ pt', p' = pt'.program i ∧ Moves i s pt s' pt' := by
  cases pt with
  | between =>
    obtain ⟨rfl, rfl⟩ := Prod.mk.inj (Option.some.inj h)
    exact ⟨.awaits, rfl, .enters⟩
  | awaits =>
    obtain ⟨_, hf, rfl⟩ := turn_act h
    obtain ⟨-, hf⟩ := Option.ite_none_right_eq_some.mp hf
    obtain ⟨⟩ := hf
    exact ⟨.asks, rfl, .awaits⟩
  | asks =>
    obtain ⟨call, hf, rfl⟩ := turn_act h
    obtain ⟨rfl, rfl⟩ := Prod.mk.inj (Option.some.inj hf)
    cases c with
    | push event => exact ⟨.locks event, rfl, .picks⟩
    | _ => exact ⟨.ends, rfl, .nothing⟩
  | locks event =>
    obtain ⟨_, hf, rfl⟩ := turn_act h
    obtain ⟨-, hf⟩ := Option.ite_none_right_eq_some.mp hf
    obtain ⟨⟩ := hf
    exact ⟨.pushes event, rfl, .locks⟩
  | pushes event =>
    obtain ⟨_, hf, rfl⟩ := turn_act h
    obtain ⟨⟩ := hf
    exact ⟨.unlocks, rfl, .pushes⟩
  | unlocks =>
    obtain ⟨_, hf, rfl⟩ := turn_act h
    obtain ⟨⟩ := hf
    exact ⟨.ends, rfl, .unlocks⟩
  | ends =>
    obtain ⟨rfl, rfl⟩ := Prod.mk.inj (Option.some.inj h)
    exact ⟨.between, rfl, .leaves⟩

/-- The points of another thread. -/
abbrev points (i : ι) : Points (body (.other i) : Program ι Unit) where
  Point := OtherPoint
  program := program i
  Moves := fun pt s s' pt' => Moves i s pt s' pt'
  moves := moves i

end OtherPoint

/-- From `memset` on, the other threads that hold the mutex are in their critical sections. -/
def InCriticalSection (loc : ι → OtherPoint) (s : State ι) : Prop :=
  s.clearedEvents = true → ∀ i, s.owner = some (.other i) → (loc i).Critical

/-- `app_request_stop` returns when nobody holds the mutex. -/
theorem requestStop_returns (hfree : s.owner = none) :
    ∃ s', (requestStop true).Runs (fun _ => True) s () s' ∧ s'.stopRequested = true ∧
      s'.owner = none := by
  have hany : ∃ _ : Answer, True := ⟨.nothing, trivial⟩
  refine ⟨_, runs_bind.mpr ⟨(), _, (runs_modify hany).mpr rfl, runs_bind.mpr ⟨(), _,
    (runs_modifyWhen hany).mpr ⟨?_, rfl⟩, runs_bind.mpr ⟨(), _, (runs_modify hany).mpr rfl,
    (runs_modify hany).mpr rfl⟩⟩⟩, ?_⟩
  · simp [State.note, hfree]
  · simp [State.note]

section Run

variable {stopRequested : Bool} {events : RingBuffer AppEvent} {owner : Option (QueueUser ι)}
  {cfg : Config (QueueUser ι) (State ι) Answer}

/-- The runs that meet the condition, with what every step keeps to. -/
theorem reach_footprint
    (h : Reach body InterruptCondition (start stopRequested events owner) cfg) :
    Reach body (fun i s s' => InterruptCondition i s s' ∧ Footprint i s s')
      (start stopRequested events owner) cfg := by
  refine h.strengthen fun cfg cfg' i c hr hs hok => ⟨hok, ?_⟩
  refine hr.step_within (F := Footprint) Footprint.refl within_body (fun i p hp => ?_) hs
  cases i with
  | main =>
    obtain rfl := Option.some.inj hp
    exact within_interruptible within_sigint within_mainStart
  | other i => cases hp

theorem served_of_reach
    (h : Reach body InterruptCondition (start stopRequested events owner) cfg) :
    cfg.shared.Served := by
  have hstart : (start stopRequested events owner).shared.Looping :=
    ⟨⟨⟨nofun, nofun, nofun, nofun⟩, rfl, nofun⟩, nofun⟩
  have hinit : (start stopRequested events owner).Local .main
      (fun p => p.wp mainContract fun _ => State.Boundary) State.Boundary :=
    wp_interrupted hstart.boundary (wp_mainStart hstart rfl)
  have hguar : Reach body (fun _ s s' => s.Served → s'.Served)
      (start stopRequested events owner) cfg := by
    refine (reach_footprint h).strengthen fun cfg cfg' i c hr hs hok => ?_
    cases i with
    | main =>
      have hg := Reach.thread_guar (C := mainContract) (J := State.Boundary) (i := .main)
        (fun _ _ h => h.1) (fun j s s' hj h => ?_)
        (fun _ _ hb ho => hb.disturbed (disturbed_of_others ho))
        (fun _ hb => wp_interrupted hb (wp_runLoop hb)) hinit hr hs hok
      · intro hserved
        obtain hg | hg := hg
        · exact hg
        · exact hg ▸ hserved
      · cases j with
        | main => exact absurd rfl hj
        | other j => exact h.2
    | other i => exact fun hserved => hserved.others hok.2
  exact hguar.invariant hstart.toServed fun _ _ _ hstep hs => hstep hs

omit [DecidableEq ι] in
/-- The main thread and the handler keep the mutex within the critical sections. -/
theorem InCriticalSection.main {loc : ι → OtherPoint} (h : InCriticalSection loc s)
    (hstep : MainStep s s') : InCriticalSection loc s' := by
  intro hcleared i hi
  obtain hc | hnone := hstep.clears hcleared
  · exact h hc i (hstep.owner i hi)
  · cases hnone.symm.trans hi

/-- A step of another thread keeps the mutex within the critical sections. -/
theorem InCriticalSection.other {loc : ι → OtherPoint} {i : ι} {pt : OtherPoint}
    (h : InCriticalSection loc s) (hmove : OtherPoint.Moves i s (loc i) s' pt) :
    InCriticalSection (Function.update loc i pt) s' := by
  -- A thread that holds the mutex after the step is the one that steps, or stood there before.
  have hstay : ∀ s₁ : State ι, (s₁.clearedEvents = true → s.clearedEvents = true) →
      (∀ j, j ≠ i → s₁.owner = some (.other j) → s.owner = some (.other j)) →
      (s₁.clearedEvents = true → s₁.owner = some (.other i) → pt.Critical) →
      InCriticalSection (Function.update loc i pt) s₁ := by
    intro s₁ hcleared hothers hself hc j hj
    by_cases hji : j = i
    · subst hji
      rw [Function.update_self]
      exact hself hc hj
    · rw [Function.update_of_ne hji]
      exact h (hcleared hc) j (hothers j hji hj)
  have hnot : ¬ (loc i).Critical → s.clearedEvents = true → s.owner = some (.other i) → False :=
    fun hloc hc ho => hloc (h hc i ho)
  generalize hpt : loc i = pt₀ at hmove hnot
  cases hmove with
  | locks =>
    refine hstay _ id (fun j hj ho => ?_) fun _ _ => trivial
    cases Option.some.inj ho
    exact absurd rfl hj
  | pushes => exact hstay _ id (fun _ _ ho => ho) fun _ _ => trivial
  | unlocks =>
    by_cases ho : s.owner = some (.other i)
    · simp only [ho, if_true]
      refine hstay _ id (fun _ _ hj => ?_) fun _ hj => ?_
      · cases hj
      · cases hj
    · simp only [ho, if_false]
      exact hstay _ id (fun _ _ ho => ho) fun _ hi => absurd hi ho
  | _ => exact hstay _ id (fun _ _ ho => ho) fun hc ho => (hnot (fun hp => hp) hc ho).elim

theorem inCriticalSection_of_reach
    (h : Reach body InterruptCondition (start stopRequested events owner) cfg) :
    ∃ loc : ι → OtherPoint, (∀ i, cfg.cur (.other i) = (loc i).program i) ∧
      InCriticalSection loc cfg.shared := by
  have hstart : InCriticalSection (fun _ => .between) (start stopRequested events owner).shared := by
    intro hcleared
    cases hcleared
  refine (reach_footprint h).points (e := QueueUser.other) (fun _ _ h => QueueUser.other.inj h)
    OtherPoint.points ⟨fun _ => .between, fun _ => rfl, hstart⟩
    (fun i loc s s' pt _ hmove hinv => hinv.other hmove) fun i loc s s' hi hok hinv => ?_
  cases i with
  | main => exact hinv.main hok.2
  | other i => exact absurd rfl (hi i)

/-- The handler runs only after `memset`. -/
theorem cleared_of_reach
    (h : Reach body InterruptCondition (start stopRequested events owner) cfg) :
    cfg.shared.handler ≠ none → cfg.shared.clearedEvents = true := by
  have hstep : ∀ i (s s' : State ι), InterruptCondition i s s' ∧ Footprint i s s' →
      (s.handler ≠ none → s.clearedEvents = true) → s'.handler ≠ none → s'.clearedEvents = true := by
    intro i s s' hok hs hh
    cases i with
    | main =>
      by_cases hidle : s.handler = none
      · exact hok.2.cleared (hok.1 rfl hidle hh).2.1
      · exact hok.2.cleared (hs hidle)
    | other i =>
      obtain ⟨events, owner, rfl, -⟩ := hok.2
      exact hs hh
  exact (reach_footprint h).invariant (fun hh => absurd rfl hh) hstep

/-- Whoever makes the handler wait is about to set the mutex free. -/
theorem frees_of_reach
    (h : Reach body InterruptCondition (start stopRequested events owner) cfg) {i : ι}
    (hhandler : cfg.shared.handler ≠ none) (howner : cfg.shared.owner = some (.other i)) :
    Frees i cfg := by
  obtain ⟨loc, hcur, hcritical⟩ := inCriticalSection_of_reach h
  have hloc := hcritical (cleared_of_reach h hhandler) i howner
  have hcur := hcur i
  cases hpt : loc i with
  | pushes event =>
    rw [hpt] at hcur
    refine ⟨2, le_rfl, _, (Config.drive_succ (Config.step_act hcur rfl) rfl).trans
      ((Config.drive_succ (Config.step_act (Function.update_self ..) rfl) rfl).trans rfl), ?_⟩
    show (if cfg.shared.owner = some (.other i) then _ else _ : State ι).owner = none
    rw [if_pos howner]
  | unlocks =>
    rw [hpt] at hcur
    refine ⟨1, Nat.le_succ 1, _,
      (Config.drive_succ (Config.step_act hcur rfl) rfl).trans rfl, ?_⟩
    show (if cfg.shared.owner = some (.other i) then _ else _ : State ι).owner = none
    rw [if_pos howner]
  | _ =>
    rw [hpt] at hloc
    exact hloc.elim

/-- In every run that delivers SIGINT only after `memset`, and never while the main thread holds
    the mutex: the handler waits for no mutex that the main thread holds, another thread that makes
    it wait sets the mutex free, and then it returns; every test of the loop after SIGINT finds the
    request, and it is the last one. -/
theorem sigint_served
    (h : Reach body InterruptCondition (start stopRequested events owner) cfg) :
    cfg.shared.Served ∧
    (∀ i, cfg.shared.handler = some .locks → cfg.shared.owner = some (.other i) → Frees i cfg) ∧
    (cfg.shared.owner = none → ∃ s', (requestStop true).Runs (fun _ => True) cfg.shared () s' ∧
      s'.stopRequested = true ∧ s'.owner = none) := by
  refine ⟨served_of_reach h, fun i hhandler howner => ?_, requestStop_returns⟩
  refine frees_of_reach h (fun hnone => ?_) howner
  cases hhandler.symm.trans hnone

end Run

/-- A queue without memory. -/
def noEvents : RingBuffer AppEvent := .init 0 fun _ => .ofType .none .main

/-- SIGINT comes before a call of `event_queue_pop`, and another thread takes the mutex before the
    handler does. -/
theorem sigint_served_waiting : ∃ cfg : Config (QueueUser Unit) (State Unit) Answer,
    Reach body InterruptCondition (start false noEvents none) cfg ∧ cfg.shared.handler = some .locks ∧ cfg.shared.owner = some (.other ()) ∧ Frees () cfg := by
  have h : (Config.playTurns (σ := State Unit) body (fun i s s' => decide (InterruptCondition i s s'))
      [(.nothing, .main, 51, [.ok, .ok, .ok, .ok, .ok]), (.sigint, .main, 1, []),
        (.push (.ofType .playbackFinished .playback), .other (), 4, []), (.nothing, .main, 2, [])]
      (start false noEvents none)).any (fun cfg =>
    decide (cfg.shared.handler = some .locks ∧ cfg.shared.owner = some (.other ()))) = true := by
    decide +kernel
  obtain ⟨cfg, hplay, hp⟩ := (Option.any_eq_true _ _).mp h
  obtain ⟨hhandler, howner⟩ := of_decide_eq_true hp
  have hr : Reach body InterruptCondition (start false noEvents none) cfg :=
    Threads.Reach.of_playTurns (fun _ _ _ hc => of_decide_eq_true hc) .refl hplay
  exact ⟨cfg, hr, hhandler, howner, (sigint_served hr).2.1 () hhandler howner⟩

/-- SIGINT comes while the main thread holds the mutex in `event_queue_pop`: the handler waits for
    the thread that it interrupted. -/
theorem sigint_deadlock : ¬ ∀ cfg : Config (QueueUser Unit) (State Unit) Answer,
    Reach body (fun _ _ _ => True) (start false noEvents none) cfg → cfg.shared.Served := by
  intro hall
  have h : (Config.playTurns (σ := State Unit) body (fun _ _ _ => true)
      [(.nothing, .main, 55, [.ok, .ok, .ok, .ok, .ok]), (.sigint, .main, 1, []),
        (.nothing, .main, 2, [])]
      (start false noEvents none)).any (fun cfg =>
    decide (cfg.shared.handler = some .locks ∧ cfg.shared.owner = some .main)) = true := by
    decide +kernel
  obtain ⟨cfg, hplay, hp⟩ := (Option.any_eq_true _ _).mp h
  obtain ⟨hhandler, howner⟩ := of_decide_eq_true hp
  exact (hall cfg (Threads.Reach.of_playTurns (fun _ _ _ _ => trivial) .refl hplay)).free hhandler
    howner

end Sigint

end Xiaozhi
