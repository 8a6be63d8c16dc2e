-- SUMMARY: Rely/guarantee weakest preconditions for thread programs, and their sequential form on the variables that a thread owns.
import Xiaozhi.Threads.Prog

/-!
# Weakest preconditions under interference

`p.wp C Q s` says that the program `p`, started in `s` while the other threads
change the state as `C.rely` allows, makes only `C.guar` steps and ends in a
state that satisfies `Q`. Only the steps that `C.assume` admits are looked at,
so a contract can speak of the runs that meet a condition.

A thread that owns some of the variables can be reasoned about as if it ran
alone, as long as only those variables matter: `p.vwp S Q v` is the weakest
precondition on the *view* `v` of the owned variables.
-/

namespace Threads

/-- What a thread relies on, which of its steps are looked at, and what it
    guarantees to the others. -/
structure Contract (σ : Type) where
  rely : σ → σ → Prop
  assume : σ → σ → Prop
  guar : σ → σ → Prop
  rely_refl : ∀ s, rely s s
  rely_trans : ∀ {s₁ s₂ s₃}, rely s₁ s₂ → rely s₂ s₃ → rely s₁ s₃

/-- A contract on the view that a thread has of its own variables. The steps
    that leave the view alone are always admitted and always allowed. -/
structure ViewContract (V : Type) where
  assume : V → V → Prop
  guar : V → V → Prop
  assume_refl : ∀ v, assume v v
  guar_refl : ∀ v, guar v v

/-- The contract of a thread whose view `view` of the state no other thread changes. -/
def ViewContract.lift {σ V : Type} (S : ViewContract V) (view : σ → V) : Contract σ where
  rely s s' := view s' = view s
  assume s s' := S.assume (view s) (view s')
  guar s s' := S.guar (view s) (view s')
  rely_refl _ := rfl
  rely_trans h₁ h₂ := h₂.trans h₁

/-- The contract that admits and allows every step. -/
def ViewContract.any (V : Type) : ViewContract V where
  assume _ _ := True
  guar _ _ := True
  assume_refl _ := trivial
  guar_refl _ := trivial

/-- `P` holds after the step from `v` to `v'`, which is allowed, if it is looked at. -/
def ViewContract.After {V : Type} (S : ViewContract V) (v v' : V) (P : Prop) : Prop :=
  S.assume v v' → S.guar v v' ∧ P

@[simp] theorem ViewContract.after_self {V : Type} {S : ViewContract V} {v : V} {P : Prop} :
    S.After v v P ↔ P :=
  ⟨fun h => (h (S.assume_refl v)).2, fun h _ => ⟨S.guar_refl v, h⟩⟩

@[simp] theorem ViewContract.after_any {V : Type} {v v' : V} {P : Prop} :
    (ViewContract.any V).After v v' P ↔ P :=
  ⟨fun h => (h trivial).2, fun h _ => ⟨trivial, h⟩⟩

namespace Prog

variable {σ χ V α β γ : Type}

/-- Weakest precondition of a program under interference. -/
def wp (C : Contract σ) : {α : Type} → Prog σ χ α → (α → σ → Prop) → σ → Prop
  | _, .ret a, Q, s => ∀ s', C.rely s s' → Q a s'
  | _, .act f k, Q, s => ∀ s₁, C.rely s s₁ → ∀ c b s₂, f c s₁ = some (b, s₂) → C.assume s₁ s₂ →
      C.guar s₁ s₂ ∧ (k b).wp C Q s₂
  | _, .iter b x k, Q, s => ∃ I : _ → σ → Prop, (∀ y s s', I y s → C.rely s s' → I y s') ∧ I x s ∧
      ∀ y s, I y s → (b y).wp C (fun r s => match r with
        | .inl y => I y s
        | .inr z => (k z).wp C Q s) s

section Wp

variable {C : Contract σ} {Q Q' : α → σ → Prop} {s s' : σ}

/-- A weakest precondition survives the steps of the other threads. -/
theorem wp.rely {p : Prog σ χ α} (h : p.wp C Q s) (hr : C.rely s s') : p.wp C Q s' := by
  cases p with
  | ret a => exact fun s₁ h₁ => h s₁ (C.rely_trans hr h₁)
  | act f k => exact fun s₁ h₁ => h s₁ (C.rely_trans hr h₁)
  | iter b x k =>
    obtain ⟨I, hI, hx, hb⟩ := h
    exact ⟨I, hI, hI x s s' hx hr, hb⟩

theorem wp.mono {p : Prog σ χ α} (hQ : ∀ a s, Q a s → Q' a s) (h : p.wp C Q s) :
    p.wp C Q' s := by
  induction p generalizing s with
  | ret a => exact fun s₁ h₁ => hQ a s₁ (h s₁ h₁)
  | act f k ih =>
    intro s₁ h₁ c b s₂ hf ha
    obtain ⟨hg, hk⟩ := h s₁ h₁ c b s₂ hf ha
    exact ⟨hg, ih b hQ hk⟩
  | iter b x k ihb ihk =>
    obtain ⟨I, hI, hx, hb⟩ := h
    refine ⟨I, hI, hx, fun y s hy => ihb y (fun r s hr => ?_) (hb y s hy)⟩
    cases r with
    | inl y => exact hr
    | inr z => exact ihk z hQ hr

/-- Sequential composition: the second program runs from wherever the first ends. -/
theorem wp.bind {p : Prog σ χ α} {g : α → Prog σ χ β} {Q : β → σ → Prop}
    (h : p.wp C (fun a s => (g a).wp C Q s) s) : (p >>= g).wp C Q s := by
  induction p generalizing s with
  | ret a => exact h s (C.rely_refl s)
  | act f k ih =>
    intro s₁ h₁ c b s₂ hf ha
    obtain ⟨hg, hk⟩ := h s₁ h₁ c b s₂ hf ha
    exact ⟨hg, ih b hk⟩
  | iter b x k _ ihk =>
    obtain ⟨I, hI, hx, hb⟩ := h
    refine ⟨I, hI, hx, fun y s hy => (hb y s hy).mono fun r s hr => ?_⟩
    cases r with
    | inl y => exact hr
    | inr z => exact ihk z hr

/-- One step of a program keeps its weakest precondition and is a `C.guar` step. -/
theorem wp.step {p p' : Prog σ χ α} {c : χ} (h : p.wp C Q s) (hs : p.step c s = some (s', p'))
    (ha : C.assume s s') : (C.guar s s' ∨ s' = s) ∧ p'.wp C Q s' := by
  cases p with
  | ret a => cases hs
  | act f k =>
    simp only [Prog.step, Option.map_eq_some_iff, Prod.mk.injEq] at hs
    obtain ⟨⟨b, s₂⟩, hf, rfl, rfl⟩ := hs
    obtain ⟨hg, hk⟩ := h s (C.rely_refl s) c b s₂ hf ha
    exact ⟨.inl hg, hk⟩
  | iter b x k =>
    simp only [Prog.step, Option.some.injEq, Prod.mk.injEq] at hs
    obtain ⟨rfl, rfl⟩ := hs
    obtain ⟨I, hI, hx, hb⟩ := h
    refine ⟨.inr rfl, ((hb x s hx).mono fun r s hr => ?_).bind⟩
    cases r with
    | inl y => exact ⟨I, hI, hr, hb⟩
    | inr z => exact hr

/-- A program that keeps to its footprint keeps every invariant that its
    footprint and the other threads keep. -/
theorem Within.wp {F : σ → σ → Prop} {I : σ → Prop} {p : Prog σ χ α} (hp : p.Within F)
    (hrely : ∀ s s', C.rely s s' → I s → I s')
    (hstep : ∀ s s', I s → F s s' → C.assume s s' → C.guar s s' ∧ I s') (hs : I s) :
    p.wp C (fun _ => I) s := by
  induction p generalizing s with
  | ret a => exact fun s₁ h₁ => hrely s s₁ h₁ hs
  | act f k ih =>
    intro s₁ h₁ c b s₂ hf ha
    obtain ⟨hg, hI⟩ := hstep s₁ s₂ (hrely s s₁ h₁ hs) (hp.1 c s₁ b s₂ hf) ha
    exact ⟨hg, ih b (hp.2 b) hI⟩
  | iter b x k ihb ihk =>
    refine ⟨fun _ => I, fun _ s s' hI h => hrely s s' h hI, hs, fun y s hI => ?_⟩
    refine (ihb y (hp.1 y) hI).mono fun r s hI => ?_
    cases r with
    | inl y => exact hI
    | inr z => exact ihk z (hp.2 z) hI

theorem wp_modify {f : σ → σ} {Q : Unit → σ → Prop}
    (h : ∀ s₁, C.rely s s₁ → C.assume s₁ (f s₁) →
      C.guar s₁ (f s₁) ∧ ∀ s₂, C.rely (f s₁) s₂ → Q () s₂) :
    (modify f : Prog σ χ Unit).wp C Q s := by
  rintro s₁ h₁ c b s₂ ⟨⟩ ha
  exact h s₁ h₁ ha

theorem wp_modifyWhen {q : σ → Bool} {f : σ → σ} {Q : Unit → σ → Prop}
    (h : ∀ s₁, C.rely s s₁ → q s₁ = true → C.assume s₁ (f s₁) →
      C.guar s₁ (f s₁) ∧ ∀ s₂, C.rely (f s₁) s₂ → Q () s₂) :
    (modifyWhen q f : Prog σ χ Unit).wp C Q s := by
  intro s₁ h₁ c b s₂ hf ha
  obtain ⟨hq, hf⟩ := Option.ite_none_right_eq_some.mp hf
  obtain ⟨⟩ := hf
  exact h s₁ h₁ hq ha

theorem wp_await {q : σ → Bool} {Q : Unit → σ → Prop}
    (h : ∀ s₁, C.rely s s₁ → q s₁ = true → C.guar s₁ s₁ ∧ ∀ s₂, C.rely s₁ s₂ → Q () s₂) :
    (await q : Prog σ χ Unit).wp C Q s := by
  intro s₁ h₁ c b s₂ hf ha
  obtain ⟨hq, hf⟩ := Option.ite_none_right_eq_some.mp hf
  obtain ⟨⟩ := hf
  exact h s₁ h₁ hq

theorem wp_atomic {f : σ → β × σ} {Q : β → σ → Prop}
    (h : ∀ s₁, C.rely s s₁ → C.assume s₁ (f s₁).2 →
      C.guar s₁ (f s₁).2 ∧ ∀ s₂, C.rely (f s₁).2 s₂ → Q (f s₁).1 s₂) :
    (atomic f : Prog σ χ β).wp C Q s := by
  rintro s₁ h₁ c b s₂ hf ha
  obtain ⟨rfl, rfl⟩ := Prod.mk.inj (Option.some.inj hf)
  exact h s₁ h₁ ha

theorem wp_read {f : σ → β} {Q : β → σ → Prop}
    (h : ∀ s₁, C.rely s s₁ → C.guar s₁ s₁ ∧ ∀ s₂, C.rely s₁ s₂ → Q (f s₁) s₂) :
    (read f : Prog σ χ β).wp C Q s := by
  rintro s₁ h₁ c b s₂ ⟨⟩ _
  exact h s₁ h₁

/-- The rule for loops: the invariant `I` is kept by the body and by the other
    threads, and gives `Q` where the condition fails. -/
theorem wp_while {cond : Prog σ χ Bool} {body : Prog σ χ Unit} {I : σ → Prop}
    {Q : Unit → σ → Prop} (hI : ∀ s s', C.rely s s' → I s → I s')
    (hQ : ∀ s s', C.rely s s' → Q () s → Q () s') (hs : I s)
    (hcond : ∀ s, I s → cond.wp C (fun again s =>
      (again = true → body.wp C (fun _ => I) s) ∧ (again = false → Q () s)) s) :
    (while_ cond body).wp C Q s := by
  refine ⟨fun _ => I, fun _ s s' hi hr => hI s s' hr hi, hs, fun _ s hi => wp.bind ?_⟩
  refine (hcond s hi).mono fun again s h => ?_
  cases again with
  | true => exact wp.bind ((h.1 rfl).mono fun _ s hi s' hr => hI s s' hr hi)
  | false =>
    intro s' h₁ s'' h₂
    exact hQ s s'' (C.rely_trans h₁ h₂) (h.2 rfl)

theorem wp_ret {a : α} (hQ : ∀ s', C.rely s s' → Q a s') : (.ret a : Prog σ χ α).wp C Q s := hQ

/-- The rule for one atomic action followed by the rest of the program. -/
theorem wp_act {f : χ → σ → Option (β × σ)} {k : β → Prog σ χ α}
    (h : ∀ s₁, C.rely s s₁ → ∀ c b s₂, f c s₁ = some (b, s₂) → C.assume s₁ s₂ →
      C.guar s₁ s₂ ∧ (k b).wp C Q s₂) : (.act f k : Prog σ χ α).wp C Q s := h

end Wp

/-! ## On the owned variables -/

/-- Weakest precondition of a program on the view of the variables its thread
    owns. An action runs in any state with that view. -/
def vwp (view : σ → V) (S : ViewContract V) :
    {α : Type} → Prog σ χ α → (α → V → Prop) → V → Prop
  | _, .ret a, Q, v => Q a v
  | _, .act f k, Q, v => ∀ c s b s', view s = v → f c s = some (b, s') → S.assume v (view s') →
      S.guar v (view s') ∧ (k b).vwp view S Q (view s')
  | _, .iter b x k, Q, v => ∃ I : _ → V → Prop, I x v ∧
      ∀ y v, I y v → (b y).vwp view S (fun r v => match r with
        | .inl y => I y v
        | .inr z => (k z).vwp view S Q v) v

section View

variable {view : σ → V} {S : ViewContract V}

theorem vwp.mono {Q Q' : α → V → Prop} {v : V} {p : Prog σ χ α} (hQ : ∀ a v, Q a v → Q' a v)
    (h : p.vwp view S Q v) : p.vwp view S Q' v := by
  induction p generalizing v with
  | ret a => exact hQ a v h
  | act f k ih =>
    intro c s b s' hv hf ha
    obtain ⟨hg, hk⟩ := h c s b s' hv hf ha
    exact ⟨hg, ih b hQ hk⟩
  | iter b x k ihb ihk =>
    obtain ⟨I, hx, hb⟩ := h
    refine ⟨I, hx, fun y v hy => ihb y (fun r v hr => ?_) (hb y v hy)⟩
    cases r with
    | inl y => exact hr
    | inr z => exact ihk z hQ hr

/-- Reasoning on the view is sound: no other thread can interfere with it. -/
theorem vwp.wp {Q : α → V → Prop} {p : Prog σ χ α} {s : σ} (h : p.vwp view S Q (view s)) :
    p.wp (S.lift view) (fun a s => Q a (view s)) s := by
  induction p generalizing s with
  | ret a =>
    intro s' (hs : view s' = view s)
    rw [hs]
    exact h
  | act f k ih =>
    intro s₁ h₁ c b s₂ hf ha
    have hv : view s₁ = view s := h₁
    obtain ⟨hg, hk⟩ := h c s₁ b s₂ hv hf (hv ▸ ha)
    refine ⟨?_, ih b hk⟩
    show S.guar (view s₁) (view s₂)
    rw [hv]
    exact hg
  | iter b x k ihb ihk =>
    obtain ⟨I, hx, hb⟩ := h
    refine ⟨fun y s => I y (view s), fun y s s' hI hs => ?_, hx, fun y s hy => ?_⟩
    · have hv : view s' = view s := hs
      show I y (view s')
      rw [hv]
      exact hI
    · refine (ihb y (hb y (view s) hy)).mono fun r s hr => ?_
      cases r with
      | inl y => exact hr
      | inr z => exact ihk z hr

/-- A program that keeps to its footprint keeps every invariant of the view that
    its footprint keeps. -/
theorem Within.vwp {F : σ → σ → Prop} {J : V → Prop} {p : Prog σ χ α} {v : V} (hp : p.Within F)
    (hstep : ∀ s s', F s s' → J (view s) → S.After (view s) (view s') (J (view s'))) (hv : J v) :
    p.vwp view S (fun _ => J) v := by
  induction p generalizing v with
  | ret a => exact hv
  | act f k ih =>
    rintro c s b s' rfl hf ha
    obtain ⟨hg, hJ⟩ := hstep s s' (hp.1 c s b s' hf) hv ha
    exact ⟨hg, ih b (hp.2 b) hJ⟩
  | iter b x k ihb ihk =>
    refine ⟨fun _ => J, hv, fun y v hy => (ihb y (hp.1 y) hy).mono fun r v hv => ?_⟩
    cases r with
    | inl y => exact hv
    | inr z => exact ihk z (hp.2 z) hv

@[simp] theorem vwp_ret {Q : α → V → Prop} {v : V} {a : α} :
    (.ret a : Prog σ χ α).vwp view S Q v ↔ Q a v := Iff.rfl

@[simp] theorem vwp_bind {Q : β → V → Prop} {v : V} {p : Prog σ χ α} {g : α → Prog σ χ β} :
    (p >>= g).vwp view S Q v ↔ p.vwp view S (fun a v => (g a).vwp view S Q v) v := by
  induction p generalizing v with
  | ret a => exact Iff.rfl
  | act f k ih =>
    constructor
    · intro h c s b s' hv hf ha
      obtain ⟨hg, hk⟩ := h c s b s' hv hf ha
      exact ⟨hg, (ih b).mp hk⟩
    · intro h c s b s' hv hf ha
      obtain ⟨hg, hk⟩ := h c s b s' hv hf ha
      exact ⟨hg, (ih b).mpr hk⟩
  | iter b x k _ ih =>
    constructor
    · rintro ⟨I, hx, hb⟩
      refine ⟨I, hx, fun y v hy => (hb y v hy).mono fun r v hr => ?_⟩
      cases r with
      | inl y => exact hr
      | inr z => exact (ih z).mp hr
    · rintro ⟨I, hx, hb⟩
      refine ⟨I, hx, fun y v hy => (hb y v hy).mono fun r v hr => ?_⟩
      cases r with
      | inl y => exact hr
      | inr z => exact (ih z).mpr hr

theorem vwp_ite {c : Prop} [Decidable c] {p q : Prog σ χ α} {Q : α → V → Prop} {v : V} :
    (if c then p else q).vwp view S Q v ↔ (c → p.vwp view S Q v) ∧ (¬c → q.vwp view S Q v) := by
  split <;> simp_all

/-- An action that never touches the thread's own variables: any result may come
    that it can have. -/
theorem vwp_act_other {f : χ → σ → Option (β × σ)} {Q : β → V → Prop} {v : V}
    (hf : ∀ c s b s', f c s = some (b, s') → view s' = view s) :
    (.act f .ret : Prog σ χ β).vwp view S Q v ↔
      ∀ b, (∃ c s, view s = v ∧ (f c s).map Prod.fst = some b) → Q b v := by
  constructor
  · rintro h b ⟨c, s, rfl, hb⟩
    obtain ⟨⟨b', s'⟩, hs, rfl⟩ := Option.map_eq_some_iff.mp hb
    have h := h c s b' s' rfl hs
    rw [hf c s b' s' hs] at h
    exact ViewContract.after_self.mp h
  · rintro h c s b s' rfl hs
    rw [hf c s b s' hs]
    exact ViewContract.after_self.mpr (h b ⟨c, s, rfl, by rw [hs]; rfl⟩)

/-! The primitive actions. When the view is onto, each rule is an equation,
and the rules can be used from left to right. -/

variable [Nonempty χ] {v : V} (hview : Function.Surjective view)
include hview

/-- Changing the thread's own variables. -/
theorem vwp_modify {f : σ → σ} {g : V → V} {Q : Unit → V → Prop}
    (hf : ∀ s, view (f s) = g (view s)) :
    (modify f : Prog σ χ Unit).vwp view S Q v ↔
      S.After v (g v) (Q () (g v)) := by
  constructor
  · intro h ha
    obtain ⟨s, rfl⟩ := hview v
    obtain ⟨c⟩ := ‹Nonempty χ›
    rw [← hf] at ha ⊢
    exact h c s () (f s) rfl rfl ha
  · intro h c s b s' hv hs ha
    obtain ⟨⟩ := hs
    subst hv
    rw [hf] at ha ⊢
    exact h ha

/-- Changing the variables of other threads. -/
theorem vwp_modify_other {f : σ → σ} {Q : Unit → V → Prop} (hf : ∀ s, view (f s) = view s) :
    (modify f : Prog σ χ Unit).vwp view S Q v ↔ Q () v := by
  rw [vwp_modify (g := id) hview hf]
  exact ViewContract.after_self

/-- Reading and changing the thread's own variables. -/
theorem vwp_atomic {f : σ → β × σ} {r : V → β} {g : V → V} {Q : β → V → Prop}
    (hr : ∀ s, (f s).1 = r (view s)) (hg : ∀ s, view (f s).2 = g (view s)) :
    (atomic f : Prog σ χ β).vwp view S Q v ↔
      S.After v (g v) (Q (r v) (g v)) := by
  constructor
  · intro h ha
    obtain ⟨s, rfl⟩ := hview v
    obtain ⟨c⟩ := ‹Nonempty χ›
    rw [← hg] at ha ⊢
    rw [← hr]
    exact h c s _ _ rfl rfl ha
  · intro h c s b s' hv hs ha
    obtain ⟨rfl, rfl⟩ := Prod.mk.inj (Option.some.inj hs)
    subst hv
    rw [hg] at ha ⊢
    rw [hr]
    exact h ha

/-- Reading the thread's own variables. -/
theorem vwp_read {f : σ → β} {r : V → β} {Q : β → V → Prop} (hr : ∀ s, f s = r (view s)) :
    (read f : Prog σ χ β).vwp view S Q v ↔ Q (r v) v := by
  have h := vwp_atomic (S := S) (χ := χ) (v := v) (f := fun s => (f s, s)) (r := r) (g := id)
    (Q := Q) hview hr fun _ => rfl
  exact h.trans ViewContract.after_self

omit hview in
/-- Waiting for a condition that other threads can bring about. -/
theorem vwp_modifyWhen {p : σ → Bool} {f : σ → σ} {g : V → V} {Q : Unit → V → Prop}
    (hp : ∀ v, ∃ s, view s = v ∧ p s = true) (hg : ∀ s, view (f s) = g (view s)) :
    (modifyWhen p f : Prog σ χ Unit).vwp view S Q v ↔ S.After v (g v) (Q () (g v)) := by
  constructor
  · intro h ha
    obtain ⟨s, rfl, hs⟩ := hp v
    obtain ⟨c⟩ := ‹Nonempty χ›
    rw [← hg] at ha ⊢
    exact h c s () (f s) rfl (by simp [hs]) ha
  · intro h c s b s' hv hs ha
    obtain ⟨-, hs⟩ := Option.ite_none_right_eq_some.mp hs
    obtain ⟨⟩ := hs
    subst hv
    rw [hg] at ha ⊢
    exact h ha

/-- Waiting for a condition on the thread's own variables. -/
theorem vwp_await {p : σ → Bool} {r : V → Bool} {Q : Unit → V → Prop}
    (hr : ∀ s, p s = r (view s)) :
    (await p : Prog σ χ Unit).vwp view S Q v ↔ (r v = true → Q () v) := by
  constructor
  · intro h hv
    obtain ⟨s, rfl⟩ := hview v
    obtain ⟨c⟩ := ‹Nonempty χ›
    exact ViewContract.after_self.mp (h c s () s rfl (by simp [hr, hv]))
  · intro h c s b s' hv hs ha
    obtain ⟨hp, hs⟩ := Option.ite_none_right_eq_some.mp hs
    obtain ⟨⟩ := hs
    subst hv
    exact ⟨S.guar_refl _, h (hr s ▸ hp)⟩

omit hview in
/-- An action that also depends on the variables of other threads, through what
    it observes: any observation may come. -/
theorem vwp_atomic_of {f : σ → β × σ} {o : σ → γ} {r : γ → V → β} {g : γ → V → V}
    {Q : β → V → Prop} (ho : ∀ v x, ∃ s, view s = v ∧ o s = x)
    (hr : ∀ s, (f s).1 = r (o s) (view s)) (hg : ∀ s, view (f s).2 = g (o s) (view s)) :
    (atomic f : Prog σ χ β).vwp view S Q v ↔
      ∀ x, S.After v (g x v) (Q (r x v) (g x v)) := by
  constructor
  · intro h x ha
    obtain ⟨s, rfl, rfl⟩ := ho v x
    obtain ⟨c⟩ := ‹Nonempty χ›
    rw [← hg] at ha ⊢
    rw [← hr]
    exact h c s _ _ rfl rfl ha
  · intro h c s b s' hv hs ha
    obtain ⟨rfl, rfl⟩ := Prod.mk.inj (Option.some.inj hs)
    subst hv
    rw [hg] at ha ⊢
    rw [hr]
    exact h _ ha

omit hview in
/-- The same for an action without a result. -/
theorem vwp_modify_of {f : σ → σ} {o : σ → γ} {g : γ → V → V} {Q : Unit → V → Prop}
    (ho : ∀ v x, ∃ s, view s = v ∧ o s = x) (hg : ∀ s, view (f s) = g (o s) (view s)) :
    (modify f : Prog σ χ Unit).vwp view S Q v ↔
      ∀ x, S.After v (g x v) (Q () (g x v)) :=
  vwp_atomic_of (f := fun s => ((), f s)) (r := fun _ _ => ()) ho (fun _ => rfl) hg

omit hview in
/-- Reading the variables of other threads: any value may come. -/
theorem vwp_read_other {f : σ → β} {Q : β → V → Prop}
    (hf : ∀ v b, ∃ s, view s = v ∧ f s = b) :
    (read f : Prog σ χ β).vwp view S Q v ↔ ∀ b, Q b v := by
  constructor
  · intro h b
    obtain ⟨s, rfl, rfl⟩ := hf v b
    obtain ⟨c⟩ := ‹Nonempty χ›
    exact (h c s _ s rfl rfl (S.assume_refl _)).2
  · intro h c s b s' hv hs _
    obtain ⟨rfl, rfl⟩ := Prod.mk.inj (Option.some.inj hs)
    subst hv
    exact ⟨S.guar_refl _, h _⟩

omit [Nonempty χ] in
/-- Taking the environment's answer. -/
theorem vwp_ask {f : χ → Option β} {Q : β → V → Prop} :
    (ask f : Prog σ χ β).vwp view S Q v ↔ ∀ c b, f c = some b → Q b v := by
  constructor
  · intro h c b hc
    obtain ⟨s, rfl⟩ := hview v
    exact (h c s b s rfl (by simp [hc]) (S.assume_refl _)).2
  · intro h c s b s' hv hs _
    obtain ⟨b', hb, hs⟩ := Option.map_eq_some_iff.mp hs
    obtain ⟨rfl, rfl⟩ := Prod.mk.inj hs
    subst hv
    exact ⟨S.guar_refl _, h c _ hb⟩

end View

end Prog

end Threads
