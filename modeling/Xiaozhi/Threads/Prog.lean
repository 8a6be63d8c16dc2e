-- SUMMARY: Programs of threads that share a state: trees of atomic actions with loops, their one-step execution, and the footprint of a program.
import Mathlib.Logic.Function.Basic

/-!
# Thread programs

A thread is a tree of *atomic actions* on a shared state. An action sees the
state and an answer of the environment, and it either changes the state and
returns a result or is not enabled (a lock that is held, a thread that has not
ended, an answer that does not fit). Between two actions of one thread the
other threads may run; `Threads/System.lean` interleaves them.

The shared states `σ` and the answers `χ` are parameters.
-/

namespace Threads

/-- A program that returns an `α`. `iter b x k` is a loop with the loop-carried
    variables `x`: it runs `b x`, goes round again on `.inl y`, and leaves the
    loop for `k z` on `.inr z`. -/
inductive Prog (σ χ : Type) : Type → Type 1 where
  | ret {α : Type} (a : α) : Prog σ χ α
  | act {α β : Type} (f : χ → σ → Option (β × σ)) (k : β → Prog σ χ α) : Prog σ χ α
  | iter {α β γ : Type} (b : γ → Prog σ χ (γ ⊕ β)) (x : γ) (k : β → Prog σ χ α) : Prog σ χ α

namespace Prog

variable {σ χ α β γ : Type}

/-- Sequential composition. -/
def bind : Prog σ χ α → (α → Prog σ χ β) → Prog σ χ β
  | .ret a, g => g a
  | .act f k, g => .act f fun b => (k b).bind g
  | .iter b x k, g => .iter b x fun z => (k z).bind g

instance : Monad (Prog σ χ) where
  pure := .ret
  bind := bind

@[simp] theorem pure_eq (a : α) : (pure a : Prog σ χ α) = .ret a := rfl
@[simp] theorem ret_bind (a : α) (g : α → Prog σ χ β) : (.ret a >>= g : Prog σ χ β) = g a := rfl
@[simp] theorem act_bind (f : χ → σ → Option (γ × σ)) (k : γ → Prog σ χ α) (g : α → Prog σ χ β) :
    (.act f k >>= g : Prog σ χ β) = .act f fun b => k b >>= g := rfl

/-- One round of a loop, followed by what comes next. -/
def unroll (b : γ → Prog σ χ (γ ⊕ β)) (k : β → Prog σ χ α) : γ ⊕ β → Prog σ χ α
  | .inl y => .iter b y k
  | .inr z => k z

/-- One atomic step under the environment's answer `c`. A program that has
    returned makes no step, and neither does one whose action is not enabled. -/
def step (c : χ) (s : σ) : Prog σ χ α → Option (σ × Prog σ χ α)
  | .ret _ => none
  | .act f k => (f c s).map fun r => (r.2, k r.1)
  | .iter b x k => some (s, b x >>= unroll b k)

/-! ## Primitive actions -/

/-- An action that is always enabled and ignores the environment. -/
def atomic (f : σ → β × σ) : Prog σ χ β := .act (fun _ s => some (f s)) .ret

/-- Change the shared state. -/
def modify (f : σ → σ) : Prog σ χ Unit := .act (fun _ s => some ((), f s)) .ret

/-- Read the shared state. -/
def read (f : σ → β) : Prog σ χ β := .act (fun _ s => some (f s, s)) .ret

/-- Take the environment's answer; enabled for the answers that `f` accepts. -/
def ask (f : χ → Option β) : Prog σ χ β := .act (fun c s => (f c).map fun b => (b, s)) .ret

/-- Wait until `p` holds of the shared state, and change it. -/
def modifyWhen (p : σ → Bool) (f : σ → σ) : Prog σ χ Unit :=
  .act (fun _ s => if p s then some ((), f s) else none) .ret

/-- Wait until `p` holds of the shared state. -/
def await (p : σ → Bool) : Prog σ χ Unit := modifyWhen p id

/-- `while cond do body`. -/
def while_ (cond : Prog σ χ Bool) (body : Prog σ χ Unit) : Prog σ χ Unit :=
  .iter (fun _ : Unit => do
    if ← cond then
      body
      return .inl ()
    else
      return .inr ()) () .ret

/-! ## Footprints

`p.Within F` says that every action of `p` changes the state as `F` allows,
whatever the state it runs in. It is how a thread's ownership of variables is
stated: the actions of the thread leave the variables of the others alone. -/

/-- Every action of the program, from every state, is an `F`-change. -/
def Within (F : σ → σ → Prop) : {α : Type} → Prog σ χ α → Prop
  | _, .ret _ => True
  | _, .act f k => (∀ c s b s', f c s = some (b, s') → F s s') ∧ ∀ b, (k b).Within F
  | _, .iter b _ k => (∀ y, (b y).Within F) ∧ ∀ z, (k z).Within F

variable {F F' : σ → σ → Prop}

@[simp] theorem within_ret (a : α) : (.ret a : Prog σ χ α).Within F := trivial
@[simp] theorem within_pure (a : α) : (pure a : Prog σ χ α).Within F := trivial

theorem Within.bind {p : Prog σ χ α} {g : α → Prog σ χ β} (hp : p.Within F)
    (hg : ∀ a, (g a).Within F) : (p >>= g).Within F := by
  induction p with
  | ret a => exact hg a
  | act f k ih => exact ⟨hp.1, fun b => ih b (hp.2 b) hg⟩
  | iter b x k _ ih => exact ⟨hp.1, fun z => ih z (hp.2 z) hg⟩

theorem Within.mono (hF : ∀ s s', F s s' → F' s s') {p : Prog σ χ α} (hp : p.Within F) :
    p.Within F' := by
  induction p with
  | ret a => trivial
  | act f k ih => exact ⟨fun c s b s' h => hF s s' (hp.1 c s b s' h), fun b => ih b (hp.2 b)⟩
  | iter b x k ihb ihk => exact ⟨fun y => ihb y (hp.1 y), fun z => ihk z (hp.2 z)⟩

/-- A program keeps to two footprints at once. -/
theorem Within.and {p : Prog σ χ α} (hp : p.Within F) (hp' : p.Within F') :
    p.Within fun s s' => F s s' ∧ F' s s' := by
  induction p with
  | ret a => trivial
  | act f k ih => exact ⟨fun c s b s' h => ⟨hp.1 c s b s' h, hp'.1 c s b s' h⟩,
      fun b => ih b (hp.2 b) (hp'.2 b)⟩
  | iter b x k ihb ihk =>
    exact ⟨fun y => ihb y (hp.1 y) (hp'.1 y), fun z => ihk z (hp.2 z) (hp'.2 z)⟩

/-- A step of a program stays within its footprint, and so does what is left of it. -/
theorem Within.step {p p' : Prog σ χ α} {c : χ} {s s' : σ} (hF : ∀ s, F s s)
    (hp : p.Within F) (h : p.step c s = some (s', p')) : F s s' ∧ p'.Within F := by
  cases p with
  | ret a => cases h
  | act f k =>
    simp only [Prog.step, Option.map_eq_some_iff, Prod.mk.injEq] at h
    obtain ⟨⟨b, s₁⟩, hf, rfl, rfl⟩ := h
    exact ⟨hp.1 c s b _ hf, hp.2 b⟩
  | iter b x k =>
    simp only [Prog.step, Option.some.injEq, Prod.mk.injEq] at h
    obtain ⟨rfl, rfl⟩ := h
    refine ⟨hF s, (hp.1 x).bind fun r => ?_⟩
    cases r with
    | inl y => exact ⟨hp.1, hp.2⟩
    | inr z => exact hp.2 z

theorem within_atomic {f : σ → β × σ} (hf : ∀ s, F s (f s).2) :
    (atomic f : Prog σ χ β).Within F := by
  refine ⟨fun _ s _ s' h => ?_, fun _ => trivial⟩
  obtain rfl := congrArg Prod.snd (Option.some.inj h)
  exact hf s

theorem within_modify {f : σ → σ} (hf : ∀ s, F s (f s)) : (modify f : Prog σ χ Unit).Within F := by
  refine ⟨fun _ s _ s' h => ?_, fun _ => trivial⟩
  obtain rfl := congrArg Prod.snd (Option.some.inj h)
  exact hf s

theorem within_read (hF : ∀ s, F s s) {f : σ → β} : (read f : Prog σ χ β).Within F := by
  refine ⟨fun _ s _ s' h => ?_, fun _ => trivial⟩
  obtain rfl := congrArg Prod.snd (Option.some.inj h)
  exact hF s

theorem within_ask (hF : ∀ s, F s s) {f : χ → Option β} : (ask f : Prog σ χ β).Within F := by
  refine ⟨fun c s b s' h => ?_, fun _ => trivial⟩
  obtain ⟨_, _, h⟩ := Option.map_eq_some_iff.mp h
  obtain rfl := congrArg Prod.snd h
  exact hF s

theorem within_modifyWhen {p : σ → Bool} {f : σ → σ} (hf : ∀ s, p s = true → F s (f s)) :
    (modifyWhen p f : Prog σ χ Unit).Within F := by
  refine ⟨fun _ s _ s' h => ?_, fun _ => trivial⟩
  obtain ⟨hp, h⟩ := Option.ite_none_right_eq_some.mp h
  obtain rfl := congrArg Prod.snd (Option.some.inj h)
  exact hf s hp

theorem within_await (hF : ∀ s, F s s) {p : σ → Bool} : (await p : Prog σ χ Unit).Within F :=
  within_modifyWhen fun s _ => hF s

/-- An action given by its transition function. -/
theorem within_act {f : χ → σ → Option (β × σ)} (hf : ∀ c s b s', f c s = some (b, s') → F s s') :
    (.act f .ret : Prog σ χ β).Within F := ⟨hf, fun _ => trivial⟩

/-- What an action does is within its footprint. -/
theorem Within.act {f : χ → σ → Option (β × σ)} {k : β → Prog σ χ α} {c : χ} {s s' : σ} {b : β}
    (h : (.act f k : Prog σ χ α).Within F) (hf : f c s = some (b, s')) : F s s' := h.1 c s b s' hf

theorem within_ite {c : Prop} [Decidable c] {p q : Prog σ χ α} (hp : p.Within F)
    (hq : q.Within F) : (if c then p else q).Within F := by
  split
  · exact hp
  · exact hq

theorem within_while {cond : Prog σ χ Bool} {body : Prog σ χ Unit} (hc : cond.Within F)
    (hb : body.Within F) : (while_ cond body).Within F := by
  refine ⟨fun _ => hc.bind fun again => ?_, fun _ => trivial⟩
  cases again with
  | true => exact hb.bind fun _ => trivial
  | false => trivial

end Prog

end Threads
