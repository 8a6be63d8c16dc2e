-- SUMMARY: Program points of threads, and the rule for invariants that speak about where threads stand.
import Xiaozhi.Threads.System

/-!
# Program points

Some invariants depend on how far threads have got in their rounds. Such a
thread is described by its *points*: each stands for what is left of the round,
and `moves` says to which point a step leads and what it does to the shared
state. An invariant over the points of several threads and the shared state
holds in every run if every step keeps it (`Reach.points`).
-/

namespace Threads

variable {ι κ σ χ : Type} [DecidableEq ι] [DecidableEq κ]

/-- One step of a thread that repeats `body`, from what is left of its round. -/
def turn (body : Prog σ χ Unit) (c : χ) (s : σ) :
    Option (Prog σ χ Unit) → Option (σ × Option (Prog σ χ Unit))
  | none => some (s, some body)
  | some (.ret _) => some (s, none)
  | some p => (p.step c s).map fun r => (r.1, some r.2)

/-- The turn of a thread that is about to perform an action. -/
theorem turn_act {body : Prog σ χ Unit} {c : χ} {s s' : σ} {p' : Option (Prog σ χ Unit)} {β : Type}
    {f : χ → σ → Option (β × σ)} {k : β → Prog σ χ Unit}
    (h : turn body c s (some (.act f k)) = some (s', p')) :
    ∃ b, f c s = some (b, s') ∧ p' = some (k b) := by
  obtain ⟨⟨s₁, p₁⟩, hstep, heq⟩ := Option.map_eq_some_iff.mp h
  obtain ⟨⟨b, s₂⟩, hf, heq'⟩ := Option.map_eq_some_iff.mp hstep
  obtain ⟨rfl, rfl⟩ := Prod.mk.inj heq'
  obtain ⟨rfl, rfl⟩ := Prod.mk.inj heq
  exact ⟨b, hf, rfl⟩

theorem Config.step_turn {body : ι → Prog σ χ Unit} {i : ι} {c : χ} {cfg cfg' : Config ι σ χ}
    (h : cfg.step body i c = some cfg') :
    turn (body i) c cfg.shared (cfg.cur i) = some (cfg'.shared, cfg'.cur i) ∧
      ∀ j, j ≠ i → cfg'.cur j = cfg.cur j := by
  refine ⟨?_, (Config.step_cases h).1⟩
  cases hcur : cfg.cur i with
  | none =>
    simp only [Config.step, hcur] at h
    obtain rfl := Option.some.inj h
    simp [turn]
  | some p =>
    cases p with
    | ret a =>
      simp only [Config.step, hcur] at h
      obtain rfl := Option.some.inj h
      simp [turn]
    | act f k =>
      simp only [Config.step, hcur] at h
      obtain ⟨r, hp, rfl⟩ := Option.map_eq_some_iff.mp h
      simp [turn, hp]
    | iter b x k =>
      simp only [Config.step, hcur] at h
      obtain ⟨r, hp, rfl⟩ := Option.map_eq_some_iff.mp h
      simp [turn, hp]

/-- The points of a thread that repeats `body`. -/
structure Points (body : Prog σ χ Unit) where
  Point : Type
  /-- What is left of the round at a point. -/
  program : Point → Option (Prog σ χ Unit)
  /-- A step from one point to another, and what it does to the shared state. -/
  Moves : Point → σ → σ → Point → Prop
  moves : ∀ pt c s s' p', turn body c s (program pt) = some (s', p') →
    ∃ pt', p' = program pt' ∧ Moves pt s s' pt'

/-- The rule for an invariant over the points of the threads `e j` and the shared state. -/
theorem Reach.points {body : ι → Prog σ χ Unit} {ok : ι → σ → σ → Prop}
    {init cfg : Config ι σ χ} {e : κ → ι} (he : Function.Injective e)
    (pts : (j : κ) → Points (body (e j))) {Inv : ((j : κ) → (pts j).Point) → σ → Prop}
    (hinit : ∃ loc, (∀ j, init.cur (e j) = (pts j).program (loc j)) ∧ Inv loc init.shared)
    (hmoves : ∀ j loc s s' pt', ok (e j) s s' → (pts j).Moves (loc j) s s' pt' → Inv loc s →
      Inv (Function.update loc j pt') s')
    (hother : ∀ i loc s s', (∀ j, e j ≠ i) → ok i s s' → Inv loc s → Inv loc s')
    (hr : Reach body ok init cfg) :
    ∃ loc, (∀ j, cfg.cur (e j) = (pts j).program (loc j)) ∧ Inv loc cfg.shared := by
  induction hr with
  | refl => exact hinit
  | @step cfg cfg' i c _ hs hok ih =>
    obtain ⟨loc, hloc, hinv⟩ := ih
    obtain ⟨hturn, hne⟩ := Config.step_turn hs
    by_cases hi : ∃ j, e j = i
    · obtain ⟨j, rfl⟩ := hi
      rw [hloc j] at hturn
      obtain ⟨pt', hp', hmove⟩ := (pts j).moves _ _ _ _ _ hturn
      refine ⟨Function.update loc j pt', fun j' => ?_, hmoves j loc _ _ pt' hok hmove hinv⟩
      by_cases hj : j' = j
      · subst hj
        rw [Function.update_self]
        exact hp'
      · rw [Function.update_of_ne hj, hne _ fun heq => hj (he heq)]
        exact hloc j'
    · have hi : ∀ j, e j ≠ i := not_exists.mp hi
      exact ⟨loc, fun j => (hne _ (hi j)).trans (hloc j), hother i loc _ _ hi hok hinv⟩

end Threads
