-- SUMMARY: Systems of threads under any schedule: reachable configurations, and the rules that lift per-thread reasoning to them.
import Xiaozhi.Threads.Wp

/-!
# Systems of threads

Each thread `i` repeats its program `body i` for ever, under any schedule. A
configuration holds the shared state and what is left of each thread's current
round; a thread is *at its loop boundary* when it is between two rounds.

`Reach body ok init cfg` says that some run from `init` all of whose steps meet
the condition `ok` reaches `cfg`. Facts about the steps of a run are proved one
after the other and collected in `ok` (`Reach.strengthen`), so that a later
proof may use the earlier ones as conditions.
-/

namespace Threads

/-- The shared state, and what is left of each thread's current round. -/
structure Config (ι σ χ : Type) where
  shared : σ
  cur : ι → Option (Prog σ χ Unit)

variable {ι σ χ : Type} [DecidableEq ι]

/-- One step of thread `i` under the environment's answer `c`: enter the next
    round, leave a finished one, or make one atomic step. -/
def Config.step (body : ι → Prog σ χ Unit) (i : ι) (c : χ) (cfg : Config ι σ χ) :
    Option (Config ι σ χ) :=
  match cfg.cur i with
  | none => some { cfg with cur := Function.update cfg.cur i (some (body i)) }
  | some (.ret _) => some { cfg with cur := Function.update cfg.cur i none }
  | some p => (p.step c cfg.shared).map fun r =>
      { shared := r.1, cur := Function.update cfg.cur i (some r.2) }

/-- Let thread `i` make `n` steps that pass the test `check`. A step that `idle`
    enables takes that answer; the other steps take the given answers one after
    the other. -/
def Config.drive (body : ι → Prog σ χ Unit) (check : ι → σ → σ → Bool) (idle : χ) (i : ι) :
    Nat → List χ → Config ι σ χ → Option (Config ι σ χ)
  | 0, answers, cfg => if answers.isEmpty then some cfg else none
  | n + 1, answers, cfg =>
    match cfg.step body i idle with
    | some cfg' =>
      if check i cfg.shared cfg'.shared then cfg'.drive body check idle i n answers else none
    | none =>
      match answers with
      | c :: answers => (cfg.step body i c).bind fun cfg' =>
        if check i cfg.shared cfg'.shared then cfg'.drive body check idle i n answers else none
      | [] => none

/-- Let the threads make steps in turn. -/
def Config.play (body : ι → Prog σ χ Unit) (check : ι → σ → σ → Bool) (idle : χ) :
    List (ι × Nat × List χ) → Config ι σ χ → Option (Config ι σ χ)
  | [], cfg => some cfg
  | (i, n, answers) :: turns, cfg =>
    (cfg.drive body check idle i n answers).bind (Config.play body check idle turns)

/-- Let the threads make steps in turn, with an `idle` of its own for every turn. -/
def Config.playTurns (body : ι → Prog σ χ Unit) (check : ι → σ → σ → Bool) :
    List (χ × ι × Nat × List χ) → Config ι σ χ → Option (Config ι σ χ)
  | [], cfg => some cfg
  | (idle, turn) :: turns, cfg =>
    (cfg.play body check idle [turn]).bind (Config.playTurns body check turns)

/-- What thread `i` satisfies inside a round, and between two rounds. -/
def Config.Local (cfg : Config ι σ χ) (i : ι) (P : Prog σ χ Unit → σ → Prop) (J : σ → Prop) :
    Prop :=
  match cfg.cur i with
  | none => J cfg.shared
  | some p => P p cfg.shared

/-- The inversion of a step: it changes the thread that steps only, and either
    leaves the shared state alone or is a step of that thread's program. -/
theorem Config.step_cases {body : ι → Prog σ χ Unit} {i : ι} {c : χ} {cfg cfg' : Config ι σ χ}
    (h : cfg.step body i c = some cfg') :
    (∀ j, j ≠ i → cfg'.cur j = cfg.cur j) ∧
    ((cfg.cur i = none ∧ cfg'.shared = cfg.shared ∧ cfg'.cur i = some (body i)) ∨
     (cfg.cur i = some (.ret ()) ∧ cfg'.shared = cfg.shared ∧ cfg'.cur i = none) ∨
     ∃ p p', cfg.cur i = some p ∧ p.step c cfg.shared = some (cfg'.shared, p') ∧
       cfg'.cur i = some p') := by
  unfold Config.step at h
  split at h
  · next hcur =>
    obtain rfl := Option.some.inj h
    exact ⟨fun j hj => Function.update_of_ne hj _ _, .inl ⟨hcur, rfl, Function.update_self ..⟩⟩
  · next hcur =>
    obtain rfl := Option.some.inj h
    exact ⟨fun j hj => Function.update_of_ne hj _ _,
      .inr (.inl ⟨hcur, rfl, Function.update_self ..⟩)⟩
  · next p _ hcur =>
    obtain ⟨⟨s', p'⟩, hp, rfl⟩ := Option.map_eq_some_iff.mp h
    exact ⟨fun j hj => Function.update_of_ne hj _ _,
      .inr (.inr ⟨p, p', hcur, hp, Function.update_self ..⟩)⟩

/-- The step of a thread whose next action is enabled. -/
theorem Config.step_act {body : ι → Prog σ χ Unit} {i : ι} {c : χ} {cfg : Config ι σ χ} {β : Type}
    {f : χ → σ → Option (β × σ)} {k : β → Prog σ χ Unit} {b : β} {s : σ}
    (hcur : cfg.cur i = some (.act f k)) (hf : f c cfg.shared = some (b, s)) :
    cfg.step body i c =
      some { shared := s, cur := Function.update cfg.cur i (some (k b)) } := by
  simp only [Config.step, hcur, Prog.step, hf, Option.map_some]

theorem Config.drive_succ {body : ι → Prog σ χ Unit} {check : ι → σ → σ → Bool} {idle : χ} {i : ι}
    {n : Nat} {answers : List χ} {cfg cfg' : Config ι σ χ} (hs : cfg.step body i idle = some cfg')
    (hc : check i cfg.shared cfg'.shared = true) :
    cfg.drive body check idle i (n + 1) answers = cfg'.drive body check idle i n answers := by
  simp only [Config.drive, hs, hc, if_true]

/-- The configurations that runs from `init` reach when all their steps meet `ok`. -/
inductive Reach (body : ι → Prog σ χ Unit) (ok : ι → σ → σ → Prop) (init : Config ι σ χ) :
    Config ι σ χ → Prop where
  | refl : Reach body ok init init
  | step {cfg cfg' : Config ι σ χ} {i : ι} {c : χ} : Reach body ok init cfg →
      cfg.step body i c = some cfg' → ok i cfg.shared cfg'.shared → Reach body ok init cfg'

namespace Reach

variable {body : ι → Prog σ χ Unit} {ok ok' : ι → σ → σ → Prop} {init cfg cfg' : Config ι σ χ}

theorem of_drive {check : ι → σ → σ → Bool} {idle : χ} {i : ι} {n : Nat} {answers : List χ}
    (hok : ∀ i s s', check i s s' = true → ok i s s') (h : Reach body ok init cfg)
    (hdrive : cfg.drive body check idle i n answers = some cfg') : Reach body ok init cfg' := by
  induction n generalizing cfg answers with
  | zero =>
    obtain ⟨-, h'⟩ := Option.ite_none_right_eq_some.mp hdrive
    exact Option.some.inj h' ▸ h
  | succ n ih =>
    unfold Config.drive at hdrive
    split at hdrive
    · next hs =>
      obtain ⟨hc, hdrive⟩ := Option.ite_none_right_eq_some.mp hdrive
      exact ih (h.step hs (hok _ _ _ hc)) hdrive
    · split at hdrive
      · obtain ⟨cfg₁, hs, hdrive⟩ := Option.bind_eq_some_iff.mp hdrive
        obtain ⟨hc, hdrive⟩ := Option.ite_none_right_eq_some.mp hdrive
        exact ih (h.step hs (hok _ _ _ hc)) hdrive
      · cases hdrive

/-- Turns that the threads can take lead to a configuration of a run. -/
theorem of_play {check : ι → σ → σ → Bool} {idle : χ} {turns : List (ι × Nat × List χ)}
    (hok : ∀ i s s', check i s s' = true → ok i s s') (h : Reach body ok init cfg)
    (hplay : cfg.play body check idle turns = some cfg') : Reach body ok init cfg' := by
  induction turns generalizing cfg with
  | nil => exact Option.some.inj hplay ▸ h
  | cons turn turns ih =>
    obtain ⟨cfg₁, hdrive, hplay⟩ := Option.bind_eq_some_iff.mp hplay
    exact ih (of_drive hok h hdrive) hplay

theorem of_playTurns {check : ι → σ → σ → Bool} {turns : List (χ × ι × Nat × List χ)}
    (hok : ∀ i s s', check i s s' = true → ok i s s') (h : Reach body ok init cfg)
    (hplay : cfg.playTurns body check turns = some cfg') : Reach body ok init cfg' := by
  induction turns generalizing cfg with
  | nil => exact Option.some.inj hplay ▸ h
  | cons turn turns ih =>
    obtain ⟨cfg₁, hturn, hplay⟩ := Option.bind_eq_some_iff.mp hplay
    exact ih (of_play hok h hturn) hplay

/-- What is proved of every step of the runs becomes a condition on them. -/
theorem strengthen
    (h : ∀ cfg cfg' i c, Reach body ok init cfg → cfg.step body i c = some cfg' →
      ok i cfg.shared cfg'.shared → ok' i cfg.shared cfg'.shared)
    (hr : Reach body ok init cfg) : Reach body ok' init cfg := by
  induction hr with
  | refl => exact .refl
  | step hr hs hok ih => exact ih.step hs (h _ _ _ _ hr hs hok)

/-- An invariant of the shared state: it holds at first and every step keeps it. -/
theorem invariant {Inv : σ → Prop} (h₀ : Inv init.shared)
    (hstep : ∀ i s s', ok i s s' → Inv s → Inv s') (hr : Reach body ok init cfg) :
    Inv cfg.shared := by
  induction hr with
  | refl => exact h₀
  | step _ _ hok ih => exact hstep _ _ _ hok ih

/-- A thread keeps to its footprint: the initial rounds and the bodies decide
    what every step of a run can change. -/
theorem within {F : ι → σ → σ → Prop} (hF : ∀ i s, F i s s) (hbody : ∀ i, (body i).Within (F i))
    (hinit : ∀ i p, init.cur i = some p → p.Within (F i)) (hr : Reach body ok init cfg) :
    ∀ i p, cfg.cur i = some p → p.Within (F i) := by
  induction hr with
  | refl => exact hinit
  | @step cfg cfg' i c _ hs _ ih =>
    intro j p hp
    obtain ⟨hne, h⟩ := Config.step_cases hs
    by_cases hj : j = i
    · subst hj
      obtain ⟨-, -, h⟩ | ⟨-, -, h⟩ | ⟨q, q', hq, hstep, h⟩ := h
      · obtain rfl := Option.some.inj (hp.symm.trans h)
        exact hbody j
      · cases hp.symm.trans h
      · obtain rfl := Option.some.inj (hp.symm.trans h)
        exact (Prog.Within.step (hF j) (ih j q hq) hstep).2
    · exact ih j p (hne j hj ▸ hp)

/-- Every step of a run stays within the footprint of the thread that makes it. -/
theorem step_within {F : ι → σ → σ → Prop} (hF : ∀ i s, F i s s)
    (hbody : ∀ i, (body i).Within (F i)) (hinit : ∀ i p, init.cur i = some p → p.Within (F i))
    (hr : Reach body ok init cfg) {i : ι} {c : χ} (hs : cfg.step body i c = some cfg') :
    F i cfg.shared cfg'.shared := by
  obtain ⟨-, ⟨-, h, -⟩ | ⟨-, h, -⟩ | ⟨p, p', hp, hstep, -⟩⟩ := Config.step_cases hs
  · rw [h]; exact hF i _
  · rw [h]; exact hF i _
  · exact (Prog.Within.step (hF i) (within hF hbody hinit hr i p hp) hstep).1

section Thread

variable {C : Contract σ} {J : σ → Prop} {i : ι}
  (hassume : ∀ s s', ok i s s' → C.assume s s')
  (hrely : ∀ j s s', j ≠ i → ok j s s' → C.rely s s')
  (hJ : ∀ s s', J s → C.rely s s' → J s')
  (hbody : ∀ s, J s → (body i).wp C (fun _ => J) s)
  (hinit : init.Local i (fun p => p.wp C fun _ => J) J)
include hassume hrely hJ hbody hinit

/-- The rely/guarantee rule for one thread: if its body keeps `J` from one loop
    boundary to the next under the steps of the others, then `J` holds at every
    loop boundary of every run. -/
theorem thread (hr : Reach body ok init cfg) : cfg.Local i (fun p => p.wp C fun _ => J) J := by
  induction hr with
  | refl => exact hinit
  | @step cfg cfg' j c _ hs hok ih =>
    obtain ⟨hne, h⟩ := Config.step_cases hs
    by_cases hj : i = j
    · subst hj
      unfold Config.Local at ih ⊢
      obtain ⟨h, hs, h'⟩ | ⟨h, hs, h'⟩ | ⟨p, p', h, hstep, h'⟩ := h
      · rw [h] at ih
        rw [h', hs]
        exact hbody _ ih
      · rw [h] at ih
        rw [h', hs]
        exact ih _ (C.rely_refl _)
      · rw [h] at ih
        rw [h']
        exact (Prog.wp.step ih hstep (hassume _ _ hok)).2
    · have hrely := hrely j _ _ (Ne.symm hj) hok
      unfold Config.Local at ih ⊢
      rw [hne i hj]
      split at ih
      · exact hJ _ _ ih hrely
      · exact Prog.wp.rely ih hrely

/-- Every step of the thread keeps its guarantee. -/
theorem thread_guar (hr : Reach body ok init cfg) {c : χ} (hs : cfg.step body i c = some cfg')
    (hok : ok i cfg.shared cfg'.shared) :
    C.guar cfg.shared cfg'.shared ∨ cfg'.shared = cfg.shared := by
  have hlocal := thread hassume hrely hJ hbody hinit hr
  obtain ⟨-, ⟨-, h, -⟩ | ⟨-, h, -⟩ | ⟨p, p', hp, hstep, -⟩⟩ := Config.step_cases hs
  · exact .inr h
  · exact .inr h
  · unfold Config.Local at hlocal
    rw [hp] at hlocal
    exact (Prog.wp.step hlocal hstep (hassume _ _ hok)).1

end Thread

end Reach

end Threads
