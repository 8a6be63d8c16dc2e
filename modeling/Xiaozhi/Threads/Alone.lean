-- SUMMARY: Programs that run undisturbed: their complete runs, and the rules that take a run apart along the program.
import Mathlib.Logic.Relation
import Xiaozhi.Threads.Wp

/-!
# Undisturbed runs

`p.Runs ok s a s'` says that the program `p`, started in `s`, can return `a` in
`s'` when no other thread makes a step in between and the environment gives
only answers that `ok` admits.
-/

namespace Threads

namespace Prog

variable {σ χ α β γ : Type}

/-- A step of the program under an admitted answer. -/
def Moves (ok : χ → Prop) (x y : σ × Prog σ χ α) : Prop := ∃ c, ok c ∧ x.2.step c x.1 = some y

/-- A complete run of a program that nobody disturbs. -/
def Runs (ok : χ → Prop) (p : Prog σ χ α) (s : σ) (a : α) (s' : σ) : Prop :=
  Relation.ReflTransGen (Moves ok) (s, p) (s', .ret a)

variable {ok : χ → Prop} {s s' : σ}

@[simp] theorem runs_ret {a a' : α} : (.ret a : Prog σ χ α).Runs ok s a' s' ↔ a' = a ∧ s' = s := by
  constructor
  · intro h
    rcases Relation.ReflTransGen.cases_head h with heq | ⟨y, ⟨c, -, hstep⟩, -⟩
    · cases heq
      exact ⟨rfl, rfl⟩
    · cases hstep
  · rintro ⟨rfl, rfl⟩
    exact .refl

theorem runs_act {f : χ → σ → Option (β × σ)} {k : β → Prog σ χ α} {a : α} :
    (.act f k : Prog σ χ α).Runs ok s a s' ↔
      ∃ c b s₁, ok c ∧ f c s = some (b, s₁) ∧ (k b).Runs ok s₁ a s' := by
  constructor
  · intro h
    rcases Relation.ReflTransGen.cases_head h with heq | ⟨y, ⟨c, hc, hstep⟩, hrest⟩
    · cases heq
    · obtain ⟨⟨b, s₁⟩, hf, rfl⟩ := Option.map_eq_some_iff.mp hstep
      exact ⟨c, b, s₁, hc, hf, hrest⟩
  · rintro ⟨c, b, s₁, hc, hf, hrest⟩
    refine .head ⟨c, hc, ?_⟩ hrest
    simp only [step, hf, Option.map_some]

theorem bind_assoc {p : Prog σ χ α} {g : α → Prog σ χ β} {h : β → Prog σ χ γ} :
    (p >>= g) >>= h = p >>= fun a => g a >>= h := by
  induction p with
  | ret a => rfl
  | act f k ih => exact congrArg (Prog.act f) (funext fun b => ih b)
  | iter b x k _ ih => exact congrArg (Prog.iter b x) (funext fun z => ih z)

theorem unroll_bind {b : γ → Prog σ χ (γ ⊕ β)} {k : β → Prog σ χ α} {g : α → Prog σ χ δ}
    (r : γ ⊕ β) : unroll b (fun z => k z >>= g) r = unroll b k r >>= g := by
  cases r <;> rfl

/-- A step of a composition is a step of the first program, until that returns. -/
theorem step_bind {p : Prog σ χ α} {g : α → Prog σ χ β} {c : χ} (hp : ∀ a, p ≠ .ret a) :
    (p >>= g).step c s = (p.step c s).map fun y => (y.1, y.2 >>= g) := by
  cases p with
  | ret a => exact absurd rfl (hp a)
  | act f k =>
    change (f c s).map _ = ((f c s).map _).map _
    rw [Option.map_map]
    rfl
  | iter b x k =>
    change some (s, b x >>= unroll b fun z => k z >>= g) = some (s, (b x >>= unroll b k) >>= g)
    rw [bind_assoc, funext unroll_bind]

/-- A run of a composition is a run of the first program, then one of the second. -/
theorem runs_bind {p : Prog σ χ α} {g : α → Prog σ χ β} {b : β} :
    (p >>= g).Runs ok s b s' ↔ ∃ a s₁, p.Runs ok s a s₁ ∧ (g a).Runs ok s₁ b s' := by
  constructor
  · -- the induction is on the moves, for whatever the first program has become
    have hsplit : ∀ x : σ × Prog σ χ β, Relation.ReflTransGen (Moves ok) x (s', .ret b) →
        ∀ s p, x = (s, p >>= g) → ∃ a s₁, p.Runs ok s a s₁ ∧ (g a).Runs ok s₁ b s' := by
      intro x hx
      induction hx using Relation.ReflTransGen.head_induction_on with
      | refl =>
        intro s p hx
        cases p with
        | ret a =>
          obtain ⟨rfl, hg⟩ := Prod.mk.inj hx
          refine ⟨a, s', .refl, ?_⟩
          rw [show g a = .ret b from hg.symm]
          exact .refl
        | act f k => cases hx
        | iter b x k => cases hx
      | head hmove hrest ih =>
        rintro s p rfl
        by_cases hp : ∃ a, p = .ret a
        · obtain ⟨a, rfl⟩ := hp
          exact ⟨a, s, .refl, .head hmove hrest⟩
        · obtain ⟨c, hc, hstep⟩ := hmove
          rw [step_bind fun a ha => hp ⟨a, ha⟩] at hstep
          obtain ⟨⟨s₂, q⟩, hq, rfl⟩ := Option.map_eq_some_iff.mp hstep
          obtain ⟨a, s₁, hrun, hg⟩ := ih s₂ q rfl
          exact ⟨a, s₁, .head ⟨c, hc, hq⟩ hrun, hg⟩
    exact fun h => hsplit _ h s p rfl
  · rintro ⟨a, s₁, hrun, hg⟩
    have hlift : ∀ x : σ × Prog σ χ α, Relation.ReflTransGen (Moves ok) x (s₁, .ret a) →
        Relation.ReflTransGen (Moves ok) (x.1, x.2 >>= g) (s', .ret b) := by
      intro x hx
      induction hx using Relation.ReflTransGen.head_induction_on with
      | refl => exact hg
      | @head x y hmove _ ih =>
        obtain ⟨c, hc, hstep⟩ := hmove
        refine .head ⟨c, hc, ?_⟩ ih
        rw [step_bind fun a ha => ?_, hstep]
        · rfl
        · rw [ha] at hstep
          cases hstep
    exact hlift _ hrun

/-- What every action may do, closed under composition, is what a run may do. -/
theorem Within.runs {F : σ → σ → Prop} (hrefl : ∀ s, F s s)
    (htrans : ∀ {s₁ s₂ s₃}, F s₁ s₂ → F s₂ s₃ → F s₁ s₃) {p : Prog σ χ α} {a : α}
    (hp : p.Within F) (hruns : p.Runs ok s a s') : F s s' := by
  have hall : ∀ x : σ × Prog σ χ α, Relation.ReflTransGen (Moves ok) x (s', .ret a) →
      x.2.Within F → F x.1 s' := by
    intro x hx
    induction hx using Relation.ReflTransGen.head_induction_on with
    | refl => exact fun _ => hrefl s'
    | head hmove _ ih =>
      intro hwithin
      obtain ⟨c, -, hstep⟩ := hmove
      obtain ⟨hF, hnext⟩ := Within.step hrefl hwithin hstep
      exact htrans hF (ih hnext)
  exact hall _ hruns hp

/-! ## Weakest preconditions -/

/-- The contract of a thread that nobody disturbs: it may do anything. -/
def alone : Contract σ where
  rely s s' := s' = s
  assume _ _ := True
  guar _ _ := True
  rely_refl _ := rfl
  rely_trans h₁ h₂ := h₂.trans h₁

/-- A weakest precondition speaks of all undisturbed runs. -/
theorem Runs.of_wp {p : Prog σ χ α} {a : α} {Q : α → σ → Prop} (h : p.wp alone Q s)
    (hruns : p.Runs ok s a s') : Q a s' := by
  have hall : ∀ x : σ × Prog σ χ α, Relation.ReflTransGen (Moves ok) x (s', .ret a) →
      x.2.wp alone Q x.1 → Q a s' := by
    intro x hx
    induction hx using Relation.ReflTransGen.head_induction_on with
    | refl =>
      intro hret
      exact hret s' rfl
    | head hmove _ ih =>
      intro hwp
      obtain ⟨c, -, hstep⟩ := hmove
      exact ih (wp.step hwp hstep trivial).2
  exact hall _ hruns h

theorem wp_alone_act {f : χ → σ → Option (β × σ)} {k : β → Prog σ χ α} {Q : α → σ → Prop}
    (h : ∀ c b s₁, f c s = some (b, s₁) → (k b).wp alone Q s₁) :
    (.act f k : Prog σ χ α).wp alone Q s := by
  rintro s₁ rfl c b s₂ hf -
  exact ⟨trivial, h c b s₂ hf⟩

theorem wp_alone_ret {a : α} {Q : α → σ → Prop} (h : Q a s) : (.ret a : Prog σ χ α).wp alone Q s := by
  rintro s₁ rfl
  exact h

theorem wp_alone_read {f : σ → β} {Q : β → σ → Prop} (h : Q (f s) s) :
    (read f : Prog σ χ β).wp alone Q s := by
  refine wp_alone_act fun c b s₁ hf => wp_alone_ret ?_
  obtain ⟨rfl, rfl⟩ := Prod.mk.inj (Option.some.inj hf)
  exact h

theorem wp_alone_modify {f : σ → σ} {Q : Unit → σ → Prop} (h : Q () (f s)) :
    (modify f : Prog σ χ Unit).wp alone Q s := by
  refine wp_alone_act fun c b s₁ hf => wp_alone_ret ?_
  obtain ⟨-, rfl⟩ := Prod.mk.inj (Option.some.inj hf)
  exact h

/-- A loop that nobody disturbs keeps its invariant until it ends. -/
theorem wp_alone_iter {b : γ → Prog σ χ (γ ⊕ β)} {x : γ} {k : β → Prog σ χ α} {Q : α → σ → Prop}
    (I : γ → σ → Prop) (hx : I x s)
    (hb : ∀ y s, I y s → (b y).wp alone (fun r s => match r with
      | .inl y => I y s
      | .inr z => (k z).wp alone Q s) s) :
    (.iter b x k : Prog σ χ α).wp alone Q s := by
  refine ⟨I, ?_, hx, hb⟩
  rintro y s s' hI rfl
  exact hI

/-! ## Primitive actions -/

variable (hok : ∃ c, ok c)
include hok

theorem runs_modify {f : σ → σ} {u : Unit} :
    (modify f : Prog σ χ Unit).Runs ok s u s' ↔ s' = f s := by
  rw [modify, runs_act]
  constructor
  · rintro ⟨c, b, s₁, -, hf, hrun⟩
    obtain ⟨-, rfl⟩ := runs_ret.mp hrun
    exact (Prod.mk.inj (Option.some.inj hf)).2.symm
  · rintro rfl
    obtain ⟨c, hc⟩ := hok
    exact ⟨c, (), f s, hc, rfl, .refl⟩

theorem runs_modifyWhen {q : σ → Bool} {f : σ → σ} {u : Unit} :
    (modifyWhen q f : Prog σ χ Unit).Runs ok s u s' ↔ q s = true ∧ s' = f s := by
  rw [modifyWhen, runs_act]
  constructor
  · rintro ⟨c, b, s₁, -, hf, hrun⟩
    obtain ⟨hq, hf⟩ := Option.ite_none_right_eq_some.mp hf
    obtain ⟨-, rfl⟩ := runs_ret.mp hrun
    exact ⟨hq, (Prod.mk.inj (Option.some.inj hf)).2.symm⟩
  · rintro ⟨hq, rfl⟩
    obtain ⟨c, hc⟩ := hok
    exact ⟨c, (), f s, hc, if_pos hq, .refl⟩

theorem runs_read {f : σ → β} {b : β} :
    (read f : Prog σ χ β).Runs ok s b s' ↔ b = f s ∧ s' = s := by
  rw [read, runs_act]
  constructor
  · rintro ⟨c, b', s₁, -, hf, hrun⟩
    obtain ⟨rfl, rfl⟩ := Prod.mk.inj (Option.some.inj hf)
    exact runs_ret.mp hrun
  · rintro ⟨rfl, rfl⟩
    obtain ⟨c, hc⟩ := hok
    exact ⟨c, f s', s', hc, rfl, .refl⟩

theorem runs_atomic {f : σ → β × σ} {b : β} :
    (atomic f : Prog σ χ β).Runs ok s b s' ↔ f s = (b, s') := by
  rw [atomic, runs_act]
  constructor
  · rintro ⟨c, b', s₁, -, hf, hrun⟩
    obtain ⟨rfl, rfl⟩ := runs_ret.mp hrun
    exact Option.some.inj hf
  · intro hf
    obtain ⟨c, hc⟩ := hok
    exact ⟨c, b, s', hc, congrArg some hf, .refl⟩

/-- A program that begins with a read goes on with what it finds. -/
theorem runs_read_bind {f : σ → β} {g : β → Prog σ χ α} {a : α} :
    (read f >>= g).Runs ok s a s' ↔ (g (f s)).Runs ok s a s' := by
  rw [runs_bind]
  constructor
  · rintro ⟨b, s₁, hread, hrest⟩
    obtain ⟨rfl, rfl⟩ := (runs_read hok).mp hread
    exact hrest
  · exact fun hrest => ⟨f s, s, (runs_read hok).mpr ⟨rfl, rfl⟩, hrest⟩

/-- A program that begins with an atomic action goes on after it. -/
theorem runs_atomic_bind {f : σ → β × σ} {g : β → Prog σ χ α} {a : α} :
    (atomic f >>= g).Runs ok s a s' ↔ (g (f s).1).Runs ok (f s).2 a s' := by
  rw [runs_bind]
  constructor
  · rintro ⟨b, s₁, hatomic, hrest⟩
    rw [(runs_atomic hok).mp hatomic]
    exact hrest
  · exact fun hrest => ⟨(f s).1, (f s).2, (runs_atomic hok).mpr rfl, hrest⟩

theorem runs_modify_bind {f : σ → σ} {g : Unit → Prog σ χ α} {a : α} :
    (modify f >>= g).Runs ok s a s' ↔ (g ()).Runs ok (f s) a s' := by
  rw [runs_bind]
  constructor
  · rintro ⟨u, s₁, hmodify, hrest⟩
    obtain rfl := (runs_modify hok).mp hmodify
    exact hrest
  · exact fun hrest => ⟨(), f s, (runs_modify hok).mpr rfl, hrest⟩

omit hok in
theorem runs_ask {f : χ → Option β} {b : β} :
    (ask f : Prog σ χ β).Runs ok s b s' ↔ (∃ c, ok c ∧ f c = some b) ∧ s' = s := by
  rw [ask, runs_act]
  constructor
  · rintro ⟨c, b', s₁, hc, hf, hrun⟩
    obtain ⟨b'', hb, heq⟩ := Option.map_eq_some_iff.mp hf
    obtain ⟨rfl, rfl⟩ := Prod.mk.inj heq
    obtain ⟨rfl, rfl⟩ := runs_ret.mp hrun
    exact ⟨⟨c, hc, hb⟩, rfl⟩
  · rintro ⟨⟨c, hc, hb⟩, rfl⟩
    exact ⟨c, b, s', hc, by rw [hb]; rfl, .refl⟩

end Prog

end Threads
