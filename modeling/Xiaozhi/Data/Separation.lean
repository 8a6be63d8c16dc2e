-- SUMMARY: A separation logic for checked programs on a heap: assertions, their product, and specifications with a frame.
import Mathlib
import Xiaozhi.Data.Checked

/-!
# Separation

A heap maps the addresses in use to cells. An assertion is about a part of the
heap; `P * Q` is about a part that splits in two. `Spec P e p Q` says that `p`
runs without undefined behaviour in the part `P` of any heap, leaves `Q` there,
and does not touch the rest.

Allocation may fail, and may hand out every address that is not in use, also one
that was freed.
-/

namespace Separation

variable {κ ρ α β ι : Type}

/-! ## Heaps -/

/-- The cells in use, by their addresses. -/
abbrev Heap (κ : Type) : Type := Nat → Option κ

namespace Heap

variable {h h₁ h₂ h₃ : Heap κ}

/-- The heap without cells. -/
def empty : Heap κ := fun _ => none

/-- The cells of both heaps. -/
def union (h₁ h₂ : Heap κ) : Heap κ := fun p => (h₁ p).or (h₂ p)

/-- No address is in use in both heaps. -/
def Disjoint (h₁ h₂ : Heap κ) : Prop := ∀ p, h₁ p = none ∨ h₂ p = none

theorem Disjoint.symm (h : Disjoint h₁ h₂) : Disjoint h₂ h₁ := fun p => (h p).symm

theorem union_comm (h : Disjoint h₁ h₂) : union h₁ h₂ = union h₂ h₁ := by
  funext p
  obtain hp | hp := h p
  · simp [union, hp]
  · simp [union, hp]

theorem union_assoc : union (union h₁ h₂) h₃ = union h₁ (union h₂ h₃) :=
  funext fun _ => Option.or_assoc

@[simp] theorem empty_union : union empty h = h := funext fun _ => Option.none_or

theorem disjoint_empty : Disjoint empty h := fun _ => .inl rfl

theorem disjoint_union_left : Disjoint (union h₁ h₂) h₃ ↔ Disjoint h₁ h₃ ∧ Disjoint h₂ h₃ := by
  constructor
  · intro h
    constructor
    · intro p
      exact (h p).imp_left fun hp => (Option.or_eq_none_iff.mp hp).1
    · intro p
      exact (h p).imp_left fun hp => (Option.or_eq_none_iff.mp hp).2
  · rintro ⟨h, h'⟩ p
    obtain hp | hp := h p
    · exact (h' p).imp_left fun hp' => Option.or_eq_none_iff.mpr ⟨hp, hp'⟩
    · exact .inr hp

end Heap

/-! ## Assertions -/

/-- What is said about a part of a heap. -/
def Assertion (κ : Type) : Type := Heap κ → Prop

namespace Assertion

variable {P Q R F : Assertion κ} {p : Nat} {c c' : κ} {h : Heap κ} {φ : Prop}

instance : CompleteLattice (Assertion κ) := inferInstanceAs (CompleteLattice (Heap κ → Prop))

/-- The part splits in one for each assertion. -/
instance : Mul (Assertion κ) :=
  ⟨fun P Q h => ∃ h₁ h₂, Heap.Disjoint h₁ h₂ ∧ h = Heap.union h₁ h₂ ∧ P h₁ ∧ Q h₂⟩

/-- The part is empty. -/
instance : One (Assertion κ) := ⟨fun h => h = Heap.empty⟩

theorem mul_swap (hPQ : (P * Q) h) : (Q * P) h := by
  obtain ⟨h₁, h₂, hdisjoint, rfl, hP, hQ⟩ := hPQ
  exact ⟨h₂, h₁, hdisjoint.symm, Heap.union_comm hdisjoint, hQ, hP⟩

theorem mul_shift (hPQR : (P * Q * R) h) : (P * (Q * R)) h := by
  obtain ⟨h₁₂, h₃, hdisjoint, rfl, ⟨h₁, h₂, hdisjoint', rfl, hP, hQ⟩, hR⟩ := hPQR
  obtain ⟨hdisjoint₁, hdisjoint₂⟩ := Heap.disjoint_union_left.mp hdisjoint
  refine ⟨h₁, Heap.union h₂ h₃, ?_, Heap.union_assoc, hP, h₂, h₃, hdisjoint₂, rfl, hQ, hR⟩
  exact (Heap.disjoint_union_left.mpr ⟨hdisjoint'.symm, hdisjoint₁.symm⟩).symm

protected theorem mul_comm (P Q : Assertion κ) : P * Q = Q * P :=
  funext fun _ => propext ⟨mul_swap, mul_swap⟩

protected theorem one_mul (P : Assertion κ) : 1 * P = P := by
  funext h
  apply propext
  constructor
  · rintro ⟨h₁, h₂, -, rfl, rfl, hP⟩
    rwa [Heap.empty_union]
  · intro hP
    exact ⟨Heap.empty, h, Heap.disjoint_empty, Heap.empty_union.symm, rfl, hP⟩

instance : CommMonoid (Assertion κ) where
  mul_comm := Assertion.mul_comm
  one_mul := Assertion.one_mul
  mul_one P := (Assertion.mul_comm P 1).trans (Assertion.one_mul P)
  mul_assoc P Q R := by
    funext h
    apply propext
    constructor
    · exact mul_shift
    · intro hPQR
      rw [Assertion.mul_comm P, Assertion.mul_comm Q] at hPQR
      rw [Assertion.mul_comm _ R, Assertion.mul_comm P]
      exact mul_shift hPQR

theorem sSup_holds {S : Set (Assertion κ)} : (sSup S) h ↔ ∃ P ∈ S, P h := by
  constructor
  · rintro ⟨_, ⟨⟨P, hP⟩, rfl⟩, hh⟩
    exact ⟨P, hP, hh⟩
  · rintro ⟨P, hP, hh⟩
    exact ⟨_, ⟨⟨P, hP⟩, rfl⟩, hh⟩

theorem iSup_holds {ι : Sort*} {P : ι → Assertion κ} : (⨆ i, P i) h ↔ ∃ i, P i h := by
  rw [iSup, sSup_holds]
  exact Set.exists_range_iff

theorem holds_of_le (hPQ : P ≤ Q) (hP : P h) : Q h := hPQ h hP

theorem holds_of_eq (hPQ : P = Q) (hP : P h) : Q h := hPQ ▸ hP

instance : IsQuantale (Assertion κ) where
  mul_sSup_distrib P S := by
    funext h
    apply propext
    simp only [iSup_holds, exists_prop]
    constructor
    · rintro ⟨h₁, h₂, hdisjoint, rfl, hP, hS⟩
      obtain ⟨Q, hQS, hh⟩ := sSup_holds.mp hS
      exact ⟨Q, hQS, h₁, h₂, hdisjoint, rfl, hP, hh⟩
    · rintro ⟨Q, hQS, h₁, h₂, hdisjoint, rfl, hP, hh⟩
      exact ⟨h₁, h₂, hdisjoint, rfl, hP, sSup_holds.mpr ⟨Q, hQS, hh⟩⟩
  sSup_mul_distrib S P := by
    funext h
    apply propext
    simp only [iSup_holds, exists_prop]
    constructor
    · rintro ⟨h₁, h₂, hdisjoint, rfl, hS, hP⟩
      obtain ⟨Q, hQS, hh⟩ := sSup_holds.mp hS
      exact ⟨Q, hQS, h₁, h₂, hdisjoint, rfl, hh, hP⟩
    · rintro ⟨Q, hQS, h₁, h₂, hdisjoint, rfl, hh, hP⟩
      exact ⟨h₁, h₂, hdisjoint, rfl, sSup_holds.mpr ⟨Q, hQS, hh⟩, hP⟩

/-- The part is the cell at `p`. -/
def cell (p : Nat) (c : κ) : Assertion κ := fun h => h = Function.update Heap.empty p (some c)

/-- A part with a cell is the cell and the rest. -/
theorem cell_mul_holds : (cell p c * F) h ↔ h p = some c ∧ F (Function.update h p none) := by
  constructor
  · rintro ⟨h₁, h₂, hdisjoint, rfl, rfl, hF⟩
    have hp : h₂ p = none := (hdisjoint p).resolve_left (by simp)
    have hrest : Function.update (Heap.union (Function.update Heap.empty p (some c)) h₂) p none =
        h₂ := by
      funext q
      by_cases hq : q = p
      · subst hq
        simp [hp]
      · simp [hq, Heap.union, Heap.empty]
    exact ⟨by simp [Heap.union], hrest.symm ▸ hF⟩
  · rintro ⟨hp, hF⟩
    refine ⟨_, _, ?_, ?_, rfl, hF⟩
    · intro q
      by_cases hq : q = p
      · simp [hq]
      · simp [hq, Heap.empty]
    · funext q
      by_cases hq : q = p
      · simp [hq, hp, Heap.union]
      · simp [hq, Heap.union, Heap.empty]

/-- A block is put where there was none. -/
theorem cell_mul_update (hp : h p = none) (hF : F h) :
    (cell p c * F) (Function.update h p (some c)) := by
  rw [cell_mul_holds, Function.update_self, Function.update_idem, ← hp, Function.update_eq_self]
  exact ⟨rfl, hF⟩

/-- `P`, where `φ` is known. -/
def given (φ : Prop) (P : Assertion κ) : Assertion κ := ⨆ _ : φ, P

theorem given_mul : given φ P * Q = given φ (P * Q) := by
  by_cases hφ : φ
  · simp only [given, iSup_pos hφ]
  · simp only [given, iSup_neg hφ, Quantale.bot_mul]

theorem mul_given : P * given φ Q = given φ (P * Q) := by
  rw [mul_comm, given_mul, mul_comm]

theorem given_holds : given φ P h ↔ φ ∧ P h := iSup_holds.trans exists_prop

theorem given_of (hφ : φ) : given φ P = P := iSup_pos hφ

theorem le_given (hφ : φ) (h : P ≤ Q) : P ≤ given φ Q := h.trans (given_of hφ).ge

theorem given_le (h : φ → P ≤ Q) : given φ P ≤ Q := iSup_le h

/-- The heap is `h`. -/
def exactly (h : Heap κ) : Assertion κ := fun h' => h' = h

theorem given_one_holds {h' : Heap κ} :
    (given φ (1 : Assertion κ) * exactly h) h' ↔ φ ∧ h' = h := by
  rw [given_mul, one_mul, given_holds]
  exact Iff.rfl

end Assertion

/-! ## Programs -/

/-- The variables of a program, and whether an allocation was refused. -/
structure Env (ρ : Type) where
  refused : Bool
  vars : ρ

structure State (κ ρ : Type) where
  heap : Heap κ
  /-- The number of calls of the allocator. -/
  calls : Nat
  env : Env ρ

abbrev Program (κ ρ : Type) : Type → Type := Checked (State κ ρ)

/-- The allocator: what it returns for each call. -/
structure Allocator (κ : Type) where
  place : Nat → Heap κ → Option Nat
  unused : ∀ {n h p}, place n h = some p → h p = none

/-- `malloc`, and the first store to the block. -/
def alloc (allocator : Allocator κ) (c : κ) : Program κ ρ (Option Nat) := do
  let s ← get
  match allocator.place s.calls s.heap with
  | none =>
    set { s with calls := s.calls + 1, env.refused := true }
    return none
  | some p =>
    set { s with calls := s.calls + 1, heap := Function.update s.heap p (some c) }
    return some p

/-- A read of the cell at `p`. -/
def load (p : Nat) : Program κ ρ κ := do
  let s ← get
  match s.heap p with
  | some c => return c
  | none => Checked.undefined

/-- A write of the cell at `p`. -/
def store (p : Nat) (c : κ) : Program κ ρ Unit := do
  let s ← get
  match s.heap p with
  | some _ => set { s with heap := Function.update s.heap p (some c) }
  | none => Checked.undefined

/-- `free`. -/
def free (p : Nat) : Program κ ρ Unit := do
  let s ← get
  match s.heap p with
  | some _ => set { s with heap := Function.update s.heap p none }
  | none => Checked.undefined

/-- A program on the variables alone. -/
def onVars (p : Checked ρ α) : Program κ ρ α := do
  let s ← get
  match p.run s.env.vars with
  | some (a, vars) =>
    set { s with env.vars := vars }
    return a
  | none => Checked.undefined

/-! ## Specifications -/

open Assertion

/-- In the part `P` of the heap, `p` is defined and leaves `Q` there. -/
def Spec (P : Assertion κ) (e : Env ρ) (p : Program κ ρ α) (Q : α → Env ρ → Assertion κ) : Prop :=
  ∀ (F : Assertion κ) (s : State κ ρ), s.env = e → (P * F) s.heap →
    p.wp (fun a s' => (Q a s'.env * F) s'.heap) s

theorem reads_load {R : Assertion κ} {s : State κ ρ} {l : Nat} {c : κ}
    (h : (cell l c * R) s.heap) : (load l).reads (· = c) s := by
  have hcell : s.heap l = some c := (cell_mul_holds.mp h).1
  simp only [load, Checked.reads, Checked.wp_bind, Checked.wp_get, hcell, Checked.wp_pure, and_self]

namespace Spec

variable {P P' R : Assertion κ} {e : Env ρ} {p : Program κ ρ α} {Q Q' : α → Env ρ → Assertion κ}
variable {f : β → Program κ ρ α} {c c' : κ} {l : Nat} {φ : Prop}

theorem mono (h : Spec P e p Q) (hpre : P' ≤ P) (hpost : ∀ a e', Q a e' ≤ Q' a e') :
    Spec P' e p Q' := by
  intro F s hs hP
  refine (h F s hs (mul_le_mul_left hpre F _ hP)).mono fun a s' hQ => ?_
  exact mul_le_mul_left (hpost a s'.env) F _ hQ

/-- The rest of the heap is left as it is. -/
theorem frame (R : Assertion κ) (h : Spec P e p Q) : Spec (P * R) e p fun a e' => Q a e' * R := by
  intro F s hs hP
  rw [mul_assoc] at hP
  refine (h (R * F) s hs hP).mono fun a s' hQ => ?_
  rwa [mul_assoc]

theorem pure {a : α} (h : P ≤ Q a e) : Spec P e (Pure.pure a) Q := by
  intro F s hs hP
  subst hs
  exact Checked.wp_pure.mpr (mul_le_mul_left h F _ hP)

theorem bind {p : Program κ ρ β} {Q₁ : β → Env ρ → Assertion κ} (hp : Spec P e p Q₁)
    (hf : ∀ b e', Spec (Q₁ b e') e' (f b) Q) : Spec P e (p >>= f) Q := by
  intro F s hs hP
  exact (hp F s hs hP).bind fun b s' hQ => hf b s'.env F s' rfl hQ

/-- A call of `p` in a part of `P`. -/
theorem call {p : Program κ ρ β} {P₁ : Assertion κ} {Q₁ : β → Env ρ → Assertion κ}
    (hp : Spec P₁ e p Q₁) (hP : P = P₁ * R) (hf : ∀ b e', Spec (Q₁ b e' * R) e' (f b) Q) :
    Spec P e (p >>= f) Q := by
  subst hP
  exact (hp.frame R).bind hf

theorem iSup {P : ι → Assertion κ} (h : ∀ i, Spec (P i) e p Q) : Spec (⨆ i, P i) e p Q := by
  intro F s hs hP
  rw [Quantale.iSup_mul_distrib] at hP
  obtain ⟨i, hP⟩ := iSup_holds.mp hP
  exact h i F s hs hP

theorem given (h : φ → Spec P e p Q) : Spec (given φ P) e p Q := by
  intro F s hs hP
  rw [given_mul] at hP
  obtain ⟨hφ, hP⟩ := given_holds.mp hP
  exact h hφ F s hs hP

/-- A program that only reads the heap. -/
theorem reads {p : Program κ ρ β} {V : β → Prop}
    (hp : ∀ s, (P * ⊤) s.heap → p.reads V s) (hf : ∀ b, V b → Spec P e (f b) Q) :
    Spec P e (p >>= f) Q := by
  intro F s hs hs'
  refine Checked.wp.bind (hp s (mul_le_mul_right le_top P _ hs')) fun b s' hb => ?_
  obtain ⟨rfl, hb⟩ := hb
  exact hf b hb F s' hs hs'

theorem load {f : κ → Program κ ρ α} (hP : P = cell l c * R) (hf : Spec P e (f c) Q) :
    Spec P e (load l >>= f) Q := by
  refine reads (V := (· = c)) (fun s hs => ?_) fun b hb => ?_
  · rw [hP, mul_assoc] at hs
    exact reads_load hs
  · rwa [hb]

theorem store {f : Unit → Program κ ρ α} (hP : P = cell l c * R)
    (hf : Spec (cell l c' * R) e (f ⟨⟩) Q) : Spec P e (store l c' >>= f) Q := by
  intro F s hs hs'
  rw [hP, mul_assoc, cell_mul_holds] at hs'
  obtain ⟨hcell, hrest⟩ := hs'
  simp only [Separation.store, Checked.wp_bind, Checked.wp_get, hcell, Checked.wp_set]
  refine hf F _ hs ?_
  rw [mul_assoc, cell_mul_holds]
  simpa using hrest

theorem free {f : Unit → Program κ ρ α} (hP : P = cell l c * R) (hf : Spec R e (f ⟨⟩) Q) :
    Spec P e (free l >>= f) Q := by
  intro F s hs hs'
  rw [hP, mul_assoc, cell_mul_holds] at hs'
  obtain ⟨hcell, hrest⟩ := hs'
  simp only [Separation.free, Checked.wp_bind, Checked.wp_get, hcell, Checked.wp_set]
  exact hf F _ hs hrest

theorem alloc {allocator : Allocator κ} {f : Option Nat → Program κ ρ α}
    (hnone : Spec P { e with refused := true } (f none) Q)
    (hsome : ∀ l, Spec (cell l c * P) e (f (some l)) Q) : Spec P e (alloc allocator c >>= f) Q := by
  intro F s hs hs'
  simp only [Separation.alloc, Checked.wp_bind, Checked.wp_get]
  cases hplace : allocator.place s.calls s.heap with
  | none =>
    simp only [Checked.wp_bind, Checked.wp_set, Checked.wp_pure]
    exact hnone F _ (congrArg (fun e : Env ρ => { e with refused := true }) hs) hs'
  | some l =>
    simp only [Checked.wp_bind, Checked.wp_set, Checked.wp_pure]
    refine hsome l F _ hs ?_
    have hunused : Function.update s.heap l none = s.heap :=
      Function.update_eq_iff.mpr ⟨(allocator.unused hplace).symm, fun _ _ => rfl⟩
    rw [mul_assoc, cell_mul_holds]
    simpa [hunused] using hs'

theorem onVars {p : Checked ρ β} {V : β → ρ → Prop} (hp : p.wp V e.vars)
    (hf : ∀ b v, V b v → Spec P { e with vars := v } (f b) Q) : Spec P e (onVars p >>= f) Q := by
  intro F s hs hs'
  obtain ⟨b, v, hrun, hV⟩ := hp
  subst hs
  simp only [Separation.onVars, Checked.wp_bind, Checked.wp_get, hrun, Checked.wp_set,
    Checked.wp_pure]
  exact hf b v hV F _ rfl hs'

theorem onVars_get {f : ρ → Program κ ρ α} (hf : Spec P e (f e.vars) Q) :
    Spec P e (Separation.onVars get >>= f) Q := by
  have hget : (get : Checked ρ ρ).wp (fun b v => b = e.vars ∧ v = e.vars) e.vars :=
    Checked.wp_get.mpr ⟨rfl, rfl⟩
  refine Spec.onVars hget fun b v hv => ?_
  rwa [hv.1, hv.2]

theorem onVars_modify {f : Unit → Program κ ρ α} {g : ρ → ρ}
    (hf : Spec P { e with vars := g e.vars } (f ⟨⟩) Q) :
    Spec P e (Separation.onVars (modify g) >>= f) Q := by
  have hmodify : (modify g : Checked ρ Unit).wp (fun _ v => v = g e.vars) e.vars :=
    Checked.wp_modify.mpr rfl
  refine Spec.onVars hmodify fun b v hv => ?_
  rwa [hv]

theorem onVars_set {f : Unit → Program κ ρ α} {v : ρ}
    (hf : Spec P { e with vars := v } (f ⟨⟩) Q) : Spec P e (Separation.onVars (set v) >>= f) Q := by
  have hset : (set v : Checked ρ Unit).wp (fun _ v' => v' = v) e.vars := Checked.wp_set.mpr rfl
  refine Spec.onVars hset fun b v hv => ?_
  rwa [hv]

/-- A program that needs nothing of the heap, in any heap. -/
theorem run (h : Spec 1 e p Q) (s : State κ ρ) (hs : s.env = e) :
    p.wp (fun a s' => (Q a s'.env * exactly s.heap) s'.heap) s := by
  refine h (exactly s.heap) s hs ?_
  rw [one_mul]
  exact rfl

end Spec

/-- `p` frees the part `C`, and does nothing else. -/
def Releases (C : Assertion κ) (p : Program κ ρ Unit) : Prop :=
  ∀ e, Spec C e p fun _ e' => Assertion.given (e' = e) 1

namespace Releases

variable {C P R : Assertion κ} {e : Env ρ} {p : Program κ ρ Unit} {Q : α → Env ρ → Assertion κ}
variable {f : Unit → Program κ ρ α}

theorem call (h : Releases C p) (hP : P = C * R) (hf : Spec R e (f ⟨⟩) Q) :
    Spec P e (p >>= f) Q := by
  refine Spec.call (h e) hP fun _ e' => ?_
  rw [given_mul, one_mul]
  refine Spec.given fun he => ?_
  rwa [he]

theorem pure : Releases (1 : Assertion κ) (Pure.pure ⟨⟩ : Program κ ρ Unit) :=
  fun _ => Spec.pure (le_given rfl le_rfl)

theorem iSup {C : ι → Assertion κ} (h : ∀ i, Releases (C i) p) : Releases (⨆ i, C i) p :=
  fun e => Spec.iSup fun i => h i e

theorem free {l : Nat} {c : κ} : Releases (cell l c) (free l : Program κ ρ Unit) := by
  intro e
  rw [← bind_pure (Separation.free l)]
  exact Spec.free (mul_one _).symm (Spec.pure (le_given rfl le_rfl))

end Releases

end Separation
