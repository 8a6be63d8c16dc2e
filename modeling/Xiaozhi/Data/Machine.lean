-- SUMMARY: Components that answer one call after the other, and when one of them refines another.
import Mathlib.Data.List.Basic

/-!
# Machines

A machine answers each call from its state and changes the state. It refines
another one if the two give the same answers to all sequences of calls; a
relation between the states that every call keeps shows that.
-/

/-- How a component with the states `σ` answers a call. -/
abbrev Machine (σ κ ρ : Type) := σ → κ → ρ × σ

namespace Machine

variable {σ τ κ ρ : Type} {m : Machine σ κ ρ} {m' : Machine τ κ ρ} {s : σ} {t : τ}

/-- The answers to some calls, and the state afterwards. -/
def run (m : Machine σ κ ρ) (s : σ) : List κ → List ρ × σ
  | [] => ([], s)
  | c :: cs =>
    let (answers, s') := m.run (m s c).2 cs
    ((m s c).1 :: answers, s')

/-- A relation that every call keeps, and under which the answers agree. -/
def Simulates (m : Machine σ κ ρ) (m' : Machine τ κ ρ) (R : σ → τ → Prop) : Prop :=
  ∀ s t c, R s t → (m s c).1 = (m' t c).1 ∧ R (m s c).2 (m' t c).2

theorem Simulates.run {R : σ → τ → Prop} (h : Simulates m m' R) (hst : R s t) (calls : List κ) :
    (m.run s calls).1 = (m'.run t calls).1 ∧ R (m.run s calls).2 (m'.run t calls).2 := by
  induction calls generalizing s t with
  | nil => exact ⟨rfl, hst⟩
  | cons c cs ih =>
    obtain ⟨hanswer, hnext⟩ := h s t c hst
    obtain ⟨hanswers, hlast⟩ := ih hnext
    exact ⟨congrArg₂ List.cons hanswer hanswers, hlast⟩

end Machine
