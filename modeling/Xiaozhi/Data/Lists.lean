-- SUMMARY: Lists that grow at their end: where an element of such a list stands, and the number it has among the elements of its kind.
import Mathlib.Data.List.Basic

/-!
# Growing lists

A history grows at its end. What has been said about an element of the shorter
list, by what stands before and behind it, is said again of the longer one, and
only the new element has to be looked at.
-/

namespace Lists

variable {α : Type}

/-- Where a list that ends with `b` splits: before `b`, or at an earlier element. -/
theorem concat_split {l x y : List α} {a b : α} (h : l ++ [b] = x ++ a :: y) :
    (l = x ∧ b = a ∧ y = []) ∨ ∃ y', l = x ++ a :: y' ∧ y = y' ++ [b] := by
  rcases List.eq_nil_or_concat y with rfl | ⟨y', last, rfl⟩
  · obtain ⟨hl, hb⟩ := List.append_singleton_inj.mp h
    exact .inl ⟨hl, hb, rfl⟩
  · rw [List.concat_eq_append, ← List.cons_append, ← List.append_assoc] at h
    obtain ⟨hl, rfl⟩ := List.append_singleton_inj.mp h
    exact .inr ⟨y', hl, List.concat_eq_append⟩

/-- What is cut off at the end may be cut off before. -/
theorem take_take_append {n : Nat} {l l' : List α} :
    (l.take n ++ l').take n = (l ++ l').take n := by
  have hlen : n - min n l.length = n - l.length := by omega
  rw [List.take_append, List.take_append, List.take_take, Nat.min_self, List.length_take, hlen]

section FilterMap

variable {β : Type} {f g : α → Option β} {l : List α} {n : Nat}

/-- What is found in a list, with the positions from `n` on. -/
theorem le_of_mem_filterMap {x : Nat × β}
    (h : x ∈ (l.zipIdx n).filterMap fun p => (f p.1).map (Prod.mk p.2)) : n ≤ x.1 := by
  obtain ⟨p, hp, hx⟩ := List.mem_filterMap.mp h
  obtain ⟨b, -, rfl⟩ := Option.map_eq_some_iff.mp hx
  exact List.le_snd_of_mem_zipIdx hp

/-- Two functions find the same at the same positions just if they agree on the list. -/
theorem filterMap_zipIdx_eq_iff :
    ((l.zipIdx n).filterMap fun p => (f p.1).map (Prod.mk p.2)) =
      ((l.zipIdx n).filterMap fun p => (g p.1).map (Prod.mk p.2)) ↔ ∀ a ∈ l, f a = g a := by
  induction l generalizing n with
  | nil => exact iff_of_true rfl fun _ h => (List.not_mem_nil h).elim
  | cons a l ih =>
    rw [List.forall_mem_cons, ← ih (n := n + 1), List.zipIdx_cons, List.filterMap_cons,
      List.filterMap_cons]
    -- what is found further on has a higher position
    have hlater {h : α → Option β} {b : β} {xs : List (Nat × β)} :
        (n, b) :: xs ≠ ((l.zipIdx (n + 1)).filterMap fun p => (h p.1).map (Prod.mk p.2)) := by
      intro heq
      have hle := le_of_mem_filterMap (heq ▸ List.mem_cons_self)
      exact Nat.not_succ_le_self n hle
    cases hf : f a with
    | none =>
      cases hg : g a with
      | none => exact (and_iff_right rfl).symm
      | some b => exact iff_of_false (fun heq => hlater heq.symm) fun h => nomatch h.1
    | some b =>
      cases hg : g a with
      | none => exact iff_of_false hlater fun h => nomatch h.1
      | some b' =>
        simp only [Option.map_some, List.cons.injEq, Prod.mk.injEq, true_and, Option.some.injEq]

end FilterMap

section Numbered

variable {p : α → Bool} {l u v x y : List α} {a b : α} {n : Nat}

/-- There is an element of every number below the count. -/
theorem exists_numbered (h : n < l.countP p) :
    ∃ u a v, l = u ++ a :: v ∧ p a = true ∧ u.countP p = n := by
  induction l generalizing n with
  | nil => exact absurd h (Nat.not_lt_zero n)
  | cons m l ih =>
    by_cases hm : p m = true
    · cases n with
      | zero => exact ⟨[], m, l, rfl, hm, rfl⟩
      | succ n =>
        rw [List.countP_cons_of_pos hm] at h
        obtain ⟨u, a, v, rfl, ha, hn⟩ := ih (Nat.lt_of_succ_lt_succ h)
        exact ⟨m :: u, a, v, rfl, ha, by rw [List.countP_cons_of_pos hm, hn]⟩
    · rw [List.countP_cons_of_neg hm] at h
      obtain ⟨u, a, v, rfl, ha, hn⟩ := ih h
      exact ⟨m :: u, a, v, rfl, ha, by rw [List.countP_cons_of_neg hm, hn]⟩

/-- Elements of a kind that have the same number are the same, where the elements of that kind in
    one list continue those in the other. -/
theorem eq_of_countP_eq (hpre : (u ++ a :: v).filter p <+: (x ++ b :: y).filter p)
    (ha : p a = true) (hb : p b = true) (hn : u.countP p = x.countP p) : a = b := by
  obtain ⟨rest, heq⟩ := hpre
  simp only [List.filter_append, List.filter_cons_of_pos ha, List.filter_cons_of_pos hb,
    List.append_assoc, List.cons_append] at heq
  rw [List.countP_eq_length_filter, List.countP_eq_length_filter] at hn
  exact (List.cons.inj (List.append_inj heq hn).2).1

end Numbered

end Lists
