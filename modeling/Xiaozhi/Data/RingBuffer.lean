-- SUMMARY: Ring buffers with head, tail and count, and their refinement of bounded FIFO lists.
import Mathlib.Data.Nat.ModEq
import Mathlib.Data.List.Range
import Mathlib.Logic.Function.Basic

/-!
# Ring buffers

A ring keeps its slots in an array of fixed capacity, with the index of the
oldest element, the index of the next free slot and the number of elements in
use. The three are redundant; `RingBuffer.WF` says how they hang together, and under
it the ring is a FIFO list of at most `capacity` elements (`RingBuffer.toList`).

`RingBuffer.Queue` carries the invariant, so that its operations need no side
conditions.
-/

/-- The slots of a ring, and the three indices. -/
structure RingBuffer (α : Type) where
  items : Nat → α
  capacity : Nat
  head : Nat
  tail : Nat
  count : Nat

namespace RingBuffer

variable {α : Type} {r r' : RingBuffer α} {x : α}

/-- An empty ring. -/
def init (capacity : Nat) (items : Nat → α) : RingBuffer α :=
  { items, capacity, head := 0, tail := 0, count := 0 }

/-- Append an element, unless the ring is full. -/
def push (r : RingBuffer α) (x : α) : Option (RingBuffer α) :=
  if r.count = r.capacity then
    none
  else
    some { r with
      items := Function.update r.items r.tail x
      tail := (r.tail + 1) % r.capacity
      count := r.count + 1 }

/-- Take the oldest element, if there is one. Its slot keeps the value. -/
def pop (r : RingBuffer α) : Option (α × RingBuffer α) :=
  if r.count = 0 then
    none
  else
    some (r.items r.head, { r with
      head := (r.head + 1) % r.capacity
      count := r.count - 1 })

/-- The slot of the `i`-th oldest element. -/
def slot (r : RingBuffer α) (i : Nat) : Nat := (r.head + i) % r.capacity

/-- The elements in use, oldest first. -/
def toList (r : RingBuffer α) : List α := (List.range r.count).map fun i => r.items (r.slot i)

/-- How the indices of a ring hang together. -/
structure WF (r : RingBuffer α) : Prop where
  capacity_pos : 0 < r.capacity
  head_lt : r.head < r.capacity
  count_le : r.count ≤ r.capacity
  tail_eq : r.tail = (r.head + r.count) % r.capacity

/-- What an accepted push does. -/
theorem push_eq_some (h : r.push x = some r') :
    r.count ≠ r.capacity ∧ r' = { r with
      items := Function.update r.items r.tail x
      tail := (r.tail + 1) % r.capacity
      count := r.count + 1 } := by
  unfold push at h
  split at h
  · cases h
  · next hne => exact ⟨hne, (Option.some.inj h).symm⟩

/-- What a successful pop does. -/
theorem pop_eq_some (h : r.pop = some (x, r')) :
    r.count ≠ 0 ∧ x = r.items r.head ∧
      r' = { r with head := (r.head + 1) % r.capacity, count := r.count - 1 } := by
  unfold pop at h
  split at h
  · cases h
  · next hne =>
    obtain ⟨hx, hr⟩ := Prod.mk.inj (Option.some.inj h)
    exact ⟨hne, hx.symm, hr.symm⟩

@[simp] theorem length_toList : r.toList.length = r.count := by simp [toList]

theorem init_wf {capacity : Nat} {items : Nat → α} (h : 0 < capacity) :
    (init capacity items).WF :=
  ⟨h, h, Nat.zero_le _, (Nat.zero_mod _).symm⟩

@[simp] theorem init_toList {capacity : Nat} {items : Nat → α} :
    (init capacity items).toList = [] := rfl

/-! ## Slots -/

theorem slot_lt (h : r.WF) (i : Nat) : r.slot i < r.capacity := Nat.mod_lt _ h.capacity_pos

/-- Two elements in use never share a slot. -/
theorem slot_inj {i j : Nat} (hi : i < r.capacity) (hj : j < r.capacity)
    (h : r.slot i = r.slot j) : i = j := by
  have h : i ≡ j [MOD r.capacity] := Nat.ModEq.add_left_cancel' r.head h
  rwa [Nat.ModEq, Nat.mod_eq_of_lt hi, Nat.mod_eq_of_lt hj] at h

/-- The slots after the oldest element has been taken. -/
theorem slot_pop (h : r.pop = some (x, r')) (i : Nat) : r'.slot i = r.slot (i + 1) := by
  obtain ⟨-, -, rfl⟩ := pop_eq_some h
  simp only [slot, Nat.mod_add_mod]
  congr 1
  omega

/-! ## Refinement of a bounded FIFO list -/

theorem push_eq_none : r.push x = none ↔ r.count = r.capacity := by
  simp [push]

theorem push_wf (h : r.WF) (hp : r.push x = some r') : r'.WF := by
  obtain ⟨hne, rfl⟩ := push_eq_some hp
  have := h.count_le
  refine ⟨h.capacity_pos, h.head_lt, by simp only; omega, ?_⟩
  simp only [h.tail_eq, Nat.mod_add_mod, Nat.add_assoc]

theorem push_toList (h : r.WF) (hp : r.push x = some r') : r'.toList = r.toList ++ [x] := by
  obtain ⟨hne, rfl⟩ := push_eq_some hp
  have hle := h.count_le
  simp only [toList, List.range_succ, List.map_append, List.map_cons, List.map_nil]
  congr 1
  · refine List.map_congr_left fun i hi => Function.update_of_ne (fun heq => ?_) _ _
    have hi : i < r.count := List.mem_range.mp hi
    rw [h.tail_eq] at heq
    have := slot_inj (r := r) (by omega) (by omega) heq
    omega
  · rw [h.tail_eq]
    simp [slot]

theorem pop_eq_none : r.pop = none ↔ r.toList = [] := by
  simp [pop, toList]

theorem pop_wf (h : r.WF) (hp : r.pop = some (x, r')) : r'.WF := by
  obtain ⟨hne, -, rfl⟩ := pop_eq_some hp
  have := h.count_le
  refine ⟨h.capacity_pos, Nat.mod_lt _ h.capacity_pos, by simp only; omega, ?_⟩
  simp only [h.tail_eq, Nat.mod_add_mod]
  congr 1
  omega

theorem pop_toList (hp : r.pop = some (x, r')) (h : r.WF) : r.toList = x :: r'.toList := by
  have hslot := slot_pop hp
  obtain ⟨hne, rfl, rfl⟩ := pop_eq_some hp
  obtain ⟨n, hn⟩ := Nat.exists_eq_succ_of_ne_zero hne
  simp only [toList, hn, Nat.add_one_sub_one, List.range_succ_eq_map, List.map_cons, List.map_map]
  congr 1
  · simp [slot, Nat.mod_eq_of_lt h.head_lt]
  · exact List.map_congr_left fun i _ => congrArg r.items (hslot i).symm

/-! ## Queues

The ring with its invariant. -/

/-- A ring whose indices hang together. -/
structure Queue (α : Type) where
  ring : RingBuffer α
  wf : ring.WF

namespace Queue

variable {q q' : Queue α}

/-- An empty queue of a capacity that is not zero. -/
def init (capacity : Nat) (items : Nat → α) (h : 0 < capacity := by decide) : Queue α :=
  ⟨RingBuffer.init capacity items, init_wf h⟩

/-- Append an element; a full queue stays as it is, and the push is refused. -/
def push (q : Queue α) (x : α) : Bool × Queue α :=
  match h : q.ring.push x with
  | none => (false, q)
  | some r => (true, ⟨r, push_wf q.wf h⟩)

/-- Take the oldest element, if there is one. -/
def pop (q : Queue α) : Option (α × Queue α) :=
  match h : q.ring.pop with
  | none => none
  | some (x, r) => some (x, ⟨r, pop_wf q.wf h⟩)

/-- The queued elements, oldest first. -/
def toList (q : Queue α) : List α := q.ring.toList

/-- No room for another element. -/
def Full (q : Queue α) : Prop := q.ring.count = q.ring.capacity

instance : Decidable q.Full := inferInstanceAs (Decidable (_ = _))

@[simp] theorem init_toList {capacity : Nat} {items : Nat → α} {h : 0 < capacity} :
    (init capacity items h).toList = [] := rfl

theorem push_of_full (h : q.Full) : q.push x = (false, q) := by
  have hp : q.ring.push x = none := push_eq_none.mpr h
  unfold push
  split
  · rfl
  · simp_all

theorem push_fst : (q.push x).1 = true ↔ ¬q.Full := by
  unfold push
  split
  · next h => simpa [Full] using push_eq_none.mp h
  · next h =>
    refine ⟨fun _ hf => ?_, fun _ => rfl⟩
    rw [push_eq_none.mpr hf] at h
    cases h

/-- A push appends to the list or, on a full queue, leaves it as it is. -/
theorem push_toList : (q.push x).2.toList = if q.Full then q.toList else q.toList ++ [x] := by
  split
  · next h => rw [push_of_full h]
  · next hf =>
    unfold push
    split
    · next h => exact absurd (push_eq_none.mp h) hf
    · next h => exact RingBuffer.push_toList q.wf h

theorem pop_eq_none : q.pop = none ↔ q.toList = [] := by
  unfold pop
  split
  · next h => simpa [toList] using RingBuffer.pop_eq_none.mp h
  · next h =>
    refine ⟨fun h => (nomatch h), fun hl => ?_⟩
    rw [RingBuffer.pop_eq_none.mpr hl] at h
    cases h

theorem pop_toList (h : q.pop = some (x, q')) : q.toList = x :: q'.toList := by
  unfold pop at h
  split at h
  · cases h
  · next hp =>
    obtain ⟨rfl, rfl⟩ := Prod.mk.inj (Option.some.inj h)
    exact RingBuffer.pop_toList hp q.wf

end Queue

end RingBuffer
