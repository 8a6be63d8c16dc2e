-- SUMMARY: Flat byte memory with block copies.
import Mathlib.Data.List.Range

/-!
# Flat memory

A byte array that C code cuts into slots by address arithmetic: addresses to
bytes, with `memcpy` into it and reads of a range.
-/

abbrev Bytes := List UInt8

/-- The bytes of a storage area, by offset. -/
abbrev Memory := Nat → UInt8

namespace Memory

variable {m : Memory} {off off' len : Nat} {bs : Bytes}

/-- `memcpy(storage + off, bs, len)`. -/
def write (m : Memory) (off : Nat) (bs : Bytes) : Memory := fun a =>
  if off ≤ a then (bs[a - off]?).getD (m a) else m a

/-- The `len` bytes from `off` on. -/
def read (m : Memory) (off len : Nat) : Bytes := (List.range len).map fun i => m (off + i)

@[simp] theorem length_read : (m.read off len).length = len := by simp [read]

@[simp] theorem read_write : (m.write off bs).read off bs.length = bs := by
  refine List.ext_getElem (by simp) fun i _ hi => ?_
  simp [read, write, hi]

/-- A range is read in two pieces. -/
theorem read_add {len' : Nat} :
    m.read off (len + len') = m.read off len ++ m.read (off + len) len' := by
  simp only [read, List.range_add, List.map_append, List.map_map, Function.comp_def, Nat.add_assoc]

/-- A part of a range, from the position `i` on. -/
theorem read_prefix_drop {i len' : Nat} (h : i + len' ≤ len) :
    m.read (off + i) len' <+: (m.read off len).drop i := by
  obtain ⟨rest, rfl⟩ := Nat.exists_eq_add_of_le h
  rw [Nat.add_assoc, read_add, List.drop_left' length_read, read_add]
  exact List.prefix_append _ _

/-- A copy leaves the ranges that it does not touch. -/
theorem read_write_of_disjoint (h : off' + len ≤ off ∨ off + bs.length ≤ off') :
    (m.write off bs).read off' len = m.read off' len := by
  refine List.map_congr_left fun i hi => ?_
  have hi : i < len := List.mem_range.mp hi
  unfold write
  split
  · rw [List.getElem?_eq_none (by omega), Option.getD_none]
  · rfl

/-- A copy over the end of an earlier one, at least as long as what it covers. -/
theorem write_write_tail {as cs : Bytes} (h : bs.length ≤ cs.length) :
    (m.write off (as ++ bs)).write (off + as.length) cs = m.write off (as ++ cs) := by
  funext a
  unfold write
  by_cases hhead : a < off + as.length
  · rw [if_neg (by omega)]
    split
    · rw [List.getElem?_append_left (by omega), List.getElem?_append_left (by omega)]
    · rfl
  · have hindex : a - off - as.length = a - (off + as.length) := by omega
    rw [if_pos (by omega), if_pos (by omega), if_pos (by omega),
      List.getElem?_append_right (by omega), List.getElem?_append_right (by omega), hindex]
    by_cases hin : a - (off + as.length) < cs.length
    · rw [List.getElem?_eq_getElem hin, Option.getD_some, Option.getD_some]
    · rw [List.getElem?_eq_none (by omega), List.getElem?_eq_none (by omega)]
      rfl

end Memory
