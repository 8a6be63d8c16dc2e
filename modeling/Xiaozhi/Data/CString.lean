-- SUMMARY: C strings as byte lists: literals, decimal numbers, trimming and bounded copies.
import Mathlib.Algebra.Group.Int.Defs
import Mathlib.Algebra.Group.Nat.Defs
import Mathlib.Data.List.DropRight
import Xiaozhi.Data.Memory

/-!
# C strings

The bytes of a NUL-terminated string, without the NUL.
-/

namespace CString

/-- The bytes of an ASCII literal. -/
def ofString (s : String) : Bytes := s.toList.map fun c => c.toNat.toUInt8

/-- `%d`. -/
def ofInt (n : Int) : Bytes :=
  let digits := (Nat.toDigits 10 n.natAbs).map fun c => c.toNat.toUInt8
  if n < 0 then ofString "-" ++ digits else digits

/-- The string that starts at the first byte: everything before the first NUL. -/
def ofBytes (s : Bytes) : Bytes := s.takeWhile (· ≠ 0)

/-- The code of an ASCII character. -/
def byte (c : Char) : UInt8 := c.toNat.toUInt8

/-- `isspace`. -/
def isSpace (b : UInt8) : Bool := b = byte ' ' ∨ 9 ≤ b ∧ b ≤ 13

/-- Cut the white space off at both ends. -/
def trim (s : Bytes) : Bytes := (s.dropWhile isSpace).rdropWhile isSpace

/-- `isdigit`. -/
def isDigit (b : UInt8) : Bool := byte '0' ≤ b ∧ b ≤ byte '9'

/-- The number that the leading decimal digits make. -/
def readDigits (s : Bytes) : Nat :=
  (s.takeWhile isDigit).foldl (fun n b => 10 * n + (b - byte '0').toNat) 0

/-- `strtol(s, NULL, 10)`: white space, a sign and digits, cut to the range of `long`. -/
def strtol (s : Bytes) : Int :=
  let rest := s.dropWhile isSpace
  let n : Int :=
    if rest.head? = some (byte '-') then -(readDigits rest.tail : Int)
    else if rest.head? = some (byte '+') then readDigits rest.tail
    else readDigits rest
  max (-2 ^ 63) (min n (2 ^ 63 - 1))

/-- `atoi`: the `int` that `strtol` is converted to. -/
def atoi (s : Bytes) : Int := (strtol s).bmod (2 ^ 32)

/-- What `snprintf(buf, size, "%s", s)` leaves in `buf`. -/
def copy (size : Nat) (s : Bytes) : Bytes := (ofBytes s).take (size - 1)

theorem ofBytes_eq_self {s : Bytes} (h : ∀ b ∈ s, b ≠ 0) : ofBytes s = s := by
  induction s with
  | nil => rfl
  | cons b s ih =>
    obtain ⟨hb, hs⟩ := List.forall_mem_cons.mp h
    rw [ofBytes, List.takeWhile_cons_of_pos (by simpa using hb)]
    exact congrArg (b :: ·) (ih hs)

/-- A string without NUL that fits with its terminator is copied whole. -/
theorem copy_eq_self {size : Nat} {s : Bytes} (h : ∀ b ∈ s, b ≠ 0) (hlen : s.length < size) :
    copy size s = s := by
  rw [copy, ofBytes_eq_self h, List.take_of_length_le (by omega)]

theorem ne_zero_of_mem_ofBytes {s : Bytes} {b : UInt8} (h : b ∈ ofBytes s) : b ≠ 0 := by
  have hall := List.all_takeWhile (p := fun b : UInt8 => b ≠ 0) (l := s)
  simpa using List.all_eq_true.mp hall b h

theorem ne_zero_of_mem_copy {size : Nat} {s : Bytes} {b : UInt8} (h : b ∈ copy size s) :
    b ≠ 0 :=
  ne_zero_of_mem_ofBytes (List.mem_of_mem_take h)

@[simp] theorem ofBytes_ofBytes {s : Bytes} : ofBytes (ofBytes s) = ofBytes s :=
  ofBytes_eq_self fun _ => ne_zero_of_mem_ofBytes

@[simp] theorem ofBytes_copy {size : Nat} {s : Bytes} : ofBytes (copy size s) = copy size s :=
  ofBytes_eq_self fun _ => ne_zero_of_mem_copy

theorem copy_ofBytes {size : Nat} {s : Bytes} : copy size (ofBytes s) = copy size s := by
  rw [copy, copy, ofBytes_ofBytes]

/-- A copy is whole exactly when the string fits with its terminator. -/
theorem copy_eq_ofBytes_iff {size : Nat} {s : Bytes} (hsize : 0 < size) :
    copy size s = ofBytes s ↔ (ofBytes s).length < size := by
  rw [copy]
  constructor
  · intro h
    have hlen := congrArg List.length h
    rw [List.length_take] at hlen
    omega
  · intro h
    exact List.take_of_length_le (by omega)

/-- A copy cut off at the end of the buffer is never taken for a string that is
    shorter than the buffer. -/
theorem copy_eq_iff {size : Nat} {s t : Bytes} (hs : ∀ b ∈ s, b ≠ 0) (ht : t.length < size - 1) :
    copy size s = t ↔ s = t := by
  rw [copy, ofBytes_eq_self hs]
  constructor
  · intro h
    have hlen := congrArg List.length h
    rw [List.length_take] at hlen
    rwa [List.take_of_length_le (by omega)] at h
  · rintro rfl
    exact List.take_of_length_le (by omega)

theorem copy_eq_nil_iff {size : Nat} {s : Bytes} (hsize : 1 < size) :
    copy size s = [] ↔ ofBytes s = [] := by
  rw [copy, List.take_eq_nil_iff]
  exact or_iff_right (by omega)

/-- Copying what was copied into a buffer of the same size changes nothing. -/
@[simp] theorem copy_copy {size : Nat} {s : Bytes} : copy size (copy size s) = copy size s := by
  rw [copy, ofBytes_eq_self fun b => ne_zero_of_mem_copy]
  simp only [copy, List.take_take, Nat.min_self]

@[simp] theorem copy_nil {size : Nat} : copy size [] = [] := List.take_nil

/-- A list is cut at the first place where a sign stands. -/
theorem cut_eq_iff {a : UInt8} {s left right : Bytes} :
    s = left ++ a :: right ∧ a ∉ left ↔
      a ∈ s ∧ s.takeWhile (· ≠ a) = left ∧ (s.dropWhile (· ≠ a)).tail = right := by
  constructor
  · rintro ⟨rfl, hleft⟩
    have hall : ∀ b ∈ left, decide (b ≠ a) = true := by
      intro b hb
      exact decide_eq_true fun hab => hleft (hab ▸ hb)
    refine ⟨by simp, ?_, ?_⟩
    · rw [List.takeWhile_append_of_pos hall]
      simp
    · rw [List.dropWhile_append_of_pos hall]
      simp
  · rintro ⟨hmem, rfl, rfl⟩
    have hnot : a ∉ s.takeWhile (· ≠ a) := by
      intro ha
      simpa using List.mem_takeWhile_imp ha
    have hne : s.dropWhile (· ≠ a) ≠ [] := by
      intro hnil
      rw [List.dropWhile_eq_nil_iff] at hnil
      simpa using hnil a hmem
    refine ⟨?_, hnot⟩
    obtain ⟨b, rest, hcons⟩ := List.exists_cons_of_ne_nil hne
    have hb : b = a := by
      have hhead := List.head?_dropWhile_not (· ≠ a) s
      rw [hcons] at hhead
      simpa using hhead
    calc s = s.takeWhile (· ≠ a) ++ s.dropWhile (· ≠ a) := (List.takeWhile_append_dropWhile).symm
      _ = s.takeWhile (· ≠ a) ++ a :: (s.dropWhile (· ≠ a)).tail := by rw [hcons, hb, List.tail_cons]

end CString
