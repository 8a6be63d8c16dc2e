-- SUMMARY: A terminal that hands over one line at a time, with a buffered stream in front of it: what `fgets` makes of the lines.
import Mathlib.Algebra.Order.Group.Nat
import Xiaozhi.Data.CString
import Xiaozhi.Data.Memory

/-!
# Terminals

A terminal hands over at most one line to a `read`. A stream keeps in its buffer
what has been read and not yet been taken, and reads again when the buffer is
empty. So `poll` on the descriptor tells nothing of what is in the buffer.
-/

/-- The lines that wait on the descriptor, the first one perhaps in part, and the
    buffer of the stream. -/
structure Terminal where
  descriptor : List Bytes
  buffer : Bytes

namespace Terminal

open CString

/-- A line is typed. -/
def type (t : Terminal) (line : Bytes) : Terminal :=
  { t with descriptor := t.descriptor ++ [line] }

/-- `poll` with `POLLIN`: a `read` would not block. -/
def Readable (t : Terminal) : Prop := t.descriptor ≠ []

instance (t : Terminal) : Decidable t.Readable := inferInstanceAs (Decidable (_ ≠ _))

/-- `getc`: a byte of the buffer. An empty buffer is filled by a `read` of at most
    `size` bytes; `none` means that there is nothing to read. -/
def getc (size : Nat) (t : Terminal) : Option (UInt8 × Terminal) :=
  match t.buffer, t.descriptor with
  | b :: buffer, _ => some (b, { t with buffer })
  | [], line :: lines =>
    match line.take size with
    | b :: buffer =>
      let descriptor := if line.length ≤ size then lines else line.drop size :: lines
      some (b, { descriptor, buffer })
    | [] => none
  | [], [] => none

/-- `fgets`: at most `n` bytes, up to and with the first newline. -/
def fgets (size : Nat) : Nat → Terminal → Option (Bytes × Terminal)
  | 0, t => some ([], t)
  | n + 1, t => (t.getc size).bind fun (b, t) =>
    if b = byte '\n' then some ([b], t)
    else (t.fgets size n).map fun (bytes, t) => (b :: bytes, t)

/-- How many bytes of a line have been read when `c` of them have been taken. -/
def loaded (size c : Nat) : Nat := size * ((c + (size - 1)) / size)

/-- The terminal when `c` bytes of a line have been taken, and others wait. -/
def reading (size : Nat) (line : Bytes) (later : List Bytes) (c : Nat) : Terminal where
  descriptor := (if line.length ≤ loaded size c then [] else [line.drop (loaded size c)]) ++ later
  buffer := (line.take (loaded size c)).drop c

section

variable {size c c' n : Nat} {text content : Bytes} {later : List Bytes}

theorem loaded_mono (h : c ≤ c') : loaded size c ≤ loaded size c' :=
  Nat.mul_le_mul_left _ (Nat.div_le_div_right (Nat.add_le_add_right h _))

theorem loaded_zero (hsize : 0 < size) : loaded size 0 = 0 := by
  rw [loaded, Nat.zero_add, Nat.div_eq_of_lt (Nat.sub_lt hsize Nat.one_pos), Nat.mul_zero]

/-- One byte more than whole buffers takes one buffer more. -/
theorem loaded_succ (hsize : 0 < size) : loaded size (c + 1) = size * (c / size) + size := by
  rw [loaded, Nat.add_assoc, Nat.add_sub_cancel' hsize, Nat.add_div_right _ hsize, Nat.mul_succ]

/-- Whole buffers have been taken, or the last one has been taken in part. -/
theorem loaded_cases (hsize : 0 < size) (c : Nat) :
    (loaded size c = c ∧ loaded size (c + 1) = c + size) ∨
      (c < loaded size c ∧ loaded size (c + 1) = loaded size c) := by
  rw [loaded_succ hsize]
  obtain ⟨q, r, hr, rfl⟩ : ∃ q r, r < size ∧ c = size * q + r :=
    ⟨c / size, c % size, Nat.mod_lt _ hsize, (Nat.div_add_mod c size).symm⟩
  have hq : (size * q + r) / size = q := by
    rw [Nat.mul_add_div hsize, Nat.div_eq_of_lt hr, Nat.add_zero]
  rw [hq, loaded, Nat.add_assoc, Nat.mul_add_div hsize]
  cases r with
  | zero =>
    rw [Nat.zero_add, Nat.div_eq_of_lt (Nat.sub_lt hsize Nat.one_pos)]
    exact .inl ⟨rfl, rfl⟩
  | succ r =>
    have hone : (r + 1 + (size - 1)) / size = 1 := by
      rw [Nat.div_eq_iff hsize]
      omega
    rw [hone, Nat.mul_succ]
    exact .inr ⟨by omega, rfl⟩

/-- A line that has just come up. -/
theorem reading_zero (hsize : 0 < size) (hne : text ≠ []) :
    reading size text later 0 = ⟨text :: later, []⟩ := by
  have hlen : ¬text.length ≤ 0 := Nat.not_le.mpr (List.length_pos_iff.mpr hne)
  rw [reading, loaded_zero hsize, if_neg hlen]
  rfl

/-- A line that has been taken. -/
theorem reading_length (hsize : 0 < size) :
    reading size text later text.length = ⟨later, []⟩ := by
  have hle : text.length ≤ loaded size text.length := by
    rcases loaded_cases hsize text.length with ⟨heq, -⟩ | ⟨hlt, -⟩
    · exact heq.ge
    · exact hlt.le
  rw [reading, if_pos hle, List.take_of_length_le hle, List.drop_length, List.nil_append]

theorem type_reading (typed : Bytes) :
    (reading size text later c).type typed = reading size text (later ++ [typed]) c := by
  rw [type, reading, reading, List.append_assoc]

/-- The bytes of a line come one after the other, whatever is read at a time. -/
theorem getc_reading (hsize : 0 < size) (h : c < text.length) :
    (reading size text later c).getc size = some (text[c], reading size text later (c + 1)) := by
  rcases loaded_cases hsize c with ⟨hc, hnext⟩ | ⟨hc, hnext⟩
  ·
    obtain ⟨s, rfl⟩ := Nat.exists_eq_succ_of_ne_zero hsize.ne'
    have hempty : (text.take c).drop c = [] := by
      rw [List.drop_eq_nil_iff, List.length_take]
      exact Nat.min_le_left _ _
    have hline : text.drop c = text[c] :: text.drop (c + 1) := List.drop_eq_getElem_cons h
    have hbuffer : (text.take (c + (s + 1))).drop (c + 1) = (text.drop (c + 1)).take s := by
      rw [List.drop_take]
      congr 1
      omega
    have hrest : (text.drop c).length ≤ s + 1 ↔ text.length ≤ c + (s + 1) := by
      rw [List.length_drop]
      omega
    rw [reading, reading, hc, hnext, hempty, if_neg (Nat.not_le.mpr h), hbuffer]
    simp only [getc, List.singleton_append, hline, List.take_succ_cons]
    rw [← hline, if_congr hrest rfl rfl, List.drop_drop]
    split <;> rfl
  · have hbuffer : (text.take (loaded size c)).drop c =
        text[c] :: (text.take (loaded size c)).drop (c + 1) := by
      have hlen : c < (text.take (loaded size c)).length := by
        rw [List.length_take]
        exact Nat.lt_min.mpr ⟨hc, h⟩
      rw [List.drop_eq_getElem_cons hlen, List.getElem_take]
    rw [reading, reading, hnext]
    simp only [getc, hbuffer]

/-- Bytes without a newline fill the window. -/
theorem fgets_piece (hsize : 0 < size) (hline : byte '\n' ∉ content)
    (hlen : c + n ≤ content.length) :
    (reading size (content ++ [byte '\n']) later c).fgets size n =
      some ((content.drop c).take n, reading size (content ++ [byte '\n']) later (c + n)) := by
  induction n generalizing c with
  | zero => rfl
  | succ n ih =>
    have hc : c < content.length := by omega
    have hlt : c < (content ++ [byte '\n']).length := by
      rw [List.length_append]
      omega
    have hb : (content ++ [byte '\n'])[c] ≠ byte '\n' := by
      rw [List.getElem_append_left hc]
      exact fun heq => hline (heq ▸ List.getElem_mem hc)
    rw [fgets, getc_reading hsize hlt, Option.bind_some]
    dsimp only
    rw [if_neg hb, ih (by omega), Option.map_some, List.drop_eq_getElem_cons hc,
      List.getElem_append_left hc, List.take_succ_cons, Nat.add_assoc, Nat.add_comm 1 n]

/-- The window is larger than the rest of the line. -/
theorem fgets_end (hsize : 0 < size) (hline : byte '\n' ∉ content) (hc : c ≤ content.length)
    (hlen : content.length < c + n) :
    (reading size (content ++ [byte '\n']) later c).fgets size n =
      some (content.drop c ++ [byte '\n'], ⟨later, []⟩) := by
  have hlength : (content ++ [byte '\n']).length = content.length + 1 := List.length_append
  induction n generalizing c with
  | zero => omega
  | succ n ih =>
    rw [fgets, getc_reading hsize (by omega), Option.bind_some]
    dsimp only
    rcases hc.lt_or_eq with hlt | rfl
    · have hb : (content ++ [byte '\n'])[c] ≠ byte '\n' := by
        rw [List.getElem_append_left hlt]
        exact fun heq => hline (heq ▸ List.getElem_mem hlt)
      rw [if_neg hb, ih (by omega) (by omega), Option.map_some, List.drop_eq_getElem_cons hlt,
        List.getElem_append_left hlt, List.cons_append]
    · have hb : (content ++ [byte '\n'])[content.length] = byte '\n' :=
        List.getElem_concat_length rfl _
      have hend : reading size (content ++ [byte '\n']) later (content ++ [byte '\n']).length =
          ⟨later, []⟩ := reading_length hsize
      rw [hlength] at hend
      rw [if_pos hb, hb, hend, List.drop_length, List.nil_append]

end

end Terminal
