-- SUMMARY: Files of records with a two-byte length in front of each, and what a cut leaves of them.
import Mathlib.Data.List.Basic
import Xiaozhi.Data.Memory

/-!
# Records

A file of records of bytes, each after its length in two bytes, the low one
first. A reader that stops at the first incomplete record finds in any prefix of
the file exactly the records that are complete in it.
-/

namespace Records

/-- The length in front of a record. -/
def header (len : Nat) : Bytes := [len.toUInt8, (len / 256).toUInt8]

/-- What the two bytes of a length say. -/
def lengthOf (low high : UInt8) : Nat := (low.toUInt16 ||| (high.toUInt16 <<< 8)).toNat

/-- A record in the file. -/
def record (bytes : Bytes) : Bytes := header bytes.length ++ bytes

/-- The file of some records. -/
def encode (records : List Bytes) : Bytes := (records.map record).flatten

/-- The records up to the first incomplete one; empty ones are skipped. -/
def decode : Bytes → List Bytes
  | low :: high :: rest =>
    if lengthOf low high = 0 then
      decode rest
    else if rest.length < lengthOf low high then
      []
    else
      rest.take (lengthOf low high) :: decode (rest.drop (lengthOf low high))
  | _ => []
termination_by file => file.length
decreasing_by
  all_goals
    simp only [List.length_cons, List.length_drop]
    omega

variable {low high : UInt8} {bytes rest file : Bytes} {records : List Bytes} {n : Nat}

theorem lengthOf_eq : lengthOf low high = low.toNat + 256 * high.toNat := by
  have hlow : low.toNat < 2 ^ 8 := low.toNat_lt
  have hhigh : high.toNat < 2 ^ 8 := high.toNat_lt
  have hshift : (high.toUInt16 <<< 8).toNat = high.toNat <<< 8 := by
    rw [UInt16.toNat_shiftLeft, UInt8.toNat_toUInt16]
    refine Nat.mod_eq_of_lt ?_
    rw [Nat.shiftLeft_eq]
    show high.toNat * 2 ^ 8 < 2 ^ 16
    omega
  rw [lengthOf, UInt16.toNat_or, hshift, UInt8.toNat_toUInt16, Nat.or_comm,
    ← Nat.shiftLeft_add_eq_or_of_lt hlow, Nat.shiftLeft_eq]
  omega

theorem lengthOf_header (h : n < 65536) : lengthOf n.toUInt8 (n / 256).toUInt8 = n := by
  rw [lengthOf_eq, Nat.toUInt8_eq, Nat.toUInt8_eq, UInt8.toNat_ofNat', UInt8.toNat_ofNat']
  omega

@[simp] theorem length_record : (record bytes).length = 2 + bytes.length := by
  rw [record, List.length_append]
  rfl

@[simp] theorem encode_nil : encode [] = [] := rfl

@[simp] theorem encode_cons : encode (bytes :: records) = record bytes ++ encode records := by
  rw [encode, List.map_cons, List.flatten_cons, encode]

theorem decode_of_length_lt (h : file.length < 2) : decode file = [] := by
  match file with
  | [] => rw [decode]; nofun
  | [_] => rw [decode]; nofun
  | _ :: _ :: _ => exact absurd h (by simp)

@[simp] theorem decode_nil : decode [] = [] := decode_of_length_lt Nat.zero_lt_two

/-- A reader goes on behind a complete record. -/
theorem decode_record (hne : bytes ≠ []) (hlen : bytes.length < 65536) :
    decode (record bytes ++ rest) = bytes :: decode rest := by
  have hpos : bytes.length ≠ 0 := fun h => hne (List.length_eq_zero_iff.mp h)
  show decode (bytes.length.toUInt8 :: (bytes.length / 256).toUInt8 :: (bytes ++ rest)) = _
  rw [decode, lengthOf_header hlen, if_neg hpos,
    if_neg (by rw [List.length_append]; omega), List.take_left, List.drop_left]

/-- A reader stops at a record that is cut. -/
theorem decode_take_record (hne : bytes ≠ []) (hlen : bytes.length < 65536)
    (hcut : n < (record bytes).length) : decode ((record bytes).take n) = [] := by
  have hpos : bytes.length ≠ 0 := fun h => hne (List.length_eq_zero_iff.mp h)
  rw [length_record] at hcut
  by_cases hheader : n < 2
  · exact decode_of_length_lt ((List.length_take_le _ _).trans_lt hheader)
  · obtain ⟨m, rfl⟩ := Nat.exists_eq_add_of_le (not_lt.mp hheader)
    have hfile : (record bytes).take (2 + m) =
        bytes.length.toUInt8 :: (bytes.length / 256).toUInt8 :: bytes.take m := by
      rw [Nat.add_comm]
      rfl
    rw [hfile, decode, lengthOf_header hlen, if_neg hpos, if_pos (by rw [List.length_take]; omega)]

/-- What a cut leaves: the records that are complete before it. -/
theorem decode_take_encode (hrecords : ∀ bytes ∈ records, bytes ≠ [] ∧ bytes.length < 65536)
    (n : Nat) : ∃ k, decode ((encode records).take n) = records.take k ∧
      (encode (records.take k)).length ≤ n ∧
      (k < records.length → n < (encode (records.take (k + 1))).length) := by
  induction records generalizing n with
  | nil =>
    refine ⟨0, ?_, Nat.zero_le _, fun h => absurd h (Nat.not_lt_zero _)⟩
    rw [encode_nil, List.take_nil, decode_nil, List.take_nil]
  | cons bytes records ih =>
    obtain ⟨hne, hlen⟩ := hrecords bytes List.mem_cons_self
    rw [encode_cons]
    by_cases hcut : n < (record bytes).length
    · refine ⟨0, ?_, Nat.zero_le _, fun _ => ?_⟩
      · rw [List.take_append_of_le_length hcut.le, decode_take_record hne hlen hcut, List.take_zero]
      · rw [List.take_succ_cons, List.take_zero, encode_cons, List.length_append]
        exact hcut.trans_le (Nat.le_add_right _ _)
    · obtain ⟨m, rfl⟩ := Nat.exists_eq_add_of_le (not_lt.mp hcut)
      obtain ⟨k, hdecode, hle, hnext⟩ := ih (fun b hb => hrecords b (List.mem_cons_of_mem _ hb)) m
      refine ⟨k + 1, ?_, ?_, fun hk => ?_⟩
      · rw [List.take_length_add_append, decode_record hne hlen, hdecode, List.take_succ_cons]
      · rw [List.take_succ_cons, encode_cons, List.length_append]
        exact Nat.add_le_add_left hle _
      · rw [List.take_succ_cons, encode_cons, List.length_append]
        exact Nat.add_lt_add_left (hnext (Nat.lt_of_succ_lt_succ hk)) _

/-- The whole file gives all records. -/
theorem decode_encode (hrecords : ∀ bytes ∈ records, bytes ≠ [] ∧ bytes.length < 65536) :
    decode (encode records) = records := by
  induction records with
  | nil => exact decode_nil
  | cons bytes records ih =>
    obtain ⟨hne, hlen⟩ := hrecords bytes List.mem_cons_self
    rw [encode_cons, decode_record hne hlen, ih fun b hb => hrecords b (List.mem_cons_of_mem _ hb)]

end Records
