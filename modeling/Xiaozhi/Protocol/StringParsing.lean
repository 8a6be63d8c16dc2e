-- SUMMARY: The two passes of cJSON over a string: the second one never writes or reads beyond what the first one has measured.
import Xiaozhi.Protocol.CJson

/-!
# Parsing strings

`parse_string` passes over a string twice. The first pass finds the closing
quote and counts the backslashes that it takes for escapes, the second one writes
the decoded bytes into memory of `allocation_length + 1` bytes. The two passes
may disagree on what is escaped, since the second one passes over the four
digits of a `\u` whatever they are.
-/

namespace Xiaozhi

namespace CJson

open CString

/-- `allocation_length` of `parse_string`. -/
def allocationLength (input : Bytes) (skippedBytes : Nat) : Nat := input.length + 1 - skippedBytes

/-- The second pass over `input` has written `output`; `pointer` is the offset of
    `input_pointer` in `input`. -/
inductive Decoding (input : Bytes) : Bytes → Nat → Prop where
  | start : Decoding input [] 0
  | step {output bytes : Bytes} {pointer n : Nat} : Decoding input output pointer →
      decodeStep (input.drop pointer) = some (bytes, n) →
      Decoding input (output ++ bytes) (pointer + n)

/-- The number of characters, where a backslash and what follows it are one. -/
def units : Bytes → Nat
  | [] => 0
  | [_] => 1
  | c :: d :: rest => if c = byte '\\' then units rest + 1 else units (d :: rest) + 1

variable {input output bytes text rest : Bytes} {b c d : UInt8} {n pointer skipped : Nat}

/-! ## Characters -/

theorem units_cons_of_ne (h : c ≠ byte '\\') : units (c :: rest) = units rest + 1 := by
  cases rest with
  | nil => rfl
  | cons d rest => rw [units, if_neg h]

@[simp] theorem units_backslash : units (byte '\\' :: d :: rest) = units rest + 1 := by
  rw [units, if_pos rfl]

/-- One byte more is at most one character more, and never one less. -/
theorem units_cons (c : UInt8) (rest : Bytes) :
    units rest ≤ units (c :: rest) ∧ units (c :: rest) ≤ units rest + 1 := by
  induction rest generalizing c with
  | nil => exact ⟨Nat.zero_le _, Nat.le_refl _⟩
  | cons d rest ih =>
    obtain ⟨hlow, hhigh⟩ := ih d
    by_cases hc : c = byte '\\'
    · subst hc
      rw [units_backslash]
      exact ⟨hhigh, Nat.succ_le_succ hlow⟩
    · rw [units_cons_of_ne hc]
      exact ⟨Nat.le_succ _, Nat.le_refl _⟩

/-- Two bytes are at least one character. -/
theorem units_cons_cons : units rest + 1 ≤ units (c :: d :: rest) := by
  by_cases hc : c = byte '\\'
  · subst hc
    rw [units_backslash]
  · rw [units_cons_of_ne hc]
    exact Nat.succ_le_succ (units_cons d rest).1

theorem units_drop_two (h : 2 ≤ input.length) : units (input.drop 2) + 1 ≤ units input := by
  match input, h with
  | _ :: _ :: _, _ => exact units_cons_cons

/-- Six bytes are at least three characters. -/
theorem units_drop_six (h : 6 ≤ input.length) : units (input.drop 6) + 3 ≤ units input := by
  have h₁ : units (input.drop 2) + 1 ≤ units input := units_drop_two (by omega)
  have h₂ : units ((input.drop 2).drop 2) + 1 ≤ units (input.drop 2) :=
    units_drop_two (by rw [List.length_drop]; omega)
  have h₃ : units (((input.drop 2).drop 2).drop 2) + 1 ≤ units ((input.drop 2).drop 2) :=
    units_drop_two (by rw [List.length_drop, List.length_drop]; omega)
  simp only [List.drop_drop, Nat.reduceAdd] at h₂ h₃
  omega

/-! ## The first pass -/

/-- The first pass over `text` finds `input` before the closing quote. -/
inductive Scanned : Bytes → Bytes → Nat → Bytes → Prop where
  | close {rest : Bytes} : Scanned (byte '"' :: rest) [] 0 rest
  | escape {d : UInt8} {text input rest : Bytes} {skipped : Nat} :
      Scanned text input skipped rest →
      Scanned (byte '\\' :: d :: text) (byte '\\' :: d :: input) (skipped + 1) rest
  | char {c : UInt8} {text input rest : Bytes} {skipped : Nat} : c ≠ byte '"' → c ≠ byte '\\' →
      Scanned text input skipped rest → Scanned (c :: text) (c :: input) skipped rest

theorem scanned_of_scanString (h : scanString text = some (input, skipped, rest)) :
    Scanned text input skipped rest := by
  fun_induction scanString text generalizing input skipped with
  | case1 => cases h
  | case2 rest' =>
    cases h
    exact .close
  | case3 => cases h
  | case4 d rest' hquote ih =>
    obtain ⟨⟨input', skipped', rest'⟩, hscan, heq⟩ := Option.map_eq_some_iff.mp h
    cases heq
    exact .escape (ih hscan)
  | case5 c rest' hquote hbackslash ih =>
    obtain ⟨⟨input', skipped', rest'⟩, hscan, heq⟩ := Option.map_eq_some_iff.mp h
    cases heq
    exact .char hquote hbackslash (ih hscan)

theorem Scanned.scanString (h : Scanned text input skipped rest) :
    scanString text = some (input, skipped, rest) := by
  induction h with
  | close =>
    unfold CJson.scanString
    exact if_pos rfl
  | escape _ ih =>
    have hne : byte '\\' ≠ byte '"' := by decide
    refine (if_neg hne).trans ((if_pos rfl).trans ?_)
    simp only [ih, Option.map_some]
  | char hquote hbackslash _ ih =>
    unfold CJson.scanString
    refine (if_neg hquote).trans ((if_neg hbackslash).trans ?_)
    rw [ih, Option.map_some]

theorem Scanned.eq_append (h : Scanned text input skipped rest) :
    text = input ++ byte '"' :: rest := by
  induction h with
  | close => rfl
  | escape _ ih => rw [ih, List.cons_append, List.cons_append]
  | char _ _ _ ih => rw [ih, List.cons_append]

/-- The first pass counts the characters. -/
theorem Scanned.length_eq (h : Scanned text input skipped rest) :
    input.length = units input + skipped := by
  induction h with
  | close => rfl
  | escape _ ih =>
    rw [units_backslash, List.length_cons, List.length_cons, ih]
    omega
  | char _ hbackslash _ ih =>
    rw [units_cons_of_ne hbackslash, List.length_cons, ih]
    omega

/-! ## The second pass -/

theorem length_encodeTail (n codepoint : Nat) : (encodeTail n codepoint).2.length = n := by
  induction n generalizing codepoint with
  | zero => rfl
  | succ n ih => simp [encodeTail, ih]

theorem length_encodeBytes {length mark codepoint : Nat} (h : 0 < length) :
    (encodeBytes length mark codepoint).length = length := by
  rw [encodeBytes, List.length_cons, length_encodeTail]
  omega

/-- A code point of four digits takes three bytes at most, and a pair of them four. -/
theorem length_encodeUtf8 {codepoint : Nat} (h : encodeUtf8 codepoint = some bytes) :
    bytes.length ≤ 4 ∧ (codepoint < 0x10000 → bytes.length ≤ 3) := by
  unfold encodeUtf8 at h
  split at h
  · cases h
    rw [length_encodeBytes (by decide)]
    omega
  · split at h
    · cases h
      rw [length_encodeBytes (by decide)]
      omega
    · split at h
      · cases h
        rw [length_encodeBytes (by decide)]
        omega
      · split at h
        · cases h
          rw [length_encodeBytes (by decide)]
          omega
        · cases h

theorem hexValue_lt {d : Nat} (h : JsonText.hexValue b = some d) : d < 16 := by
  unfold JsonText.hexValue at h
  simp only [byte, UInt8.le_iff_toNat_le] at h
  split at h
  · next hrange =>
    obtain ⟨hlow, hhigh⟩ := hrange
    change b.toNat ≤ 57 at hhigh
    cases h
    omega
  · split at h
    · next hrange =>
      obtain ⟨hlow, hhigh⟩ := hrange
      change b.toNat ≤ 102 at hhigh
      cases h
      omega
    · split at h
      · next hrange =>
        obtain ⟨hlow, hhigh⟩ := hrange
        change b.toNat ≤ 70 at hhigh
        cases h
        omega
      · cases h

theorem foldlM_hexValue_lt {digits : Bytes} {h r : Nat}
    (hfold : digits.foldlM (fun h b => (JsonText.hexValue b).map fun d => (h <<< 4) + d) h = some r) :
    r < (h + 1) * 16 ^ digits.length := by
  induction digits generalizing h with
  | nil =>
    cases hfold
    simp
  | cons b digits ih =>
    rw [List.foldlM_cons] at hfold
    obtain ⟨h', hb, hfold⟩ := Option.bind_eq_some_iff.mp hfold
    obtain ⟨d, hd, rfl⟩ := Option.map_eq_some_iff.mp hb
    have hdigit : d < 16 := hexValue_lt hd
    have hnext : (h <<< 4) + d + 1 ≤ (h + 1) * 16 := by
      rw [Nat.shiftLeft_eq]
      omega
    calc r < ((h <<< 4) + d + 1) * 16 ^ digits.length := ih hfold
      _ ≤ (h + 1) * 16 * 16 ^ digits.length := Nat.mul_le_mul_right _ hnext
      _ = (h + 1) * 16 ^ (b :: digits).length := by
        rw [List.length_cons, Nat.pow_succ, Nat.mul_assoc, Nat.mul_comm 16]

theorem parseHex4_lt (input : Bytes) : parseHex4 input < 0x10000 := by
  unfold parseHex4
  cases hfold : (input.take 4).foldlM
      (fun h b => (JsonText.hexValue b).map fun d => (h <<< 4) + d) 0 with
  | none => exact Nat.zero_lt_succ _
  | some r =>
    have hlt : r < (0 + 1) * 16 ^ (input.take 4).length := foldlM_hexValue_lt hfold
    have hpow : 16 ^ (input.take 4).length ≤ 16 ^ 4 :=
      Nat.pow_le_pow_right (by decide) (List.length_take_le 4 input)
    rw [Option.getD_some]
    omega

/-- A literal is one sequence of six bytes, or a pair of them. -/
theorem utf16LiteralToUtf8_cases (h : utf16LiteralToUtf8 input = some (bytes, n)) :
    (n = 6 ∧ 6 ≤ input.length ∧ encodeUtf8 (parseHex4 (input.drop 2)) = some bytes) ∨
    (n = 12 ∧ 12 ≤ input.length ∧ ∃ codepoint, encodeUtf8 codepoint = some bytes) := by
  unfold utf16LiteralToUtf8 at h
  split at h
  · cases h
  · next hlength =>
    dsimp only at h
    split at h
    · cases h
    · split at h
      · split at h
        · cases h
        · next hsecond =>
          rw [List.length_drop] at hsecond
          split at h
          · cases h
          · split at h
            · cases h
            · obtain ⟨encoded, hencode, heq⟩ := Option.map_eq_some_iff.mp h
              cases heq
              exact .inr ⟨rfl, by omega, _, hencode⟩
      · obtain ⟨encoded, hencode, heq⟩ := Option.map_eq_some_iff.mp h
        cases heq
        exact .inl ⟨rfl, not_lt.mp hlength, hencode⟩

/-- A round passes a byte that stands for itself, an escape of two bytes, or a literal. -/
theorem decodeStep_cases (h : decodeStep input = some (bytes, n)) :
    ∃ c rest, input = c :: rest ∧
      ((c ≠ byte '\\' ∧ bytes = [c] ∧ n = 1) ∨
       (c = byte '\\' ∧ n = 2 ∧ ∃ b, bytes = [b]) ∨
       (c = byte '\\' ∧ utf16LiteralToUtf8 input = some (bytes, n))) := by
  unfold decodeStep at h
  split at h
  · cases h
  · next c rest =>
    refine ⟨c, rest, rfl, ?_⟩
    split at h
    · next hc =>
      cases h
      exact .inl ⟨hc, rfl, rfl⟩
    · next hc =>
      dsimp only at h
      split at h
      · exact .inr (.inr ⟨not_not.mp hc, h⟩)
      · obtain ⟨b, -, heq⟩ := Option.map_eq_some_iff.mp h
        cases heq
        exact .inr (.inl ⟨not_not.mp hc, rfl, b, rfl⟩)

theorem decodeStep_pos (h : decodeStep input = some (bytes, n)) : 0 < n := by
  obtain ⟨c, rest, -, ⟨-, -, rfl⟩ | ⟨-, rfl, -⟩ | ⟨-, hliteral⟩⟩ := decodeStep_cases h
  · exact Nat.zero_lt_one
  · exact Nat.zero_lt_two
  · obtain ⟨rfl, -⟩ | ⟨rfl, -⟩ := utf16LiteralToUtf8_cases hliteral <;> exact Nat.succ_pos _

/-- A literal has at least as many characters as its encoding has bytes. -/
theorem utf16LiteralToUtf8_fits (h : utf16LiteralToUtf8 input = some (bytes, n)) :
    bytes.length + units (input.drop n) ≤ units input ∧ n ≤ input.length := by
  obtain ⟨rfl, hlength, hencode⟩ | ⟨rfl, hlength, codepoint, hencode⟩ := utf16LiteralToUtf8_cases h
  · have hsix : units (input.drop 6) + 3 ≤ units input := units_drop_six hlength
    have hbytes : bytes.length ≤ 3 := (length_encodeUtf8 hencode).2 (parseHex4_lt _)
    exact ⟨by omega, hlength⟩
  · have hsix : units (input.drop 6) + 3 ≤ units input := units_drop_six (by omega)
    have htwelve : units ((input.drop 6).drop 6) + 3 ≤ units (input.drop 6) :=
      units_drop_six (by rw [List.length_drop]; omega)
    have hbytes : bytes.length ≤ 4 := (length_encodeUtf8 hencode).1
    simp only [List.drop_drop, Nat.reduceAdd] at htwelve
    exact ⟨by omega, hlength⟩

/-- One round writes at most one byte for each character that it passes, and
    passes the closing quote by at most one. -/
theorem decodeStep_fits (h : decodeStep input = some (bytes, n)) :
    bytes.length + units (input.drop n) ≤ units input ∧ n ≤ input.length + 1 := by
  obtain ⟨c, rest, rfl, ⟨hc, rfl, rfl⟩ | ⟨rfl, rfl, b, rfl⟩ | ⟨-, hliteral⟩⟩ := decodeStep_cases h
  · rw [units_cons_of_ne hc, List.drop_one, List.tail_cons, List.length_singleton]
    exact ⟨(Nat.add_comm _ _).le, Nat.le_add_left _ _⟩
  · cases rest with
    | nil => exact ⟨Nat.le_refl _, Nat.le_refl _⟩
    | cons d rest =>
      rw [units_backslash, List.length_singleton]
      exact ⟨(Nat.add_comm _ _).le, Nat.le_add_left _ _⟩
  · obtain ⟨hfits, hlength⟩ := utf16LiteralToUtf8_fits hliteral
    exact ⟨hfits, hlength.trans (Nat.le_succ _)⟩

namespace Decoding

/-- The bytes written never exceed the characters passed. -/
theorem fits (h : Decoding input output pointer) :
    output.length + units (input.drop pointer) ≤ units input ∧ pointer ≤ input.length + 1 := by
  induction h with
  | start => exact ⟨(Nat.zero_add _).le, Nat.zero_le _⟩
  | @step output bytes pointer n _ hstep ih =>
    obtain ⟨hround, hpassed⟩ := decodeStep_fits hstep
    have hinside : pointer < input.length := by
      by_contra hend
      rw [List.drop_eq_nil_of_le (not_lt.mp hend)] at hstep
      cases hstep
    rw [List.drop_drop] at hround
    rw [List.length_drop] at hpassed
    rw [List.length_append]
    omega

end Decoding

/-- At every moment of the second pass the bytes written fit, with the NUL that is
    put behind them, into `allocation_length` bytes, and the pointer has passed the
    closing quote by at most one. -/
theorem parseString_fits (hscan : scanString text = some (input, skipped, rest))
    (h : Decoding input output pointer) :
    output.length + 1 ≤ allocationLength input skipped ∧ pointer ≤ input.length + 1 := by
  obtain ⟨hfits, hpointer⟩ := h.fits
  have hlength : input.length = units input + skipped := (scanned_of_scanString hscan).length_eq
  refine ⟨?_, hpointer⟩
  rw [allocationLength]
  omega

/-- The digits of a `\u` may cover the first half of an escape; the second half is
    then taken for the start of one, and the pointer passes the closing quote. -/
theorem parseString_fits_misaligned :
    [0, byte '"'].length + 1 ≤ allocationLength (ofString "\\u123\\\\") 2 ∧
      8 ≤ (ofString "\\u123\\\\").length + 1 := by
  have hscan : scanString (ofString "\\u123\\\\\"") = some (ofString "\\u123\\\\", 2, []) := by
    decide +kernel
  have hliteral : decodeStep (ofString "\\u123\\\\") = some ([0], 6) := by decide +kernel
  have hquote : decodeStep ((ofString "\\u123\\\\").drop 6) = some ([byte '"'], 2) := by
    decide +kernel
  exact parseString_fits hscan ((Decoding.start.step hliteral).step hquote)

/-! ## The loop as a function -/

theorem decodeString_cons {fuel : Nat} :
    decodeString (fuel + 1) (c :: input) = (decodeStep (c :: input)).bind fun r =>
      (decodeString fuel ((c :: input).drop r.2)).map (r.1 ++ ·) := by
  rw [decodeString]
  · cases decodeStep (c :: input) with
    | none => rfl
    | some r =>
      simp only [Option.bind_eq_bind, Option.bind_some]
      cases decodeString fuel ((c :: input).drop r.2) <;> rfl
  · exact List.cons_ne_nil _ _

/-- More fuel than bytes changes nothing. -/
theorem decodeString_fuel {fuel : Nat} (h : input.length ≤ fuel) :
    decodeString fuel input = decodeString input.length input := by
  induction hlen : input.length using Nat.strongRecOn generalizing input fuel with
  | ind m ih =>
    cases input with
    | nil =>
      subst hlen
      cases fuel <;> rfl
    | cons c input =>
      obtain ⟨fuel, rfl⟩ : ∃ k, fuel = k + 1 := ⟨fuel - 1, by rw [List.length_cons] at h; omega⟩
      rw [List.length_cons] at hlen h
      subst hlen
      rw [decodeString_cons, decodeString_cons]
      refine Option.bind_congr fun r hstep => ?_
      have hn : 0 < r.2 := decodeStep_pos hstep
      have hdrop : ((c :: input).drop r.2).length ≤ input.length := by
        rw [List.length_drop, List.length_cons]
        omega
      rw [ih _ (Nat.lt_succ_of_le hdrop) (by omega) rfl, ih _ (Nat.lt_succ_of_le hdrop) hdrop rfl]

/-- The second pass over what is left. -/
def decode (input : Bytes) : Option Bytes := decodeString input.length input

@[simp] theorem decode_nil : decode [] = some [] := rfl

theorem decode_of_decodeStep (h : decodeStep input = some (bytes, n)) :
    decode input = (decode (input.drop n)).map (bytes ++ ·) := by
  cases input with
  | nil => cases h
  | cons c input =>
    have hn : 0 < n := decodeStep_pos h
    have hdrop : ((c :: input).drop n).length ≤ input.length := by
      rw [List.length_drop, List.length_cons]
      omega
    rw [decode, List.length_cons, decodeString_cons, h, Option.bind_some, decodeString_fuel hdrop]
    rfl

/-- What has been written is the first part of the result. -/
theorem Decoding.decode (h : Decoding input output pointer) :
    CJson.decode input = (CJson.decode (input.drop pointer)).map (output ++ ·) := by
  induction h with
  | start =>
    rw [List.drop_zero]
    exact Option.map_id.symm ▸ rfl
  | step _ hstep ih =>
    rw [ih, decode_of_decodeStep hstep, List.drop_drop, Option.map_map]
    refine congrArg (Option.map · _) (funext fun bytes => ?_)
    exact (List.append_assoc _ _ _).symm

/-- A result is what the loop goes on to write. -/
theorem Decoding.finish (h : Decoding input output pointer)
    (hdecode : CJson.decode (input.drop pointer) = some bytes) :
    ∃ pointer', Decoding input (output ++ bytes) pointer' ∧ input.length ≤ pointer' := by
  induction hlen : (input.drop pointer).length using Nat.strongRecOn
    generalizing output bytes pointer with
  | ind m ih =>
    by_cases hend : input.length ≤ pointer
    · rw [List.drop_eq_nil_of_le hend] at hdecode
      cases hdecode
      exact ⟨pointer, (List.append_nil output).symm ▸ h, hend⟩
    · obtain ⟨c, tail, htail⟩ : ∃ c tail, input.drop pointer = c :: tail :=
        List.exists_cons_of_ne_nil fun hnil => hend (List.drop_eq_nil_iff.mp hnil)
      obtain ⟨r, hstep⟩ : ∃ r, decodeStep (input.drop pointer) = some r := by
        rw [← Option.isSome_iff_exists, Option.isSome_iff_ne_none]
        intro hnone
        rw [CJson.decode, htail, List.length_cons, decodeString_cons, ← htail, hnone] at hdecode
        cases hdecode
      have hn : 0 < r.2 := decodeStep_pos hstep
      rw [decode_of_decodeStep hstep, List.drop_drop] at hdecode
      obtain ⟨bytes', hbytes, rfl⟩ := Option.map_eq_some_iff.mp hdecode
      have hless : (input.drop (pointer + r.2)).length < m := by
        rw [List.length_drop] at hlen ⊢
        omega
      obtain ⟨pointer', hdone, hpast⟩ := ih _ hless (h.step hstep) hbytes rfl
      exact ⟨pointer', by rwa [List.append_assoc] at hdone, hpast⟩

theorem parseString_quote :
    parseString (byte '"' :: text) = (scanString text).bind fun r =>
      (decode r.1).map fun output => (ofBytes output, r.2.2) := by
  rw [parseString, if_neg (not_not.mpr rfl)]
  cases scanString text with
  | none => rfl
  | some r =>
    simp only [Option.bind_eq_bind, Option.bind_some, decode]
    cases decodeString r.1.length r.1 <;> rfl

/-- `parse_string` succeeds just if both passes come to their end, and returns
    what the second one has written. -/
theorem parseString_eq_some_iff {s : Bytes} :
    parseString (byte '"' :: text) = some (s, rest) ↔
      ∃ input skipped output pointer, scanString text = some (input, skipped, rest) ∧
        Decoding input output pointer ∧ input.length ≤ pointer ∧ s = ofBytes output := by
  rw [parseString_quote]
  constructor
  · intro h
    obtain ⟨⟨input, skipped, rest'⟩, hscan, h⟩ := Option.bind_eq_some_iff.mp h
    obtain ⟨output, hdecode, heq⟩ := Option.map_eq_some_iff.mp h
    cases heq
    obtain ⟨pointer, hdone, hpast⟩ := Decoding.start.finish hdecode
    exact ⟨input, skipped, output, pointer, hscan, hdone, hpast, rfl⟩
  · rintro ⟨input, skipped, output, pointer, hscan, hdone, hpast, rfl⟩
    rw [hscan, Option.bind_some, hdone.decode, List.drop_eq_nil_of_le hpast]
    simp

end CJson

end Xiaozhi
