-- SUMMARY: What cJSON prints: a document of the JSON grammar with the same content, which cJSON parses to the same value.
import Xiaozhi.Protocol.Conformance

/-!
# Printing

`cJSON_PrintUnformatted` against the grammar of `Data/JsonText`, and against the
parser of cJSON, for values whose numbers are `int`: their `valuedouble` is their
`valueint`, as in all items that the application prints.
-/

namespace Xiaozhi

namespace CJson

open CString JsonText Json

variable {b c : UInt8} {fuel n : Nat} {s text rest : Bytes}

/-! ## Strings -/

theorem hexValue_hexDigit : ∀ d < 16, hexValue (hexDigit d) = some d := by
  decide

theorem readUnicode_byte (h : n < 128) :
    readUnicode (byte '0' :: byte '0' :: hexDigit (n / 16) :: hexDigit (n % 16) :: rest) =
      some ([n.toUInt8], rest) := by
  have hzero : hexValue (byte '0') = some 0 := by decide
  have hhigh : hexValue (hexDigit (n / 16)) = some (n / 16) := hexValue_hexDigit _ (by omega)
  have hlow : hexValue (hexDigit (n % 16)) = some (n % 16) := hexValue_hexDigit _ (by omega)
  have hvalue : ((0 * 16 + 0) * 16 + n / 16) * 16 + n % 16 = n := by omega
  have hhex : readHex (byte '0' :: byte '0' :: hexDigit (n / 16) :: hexDigit (n % 16) :: rest) =
      some (n, rest) := by
    simp only [readHex, hzero, hhigh, hlow, Option.bind_eq_bind, Option.bind_some, hvalue]
    rfl
  have hlowSurrogate : ¬(0xDC00 ≤ n ∧ n < 0xE000) := by omega
  have hhighSurrogate : ¬(0xD800 ≤ n ∧ n < 0xDC00) := by omega
  simp only [readUnicode, hhex, Option.bind_eq_bind, Option.bind_some, hlowSurrogate,
    hhighSurrogate, if_false, utf8, h, if_true]
  rfl

/-- A character of a string is read back from the characters printed for it. -/
theorem readString_escapeByte :
    readString (fuel + 1) (escapeByte b ++ text) =
      (readString fuel text).map fun r => (b :: r.1, r.2) := by
  have hescape : ∀ {e : UInt8}, escapes.lookup e = some b →
      readString (fuel + 1) (byte '\\' :: e :: text) =
        (readString fuel text).map fun r => (b :: r.1, r.2) := by
    intro e he
    have hquote : byte '\\' ≠ byte '"' := by decide
    rw [readString, if_neg hquote, if_pos rfl]
    simp only [readEscape, he, Option.bind_eq_bind, Option.bind_some]
    cases readString fuel text <;> rfl
  unfold escapeByte
  split
  · next h =>
    have hplain : PlainByte b := by
      refine ⟨h.2.1, h.2.2, fun hlt => ?_⟩
      have hgt : 31 < b.toNat := UInt8.lt_iff_toNat_lt.mp h.1
      have hlt : b.toNat < 32 := UInt8.lt_iff_toNat_lt.mp hlt
      omega
    exact readString_cons_of_plainByte hplain
  · next hspecial =>
    split_ifs with hbackslash hquote hb hf hn hr ht
    · subst hbackslash
      exact hescape (by decide)
    · subst hquote
      exact hescape (by decide)
    · subst hb
      exact hescape (by decide)
    · subst hf
      exact hescape (by decide)
    · subst hn
      exact hescape (by decide)
    · subst hr
      exact hescape (by decide)
    · subst ht
      exact hescape (by decide)
    · -- only control characters are left
      have hlt : b.toNat < 128 := by
        have hle : ¬b > 31 := fun hgt => hspecial ⟨hgt, hquote, hbackslash⟩
        have hle : b.toNat ≤ 31 := UInt8.le_iff_toNat_le.mp (UInt8.not_lt.mp hle)
        omega
      have hself : b.toNat.toUInt8 = b := UInt8.ofNat_toNat
      have hne : byte '\\' ≠ byte '"' := by decide
      have hlookup : escapes.lookup (byte 'u') = none := by decide
      have hprint : ofString "\\u00" ++ [hexDigit (b.toNat / 16), hexDigit (b.toNat % 16)] ++ text =
          byte '\\' :: byte 'u' :: byte '0' :: byte '0' :: hexDigit (b.toNat / 16) ::
            hexDigit (b.toNat % 16) :: text := rfl
      rw [hprint, readString, if_neg hne, if_pos rfl]
      simp only [readEscape, hlookup, if_true, readUnicode_byte hlt, hself, Option.bind_eq_bind,
        Option.bind_some]
      cases readString fuel text <;> rfl

theorem readString_flatMap (hfuel : s.length < fuel) :
    readString fuel (s.flatMap escapeByte ++ byte '"' :: rest) = some (s, rest) := by
  induction s generalizing fuel with
  | nil =>
    obtain ⟨fuel, rfl⟩ : ∃ m, fuel = m + 1 := ⟨fuel - 1, by omega⟩
    exact readString_quote
  | cons b s ih =>
    rw [List.length_cons] at hfuel
    obtain ⟨fuel, rfl⟩ : ∃ m, fuel = m + 1 := ⟨fuel - 1, by omega⟩
    rw [List.flatMap_cons, List.append_assoc, readString_escapeByte, ih (by omega)]
    rfl

theorem length_escapeByte_pos : 0 < (escapeByte b).length := by
  unfold escapeByte
  split_ifs <;> exact Nat.succ_pos _

theorem length_le_flatMap : s.length ≤ (s.flatMap escapeByte).length := by
  induction s with
  | nil => exact le_rfl
  | cons b s ih =>
    have hpos := length_escapeByte_pos (b := b)
    rw [List.flatMap_cons, List.length_append, List.length_cons]
    omega

theorem printString_eq :
    printString s ++ rest = byte '"' :: ((ofBytes s).flatMap escapeByte ++ byte '"' :: rest) := by
  have hquote : ofString "\"" = [byte '"'] := rfl
  rw [printString, hquote]
  simp only [List.cons_append, List.nil_append, List.append_assoc]

theorem length_printString : (ofBytes s).length + 2 ≤ (printString s).length := by
  have hle := length_le_flatMap (s := ofBytes s)
  have hquote : (ofString "\"").length = 1 := rfl
  rw [printString, List.length_append, List.length_append, hquote]
  omega

/-! ## Numbers -/

/-- What follows a value inside a document. -/
def Delimited (rest : Bytes) : Prop :=
  ∀ c, rest.head? = some c → c = byte ',' ∨ c = byte ']' ∨ c = byte '\x7d'

theorem Delimited.ne {d : UInt8} (h : Delimited rest) (hcomma : d ≠ byte ',') (hbracket : d ≠ byte ']')
    (hbrace : d ≠ byte '\x7d') : rest.head? ≠ some d := by
  intro hhead
  obtain rfl | rfl | rfl := h d hhead
  · exact hcomma rfl
  · exact hbracket rfl
  · exact hbrace rfl

theorem Delimited.readPart {marks : List UInt8} {read : Bytes → Option (Bytes × Bytes)}
    (h : Delimited rest) (hmarks : ∀ d ∈ marks, d ≠ byte ',' ∧ d ≠ byte ']' ∧ d ≠ byte '\x7d') :
    JsonText.readPart marks read rest = some ([], rest) := by
  cases rest with
  | nil => rfl
  | cons c rest =>
    have hc : c ∉ marks := by
      intro hmem
      obtain ⟨hcomma, hbracket, hbrace⟩ := hmarks c hmem
      exact h.ne hcomma hbracket hbrace rfl
    exact if_neg hc

theorem readDigits_decimal (h : Delimited rest) :
    JsonText.readDigits (Numeral.decimal n ++ rest) = some (Numeral.decimal n, rest) := by
  have hrest : ∀ b, rest.head? = some b → isDigit b = false := by
    intro d hd
    obtain rfl | rfl | rfl := h d hd <;> decide
  obtain ⟨htake, hdrop⟩ :=
    takeWhile_digits (fun b hb => Numeral.isDigit_of_mem_decimal (n := n) hb) hrest (.inr rfl)
  rw [JsonText.readDigits, htake, hdrop]
  split
  · next hnil => exact absurd hnil Numeral.decimal_ne_nil
  · rfl

/-- A printed number has no superfluous zeros. -/
theorem readUnsigned_decimal (h : Delimited rest) :
    readUnsigned (Numeral.decimal n ++ rest) = some (Numeral.decimal n, rest) := by
  have hzero : ¬((Numeral.decimal n).head? = some (byte '0') ∧ (Numeral.decimal n).length ≠ 1) := by
    rintro ⟨hhead, hlen⟩
    obtain rfl := Numeral.head?_decimal hhead
    exact hlen rfl
  have hfraction : JsonText.readPart [byte '.'] JsonText.readDigits rest = some ([], rest) :=
    h.readPart (by decide +kernel)
  have hexponent : JsonText.readPart [byte 'e', byte 'E'] readExponent rest = some ([], rest) :=
    h.readPart (by decide +kernel)
  simp only [readUnsigned, readDigits_decimal h, hzero, hfraction, hexponent, Option.bind_eq_bind,
    Option.bind_some, if_false, List.append_nil]
  rfl

theorem exists_cons_decimal : ∃ d digits, Numeral.decimal n = d :: digits ∧ isDigit d = true := by
  obtain ⟨d, digits, heq⟩ := List.exists_cons_of_ne_nil (Numeral.decimal_ne_nil (n := n))
  exact ⟨d, digits, heq, Numeral.isDigit_of_mem_decimal (heq ▸ List.mem_cons_self)⟩

theorem readNumber_ofInt {n : Int} (h : Delimited rest) :
    readNumber (ofInt n ++ rest) = some (ofInt n, rest) := by
  rw [Numeral.ofInt_eq]
  split
  · rw [List.cons_append, readNumber, if_pos rfl, readUnsigned_decimal h]
    rfl
  · obtain ⟨d, digits, heq, hd⟩ := exists_cons_decimal (n := n.natAbs)
    have hne : d ≠ byte '-' := by
      rintro rfl
      exact absurd hd (by decide)
    have hunsigned := readUnsigned_decimal (n := n.natAbs) h
    rw [heq] at hunsigned ⊢
    rw [List.cons_append, readNumber, if_neg hne]
    exact hunsigned

/-- The value of a printed number. -/
theorem scan_ofInt (n : Int) : Numeral.scan (ofInt n) = some ((n : ℚ), []) := by
  have hdigits (m : Nat) : ∀ b ∈ Numeral.decimal m, isDigit b = true :=
    fun b hb => Numeral.isDigit_of_mem_decimal hb
  have hunsigned (m : Nat) : Numeral.scanUnsigned (Numeral.decimal m) = some ((m : ℚ), []) := by
    have htake : (Numeral.decimal m).takeWhile isDigit = Numeral.decimal m :=
      List.takeWhile_eq_self_iff.mpr (hdigits m)
    have hdrop : (Numeral.decimal m).dropWhile isDigit = [] :=
      List.dropWhile_eq_nil_iff.mpr (hdigits m)
    simp only [Numeral.scanUnsigned, htake, hdrop, Numeral.scanFraction, Numeral.scanExponent,
      List.append_nil, Numeral.decimal_ne_nil, if_false, Numeral.readDigits_decimal]
    simp
  rw [Numeral.ofInt_eq]
  split
  · next hneg =>
    have hsign : Numeral.scanSign (byte '-' :: Numeral.decimal n.natAbs) =
        (true, Numeral.decimal n.natAbs) := by
      rw [Numeral.scanSign, if_pos rfl]
    have hcast : -((n.natAbs : Nat) : ℚ) = n := by
      rw [← Int.cast_natCast, Int.ofNat_natAbs_of_nonpos hneg.le]
      push_cast
      ring
    simp only [Numeral.scan, hsign, hunsigned, Option.map_some, if_true, hcast]
  · next hpos =>
    obtain ⟨d, digits, heq, hd⟩ := exists_cons_decimal (n := n.natAbs)
    have hsign : Numeral.scanSign (Numeral.decimal n.natAbs) = (false, Numeral.decimal n.natAbs) := by
      rw [heq]
      exact scanSign_digit hd
    have hcast : ((n.natAbs : Nat) : ℚ) = n := by
      rw [← Int.cast_natCast, Int.natAbs_of_nonneg (not_lt.mp hpos)]
    simp only [Numeral.scan, hsign, hunsigned, Option.map_some, hcast]
    rfl

/-- An `int` is printed so that it is parsed to itself. -/
theorem numberInt_ofInt {n : Int} (hmin : -2 ^ 31 ≤ n) (hmax : n ≤ 2 ^ 31 - 1) :
    numberInt (ofInt n) = n := by
  have habs : n.natAbs < 2 ^ 53 := by omega
  simp only [numberInt, Numeral.strtod, scan_ofInt, Option.map_some,
    Numeral.nearestDouble_intCast habs, Numeral.toInt_intCast hmin hmax]

/-! ## Values -/

mutual

/-- The value of the grammar that is printed for a value of cJSON. -/
def toValue : Json → Value
  | .null => .null
  | .bool b => .bool b
  | .number n => .number (ofInt n)
  | .string s => .string (ofBytes s)
  | .array items => .array (toItems items)
  | .object members => .object (toMembers members)

def toItems : List Json → List Value
  | [] => []
  | item :: items => toValue item :: toItems items

def toMembers : List (Bytes × Json) → List (Bytes × Value)
  | [] => []
  | (key, value) :: members => (ofBytes key, toValue value) :: toMembers members

end

theorem head_printUnformatted (v : Json) :
    ∃ c tail, printUnformatted v = c :: tail ∧ Token c ∧ c ≠ byte ']' := by
  cases v with
  | null => exact ⟨byte 'n', _, rfl, by decide, by decide⟩
  | bool b => cases b <;> exact ⟨_, _, rfl, by decide, by decide⟩
  | number n =>
    obtain ⟨d, digits, heq, hd⟩ := exists_cons_decimal (n := n.natAbs)
    rw [printUnformatted, Numeral.ofInt_eq]
    split
    · exact ⟨byte '-', _, rfl, by decide, by decide⟩
    · refine ⟨d, digits, heq, ?_, ?_⟩
      · rintro (rfl | rfl | rfl | rfl) <;> exact absurd hd (by decide)
      · rintro rfl
        exact absurd hd (by decide)
  | string s => exact ⟨byte '"', _, rfl, by decide, by decide⟩
  | array items => exact ⟨byte '[', _, rfl, by decide, by decide⟩
  | object members => exact ⟨byte '\x7b', _, rfl, by decide, by decide⟩

theorem skipSpace_printUnformatted (v : Json) :
    skipSpace (printUnformatted v ++ rest) = printUnformatted v ++ rest := by
  obtain ⟨c, tail, heq, hc, -⟩ := head_printUnformatted v
  rw [heq, List.cons_append, skipSpace_cons hc]

theorem length_printUnformatted_pos (v : Json) : 0 < (printUnformatted v).length := by
  obtain ⟨c, tail, heq, -, -⟩ := head_printUnformatted v
  rw [heq]
  exact Nat.succ_pos _

theorem printItems_cons_cons (item item' : Json) (items : List Json) :
    printItems (item :: item' :: items) =
      printUnformatted item ++ byte ',' :: printItems (item' :: items) := by
  have hcomma : ofString "," = [byte ','] := rfl
  rw [printItems, hcomma, List.append_assoc, List.singleton_append]
  exact fun h => List.cons_ne_nil _ _ h

theorem printMembers_cons_cons (m m' : Bytes × Json) (members : List (Bytes × Json)) :
    printMembers (m :: m' :: members) =
      printString m.1 ++ byte ':' :: (printUnformatted m.2 ++ byte ',' :: printMembers (m' :: members)) := by
  have hcomma : ofString "," = [byte ','] := rfl
  have hcolon : ofString ":" = [byte ':'] := rfl
  rw [printMembers, hcomma, hcolon]
  · simp only [List.append_assoc, List.cons_append, List.nil_append]
  · exact fun h => List.cons_ne_nil _ _ h

theorem printMembers_singleton (m : Bytes × Json) :
    printMembers [m] = printString m.1 ++ byte ':' :: printUnformatted m.2 := by
  have hcolon : ofString ":" = [byte ':'] := rfl
  rw [printMembers, hcolon, List.append_assoc, List.singleton_append]

theorem printArray_eq (items : List Json) :
    printUnformatted (.array items) = byte '[' :: (printItems items ++ [byte ']']) := by
  have hopen : ofString "[" = [byte '['] := rfl
  have hclose : ofString "]" = [byte ']'] := rfl
  rw [printUnformatted, hopen, hclose, List.append_assoc, List.singleton_append]

theorem printObject_eq (members : List (Bytes × Json)) :
    printUnformatted (.object members) = byte '\x7b' :: (printMembers members ++ [byte '\x7d']) := by
  have hopen : ofString "\x7b" = [byte '\x7b'] := rfl
  have hclose : ofString "\x7d" = [byte '\x7d'] := rfl
  rw [printUnformatted, hopen, hclose, List.append_assoc, List.singleton_append]

theorem head_printItems (item : Json) (items : List Json) :
    ∃ c tail, printItems (item :: items) = c :: tail ∧ Token c ∧ c ≠ byte ']' := by
  obtain ⟨c, tail, heq, hc, hne⟩ := head_printUnformatted item
  cases items with
  | nil => exact ⟨c, tail, heq, hc, hne⟩
  | cons item' items =>
    refine ⟨c, tail ++ byte ',' :: printItems (item' :: items), ?_, hc, hne⟩
    rw [printItems_cons_cons, heq, List.cons_append]

theorem head_printMembers (m : Bytes × Json) (members : List (Bytes × Json)) :
    ∃ tail, printMembers (m :: members) = byte '"' :: tail := by
  cases members with
  | nil =>
    rw [printMembers_singleton, printString_eq]
    exact ⟨_, rfl⟩
  | cons m' members =>
    rw [printMembers_cons_cons, printString_eq]
    exact ⟨_, rfl⟩

theorem delimited_cons (h : c = byte ',' ∨ c = byte ']' ∨ c = byte '\x7d') : Delimited (c :: rest) := by
  intro d hd
  obtain rfl := Option.some.inj hd
  exact h

theorem readValue_string {fuel : Nat} (h : readString (fuel + 1) text = some (s, rest)) :
    readValue (fuel + 1) (byte '"' :: text) = some (.string s, rest) := by
  rw [readValue, if_pos rfl, h]
  rfl

/-- A number starts like no other value. -/
theorem readValue_number {fuel : Nat} (hc : c = byte '-' ∨ isDigit c = true)
    (h : readNumber (c :: text) = some (s, rest)) :
    readValue (fuel + 1) (c :: text) = some (.number s, rest) := by
  have hne (d : UInt8) (hd : d ≠ byte '-' ∧ isDigit d = false) : c ≠ d := by
    rintro rfl
    obtain rfl | hdigit := hc
    · exact hd.1 rfl
    · exact absurd hdigit (by rw [hd.2]; decide)
  have hliteral : readLiteral (c :: text) = none := by
    obtain ⟨hn, hf, ht⟩ : NoLiteral (c :: text) :=
      noLiteral_cons (hne _ (by decide)) (hne _ (by decide)) (hne _ (by decide))
    rw [readLiteral, if_neg hn, if_neg ht, if_neg hf]
  rw [readValue, if_neg (hne _ (by decide)), if_neg (hne _ (by decide)),
    if_neg (hne _ (by decide)), hliteral]
  dsimp only
  rw [h]
  rfl

/-- Reading an array that is not empty comes down to reading its items. -/
theorem readValue_array {fuel : Nat} {items : List Value} (hskip : skipSpace text = c :: s)
    (hne : c ≠ byte ']') (h : readItems fuel text = some (items, rest)) :
    readValue (fuel + 1) (byte '[' :: text) = some (.array items, rest) := by
  have hexpect : expect (byte ']') text = none := by
    rw [expect, hskip]
    exact if_neg hne
  have hquote : byte '[' ≠ byte '"' := by decide
  have hbrace : byte '[' ≠ byte '\x7b' := by decide
  rw [readValue, if_neg hquote, if_neg hbrace, if_pos rfl, hexpect]
  dsimp only
  rw [h]
  rfl

/-- Reading an object that is not empty comes down to reading its members. -/
theorem readValue_object {fuel : Nat} {members : List (Bytes × Value)}
    (hskip : skipSpace text = c :: s) (hne : c ≠ byte '\x7d')
    (h : readMembers fuel text = some (members, rest)) :
    readValue (fuel + 1) (byte '\x7b' :: text) = some (.object members, rest) := by
  have hexpect : expect (byte '\x7d') text = none := by
    rw [expect, hskip]
    exact if_neg hne
  have hquote : byte '\x7b' ≠ byte '"' := by decide
  rw [readValue, if_neg hquote, if_pos rfl, hexpect]
  dsimp only
  rw [h]
  rfl

/-- The first item of an array, and what the loop does behind it. -/
theorem readItems_cons {fuel : Nat} {item : Value} (hskip : skipSpace text = text)
    (h : readValue fuel text = some (item, rest)) :
    readItems (fuel + 1) text =
      match expect (byte ']') rest with
      | some rest => some ([item], rest)
      | none => (expect (byte ',') rest).bind fun rest =>
        (readItems fuel rest).map fun r => (item :: r.1, r.2) := by
  rw [readItems, hskip, h]
  simp only [Option.bind_eq_bind, Option.bind_some]
  cases expect (byte ']') rest with
  | some rest => rfl
  | none =>
    cases expect (byte ',') rest with
    | none => rfl
    | some rest =>
      simp only [Option.bind_some]
      cases readItems fuel rest <;> rfl

/-- The first member of an object, and what the loop does behind it. -/
theorem readMembers_cons {fuel : Nat} {key : Bytes} {value : Value}
    (hkey : readString (fuel + 1) s = some (key, byte ':' :: text)) (hskip : skipSpace text = text)
    (h : readValue fuel text = some (value, rest)) :
    readMembers (fuel + 1) (byte '"' :: s) =
      match expect (byte '\x7d') rest with
      | some rest => some ([(key, value)], rest)
      | none => (expect (byte ',') rest).bind fun rest =>
        (readMembers fuel rest).map fun r => ((key, value) :: r.1, r.2) := by
  have hquote : Token (byte '"') := by decide
  have hcolon : Token (byte ':') := by decide
  rw [readMembers, expect_self hquote]
  simp only [Option.bind_eq_bind, Option.bind_some]
  rw [hkey]
  simp only [Option.bind_some]
  rw [expect_self hcolon]
  simp only [Option.bind_some]
  rw [hskip, h]
  simp only [Option.bind_some]
  cases expect (byte '\x7d') rest with
  | some rest => rfl
  | none =>
    cases expect (byte ',') rest with
    | none => rfl
    | some rest =>
      simp only [Option.bind_some]
      cases readMembers fuel rest <;> rfl

mutual

/-- What is printed for a value is read as one, up to what delimits it. -/
theorem readValue_printUnformatted (v : Json) {fuel : Nat} {rest : Bytes}
    (hfuel : 2 * (printUnformatted v).length ≤ fuel) (hrest : Delimited rest) :
    readValue fuel (printUnformatted v ++ rest) = some (toValue v, rest) := by
  have hpos := length_printUnformatted_pos v
  obtain ⟨fuel, rfl⟩ : ∃ m, fuel = m + 1 := ⟨fuel - 1, by omega⟩
  cases v with
  | null => rfl
  | bool b => cases b <;> rfl
  | number n =>
    have hread := readNumber_ofInt (n := n) hrest
    rw [printUnformatted, toValue]
    -- the first character tells that it is a number
    obtain ⟨-, -, ⟨c, digits, heq, hc⟩, -⟩ := scan_of_readNumber hread
    rw [heq, List.cons_append] at hread ⊢
    exact readValue_number hc hread
  | string s =>
    have hlen := length_printString (s := s)
    rw [printUnformatted] at hfuel ⊢
    rw [printString_eq]
    exact readValue_string (readString_flatMap (by omega))
  | array items =>
    rw [printArray_eq] at hfuel ⊢
    rw [List.length_cons, List.length_append, List.length_singleton] at hfuel
    rw [List.cons_append, List.append_assoc, List.singleton_append]
    cases items with
    | nil => rfl
    | cons item items =>
      have hitems : readItems fuel (printItems (item :: items) ++ byte ']' :: rest) =
          some (toItems (item :: items), rest) :=
        readItems_printItems (item :: items) (List.cons_ne_nil _ _) (by omega)
      obtain ⟨c, tail, heq, hc, hne⟩ := head_printItems item items
      have hskip : skipSpace (printItems (item :: items) ++ byte ']' :: rest) =
          c :: (tail ++ byte ']' :: rest) := by
        rw [heq, List.cons_append, skipSpace_cons hc]
      exact readValue_array hskip hne hitems
  | object members =>
    rw [printObject_eq] at hfuel ⊢
    rw [List.length_cons, List.length_append, List.length_singleton] at hfuel
    rw [List.cons_append, List.append_assoc, List.singleton_append]
    cases members with
    | nil => rfl
    | cons m members =>
      have hmembers : readMembers fuel (printMembers (m :: members) ++ byte '\x7d' :: rest) =
          some (toMembers (m :: members), rest) :=
        readMembers_printMembers (m :: members) (List.cons_ne_nil _ _) (by omega)
      obtain ⟨tail, heq⟩ := head_printMembers m members
      have hne : byte '"' ≠ byte '\x7d' := by decide
      have hskip : skipSpace (printMembers (m :: members) ++ byte '\x7d' :: rest) =
          byte '"' :: (tail ++ byte '\x7d' :: rest) := by
        rw [heq, List.cons_append, skipSpace_cons (by decide)]
      exact readValue_object hskip hne hmembers

theorem readItems_printItems (items : List Json) {fuel : Nat} {rest : Bytes} (hne : items ≠ [])
    (hfuel : 2 * (printItems items).length + 1 ≤ fuel) :
    readItems fuel (printItems items ++ byte ']' :: rest) = some (toItems items, rest) := by
  cases items with
  | nil => exact absurd rfl hne
  | cons item items =>
    have hpos := length_printUnformatted_pos item
    obtain ⟨fuel, rfl⟩ : ∃ m, fuel = m + 1 := ⟨fuel - 1, by omega⟩
    cases items with
    | nil =>
      have hbracket : Token (byte ']') := by decide
      rw [printItems] at hfuel ⊢
      have hitem : readValue fuel (printUnformatted item ++ byte ']' :: rest) =
          some (toValue item, byte ']' :: rest) :=
        readValue_printUnformatted item (by omega) (delimited_cons (.inr (.inl rfl)))
      rw [readItems_cons (skipSpace_printUnformatted item) hitem, expect_self hbracket]
      rfl
    | cons item' items =>
      have hcomma : Token (byte ',') := by decide
      have hne : byte ',' ≠ byte ']' := by decide
      rw [printItems_cons_cons] at hfuel ⊢
      rw [List.length_append, List.length_cons] at hfuel
      rw [List.append_assoc, List.cons_append]
      have hitem : readValue fuel (printUnformatted item ++
          byte ',' :: (printItems (item' :: items) ++ byte ']' :: rest)) =
          some (toValue item, byte ',' :: (printItems (item' :: items) ++ byte ']' :: rest)) :=
        readValue_printUnformatted item (by omega) (delimited_cons (.inl rfl))
      have hitems : readItems fuel (printItems (item' :: items) ++ byte ']' :: rest) =
          some (toItems (item' :: items), rest) :=
        readItems_printItems (item' :: items) (List.cons_ne_nil _ _) (by omega)
      rw [readItems_cons (skipSpace_printUnformatted item) hitem, expect_ne hcomma hne,
        expect_self hcomma, Option.bind_some, hitems]
      rfl

theorem readMembers_printMembers (members : List (Bytes × Json)) {fuel : Nat} {rest : Bytes}
    (hne : members ≠ []) (hfuel : 2 * (printMembers members).length + 1 ≤ fuel) :
    readMembers fuel (printMembers members ++ byte '\x7d' :: rest) =
      some (toMembers members, rest) := by
  cases members with
  | nil => exact absurd rfl hne
  | cons m members =>
    obtain ⟨key, value⟩ := m
    have hlen := length_printString (s := key)
    have hpos := length_printUnformatted_pos value
    have hkey : ∀ {text : Bytes}, (printString key).length ≤ fuel →
        readString fuel ((ofBytes key).flatMap escapeByte ++ byte '"' :: text) =
          some (ofBytes key, text) := by
      intro text hle
      exact readString_flatMap (by omega)
    -- a comma follows, unless it is the last member
    cases members with
    | nil =>
      have hbrace : Token (byte '\x7d') := by decide
      rw [printMembers_singleton] at hfuel ⊢
      rw [List.length_append, List.length_cons] at hfuel
      dsimp only at hfuel ⊢
      obtain ⟨fuel, rfl⟩ : ∃ m, fuel = m + 1 := ⟨fuel - 1, by omega⟩
      have hvalue : readValue fuel (printUnformatted value ++ byte '\x7d' :: rest) =
          some (toValue value, byte '\x7d' :: rest) :=
        readValue_printUnformatted value (by omega) (delimited_cons (.inr (.inr rfl)))
      rw [List.append_assoc, List.cons_append, printString_eq,
        readMembers_cons (hkey (by omega)) (skipSpace_printUnformatted value) hvalue,
        expect_self hbrace]
      rfl
    | cons m' members =>
      have hcomma : Token (byte ',') := by decide
      have hne : byte ',' ≠ byte '\x7d' := by decide
      rw [printMembers_cons_cons] at hfuel ⊢
      rw [List.length_append, List.length_cons, List.length_append, List.length_cons] at hfuel
      dsimp only at hfuel ⊢
      obtain ⟨fuel, rfl⟩ : ∃ m, fuel = m + 1 := ⟨fuel - 1, by omega⟩
      have hvalue : readValue fuel (printUnformatted value ++
          byte ',' :: (printMembers (m' :: members) ++ byte '\x7d' :: rest)) =
          some (toValue value, byte ',' :: (printMembers (m' :: members) ++ byte '\x7d' :: rest)) :=
        readValue_printUnformatted value (by omega) (delimited_cons (.inl rfl))
      have hmembers : readMembers fuel (printMembers (m' :: members) ++ byte '\x7d' :: rest) =
          some (toMembers (m' :: members), rest) :=
        readMembers_printMembers (m' :: members) (List.cons_ne_nil _ _) (by omega)
      rw [List.append_assoc, List.cons_append, List.append_assoc, List.cons_append, printString_eq,
        readMembers_cons (hkey (by omega)) (skipSpace_printUnformatted value) hvalue,
        expect_ne hcomma hne, expect_self hcomma, Option.bind_some, hmembers]
      rfl

end

/-- What cJSON prints for a value whose numbers are `int` is a document of the
    grammar, with the same content. -/
theorem parse_printUnformatted (v : Json) : JsonText.parse (printUnformatted v) = some (toValue v) := by
  have hskip : skipSpace (printUnformatted v) = printUnformatted v := by
    have happend : skipSpace (printUnformatted v ++ []) = printUnformatted v ++ [] :=
      skipSpace_printUnformatted v
    rwa [List.append_nil] at happend
  have hread : readValue (2 * (printUnformatted v).length + 2) (printUnformatted v) =
      some (toValue v, []) := by
    have happend : readValue (2 * (printUnformatted v).length + 2) (printUnformatted v ++ []) =
        some (toValue v, []) :=
      readValue_printUnformatted v (by omega) fun c hc => by cases hc
    rwa [List.append_nil] at happend
  rw [JsonText.parse, hskip, hread]
  exact if_pos rfl

/-! ## Parsing what was printed -/

mutual

/-- A value as cJSON holds it: its strings are C strings, and its numbers are `int`,
    in `valuedouble` as well. -/
def Held : Json → Prop
  | .null => True
  | .bool _ => True
  | .number n => -2 ^ 31 ≤ n ∧ n ≤ 2 ^ 31 - 1
  | .string s => ofBytes s = s
  | .array items => HeldItems items
  | .object members => HeldMembers members

def HeldItems : List Json → Prop
  | [] => True
  | item :: items => Held item ∧ HeldItems items

def HeldMembers : List (Bytes × Json) → Prop
  | [] => True
  | (key, value) :: members => (ofBytes key = key ∧ Held value) ∧ HeldMembers members

end

mutual

theorem ofValue_toValue (v : Json) (h : Held v) : ofValue (toValue v) = v := by
  cases v with
  | null => rfl
  | bool b => rfl
  | number n =>
    rw [Held] at h
    rw [toValue, ofValue, numberInt_ofInt h.1 h.2]
  | string s =>
    rw [Held] at h
    rw [toValue, ofValue, ofBytes_ofBytes, h]
  | array items =>
    rw [Held] at h
    rw [toValue, ofValue, ofItems_toItems items h]
  | object members =>
    rw [Held] at h
    rw [toValue, ofValue, ofMembers_toMembers members h]

theorem ofItems_toItems (items : List Json) (h : HeldItems items) :
    ofItems (toItems items) = items := by
  cases items with
  | nil => rfl
  | cons item items =>
    rw [HeldItems] at h
    rw [toItems, ofItems, ofValue_toValue item h.1, ofItems_toItems items h.2]

theorem ofMembers_toMembers (members : List (Bytes × Json)) (h : HeldMembers members) :
    ofMembers (toMembers members) = members := by
  cases members with
  | nil => rfl
  | cons m members =>
    obtain ⟨key, value⟩ := m
    rw [HeldMembers] at h
    rw [toMembers, ofMembers, ofBytes_ofBytes, h.1.1, ofValue_toValue value h.1.2,
      ofMembers_toMembers members h.2]

end

theorem hexDigit_ne_zero : ∀ d < 16, hexDigit d ≠ 0 := by
  decide

theorem ne_zero_of_mem_escapeByte (hc : c ∈ escapeByte b) : c ≠ 0 := by
  unfold escapeByte at hc
  split at hc
  · next h =>
    obtain rfl := List.mem_singleton.mp hc
    rintro rfl
    exact absurd h.1 (by decide)
  · have hclosed : ∀ {word : String}, (∀ d ∈ ofString word, d ≠ 0) → c ∈ ofString word → c ≠ 0 :=
      fun hword hmem => hword c hmem
    split_ifs at hc
    · exact hclosed (by decide +kernel) hc
    · exact hclosed (by decide +kernel) hc
    · exact hclosed (by decide +kernel) hc
    · exact hclosed (by decide +kernel) hc
    · exact hclosed (by decide +kernel) hc
    · exact hclosed (by decide +kernel) hc
    · exact hclosed (by decide +kernel) hc
    · have hlt : b.toNat < 256 := b.toNat_lt
      obtain hc | hc := List.mem_append.mp hc
      · exact hclosed (by decide +kernel) hc
      · obtain rfl | hc := List.mem_cons.mp hc
        · exact hexDigit_ne_zero _ (by omega)
        · obtain rfl := List.mem_singleton.mp hc
          exact hexDigit_ne_zero _ (by omega)

/-- A text that is a C string as a whole. -/
def IsCString (s : Bytes) : Prop := ∀ b ∈ s, b ≠ 0

instance (s : Bytes) : Decidable (IsCString s) := List.decidableBAll (· ≠ 0) s

theorem IsCString.append {t : Bytes} (hs : IsCString s) (ht : IsCString t) : IsCString (s ++ t) := by
  intro b hb
  obtain hb | hb := List.mem_append.mp hb
  · exact hs b hb
  · exact ht b hb

theorem isCString_printString : IsCString (printString s) := by
  have hquote : IsCString (ofString "\"") := by decide
  refine (hquote.append ?_).append hquote
  intro b hb
  obtain ⟨c, -, hc⟩ := List.mem_flatMap.mp hb
  exact ne_zero_of_mem_escapeByte hc

theorem isCString_ofInt (n : Int) : IsCString (ofInt n) := by
  have hdecimal (m : Nat) : IsCString (Numeral.decimal m) := by
    intro b hb
    rintro rfl
    exact absurd (Numeral.isDigit_of_mem_decimal hb) (by decide)
  have hminus : IsCString [byte '-'] := by decide
  rw [Numeral.ofInt_eq]
  split
  · exact hminus.append (hdecimal _)
  · exact hdecimal _

mutual

/-- Nothing that cJSON prints has a NUL. -/
theorem isCString_printUnformatted (v : Json) : IsCString (printUnformatted v) := by
  cases v with
  | null => decide
  | bool b => cases b <;> decide
  | number n => exact isCString_ofInt n
  | string s => exact isCString_printString
  | array items =>
    have hopen : IsCString (ofString "[") := by decide
    have hclose : IsCString (ofString "]") := by decide
    exact (hopen.append (isCString_printItems items)).append hclose
  | object members =>
    have hopen : IsCString (ofString "\x7b") := by decide
    have hclose : IsCString (ofString "\x7d") := by decide
    exact (hopen.append (isCString_printMembers members)).append hclose

theorem isCString_printItems (items : List Json) : IsCString (printItems items) := by
  cases items with
  | nil => exact fun b hb => absurd hb List.not_mem_nil
  | cons item items =>
    have hitem := isCString_printUnformatted item
    have hitems := isCString_printItems items
    cases items with
    | nil => exact hitem
    | cons item' items =>
      have hcomma : IsCString [byte ','] := by decide
      rw [printItems_cons_cons]
      exact hitem.append (hcomma.append hitems)

theorem isCString_printMembers (members : List (Bytes × Json)) :
    IsCString (printMembers members) := by
  cases members with
  | nil => exact fun b hb => absurd hb List.not_mem_nil
  | cons m members =>
    obtain ⟨key, value⟩ := m
    have hcolon : IsCString [byte ':'] := by decide
    have hkey : IsCString (printString key) := isCString_printString
    have hvalue := isCString_printUnformatted value
    have hmembers := isCString_printMembers members
    cases members with
    | nil =>
      rw [printMembers_singleton]
      exact hkey.append (hcolon.append hvalue)
    | cons m' members =>
      have hcomma : IsCString [byte ','] := by decide
      rw [printMembers_cons_cons]
      exact hkey.append (hcolon.append (hvalue.append (hcomma.append hmembers)))

end

/-- What cJSON prints for a value whose numbers are `int`, and that nests no deeper
    than the limit, is parsed to that value. -/
theorem cjsonParse_printUnformatted {v : Json} (hheld : Held v)
    (hdepth : depth (toValue v) ≤ nestingLimit) : cjsonParse (printUnformatted v) = some v := by
  have hbytes : ofBytes (printUnformatted v) = printUnformatted v :=
    ofBytes_eq_self (isCString_printUnformatted v)
  have hparse : JsonText.parse (ofBytes (printUnformatted v)) = some (toValue v) := by
    rw [hbytes]
    exact parse_printUnformatted v
  rw [cjsonParse_of_parse hparse hdepth, ofValue_toValue v hheld]

/-- A quote and a control character in a string, a negative number, and an empty array. -/
theorem cjsonParse_printUnformatted_escaped :
    cjsonParse (printUnformatted (.object [(ofString "a\n\"b", .array [.number (-7), .array []])])) =
      some (.object [(ofString "a\n\"b", .array [.number (-7), .array []])]) := by
  refine cjsonParse_printUnformatted ?_ (by decide)
  simp only [Held, HeldItems, HeldMembers]
  decide

end CJson

end Xiaozhi
