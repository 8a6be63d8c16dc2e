-- SUMMARY: The parser of cJSON as rules without fuel, which it follows whenever the fuel is enough.
import Xiaozhi.Protocol.StringParsing

/-!
# Parsing

The rules by which `parse_value`, `parse_array` and `parse_object` read a text.
They have no fuel, so that what is said about the parser is proved by induction
on them.
-/

namespace Xiaozhi

namespace CJson

open CString

variable {c : UInt8} {fuel level skipped : Nat} {s text input rest rest' : Bytes} {value : Json}
  {items : List Json} {members : List (Bytes × Json)}

/-! ## Rules -/

mutual

/-- `parse_value` at a nesting depth finds `value`, and leaves `rest`. -/
inductive Parses : Nat → Bytes → Json → Bytes → Prop where
  | null {level : Nat} {rest : Bytes} : Parses level (ofString "null" ++ rest) .null rest
  | false {level : Nat} {rest : Bytes} : Parses level (ofString "false" ++ rest) (.bool false) rest
  | true {level : Nat} {rest : Bytes} : Parses level (ofString "true" ++ rest) (.bool true) rest
  | string {level : Nat} {text s rest : Bytes} (h : parseString (byte '"' :: text) = some (s, rest)) :
      Parses level (byte '"' :: text) (.string s) rest
  | number {level : Nat} {c : UInt8} {text rest : Bytes} {n : Int}
      (hc : c = byte '-' ∨ isDigit c = true) (h : parseNumber (c :: text) = some (n, rest)) :
      Parses level (c :: text) (.number n) rest
  | emptyArray {level : Nat} {text rest : Bytes} (hlevel : level < nestingLimit)
      (hclose : skipWhitespace text = byte ']' :: rest) :
      Parses level (byte '[' :: text) (.array []) rest
  | array {level : Nat} {text rest : Bytes} {items : List Json} (hlevel : level < nestingLimit)
      (h : ParsesItems (level + 1) (skipWhitespace text) items rest) :
      Parses level (byte '[' :: text) (.array items) rest
  | emptyObject {level : Nat} {text rest : Bytes} (hlevel : level < nestingLimit)
      (hclose : skipWhitespace text = byte '\x7d' :: rest) :
      Parses level (byte '\x7b' :: text) (.object []) rest
  | object {level : Nat} {text rest : Bytes} {members : List (Bytes × Json)}
      (hlevel : level < nestingLimit)
      (h : ParsesMembers (level + 1) (skipWhitespace text) members rest) :
      Parses level (byte '\x7b' :: text) (.object members) rest

/-- The loop of `parse_array`, from an item on. -/
inductive ParsesItems : Nat → Bytes → List Json → Bytes → Prop where
  | last {level : Nat} {text rest rest' : Bytes} {item : Json} (h : Parses level text item rest)
      (hclose : skipWhitespace rest = byte ']' :: rest') : ParsesItems level text [item] rest'
  | cons {level : Nat} {text rest next rest' : Bytes} {item : Json} {items : List Json}
      (h : Parses level text item rest) (hcomma : skipWhitespace rest = byte ',' :: next)
      (hitems : ParsesItems level (skipWhitespace next) items rest') :
      ParsesItems level text (item :: items) rest'

/-- The loop of `parse_object`, from a name on. -/
inductive ParsesMembers : Nat → Bytes → List (Bytes × Json) → Bytes → Prop where
  | last {level : Nat} {text string next colon rest rest' : Bytes} {value : Json}
      (hname : parseString text = some (string, next))
      (hcolon : skipWhitespace next = byte ':' :: colon)
      (h : Parses level (skipWhitespace colon) value rest)
      (hclose : skipWhitespace rest = byte '\x7d' :: rest') :
      ParsesMembers level text [(string, value)] rest'
  | cons {level : Nat} {text string next colon rest comma rest' : Bytes} {value : Json}
      {members : List (Bytes × Json)} (hname : parseString text = some (string, next))
      (hcolon : skipWhitespace next = byte ':' :: colon)
      (h : Parses level (skipWhitespace colon) value rest)
      (hcomma : skipWhitespace rest = byte ',' :: comma)
      (hmembers : ParsesMembers level (skipWhitespace comma) members rest') :
      ParsesMembers level text ((string, value) :: members) rest'

end

/-! ## Tokens take characters -/

theorem Scanned.length_lt (h : Scanned text input skipped rest) : rest.length < text.length := by
  induction h with
  | close => exact Nat.lt_succ_self _
  | escape _ ih => exact ih.trans ((Nat.lt_succ_self _).trans (Nat.lt_succ_self _))
  | char _ _ _ ih => exact ih.trans (Nat.lt_succ_self _)

theorem exists_of_parseString (h : parseString text = some (s, rest)) :
    ∃ tail input skipped output, text = byte '"' :: tail ∧ Scanned tail input skipped rest ∧
      decodeString input.length input = some output ∧ s = ofBytes output := by
  unfold parseString at h
  split at h
  · next c tail =>
    split at h
    · cases h
    · next hquote =>
      obtain ⟨⟨input, skipped, rest₁⟩, hscan, h⟩ := Option.bind_eq_some_iff.mp h
      obtain ⟨output, hdecode, h⟩ := Option.bind_eq_some_iff.mp h
      obtain ⟨rfl, rfl⟩ := Prod.mk.inj (Option.some.inj h)
      rw [not_not] at hquote
      exact ⟨tail, input, skipped, output, by rw [hquote], scanned_of_scanString hscan, hdecode, rfl⟩
  · cases h

theorem length_of_parseString (h : parseString text = some (s, rest)) : rest.length < text.length := by
  obtain ⟨tail, input, skipped, output, rfl, hscan, -, -⟩ := exists_of_parseString h
  exact hscan.length_lt.trans (Nat.lt_succ_self _)

theorem length_of_parseNumber {n : Int} (h : parseNumber text = some (n, rest)) :
    rest.length < text.length := by
  obtain ⟨⟨x, left⟩, hstrtod, heq⟩ := Option.map_eq_some_iff.mp h
  obtain ⟨-, rfl⟩ := Prod.mk.inj heq
  have hleft := Numeral.length_of_strtod hstrtod
  have htake : (text.takeWhile isNumberChar).length ≤ text.length :=
    (List.takeWhile_sublist isNumberChar).length_le
  dsimp only
  rw [List.length_drop]
  omega

theorem skipWhitespace_skipWhitespace : skipWhitespace (skipWhitespace text) = skipWhitespace text :=
  List.dropWhile_idempotent _ _

theorem length_skipWhitespace_le (text : Bytes) : (skipWhitespace text).length ≤ text.length :=
  (List.dropWhile_sublist _).length_le

/-! ## The parser follows the rules -/

/-- The rules that the parser follows with this fuel. -/
structure Sound (fuel : Nat) : Prop where
  value : ∀ {level text value rest}, parseValue fuel level text = some (value, rest) →
    Parses level text value rest
  items : ∀ {level text items rest}, parseItems fuel level text = some (items, rest) →
    ParsesItems level text items rest
  members : ∀ {level text members rest}, parseMembers fuel level text = some (members, rest) →
    ParsesMembers level text members rest

theorem Sound.succ_value (h : Sound fuel)
    (hparse : parseValue (fuel + 1) level text = some (value, rest)) :
    Parses level text value rest := by
  have hlit : ∀ {word : Bytes} {n : Nat}, word.length = n → word <+: text →
      word ++ text.drop n = text := by
    rintro word n rfl ⟨tail, rfl⟩
    rw [List.drop_left]
  -- one rule for each branch of `parse_value`
  rw [parseValue.eq_def] at hparse
  dsimp only at hparse
  split at hparse
  · next hnull =>
    obtain ⟨rfl, rfl⟩ := Prod.mk.inj (Option.some.inj hparse)
    exact (hlit rfl hnull) ▸ .null
  · split at hparse
    · next hfalse =>
      obtain ⟨rfl, rfl⟩ := Prod.mk.inj (Option.some.inj hparse)
      exact (hlit rfl hfalse) ▸ .false
    · split at hparse
      · next htrue =>
        obtain ⟨rfl, rfl⟩ := Prod.mk.inj (Option.some.inj hparse)
        exact (hlit rfl htrue) ▸ .true
      · cases text with
        | nil => cases hparse
        | cons c text =>
          dsimp only at hparse
          split at hparse
          · next hquote =>
            subst hquote
            obtain ⟨⟨s, rest⟩, hstring, heq⟩ := Option.bind_eq_some_iff.mp hparse
            obtain ⟨rfl, rfl⟩ := Prod.mk.inj (Option.some.inj heq)
            exact .string hstring
          · split at hparse
            · next hc =>
              obtain ⟨⟨n, rest⟩, hnumber, heq⟩ := Option.bind_eq_some_iff.mp hparse
              obtain ⟨rfl, rfl⟩ := Prod.mk.inj (Option.some.inj heq)
              exact .number hc hnumber
            · split at hparse
              · next hbracket =>
                subst hbracket
                split at hparse
                · cases hparse
                · next hlevel =>
                  split at hparse
                  · next hclose =>
                    obtain ⟨rfl, rfl⟩ := Prod.mk.inj (Option.some.inj hparse)
                    exact .emptyArray (not_le.mp hlevel) (List.eq_cons_of_mem_head? hclose)
                  · obtain ⟨⟨items, rest⟩, hitems, heq⟩ := Option.bind_eq_some_iff.mp hparse
                    obtain ⟨rfl, rfl⟩ := Prod.mk.inj (Option.some.inj heq)
                    exact .array (not_le.mp hlevel) (h.items hitems)
              · split at hparse
                · next hbrace =>
                  subst hbrace
                  split at hparse
                  · cases hparse
                  · next hlevel =>
                    split at hparse
                    · next hclose =>
                      obtain ⟨rfl, rfl⟩ := Prod.mk.inj (Option.some.inj hparse)
                      exact .emptyObject (not_le.mp hlevel) (List.eq_cons_of_mem_head? hclose)
                    · obtain ⟨⟨members, rest⟩, hmembers, heq⟩ := Option.bind_eq_some_iff.mp hparse
                      obtain ⟨rfl, rfl⟩ := Prod.mk.inj (Option.some.inj heq)
                      exact .object (not_le.mp hlevel) (h.members hmembers)
                · cases hparse

theorem Sound.succ_items (h : Sound fuel)
    (hparse : parseItems (fuel + 1) level text = some (items, rest)) :
    ParsesItems level text items rest := by
  rw [parseItems] at hparse
  obtain ⟨⟨item, rest₁⟩, hitem, hrest⟩ := Option.bind_eq_some_iff.mp hparse
  dsimp only at hrest
  split at hrest
  · cases hrest
  · next c next hskip =>
    split at hrest
    · next hcomma =>
      obtain ⟨⟨items, rest₂⟩, hitems, heq⟩ := Option.bind_eq_some_iff.mp hrest
      obtain ⟨rfl, rfl⟩ := Prod.mk.inj (Option.some.inj heq)
      exact .cons (h.value hitem) (hcomma ▸ hskip) (h.items hitems)
    · split at hrest
      · next hclose =>
        obtain ⟨rfl, rfl⟩ := Prod.mk.inj (Option.some.inj hrest)
        exact .last (h.value hitem) (hclose ▸ hskip)
      · cases hrest

theorem Sound.succ_members (h : Sound fuel)
    (hparse : parseMembers (fuel + 1) level text = some (members, rest)) :
    ParsesMembers level text members rest := by
  rw [parseMembers] at hparse
  obtain ⟨⟨string, next⟩, hname, hrest⟩ := Option.bind_eq_some_iff.mp hparse
  dsimp only at hrest
  split at hrest
  · cases hrest
  · next c colon hskip =>
    split at hrest
    · cases hrest
    · next hcolon =>
      rw [not_not] at hcolon
      obtain ⟨⟨value, rest₁⟩, hvalue, hrest⟩ := Option.bind_eq_some_iff.mp hrest
      dsimp only at hrest
      split at hrest
      · cases hrest
      · next d next' hskip' =>
        split at hrest
        · next hcomma =>
          obtain ⟨⟨members, rest₂⟩, hmembers, heq⟩ := Option.bind_eq_some_iff.mp hrest
          obtain ⟨rfl, rfl⟩ := Prod.mk.inj (Option.some.inj heq)
          exact .cons hname (hcolon ▸ hskip) (h.value hvalue) (hcomma ▸ hskip') (h.members hmembers)
        · split at hrest
          · next hclose =>
            obtain ⟨rfl, rfl⟩ := Prod.mk.inj (Option.some.inj hrest)
            exact .last hname (hcolon ▸ hskip) (h.value hvalue) (hclose ▸ hskip')
          · cases hrest

theorem sound (fuel : Nat) : Sound fuel := by
  induction fuel with
  | zero =>
    exact ⟨fun h => absurd h (by simp [parseValue]), fun h => absurd h (by simp [parseItems]),
      fun h => absurd h (by simp [parseMembers])⟩
  | succ fuel ih => exact ⟨ih.succ_value, ih.succ_items, ih.succ_members⟩

/-! ## Rounds of the parser -/

/-- The literals that `parse_value` looks for first. -/
def NoLiteral (text : Bytes) : Prop :=
  ¬ofString "null" <+: text ∧ ¬ofString "false" <+: text ∧ ¬ofString "true" <+: text

theorem noLiteral_cons (hn : c ≠ byte 'n') (hf : c ≠ byte 'f') (ht : c ≠ byte 't') :
    NoLiteral (c :: text) := by
  have hnull : ofString "null" = byte 'n' :: ofString "ull" := rfl
  have hfalse : ofString "false" = byte 'f' :: ofString "alse" := rfl
  have htrue : ofString "true" = byte 't' :: ofString "rue" := rfl
  unfold NoLiteral
  rw [hnull, hfalse, htrue]
  simp only [List.cons_prefix_cons]
  exact ⟨fun h => hn h.1.symm, fun h => hf h.1.symm, fun h => ht h.1.symm⟩

theorem parseValue_string (h : parseString (byte '"' :: text) = some (s, rest)) :
    parseValue (fuel + 1) level (byte '"' :: text) = some (.string s, rest) := by
  obtain ⟨hn, hf, ht⟩ : NoLiteral (byte '"' :: text) :=
    noLiteral_cons (by decide) (by decide) (by decide)
  rw [parseValue, if_neg hn, if_neg hf, if_neg ht]
  simp only [if_true, h]
  rfl

theorem parseValue_number {n : Int} (hc : c = byte '-' ∨ isDigit c = true)
    (h : parseNumber (c :: text) = some (n, rest)) :
    parseValue (fuel + 1) level (c :: text) = some (.number n, rest) := by
  have hne (d : UInt8) (hd : d ≠ byte '-' := by decide) (hd' : isDigit d = false := by decide) :
      c ≠ d := by
    rintro rfl
    simp [hd, hd'] at hc
  obtain ⟨hn, hf, ht⟩ : NoLiteral (c :: text) :=
    noLiteral_cons (hne (byte 'n')) (hne (byte 'f')) (hne (byte 't'))
  rw [parseValue, if_neg hn, if_neg hf, if_neg ht]
  simp only [hne (byte '"'), hc, if_false, if_true, h]
  rfl

/-- `parse_array` and `parse_object`. -/
def openWith {α : Type} (close : UInt8) (make : List α → Json) (level : Nat)
    (items : Bytes → Option (List α × Bytes)) (text : Bytes) : Option (Json × Bytes) :=
  if level ≥ nestingLimit then none
  else if (skipWhitespace text).head? = some close then
    some (make [], (skipWhitespace text).tail)
  else (items (skipWhitespace text)).map fun r => (make r.1, r.2)

/-- A round of `parse_value`, if there is no literal. -/
theorem parseValue_cons (h : NoLiteral (c :: text)) :
    parseValue (fuel + 1) level (c :: text) =
      if c = byte '"' then (parseString (c :: text)).map fun r => (.string r.1, r.2)
      else if c = byte '-' ∨ isDigit c = true then
        (parseNumber (c :: text)).map fun r => (.number r.1, r.2)
      else if c = byte '[' then
        openWith (byte ']') .array level (parseItems fuel (level + 1)) text
      else if c = byte '\x7b' then
        openWith (byte '\x7d') .object level (parseMembers fuel (level + 1)) text
      else none := by
  rw [parseValue, if_neg h.1, if_neg h.2.1, if_neg h.2.2]
  dsimp only [openWith]
  split
  · cases parseString (c :: text) <;> rfl
  · split
    · cases parseNumber (c :: text) <;> rfl
    · split
      · cases parseItems fuel (level + 1) (skipWhitespace text) <;> rfl
      · cases parseMembers fuel (level + 1) (skipWhitespace text) <;> rfl

theorem parseValue_array (hlevel : level < nestingLimit) :
    parseValue (fuel + 1) level (byte '[' :: text) =
      if (skipWhitespace text).head? = some (byte ']') then
        some (.array [], (skipWhitespace text).tail)
      else
        (parseItems fuel (level + 1) (skipWhitespace text)).map fun r => (.array r.1, r.2) := by
  have hquote : byte '[' ≠ byte '"' := by decide
  have hdigit : ¬(byte '[' = byte '-' ∨ isDigit (byte '[') = true) := by decide
  rw [parseValue_cons (noLiteral_cons (by decide) (by decide) (by decide)), if_neg hquote,
    if_neg hdigit, if_pos rfl, openWith, if_neg (not_le.mpr hlevel)]

theorem parseValue_object (hlevel : level < nestingLimit) :
    parseValue (fuel + 1) level (byte '\x7b' :: text) =
      if (skipWhitespace text).head? = some (byte '\x7d') then
        some (.object [], (skipWhitespace text).tail)
      else
        (parseMembers fuel (level + 1) (skipWhitespace text)).map fun r => (.object r.1, r.2) := by
  have hquote : byte '\x7b' ≠ byte '"' := by decide
  have hdigit : ¬(byte '\x7b' = byte '-' ∨ isDigit (byte '\x7b') = true) := by decide
  have hbracket : byte '\x7b' ≠ byte '[' := by decide
  rw [parseValue_cons (noLiteral_cons (by decide) (by decide) (by decide)), if_neg hquote,
    if_neg hdigit, if_neg hbracket, if_pos rfl, openWith, if_neg (not_le.mpr hlevel)]

/-- What the loops do behind an item, or behind a member. -/
def continueWith {α : Type} (close : UInt8) (item : α) (loop : Bytes → Option (List α × Bytes))
    (rest : Bytes) : Option (List α × Bytes) :=
  match skipWhitespace rest with
  | [] => none
  | c :: rest =>
    if c = byte ',' then (loop (skipWhitespace rest)).map fun r => (item :: r.1, r.2)
    else if c = close then some ([item], rest)
    else none

theorem parseItems_succ :
    parseItems (fuel + 1) level text = (parseValue fuel level text).bind fun r =>
      continueWith (byte ']') r.1 (parseItems fuel level) r.2 := by
  rw [parseItems]
  cases parseValue fuel level text with
  | none => rfl
  | some r =>
    simp only [Option.bind_eq_bind, Option.bind_some, continueWith]
    cases skipWhitespace r.2 with
    | nil => rfl
    | cons c rest =>
      dsimp only
      split
      · cases parseItems fuel level (skipWhitespace rest) <;> rfl
      · rfl

theorem parseMembers_succ :
    parseMembers (fuel + 1) level text = (parseString text).bind fun name =>
      match skipWhitespace name.2 with
      | [] => none
      | c :: rest => if c ≠ byte ':' then none else
        (parseValue fuel level (skipWhitespace rest)).bind fun r =>
          continueWith (byte '\x7d') (name.1, r.1) (parseMembers fuel level) r.2 := by
  rw [parseMembers]
  cases parseString text with
  | none => rfl
  | some name =>
    simp only [Option.bind_eq_bind, Option.bind_some]
    cases skipWhitespace name.2 with
    | nil => rfl
    | cons c rest =>
      dsimp only
      split
      · rfl
      · cases parseValue fuel level (skipWhitespace rest) with
        | none => rfl
        | some r =>
          simp only [Option.bind_some, continueWith]
          cases skipWhitespace r.2 with
          | nil => rfl
          | cons c rest =>
            dsimp only
            split
            · cases parseMembers fuel level (skipWhitespace rest) <;> rfl
            · rfl

theorem parseValue_literal (hnull : value = .null ∧ text = ofString "null" ++ rest ∨
    value = .bool false ∧ text = ofString "false" ++ rest ∨
    value = .bool true ∧ text = ofString "true" ++ rest) :
    parseValue (fuel + 1) level text = some (value, rest) := by
  rw [parseValue.eq_def]
  dsimp only
  obtain ⟨rfl, rfl⟩ | ⟨rfl, rfl⟩ | ⟨rfl, rfl⟩ := hnull
  · rw [if_pos (List.prefix_append _ _)]
    rfl
  · have hnull : ¬ofString "null" <+: ofString "false" ++ rest := by
      rintro ⟨tail, htail⟩
      exact absurd (List.cons.inj htail).1 (by decide)
    rw [if_neg hnull, if_pos (List.prefix_append _ _)]
    rfl
  · have hnull : ¬ofString "null" <+: ofString "true" ++ rest := by
      rintro ⟨tail, htail⟩
      exact absurd (List.cons.inj htail).1 (by decide)
    have hfalse : ¬ofString "false" <+: ofString "true" ++ rest := by
      rintro ⟨tail, htail⟩
      exact absurd (List.cons.inj htail).1 (by decide)
    rw [if_neg hnull, if_neg hfalse, if_pos (List.prefix_append _ _)]
    rfl

/-! ## What is left of a text -/

/-- A value starts with an ASCII character that is neither white space nor a
    closing bracket. -/
theorem Parses.head (h : Parses level text value rest) :
    ∃ c tail, text = c :: tail ∧ 32 < c ∧ c < 128 ∧ c ≠ byte ']' := by
  cases h with
  | null => exact ⟨byte 'n', _, rfl, by decide, by decide, by decide⟩
  | false => exact ⟨byte 'f', _, rfl, by decide, by decide, by decide⟩
  | true => exact ⟨byte 't', _, rfl, by decide, by decide, by decide⟩
  | string h => exact ⟨_, _, rfl, by decide, by decide, by decide⟩
  | @number _ c text _ n hc h =>
    refine ⟨c, text, rfl, ?_⟩
    obtain rfl | hdigit := hc
    · exact ⟨by decide, by decide, by decide⟩
    · obtain ⟨hmin, hmax⟩ := Numeral.isDigit_iff.mp hdigit
      refine ⟨UInt8.lt_iff_toNat_lt.mpr (Nat.lt_of_lt_of_le (by decide) hmin),
        UInt8.lt_iff_toNat_lt.mpr (Nat.lt_of_le_of_lt hmax (by decide)), ?_⟩
      rintro rfl
      exact absurd hdigit (by decide)
  | emptyArray _ _ => exact ⟨_, _, rfl, by decide, by decide, by decide⟩
  | array _ _ => exact ⟨_, _, rfl, by decide, by decide, by decide⟩
  | emptyObject _ _ => exact ⟨_, _, rfl, by decide, by decide, by decide⟩
  | object _ _ => exact ⟨_, _, rfl, by decide, by decide, by decide⟩

theorem ParsesItems.head (h : ParsesItems level text items rest) :
    ∃ c tail, text = c :: tail ∧ 32 < c ∧ c < 128 ∧ c ≠ byte ']' := by
  cases h with
  | last h _ => exact h.head
  | cons h _ _ => exact h.head

theorem ParsesMembers.head (h : ParsesMembers level text members rest) :
    ∃ tail, text = byte '"' :: tail := by
  have hquote : ∀ {string next}, parseString text = some (string, next) →
      ∃ tail, text = byte '"' :: tail := by
    intro string next hname
    obtain ⟨tail, -, -, -, rfl, -⟩ := exists_of_parseString hname
    exact ⟨tail, rfl⟩
  cases h with
  | last hname _ _ _ => exact hquote hname
  | cons hname _ _ _ _ => exact hquote hname

theorem length_of_skipWhitespace (h : skipWhitespace text = c :: rest) : rest.length < text.length := by
  have hle := length_skipWhitespace_le text
  rw [h, List.length_cons] at hle
  omega

mutual

theorem Parses.length_lt {level : Nat} {text rest : Bytes} {value : Json}
    (h : Parses level text value rest) : rest.length < text.length := by
  cases h with
  | null =>
    rw [List.length_append]
    exact Nat.lt_add_of_pos_left (by decide)
  | false =>
    rw [List.length_append]
    exact Nat.lt_add_of_pos_left (by decide)
  | true =>
    rw [List.length_append]
    exact Nat.lt_add_of_pos_left (by decide)
  | string h => exact length_of_parseString h
  | number _ h => exact length_of_parseNumber h
  | emptyArray _ hclose => exact (length_of_skipWhitespace hclose).trans (Nat.lt_succ_self _)
  | array _ h =>
    exact (ParsesItems.length_lt h).trans_le ((length_skipWhitespace_le _).trans (Nat.le_succ _))
  | emptyObject _ hclose => exact (length_of_skipWhitespace hclose).trans (Nat.lt_succ_self _)
  | object _ h =>
    exact (ParsesMembers.length_lt h).trans_le ((length_skipWhitespace_le _).trans (Nat.le_succ _))

theorem ParsesItems.length_lt {level : Nat} {text rest : Bytes} {items : List Json}
    (h : ParsesItems level text items rest) :
    rest.length < text.length := by
  cases h with
  | last h hclose => exact (length_of_skipWhitespace hclose).trans (Parses.length_lt h)
  | cons h hcomma hitems =>
    exact (ParsesItems.length_lt hitems).trans_le ((length_skipWhitespace_le _).trans
      ((length_of_skipWhitespace hcomma).trans (Parses.length_lt h)).le)

theorem ParsesMembers.length_lt {level : Nat} {text rest : Bytes}
    {members : List (Bytes × Json)} (h : ParsesMembers level text members rest) :
    rest.length < text.length := by
  cases h with
  | last hname hcolon h hclose =>
    exact (length_of_skipWhitespace hclose).trans ((Parses.length_lt h).trans_le
      ((length_skipWhitespace_le _).trans
        ((length_of_skipWhitespace hcolon).trans (length_of_parseString hname)).le))
  | cons hname hcolon h hcomma hmembers =>
    exact (ParsesMembers.length_lt hmembers).trans_le ((length_skipWhitespace_le _).trans
      ((length_of_skipWhitespace hcomma).trans ((Parses.length_lt h).trans_le
        ((length_skipWhitespace_le _).trans
          ((length_of_skipWhitespace hcolon).trans (length_of_parseString hname)).le))).le)

end

/-! ## Enough fuel -/

mutual

/-- A round of the recursion is for at least half a character of what is read. -/
theorem Parses.parseValue {fuel level : Nat} {text rest : Bytes} {value : Json}
    (h : Parses level text value rest)
    (hfuel : 2 * (text.length - rest.length) ≤ fuel) :
    CJson.parseValue fuel level text = some (value, rest) := by
  have hlt := h.length_lt
  obtain ⟨m, rfl⟩ : ∃ m, fuel = m + 1 := ⟨fuel - 1, by omega⟩
  cases h with
  | null => exact parseValue_literal (.inl ⟨rfl, rfl⟩)
  | false => exact parseValue_literal (.inr (.inl ⟨rfl, rfl⟩))
  | true => exact parseValue_literal (.inr (.inr ⟨rfl, rfl⟩))
  | string h => exact parseValue_string h
  | number hc h => exact parseValue_number hc h
  | emptyArray hlevel hclose =>
    rw [parseValue_array hlevel, hclose, List.head?_cons, if_pos rfl]
    rfl
  | @array _ text _ items hlevel h =>
    have hskip := length_skipWhitespace_le text
    obtain ⟨c, tail, htail, -, -, hne⟩ := h.head
    have hopen : ¬(skipWhitespace text).head? = some (byte ']') := by
      rw [htail]
      exact fun hc => hne (Option.some.inj hc)
    rw [List.length_cons] at hfuel
    rw [parseValue_array hlevel, if_neg hopen, ParsesItems.parseItems h (by omega)]
    rfl
  | emptyObject hlevel hclose =>
    rw [parseValue_object hlevel, hclose, List.head?_cons, if_pos rfl]
    rfl
  | @object _ text _ members hlevel h =>
    have hskip := length_skipWhitespace_le text
    obtain ⟨tail, htail⟩ := h.head
    have hopen : ¬(skipWhitespace text).head? = some (byte '\x7d') := by
      rw [htail, List.head?_cons]
      decide
    rw [List.length_cons] at hfuel
    rw [parseValue_object hlevel, if_neg hopen, ParsesMembers.parseMembers h (by omega)]
    rfl

theorem ParsesItems.parseItems {fuel level : Nat} {text rest : Bytes} {items : List Json}
    (h : ParsesItems level text items rest)
    (hfuel : 2 * (text.length - rest.length) ≤ fuel + 1) :
    CJson.parseItems fuel level text = some (items, rest) := by
  have hlt := h.length_lt
  obtain ⟨m, rfl⟩ : ∃ m, fuel = m + 1 := ⟨fuel - 1, by omega⟩
  cases h with
  | last h hclose =>
    have hrest := length_of_skipWhitespace hclose
    have hitem := h.length_lt
    rw [parseItems_succ, Parses.parseValue h (by omega), Option.bind_some, continueWith, hclose]
    rfl
  | @cons _ _ rest₁ next _ item items h hcomma hitems =>
    have hrest := length_of_skipWhitespace hcomma
    have hskip := length_skipWhitespace_le next
    have hitem := h.length_lt
    have hless := hitems.length_lt
    rw [parseItems_succ, Parses.parseValue h (by omega), Option.bind_some, continueWith, hcomma]
    dsimp only
    rw [if_pos rfl, ParsesItems.parseItems hitems (by omega)]
    rfl

theorem ParsesMembers.parseMembers {fuel level : Nat} {text rest : Bytes}
    {members : List (Bytes × Json)} (h : ParsesMembers level text members rest)
    (hfuel : 2 * (text.length - rest.length) ≤ fuel + 1) :
    CJson.parseMembers fuel level text = some (members, rest) := by
  have hlt := h.length_lt
  obtain ⟨m, rfl⟩ : ∃ m, fuel = m + 1 := ⟨fuel - 1, by omega⟩
  cases h with
  | @last _ _ string next colon rest₁ _ value hname hcolon h hclose =>
    have hname' := length_of_parseString hname
    have hnext := length_of_skipWhitespace hcolon
    have hskip := length_skipWhitespace_le colon
    have hrest := length_of_skipWhitespace hclose
    have hvalue := h.length_lt
    rw [parseMembers_succ, hname, Option.bind_some]
    dsimp only
    rw [hcolon]
    dsimp only
    rw [if_neg (not_not_intro rfl), Parses.parseValue h (by omega), Option.bind_some, continueWith, hclose]
    rfl
  | @cons _ _ string next colon rest₁ comma _ value members hname hcolon h hcomma hmembers =>
    have hname' := length_of_parseString hname
    have hnext := length_of_skipWhitespace hcolon
    have hskip := length_skipWhitespace_le colon
    have hrest := length_of_skipWhitespace hcomma
    have hskip' := length_skipWhitespace_le comma
    have hvalue := h.length_lt
    have hless := hmembers.length_lt
    rw [parseMembers_succ, hname, Option.bind_some]
    dsimp only
    rw [hcolon]
    dsimp only
    rw [if_neg (not_not_intro rfl), Parses.parseValue h (by omega), Option.bind_some, continueWith, hcomma]
    dsimp only
    rw [if_pos rfl, ParsesMembers.parseMembers hmembers (by omega)]
    rfl

end

theorem parseValue_eq_some_iff (h : 2 * text.length ≤ fuel) :
    parseValue fuel level text = some (value, rest) ↔ Parses level text value rest :=
  ⟨fun hparse => (sound fuel).value hparse, fun hrules => hrules.parseValue (by omega)⟩

/-- More fuel changes nothing. -/
theorem parseValue_fuel (h : enough text ≤ fuel) :
    parseValue fuel level text = parseValue (enough text) level text := by
  have hle : 2 * text.length ≤ enough text := by
    rw [enough]
    omega
  refine Option.ext fun r => ?_
  rw [parseValue_eq_some_iff (hle.trans h), parseValue_eq_some_iff hle]

/-- What `cJSON_Parse` returns is what the rules find. -/
theorem cjsonParse_eq_some_iff :
    cjsonParse text = some value ↔
      ∃ rest, Parses 0 (skipWhitespace (skipUtf8Bom (ofBytes text))) value rest := by
  generalize htext : skipWhitespace (skipUtf8Bom (ofBytes text)) = start
  have hle : 2 * start.length ≤ enough start := by
    rw [enough]
    omega
  rw [cjsonParse, htext]
  constructor
  · intro h
    obtain ⟨⟨v, rest⟩, hparse, rfl⟩ := Option.map_eq_some_iff.mp h
    exact ⟨rest, (parseValue_eq_some_iff hle).mp hparse⟩
  · rintro ⟨rest, h⟩
    rw [(parseValue_eq_some_iff hle).mpr h, Option.map_some]

end CJson

end Xiaozhi
