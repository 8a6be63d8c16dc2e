-- SUMMARY: cJSON against the JSON grammar: every document of the grammar is accepted, and read as the grammar reads it.
import Xiaozhi.Protocol.Parsing
import Xiaozhi.Protocol.Tokens

/-!
# Conformance

The parser of `Data/JsonText` follows the grammar strictly; cJSON accepts more.
On the documents that the grammar derives, up to its nesting limit, cJSON finds
the same values: decoded strings as C strings, and for a number the `int` that
it is cut to.
-/

namespace Xiaozhi

namespace CJson

open CString JsonText

/-! ## Values -/

mutual

/-- What cJSON makes of a value of the grammar. -/
def ofValue : Value → Json
  | .null => .null
  | .bool b => .bool b
  | .number text => .number (numberInt text)
  | .string s => .string (ofBytes s)
  | .array items => .array (ofItems items)
  | .object members => .object (ofMembers members)

def ofItems : List Value → List Json
  | [] => []
  | item :: items => ofValue item :: ofItems items

def ofMembers : List (Bytes × Value) → List (Bytes × Json)
  | [] => []
  | (key, value) :: members => (ofBytes key, ofValue value) :: ofMembers members

end

mutual

/-- The nesting depth of a value. -/
def depth : Value → Nat
  | .array items => depthItems items + 1
  | .object members => depthMembers members + 1
  | _ => 0

def depthItems : List Value → Nat
  | [] => 0
  | item :: items => max (depth item) (depthItems items)

def depthMembers : List (Bytes × Value) → Nat
  | [] => 0
  | (_, value) :: members => max (depth value) (depthMembers members)

end

variable {b c : UInt8} {fuel n level : Nat} {s text rest : Bytes} {value : Value}
  {items : List Value} {members : List (Bytes × Value)}

/-! ## White space -/

/-- Nothing that the grammar expects is white space for cJSON. -/
theorem skipWhitespace_of_skipSpace (h : skipSpace text = c :: rest) (hc : 32 < c) :
    skipWhitespace text = c :: rest := by
  induction text with
  | nil => cases h
  | cons b text ih =>
    rw [skipSpace] at h
    by_cases hspace : b = 32 ∨ b = 9 ∨ b = 10 ∨ b = 13
    · rw [List.dropWhile_cons_of_pos (by simpa using hspace)] at h
      have hle : b ≤ 32 := by
        obtain rfl | rfl | rfl | rfl := hspace <;> decide
      rw [skipWhitespace, List.dropWhile_cons_of_pos (by simpa using hle)]
      exact ih h
    · rw [List.dropWhile_cons_of_neg (by simpa using hspace)] at h
      cases h
      rw [skipWhitespace, List.dropWhile_cons_of_neg (by simpa using hc)]

theorem skipSpace_of_expect (h : expect c text = some rest) : skipSpace text = c :: rest := by
  unfold expect at h
  split at h
  · next b rest' hskip =>
    obtain ⟨rfl, hrest⟩ := Option.ite_none_right_eq_some.mp h
    rw [hskip, Option.some.inj hrest]
  · cases h

theorem skipWhitespace_of_expect (h : expect c text = some rest) (hc : 32 < c) :
    skipWhitespace text = c :: rest :=
  skipWhitespace_of_skipSpace (skipSpace_of_expect h) hc

/-! ## Values of the grammar -/

theorem parses_of_readLiteral (h : readLiteral text = some (value, rest)) :
    Parses level text (ofValue value) rest := by
  have hlit : ∀ {word : Bytes} {n : Nat}, word.length = n → word <+: text →
      word ++ text.drop n = text := by
    rintro word n rfl ⟨tail, rfl⟩
    rw [List.drop_left]
  unfold readLiteral at h
  split_ifs at h with hnull htrue hfalse
  · obtain ⟨rfl, rfl⟩ := Prod.mk.inj (Option.some.inj h)
    exact (hlit rfl hnull) ▸ .null
  · obtain ⟨rfl, rfl⟩ := Prod.mk.inj (Option.some.inj h)
    exact (hlit rfl htrue) ▸ .true
  · obtain ⟨rfl, rfl⟩ := Prod.mk.inj (Option.some.inj h)
    exact (hlit rfl hfalse) ▸ .false

/-- Where a value starts, both skip the same. -/
theorem skipWhitespace_of_parses {v : Json} (h : Parses level (skipSpace text) v rest) :
    skipWhitespace text = skipSpace text := by
  obtain ⟨c, tail, hskip, hc, -, -⟩ := h.head
  rw [skipWhitespace_of_skipSpace hskip hc, hskip]

/-- The rules find what the grammar reads with this fuel. -/
structure Reads (fuel : Nat) : Prop where
  value : ∀ {level text value rest}, readValue fuel text = some (value, rest) →
    level + depth value ≤ nestingLimit → Parses level text (ofValue value) rest
  items : ∀ {level text items rest}, readItems fuel text = some (items, rest) →
    level + depthItems items ≤ nestingLimit →
    ParsesItems level (skipWhitespace text) (ofItems items) rest
  members : ∀ {level text members rest}, readMembers fuel text = some (members, rest) →
    level + depthMembers members ≤ nestingLimit →
    ParsesMembers level (skipWhitespace text) (ofMembers members) rest

theorem Reads.succ_value (h : Reads fuel) (hread : readValue (fuel + 1) text = some (value, rest))
    (hdepth : level + depth value ≤ nestingLimit) : Parses level text (ofValue value) rest := by
  -- both parsers decide by the first character
  cases text with
  | nil => cases hread
  | cons c text =>
    rw [readValue] at hread
    split at hread
    · next hc =>
      subst hc
      obtain ⟨⟨s, rest⟩, hstring, hread⟩ := Option.bind_eq_some_iff.mp hread
      obtain ⟨rfl, rfl⟩ := Prod.mk.inj (Option.some.inj hread)
      exact .string (parseString_of_readString hstring)
    · split at hread
      · next hc =>
        subst hc
        split at hread
        · next hclose =>
          obtain ⟨rfl, rfl⟩ := Prod.mk.inj (Option.some.inj hread)
          simp only [depth, depthMembers] at hdepth
          exact .emptyObject (by omega) (skipWhitespace_of_expect hclose (by decide))
        · obtain ⟨⟨members, rest⟩, hmembers, hread⟩ := Option.bind_eq_some_iff.mp hread
          obtain ⟨rfl, rfl⟩ := Prod.mk.inj (Option.some.inj hread)
          simp only [depth] at hdepth
          exact .object (by omega) (h.members hmembers (by omega))
      · split at hread
        · next hc =>
          subst hc
          split at hread
          · next hclose =>
            obtain ⟨rfl, rfl⟩ := Prod.mk.inj (Option.some.inj hread)
            simp only [depth, depthItems] at hdepth
            exact .emptyArray (by omega) (skipWhitespace_of_expect hclose (by decide))
          · obtain ⟨⟨items, rest⟩, hitems, hread⟩ := Option.bind_eq_some_iff.mp hread
            obtain ⟨rfl, rfl⟩ := Prod.mk.inj (Option.some.inj hread)
            simp only [depth] at hdepth
            exact .array (by omega) (h.items hitems (by omega))
        · split at hread
          · next hliteral =>
            obtain rfl := Option.some.inj hread
            exact parses_of_readLiteral hliteral
          · obtain ⟨⟨number, rest⟩, hnumber, hread⟩ := Option.bind_eq_some_iff.mp hread
            obtain ⟨rfl, rfl⟩ := Prod.mk.inj (Option.some.inj hread)
            obtain ⟨htext, -, ⟨d, digits, rfl, hd⟩, -⟩ := scan_of_readNumber hnumber
            obtain rfl : c = d := (List.cons.inj htext).1
            exact .number hd (parseNumber_of_readNumber hnumber)

theorem Reads.succ_items (h : Reads fuel) (hread : readItems (fuel + 1) text = some (items, rest))
    (hdepth : level + depthItems items ≤ nestingLimit) :
    ParsesItems level (skipWhitespace text) (ofItems items) rest := by
  rw [readItems] at hread
  obtain ⟨⟨item, rest₁⟩, hitem, hread⟩ := Option.bind_eq_some_iff.mp hread
  have hvalue (hlevel : level + depth item ≤ nestingLimit) :
      Parses level (skipWhitespace text) (ofValue item) rest₁ := by
    have hskip := h.value hitem hlevel
    rwa [skipWhitespace_of_parses hskip]
  dsimp only at hread
  split at hread
  · next hclose =>
    obtain ⟨rfl, rfl⟩ := Prod.mk.inj (Option.some.inj hread)
    simp only [depthItems] at hdepth
    exact .last (hvalue (by omega)) (skipWhitespace_of_expect hclose (by decide))
  · obtain ⟨rest₂, hcomma, hread⟩ := Option.bind_eq_some_iff.mp hread
    obtain ⟨⟨items', rest₃⟩, hitems, hread⟩ := Option.bind_eq_some_iff.mp hread
    obtain ⟨rfl, rfl⟩ := Prod.mk.inj (Option.some.inj hread)
    simp only [depthItems] at hdepth
    have hrest : level + depthItems items' ≤ nestingLimit := by omega
    exact .cons (hvalue (by omega)) (skipWhitespace_of_expect hcomma (by decide))
      (h.items hitems hrest)

theorem Reads.succ_members (h : Reads fuel)
    (hread : readMembers (fuel + 1) text = some (members, rest))
    (hdepth : level + depthMembers members ≤ nestingLimit) :
    ParsesMembers level (skipWhitespace text) (ofMembers members) rest := by
  rw [readMembers] at hread
  obtain ⟨rest₁, hquote, hread⟩ := Option.bind_eq_some_iff.mp hread
  obtain ⟨⟨key, rest₂⟩, hkey, hread⟩ := Option.bind_eq_some_iff.mp hread
  obtain ⟨rest₃, hcolon, hread⟩ := Option.bind_eq_some_iff.mp hread
  obtain ⟨⟨value, rest₄⟩, hvalue, hread⟩ := Option.bind_eq_some_iff.mp hread
  have hname : parseString (skipWhitespace text) = some (ofBytes key, rest₂) := by
    rw [skipWhitespace_of_expect hquote (by decide)]
    exact parseString_of_readString hkey
  have hvalue' (hlevel : level + depth value ≤ nestingLimit) :
      Parses level (skipWhitespace rest₃) (ofValue value) rest₄ := by
    have hskip := h.value hvalue hlevel
    rwa [skipWhitespace_of_parses hskip]
  dsimp only at hread
  split at hread
  · next hclose =>
    obtain ⟨rfl, rfl⟩ := Prod.mk.inj (Option.some.inj hread)
    simp only [depthMembers] at hdepth
    exact .last hname (skipWhitespace_of_expect hcolon (by decide)) (hvalue' (by omega))
      (skipWhitespace_of_expect hclose (by decide))
  · obtain ⟨rest₅, hcomma, hread⟩ := Option.bind_eq_some_iff.mp hread
    obtain ⟨⟨members', rest₆⟩, hmembers, hread⟩ := Option.bind_eq_some_iff.mp hread
    obtain ⟨rfl, rfl⟩ := Prod.mk.inj (Option.some.inj hread)
    simp only [depthMembers] at hdepth
    have hrest : level + depthMembers members' ≤ nestingLimit := by omega
    exact .cons hname (skipWhitespace_of_expect hcolon (by decide)) (hvalue' (by omega))
      (skipWhitespace_of_expect hcomma (by decide)) (h.members hmembers hrest)

theorem reads (fuel : Nat) : Reads fuel := by
  induction fuel with
  | zero =>
    exact ⟨fun h _ => absurd h (by simp [readValue]), fun h _ => absurd h (by simp [readItems]),
      fun h _ => absurd h (by simp [readMembers])⟩
  | succ fuel ih => exact ⟨ih.succ_value, ih.succ_items, ih.succ_members⟩

/-- A document of the grammar is not taken for one with a byte order mark. -/
theorem skipUtf8Bom_of_head (h : skipSpace text = c :: rest) (hc : c ≠ 0xEF) :
    skipUtf8Bom text = text := by
  rw [skipUtf8Bom, if_neg]
  rintro ⟨-, tail, rfl⟩
  rw [List.cons_append, skipSpace_cons (by decide)] at h
  exact hc (List.cons.inj h).1.symm

/-- Every document of the grammar that nests no deeper than the limit is parsed,
    to the value that the grammar reads. -/
theorem cjsonParse_of_parse (h : JsonText.parse (ofBytes text) = some value)
    (hdepth : depth value ≤ nestingLimit) : cjsonParse text = some (ofValue value) := by
  unfold JsonText.parse at h
  split at h
  · next v rest hread =>
    obtain ⟨-, hv⟩ := Option.ite_none_right_eq_some.mp h
    obtain rfl := Option.some.inj hv
    have hrules : Parses 0 (skipSpace (ofBytes text)) (ofValue v) rest :=
      (reads _).value hread (by omega)
    obtain ⟨c, tail, hskip, -, hascii, -⟩ := hrules.head
    have hbom : c ≠ 0xEF := by
      rintro rfl
      exact absurd hascii (by decide)
    refine cjsonParse_eq_some_iff.mpr ⟨rest, ?_⟩
    rwa [skipUtf8Bom_of_head hskip hbom, skipWhitespace_of_parses hrules]
  · cases h

theorem cjsonParse_of_parse_hello :
    cjsonParse (quoteObject [(ofString "type", ofString "hello"), (ofString "transport", ofString "udp")]) =
      some (ofValue (.object [(ofString "type", .string (ofString "hello")),
        (ofString "transport", .string (ofString "udp"))])) := by
  have hbytes : ofBytes (quoteObject [(ofString "type", ofString "hello"),
      (ofString "transport", ofString "udp")]) = quoteObject [(ofString "type", ofString "hello"),
      (ofString "transport", ofString "udp")] := by decide +kernel
  refine cjsonParse_of_parse ?_ (by decide)
  rw [hbytes]
  exact parse_quoteObject (List.cons_ne_nil _ _) (by decide)

end CJson

end Xiaozhi
