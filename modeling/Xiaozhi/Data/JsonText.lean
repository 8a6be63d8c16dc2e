-- SUMMARY: The JSON grammar on bytes: a parser of whole documents, and what it reads where a string is quoted without escapes.
import Xiaozhi.Data.CString

/-!
# JSON texts

A strict parser for JSON documents, as bytes. Bytes from 128 on stand for
themselves in strings, so that a string is the sequence of bytes it decodes to.
Escaped surrogates come in pairs: a text with a lone one decodes to no sequence of
bytes, and is no document here. The parser is recursive with a fuel argument; the
length of the text is enough.
-/

namespace JsonText

open CString

/-- A JSON value; a number is kept as it is written. -/
inductive Value where
  | null
  | bool (value : Bool)
  | number (text : Bytes)
  | string (value : Bytes)
  | array (items : List Value)
  | object (members : List (Bytes × Value))

/-- The first member with the given key. -/
def Value.member (key : Bytes) : Value → Option Value
  | .object members => members.lookup key
  | _ => none

/-! ## Strings -/

/-- The value of a hexadecimal digit. -/
def hexValue (b : UInt8) : Option Nat :=
  if byte '0' ≤ b ∧ b ≤ byte '9' then some (b.toNat - 48)
  else if byte 'a' ≤ b ∧ b ≤ byte 'f' then some (b.toNat - 87)
  else if byte 'A' ≤ b ∧ b ≤ byte 'F' then some (b.toNat - 55)
  else none

/-- Four hexadecimal digits. -/
def readHex : Bytes → Option (Nat × Bytes)
  | a :: b :: c :: d :: rest => do
    let a ← hexValue a
    let b ← hexValue b
    let c ← hexValue c
    let d ← hexValue d
    return (((a * 16 + b) * 16 + c) * 16 + d, rest)
  | _ => none

/-- The encoding of a code point. -/
def utf8 (n : Nat) : Bytes :=
  if n < 0x80 then [n.toUInt8]
  else if n < 0x800 then [(0xC0 + n / 64).toUInt8, (0x80 + n % 64).toUInt8]
  else if n < 0x10000 then
    [(0xE0 + n / 4096).toUInt8, (0x80 + n / 64 % 64).toUInt8, (0x80 + n % 64).toUInt8]
  else
    [(0xF0 + n / 262144).toUInt8, (0x80 + n / 4096 % 64).toUInt8, (0x80 + n / 64 % 64).toUInt8,
      (0x80 + n % 64).toUInt8]

/-- The rest of an escape `\u`: a code point, or a pair of surrogates. -/
def readUnicode (text : Bytes) : Option (Bytes × Bytes) := do
  let (high, rest) ← readHex text
  if 0xDC00 ≤ high ∧ high < 0xE000 then
    none
  else if 0xD800 ≤ high ∧ high < 0xDC00 then
    match rest with
    | backslash :: u :: rest =>
      if backslash = byte '\\' ∧ u = byte 'u' then
        let (low, rest) ← readHex rest
        if 0xDC00 ≤ low ∧ low < 0xE000 then
          return (utf8 (0x10000 + (high - 0xD800) * 1024 + (low - 0xDC00)), rest)
        else
          none
      else
        none
    | _ => none
  else
    return (utf8 high, rest)

/-- The characters that are escaped by one letter. -/
def escapes : List (UInt8 × UInt8) :=
  [(byte '"', byte '"'), (byte '\\', byte '\\'), (byte '/', byte '/'), (byte 'b', 8),
    (byte 'f', 12), (byte 'n', 10), (byte 'r', 13), (byte 't', 9)]

/-- What follows a backslash. -/
def readEscape : Bytes → Option (Bytes × Bytes)
  | [] => none
  | c :: rest =>
    match escapes.lookup c with
    | some b => some ([b], rest)
    | none => if c = byte 'u' then readUnicode rest else none

/-- A string, after its opening quote. -/
def readString : Nat → Bytes → Option (Bytes × Bytes)
  | 0, _ => none
  | _ + 1, [] => none
  | fuel + 1, c :: rest =>
    if c = byte '"' then
      some ([], rest)
    else if c = byte '\\' then do
      let (b, rest) ← readEscape rest
      let (s, rest) ← readString fuel rest
      return (b ++ s, rest)
    else if c < 32 then
      none
    else do
      let (s, rest) ← readString fuel rest
      return (c :: s, rest)

/-! ## Numbers and literals -/

/-- At least one digit. -/
def readDigits (text : Bytes) : Option (Bytes × Bytes) :=
  match text.takeWhile isDigit with
  | [] => none
  | digits => some (digits, text.dropWhile isDigit)

/-- An optional part of a number, after one of the given bytes. -/
def readPart (marks : List UInt8) (read : Bytes → Option (Bytes × Bytes)) (text : Bytes) :
    Option (Bytes × Bytes) :=
  match text with
  | c :: rest =>
    if c ∈ marks then do
      let (part, rest) ← read rest
      return (c :: part, rest)
    else
      some ([], text)
  | [] => some ([], [])

/-- The digits of an exponent, with an optional sign. -/
def readExponent : Bytes → Option (Bytes × Bytes)
  | c :: rest =>
    if c = byte '+' ∨ c = byte '-' then do
      let (digits, rest) ← readDigits rest
      return (c :: digits, rest)
    else
      readDigits (c :: rest)
  | [] => none

/-- A number without its sign: no further digit follows a leading zero. -/
def readUnsigned (text : Bytes) : Option (Bytes × Bytes) := do
  let (whole, rest) ← readDigits text
  if whole.head? = some (byte '0') ∧ whole.length ≠ 1 then
    none
  else
    let (fraction, rest) ← readPart [byte '.'] readDigits rest
    let (exponent, rest) ← readPart [byte 'e', byte 'E'] readExponent rest
    return (whole ++ fraction ++ exponent, rest)

/-- A number. -/
def readNumber (text : Bytes) : Option (Bytes × Bytes) :=
  match text with
  | c :: rest =>
    if c = byte '-' then do
      let (number, rest) ← readUnsigned rest
      return (c :: number, rest)
    else
      readUnsigned text
  | [] => none

/-- A literal name. -/
def readLiteral (text : Bytes) : Option (Value × Bytes) :=
  if ofString "null" <+: text then some (.null, text.drop 4)
  else if ofString "true" <+: text then some (.bool true, text.drop 4)
  else if ofString "false" <+: text then some (.bool false, text.drop 5)
  else none

/-! ## Values -/

/-- White space between tokens. -/
def skipSpace (text : Bytes) : Bytes :=
  text.dropWhile fun b => b = 32 ∨ b = 9 ∨ b = 10 ∨ b = 13

/-- What follows one given byte, after white space. -/
def expect (c : UInt8) (text : Bytes) : Option Bytes :=
  match skipSpace text with
  | b :: rest => if b = c then some rest else none
  | [] => none

mutual

/-- A value that starts at the first byte. -/
def readValue : Nat → Bytes → Option (Value × Bytes)
  | 0, _ => none
  | _ + 1, [] => none
  | fuel + 1, c :: rest =>
    if c = byte '"' then do
      let (s, rest) ← readString (fuel + 1) rest
      return (.string s, rest)
    else if c = byte '\x7b' then
      match expect (byte '\x7d') rest with
      | some rest => some (.object [], rest)
      | none => do
        let (members, rest) ← readMembers fuel rest
        return (.object members, rest)
    else if c = byte '[' then
      match expect (byte ']') rest with
      | some rest => some (.array [], rest)
      | none => do
        let (items, rest) ← readItems fuel rest
        return (.array items, rest)
    else
      match readLiteral (c :: rest) with
      | some result => some result
      | none => do
        let (number, rest) ← readNumber (c :: rest)
        return (.number number, rest)

/-- The items of an array, to its closing bracket. -/
def readItems : Nat → Bytes → Option (List Value × Bytes)
  | 0, _ => none
  | fuel + 1, text => do
    let (item, rest) ← readValue fuel (skipSpace text)
    match expect (byte ']') rest with
    | some rest => return ([item], rest)
    | none =>
      let rest ← expect (byte ',') rest
      let (items, rest) ← readItems fuel rest
      return (item :: items, rest)

/-- The members of an object, to its closing brace. -/
def readMembers : Nat → Bytes → Option (List (Bytes × Value) × Bytes)
  | 0, _ => none
  | fuel + 1, text => do
    let rest ← expect (byte '"') text
    let (key, rest) ← readString (fuel + 1) rest
    let rest ← expect (byte ':') rest
    let (value, rest) ← readValue fuel (skipSpace rest)
    match expect (byte '\x7d') rest with
    | some rest => return ([(key, value)], rest)
    | none =>
      let rest ← expect (byte ',') rest
      let (members, rest) ← readMembers fuel rest
      return ((key, value) :: members, rest)

end

/-- A whole document. -/
def parse (text : Bytes) : Option Value :=
  match readValue (2 * text.length + 2) (skipSpace text) with
  | some (value, rest) => if skipSpace rest = [] then some value else none
  | none => none

/-! ## Quoting without escapes -/

/-- The byte stands for itself in a string. -/
def PlainByte (b : UInt8) : Prop := b ≠ byte '"' ∧ b ≠ byte '\\' ∧ ¬b < 32

instance (b : UInt8) : Decidable (PlainByte b) := inferInstanceAs (Decidable (_ ∧ _))

/-- A string that may be quoted without escapes. -/
def Plain (s : Bytes) : Prop := ∀ b ∈ s, PlainByte b

instance (s : Bytes) : Decidable (Plain s) := List.decidableBAll PlainByte s

theorem readString_cons_of_plainByte {fuel : Nat} {c : UInt8} {rest : Bytes} (h : PlainByte c) :
    readString (fuel + 1) (c :: rest) = (readString fuel rest).map fun r => (c :: r.1, r.2) := by
  rw [readString, if_neg h.1, if_neg h.2.1, if_neg h.2.2]
  cases readString fuel rest <;> rfl

@[simp] theorem readString_quote {fuel : Nat} {rest : Bytes} :
    readString (fuel + 1) (byte '"' :: rest) = some ([], rest) := by
  rw [readString, if_pos rfl]

/-- A plain string is read as itself. -/
theorem readString_plain {fuel : Nat} {s rest : Bytes} (hs : Plain s) (hfuel : s.length < fuel) :
    readString fuel (s ++ byte '"' :: rest) = some (s, rest) := by
  obtain ⟨fuel, rfl⟩ : ∃ n, fuel = n + 1 := ⟨fuel - 1, by omega⟩
  induction s generalizing fuel with
  | nil => exact readString_quote
  | cons c s ih =>
    obtain ⟨hc, hrest⟩ := List.forall_mem_cons.mp hs
    rw [List.length_cons] at hfuel
    obtain ⟨fuel, rfl⟩ : ∃ n, fuel = n + 1 := ⟨fuel - 1, by omega⟩
    rw [List.cons_append, readString_cons_of_plainByte hc, ih hrest fuel (by omega)]
    rfl

/-! ## Reading back what was quoted as it is -/

theorem readHex_some {n : Nat} {text r : Bytes} (h : readHex text = some (n, r)) :
    ∃ a b c d, text = a :: b :: c :: d :: r ∧
      a ≠ byte '"' ∧ b ≠ byte '"' ∧ c ≠ byte '"' ∧ d ≠ byte '"' := by
  have hdigit : ∀ {b : UInt8} {n : Nat}, hexValue b = some n → b ≠ byte '"' := by
    rintro b n hb rfl
    exact absurd hb (by rw [show hexValue (byte '"') = none by decide]; nofun)
  unfold readHex at h
  split at h
  · next a b c d rest =>
    obtain ⟨na, ha, h⟩ := Option.bind_eq_some_iff.mp h
    obtain ⟨nb, hb, h⟩ := Option.bind_eq_some_iff.mp h
    obtain ⟨nc, hc, h⟩ := Option.bind_eq_some_iff.mp h
    obtain ⟨nd, hd, h⟩ := Option.bind_eq_some_iff.mp h
    obtain ⟨-, rfl⟩ := Prod.mk.inj (Option.some.inj h)
    exact ⟨a, b, c, d, rfl, hdigit ha, hdigit hb, hdigit hc, hdigit hd⟩
  · cases h

/-- Four digits are read before a quote that follows. -/
theorem readHex_append {n : Nat} {u t r : Bytes} (h : readHex (u ++ byte '"' :: t) = some (n, r)) :
    ∃ e u', u = e ++ u' ∧ e.length = 4 ∧ r = u' ++ byte '"' :: t := by
  obtain ⟨a, b, c, d, htext, ha, hb, hc, hd⟩ := readHex_some h
  match u, htext with
  | [], htext => exact absurd (List.cons.inj htext).1.symm ha
  | [_], htext => exact absurd (List.cons.inj (List.cons.inj htext).2).1.symm hb
  | [_, _], htext =>
    exact absurd (List.cons.inj (List.cons.inj (List.cons.inj htext).2).2).1.symm hc
  | [_, _, _], htext =>
    exact absurd (List.cons.inj (List.cons.inj (List.cons.inj (List.cons.inj htext).2).2).2).1.symm hd
  | e₁ :: e₂ :: e₃ :: e₄ :: u', htext =>
    refine ⟨[e₁, e₂, e₃, e₄], u', rfl, rfl, ?_⟩
    exact (List.cons.inj (List.cons.inj (List.cons.inj (List.cons.inj htext).2).2).2).2.symm

theorem length_utf8_le (n : Nat) : (utf8 n).length ≤ 4 := by
  unfold utf8
  split_ifs <;> simp

/-- The rest of an escape `\u` is read before a quote that follows. -/
theorem readUnicode_append {b u t r : Bytes} (h : readUnicode (u ++ byte '"' :: t) = some (b, r)) :
    ∃ e u', u = e ++ u' ∧ b.length ≤ e.length ∧ r = u' ++ byte '"' :: t := by
  obtain ⟨⟨high, rest⟩, hhigh, h⟩ := Option.bind_eq_some_iff.mp h
  obtain ⟨e, u₁, rfl, hlen, rfl⟩ := readHex_append hhigh
  dsimp only at h
  split at h
  · cases h
  · split at h
    · cases u₁ with
      | nil =>
        rw [List.nil_append] at h
        split at h
        · next backslash v rest hrest =>
          obtain ⟨rfl, -⟩ := List.cons.inj hrest
          have hno : ¬(byte '"' = byte '\\' ∧ v = byte 'u') := fun hc => absurd hc.1 (by decide)
          rw [if_neg hno] at h
          cases h
        · cases h
      | cons c₁ u₁ =>
        cases u₁ with
        | nil =>
          rw [List.cons_append, List.nil_append] at h
          have hno : ¬(c₁ = byte '\\' ∧ byte '"' = byte 'u') := fun hc => absurd hc.2 (by decide)
          simp only [hno, if_false, reduceCtorEq] at h
        | cons c₂ u₂ =>
          simp only [List.cons_append] at h
          split at h
          · obtain ⟨⟨low, rest⟩, hlow, h⟩ := Option.bind_eq_some_iff.mp h
            obtain ⟨e', u₃, rfl, hlen', rfl⟩ := readHex_append hlow
            dsimp only at h
            split at h
            · obtain ⟨rfl, rfl⟩ := Prod.mk.inj (Option.some.inj h)
              refine ⟨e ++ c₁ :: c₂ :: e', u₃, by simp, ?_, rfl⟩
              exact (length_utf8_le _).trans (by rw [List.length_append]; omega)
            · cases h
          · cases h
    · obtain ⟨rfl, rfl⟩ := Prod.mk.inj (Option.some.inj h)
      exact ⟨e, u₁, rfl, (length_utf8_le _).trans hlen.ge, rfl⟩

/-- An escape is read before a quote that follows, and is longer than what it
    stands for; unless it escapes that quote. -/
theorem readEscape_append {b u t r : Bytes} (h : readEscape (u ++ byte '"' :: t) = some (b, r)) :
    (∃ e u', u = e ++ u' ∧ b.length ≤ e.length ∧ r = u' ++ byte '"' :: t) ∨
    (u = [] ∧ b = [byte '"'] ∧ r = t) := by
  cases u with
  | nil =>
    refine .inr ⟨rfl, ?_⟩
    obtain ⟨rfl, rfl⟩ := Prod.mk.inj (Option.some.inj h)
    exact ⟨rfl, rfl⟩
  | cons c u =>
    refine .inl ?_
    rw [List.cons_append, readEscape] at h
    split at h
    · obtain ⟨rfl, rfl⟩ := Prod.mk.inj (Option.some.inj h)
      exact ⟨[c], u, rfl, le_rfl, rfl⟩
    · split at h
      · obtain ⟨e, u', rfl, hlen, rfl⟩ := readUnicode_append h
        exact ⟨c :: e, u', rfl, hlen.trans (Nat.le_succ _), rfl⟩
      · cases h

/-- What is read of a text that was quoted as it is, with a further member after
    it: the text itself if it is plain; something shorter if the string ends in
    it; or else the text ends in a backslash, and the string goes on to the quote
    of the next member. -/
theorem readString_quoted {fuel : Nat} {u t v r : Bytes}
    (h : readString fuel (u ++ byte '"' :: byte ',' :: byte '"' :: t) = some (v, r)) :
    (Plain u ∧ v = u) ∨ v.length < u.length ∨
    ∃ w, v = w ++ [byte '"', byte ','] ∧ w.length < u.length ∧ u.getLast? = some (byte '\\') := by
  -- the induction is on the fuel, since one escape may stand for several bytes of `u`
  induction fuel generalizing u v r with
  | zero => cases h
  | succ fuel ih =>
    cases u with
    | nil =>
      rw [List.nil_append, readString_quote] at h
      obtain ⟨rfl, -⟩ := Prod.mk.inj (Option.some.inj h)
      exact .inl ⟨fun _ hb => absurd hb List.not_mem_nil, rfl⟩
    | cons c u =>
      rw [List.cons_append, readString] at h
      split at h
      · obtain ⟨rfl, -⟩ := Prod.mk.inj (Option.some.inj h)
        exact .inr (.inl (Nat.succ_pos _))
      · next hquote =>
        split at h
        · next hbackslash =>
          obtain ⟨⟨b, rest⟩, hescape, h⟩ := Option.bind_eq_some_iff.mp h
          obtain ⟨⟨v', rest'⟩, hstring, h⟩ := Option.bind_eq_some_iff.mp h
          obtain ⟨rfl, -⟩ := Prod.mk.inj (Option.some.inj h)
          -- the escape lies in `u`, or the backslash is its last byte
          rcases readEscape_append hescape with ⟨e, u', rfl, hlen, rfl⟩ | ⟨rfl, rfl, rfl⟩
          · refine .inr ?_
            rcases ih hstring with ⟨-, rfl⟩ | hshort | ⟨w, rfl, hw, hlast⟩
            · refine .inl ?_
              simp only [List.length_append, List.length_cons]
              omega
            · refine .inl ?_
              simp only [List.length_append, List.length_cons]
              omega
            · refine .inr ⟨b ++ w, (List.append_assoc _ _ _).symm, ?_, ?_⟩
              · simp only [List.length_append, List.length_cons]
                omega
              · simp [List.getLast?_cons, List.getLast?_append, hlast]
          · refine .inr (.inr ⟨[], ?_, Nat.succ_pos _, by simp [hbackslash]⟩)
            -- the string goes on with the comma, and ends at the next quote
            have hcomma : PlainByte (byte ',') := by decide
            cases fuel with
            | zero => cases hstring
            | succ fuel =>
              rw [readString_cons_of_plainByte hcomma] at hstring
              cases fuel with
              | zero => cases hstring
              | succ fuel =>
                rw [readString_quote] at hstring
                obtain ⟨rfl, -⟩ := Prod.mk.inj (Option.some.inj hstring)
                rfl
        · next hbackslash =>
          split at h
          · cases h
          · next hcontrol =>
            obtain ⟨⟨v', rest'⟩, hstring, h⟩ := Option.bind_eq_some_iff.mp h
            obtain ⟨rfl, -⟩ := Prod.mk.inj (Option.some.inj h)
            rcases ih hstring with ⟨hplain, rfl⟩ | hshort | ⟨w, rfl, hw, hlast⟩
            · exact .inl ⟨List.forall_mem_cons.mpr ⟨⟨hquote, hbackslash, hcontrol⟩, hplain⟩, rfl⟩
            · exact .inr (.inl (Nat.succ_lt_succ hshort))
            · refine .inr (.inr ⟨c :: w, rfl, Nat.succ_lt_succ hw, ?_⟩)
              rw [List.getLast?_cons, hlast]
              rfl

/-- Only a plain text is read as a string that starts with the text. -/
theorem readString_prefix {fuel : Nat} {u t v r : Bytes} (hpre : u <+: v)
    (h : readString fuel (u ++ byte '"' :: byte ',' :: byte '"' :: t) = some (v, r)) :
    v = u ∧ Plain u := by
  obtain ⟨x, rfl⟩ := hpre
  rcases readString_quoted h with ⟨hplain, hv⟩ | hshort | ⟨w, hv, hw, hlast⟩
  · exact ⟨hv, hplain⟩
  · rw [List.length_append] at hshort
    omega
  · -- the backslash at the end of `u` would be one of the last two bytes of `v`
    obtain ⟨u₀, rfl⟩ := List.getLast?_eq_some_iff.mp hlast
    have hmem : byte '\\' ∈ [byte '"', byte ','] := by
      rw [List.append_assoc] at hv
      rw [List.length_append] at hw
      rcases List.append_eq_append_iff.mp hv with ⟨y, rfl, hy⟩ | ⟨y, rfl, hy⟩
      · have hnil : y = [] := List.eq_nil_of_length_eq_zero (by
          rw [List.length_append, List.length_singleton] at hw
          omega)
        subst hnil
        rw [← show [byte '\\'] ++ x = [byte '"', byte ','] from hy]
        exact List.mem_cons_self
      · rw [hy]
        exact List.mem_append_right _ List.mem_cons_self
    exact absurd hmem (by decide)

/-! ## Objects of strings -/

/-- A member whose value is a string, quoted without escapes. -/
def quoteMember (m : Bytes × Bytes) : Bytes :=
  byte '"' :: m.1 ++ byte '"' :: byte ':' :: byte '"' :: m.2 ++ [byte '"']

/-- The members of an object, from the first to the closing brace. -/
def quoteMembers : List (Bytes × Bytes) → Bytes
  | [] => [byte '\x7d']
  | [m] => quoteMember m ++ [byte '\x7d']
  | m :: ms => quoteMember m ++ byte ',' :: quoteMembers ms

theorem quoteMembers_cons_cons {m m' : Bytes × Bytes} {ms : List (Bytes × Bytes)} :
    quoteMembers (m :: m' :: ms) = quoteMember m ++ byte ',' :: quoteMembers (m' :: ms) := rfl

/-- An object whose values are strings, quoted without escapes. -/
def quoteObject (ms : List (Bytes × Bytes)) : Bytes := byte '\x7b' :: quoteMembers ms

/-- The byte is not white space. -/
def Token (c : UInt8) : Prop := ¬(c = 32 ∨ c = 9 ∨ c = 10 ∨ c = 13)

instance (c : UInt8) : Decidable (Token c) := inferInstanceAs (Decidable (¬_))

theorem skipSpace_cons {c : UInt8} {rest : Bytes} (h : Token c) : skipSpace (c :: rest) = c :: rest := by
  rw [skipSpace, List.dropWhile_cons_of_neg (by simpa [Token] using h)]

theorem expect_self {c : UInt8} {rest : Bytes} (h : Token c) : expect c (c :: rest) = some rest := by
  rw [expect, skipSpace_cons h]
  exact if_pos rfl

theorem expect_ne {b c : UInt8} {rest : Bytes} (h : Token b) (hne : b ≠ c) :
    expect c (b :: rest) = none := by
  rw [expect, skipSpace_cons h]
  exact if_neg hne

/-- Reading a member whose key is plain comes down to reading its value. -/
theorem readMembers_quote {fuel : Nat} {key text : Bytes} (hkey : Plain key)
    (hfuel : key.length < fuel + 2) :
    readMembers (fuel + 2) (byte '"' :: key ++ byte '"' :: byte ':' :: byte '"' :: text) =
      (readString (fuel + 1) text).bind fun r =>
        match expect (byte '\x7d') r.2 with
        | some rest => some ([(key, .string r.1)], rest)
        | none => (expect (byte ',') r.2).bind fun rest =>
          (readMembers (fuel + 1) rest).bind fun ms =>
            some ((key, .string r.1) :: ms.1, ms.2) := by
  have hquote : Token (byte '"') := by decide
  have hcolon : Token (byte ':') := by decide
  have hvalue : readValue (fuel + 1) (byte '"' :: text) =
      (readString (fuel + 1) text).map fun r => (.string r.1, r.2) := by
    rw [readValue, if_pos rfl]
    cases readString (fuel + 1) text <;> rfl
  rw [readMembers, List.cons_append, expect_self hquote]
  simp only [Option.bind_eq_bind, Option.bind_some]
  rw [readString_plain hkey hfuel]
  simp only [Option.bind_some]
  rw [expect_self hcolon]
  simp only [Option.bind_some]
  rw [skipSpace_cons hquote, hvalue]
  cases readString (fuel + 1) text <;> rfl

/-- The members of a quoted object are read back. -/
theorem readMembers_quoteMembers {ms : List (Bytes × Bytes)} {fuel : Nat} (hne : ms ≠ [])
    (hplain : ∀ m ∈ ms, Plain m.1 ∧ Plain m.2) (hfuel : (quoteMembers ms).length ≤ fuel) :
    readMembers fuel (quoteMembers ms) = some (ms.map fun m => (m.1, .string m.2), []) := by
  induction ms generalizing fuel with
  | nil => exact absurd rfl hne
  | cons m ms ih =>
    obtain ⟨⟨hkey, hvalue⟩, hrest⟩ := List.forall_mem_cons.mp hplain
    have hbrace : Token (byte '\x7d') := by decide
    have hcomma : Token (byte ',') := by decide
    have hdiff : byte ',' ≠ byte '\x7d' := by decide
    have hlen : (quoteMember m).length = m.1.length + m.2.length + 5 := by
      simp only [quoteMember, List.length_append, List.length_cons, List.length_nil]
      omega
    have hread (text : Bytes) (hm : (quoteMember m).length ≤ fuel) :
        readMembers fuel (quoteMember m ++ text) =
          match expect (byte '\x7d') text with
          | some rest => some ([(m.1, .string m.2)], rest)
          | none => (expect (byte ',') text).bind fun rest =>
            (readMembers (fuel - 1) rest).bind fun ms =>
              some ((m.1, .string m.2) :: ms.1, ms.2) := by
      obtain ⟨fuel, rfl⟩ : ∃ n, fuel = n + 2 := ⟨fuel - 2, by omega⟩
      have heq : readMembers (fuel + 2) (byte '"' :: m.1 ++ byte '"' :: byte ':' :: byte '"' ::
          (m.2 ++ byte '"' :: text)) = _ := readMembers_quote hkey (by omega)
      rw [readString_plain hvalue (by omega)] at heq
      simpa [quoteMember] using heq
    cases ms with
    | nil =>
      rw [quoteMembers, List.length_append] at hfuel
      rw [quoteMembers, hread _ (by omega), expect_self hbrace]
      rfl
    | cons m' ms =>
      rw [quoteMembers_cons_cons, List.length_append, List.length_cons] at hfuel
      rw [quoteMembers_cons_cons, hread _ (by omega), expect_ne hcomma hdiff, expect_self hcomma]
      simp only [Option.bind_some]
      rw [ih (List.cons_ne_nil _ _) hrest (by omega)]
      rfl

theorem exists_quoteMembers {ms : List (Bytes × Bytes)} (hne : ms ≠ []) :
    ∃ rest, quoteMembers ms = byte '"' :: rest := by
  match ms, hne with
  | [m], _ => exact ⟨_, rfl⟩
  | m :: m' :: ms, _ => exact ⟨_, rfl⟩

/-- Reading a quoted object comes down to reading its members. -/
theorem readValue_quoteObject {fuel : Nat} {ms : List (Bytes × Bytes)} (hne : ms ≠ []) :
    readValue (fuel + 1) (quoteObject ms) =
      (readMembers fuel (quoteMembers ms)).map fun r => (.object r.1, r.2) := by
  have hbrace : byte '\x7b' ≠ byte '"' := by decide
  have hquote : Token (byte '"') := by decide
  have hclose : byte '"' ≠ byte '\x7d' := by decide
  obtain ⟨rest, hrest⟩ := exists_quoteMembers hne
  rw [quoteObject, hrest, readValue, if_neg hbrace, if_pos rfl, expect_ne hquote hclose]
  cases readMembers fuel (byte '"' :: rest) <;> rfl

/-- What a quoted object is parsed to. -/
theorem parse_eq_of_readMembers {ms : List (Bytes × Bytes)} (hne : ms ≠ []) :
    parse (quoteObject ms) =
      (readMembers (2 * (quoteObject ms).length + 1) (quoteMembers ms)).bind fun r =>
        if skipSpace r.2 = [] then some (.object r.1) else none := by
  have hbrace : Token (byte '\x7b') := by decide
  rw [parse, quoteObject, skipSpace_cons hbrace, ← quoteObject, readValue_quoteObject hne]
  cases readMembers (2 * (quoteObject ms).length + 1) (quoteMembers ms) <;> rfl

/-- A quoted object is read back. -/
theorem parse_quoteObject {ms : List (Bytes × Bytes)} (hne : ms ≠ [])
    (hplain : ∀ m ∈ ms, Plain m.1 ∧ Plain m.2) :
    parse (quoteObject ms) = some (.object (ms.map fun m => (m.1, .string m.2))) := by
  have hlen : (quoteMembers ms).length ≤ 2 * (quoteObject ms).length + 1 := by
    rw [quoteObject, List.length_cons]
    omega
  rw [parse_eq_of_readMembers hne, readMembers_quoteMembers hne hplain hlen]
  rfl

/-- If the value that was quoted first begins a string that is read back for its
    key, it is that string, and plain. -/
theorem parse_quoteObject_prefix {key u s : Bytes} {m : Bytes × Bytes} {ms : List (Bytes × Bytes)}
    {value : Value} (hkey : Plain key) (hpre : u <+: s)
    (h : parse (quoteObject ((key, u) :: m :: ms)) = some value)
    (hs : value.member key = some (.string s)) : s = u ∧ Plain u := by
  rw [parse_eq_of_readMembers (List.cons_ne_nil _ _), quoteMembers_cons_cons] at h
  obtain ⟨⟨members, rest⟩, hmembers, h⟩ := Option.bind_eq_some_iff.mp h
  have hvalue : value = .object members := by
    split at h
    · exact (Option.some.inj h).symm
    · cases h
  obtain ⟨text, htext⟩ := exists_quoteMembers (List.cons_ne_nil m ms)
  generalize hfuel : 2 * (quoteObject ((key, u) :: m :: ms)).length + 1 = fuel at hmembers
  have hlen : key.length + 2 ≤ fuel := by
    rw [← hfuel, quoteObject, quoteMembers_cons_cons, quoteMember]
    simp only [List.length_cons, List.length_append]
    omega
  obtain ⟨fuel, rfl⟩ : ∃ n, fuel = n + 2 := ⟨fuel - 2, by omega⟩
  have heq : readMembers (fuel + 2) (byte '"' :: key ++ byte '"' :: byte ':' :: byte '"' ::
      (u ++ byte '"' :: byte ',' :: byte '"' :: text)) = _ := readMembers_quote hkey (by omega)
  have hshape : quoteMember (key, u) ++ byte ',' :: quoteMembers (m :: ms) =
      byte '"' :: key ++ byte '"' :: byte ':' :: byte '"' ::
        (u ++ byte '"' :: byte ',' :: byte '"' :: text) := by
    simp [quoteMember, htext]
  rw [hshape, heq] at hmembers
  obtain ⟨⟨v, r⟩, hstring, hmembers⟩ := Option.bind_eq_some_iff.mp hmembers
  have hfirst : ∃ tail, members = (key, .string v) :: tail := by
    split at hmembers
    · exact ⟨[], (congrArg Prod.fst (Option.some.inj hmembers)).symm⟩
    · obtain ⟨r', -, hmembers⟩ := Option.bind_eq_some_iff.mp hmembers
      obtain ⟨ms', -, hmembers⟩ := Option.bind_eq_some_iff.mp hmembers
      exact ⟨ms'.1, (congrArg Prod.fst (Option.some.inj hmembers)).symm⟩
  obtain ⟨tail, rfl⟩ := hfirst
  rw [hvalue, Value.member, List.lookup_cons, beq_self_eq_true] at hs
  cases hs
  exact readString_prefix hpre hstring

end JsonText
