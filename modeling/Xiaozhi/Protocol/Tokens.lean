-- SUMMARY: The strings and numbers of the JSON grammar: cJSON passes each of them as a whole, and reads it as the grammar does.
import Xiaozhi.Protocol.StringParsing

/-!
# Tokens

What the parser of `Data/JsonText` takes for a string or for a number, cJSON
takes as well. A string is decoded to the same bytes; `strtod` is given more
than the number, but stops where the number ends.
-/

namespace Xiaozhi

namespace CJson

open CString JsonText

variable {b c d : UInt8} {fuel n : Nat} {s text rest input bytes : Bytes}

/-! ## Characters -/

theorem and_tail (n : Nat) : (n ||| 0x80) &&& 0xBF = 0x80 + n % 64 := by
  have hsmall : ∀ m < 256, (m ||| 0x80) &&& 0xBF = 0x80 + m % 64 := by decide +kernel
  have hlt : (n ||| 0x80) &&& 0xBF < 2 ^ 8 := Nat.and_lt_two_pow _ (by decide)
  calc (n ||| 0x80) &&& 0xBF = ((n ||| 0x80) &&& 0xBF) % 2 ^ 8 := (Nat.mod_eq_of_lt hlt).symm
    _ = ((n % 2 ^ 8) ||| 0x80) &&& 0xBF := by rw [Nat.and_mod_two_pow, Nat.or_mod_two_pow]
    _ = 0x80 + n % 2 ^ 8 % 64 := hsmall _ (Nat.mod_lt _ (by decide))
    _ = 0x80 + n % 64 := by rw [Nat.mod_mod_of_dvd n (by decide)]

/-- `utf16_literal_to_utf8` encodes as the grammar says. -/
theorem encodeUtf8_eq (h : n ≤ 0x10FFFF) : encodeUtf8 n = some (utf8 n) := by
  have hone : ∀ m < 0x80, m &&& 0x7F = m := by decide +kernel
  have htwo : ∀ m < 32, (m ||| 0xC0) &&& 0xFF = 0xC0 + m := by decide +kernel
  have hthree : ∀ m < 16, (m ||| 0xE0) &&& 0xFF = 0xE0 + m := by decide +kernel
  have hfour : ∀ m < 8, (m ||| 0xF0) &&& 0xFF = 0xF0 + m := by decide +kernel
  unfold encodeUtf8 utf8
  simp only [encodeBytes, encodeTail, and_tail, Nat.shiftRight_eq_div_pow, Nat.div_div_eq_div_mul,
    Nat.reducePow, Nat.reduceMul, Nat.reduceSub, Nat.reduceGT, if_true, if_false, List.nil_append,
    List.cons_append]
  split
  · next hn => rw [hone n hn]
  · split
    · next hn => rw [htwo _ (by omega)]
    · split
      · next hn => rw [hthree _ (by omega)]
      · rw [hfour _ (by omega)]

/-! ## Strings -/

/-- The parts of the grammar's string: what is before the closing quote is found
    by the first pass, and decoded by the second one. -/
def Conforms (text s rest : Bytes) : Prop :=
  ∃ input skipped, Scanned text input skipped rest ∧ decode input = some s

theorem hexValue_ne {m : Nat} (h : hexValue b = some m) : b ≠ byte '"' ∧ b ≠ byte '\\' := by
  have hquote : hexValue (byte '"') = none := by decide
  have hbackslash : hexValue (byte '\\') = none := by decide
  constructor
  · rintro rfl
    rw [hquote] at h
    cases h
  · rintro rfl
    rw [hbackslash] at h
    cases h

/-- A digit stands for itself in the first pass. -/
theorem Scanned.hex {m skipped : Nat} (hb : hexValue b = some m)
    (h : Scanned text input skipped rest) : Scanned (b :: text) (b :: input) skipped rest :=
  .char (hexValue_ne hb).1 (hexValue_ne hb).2 h

/-- Four digits. -/
inductive Hex : Bytes → Nat → Prop where
  | digits {a b c d : UInt8} {x y z w : Nat} : hexValue a = some x → hexValue b = some y →
      hexValue c = some z → hexValue d = some w →
      Hex [a, b, c, d] (((x * 16 + y) * 16 + z) * 16 + w)

theorem hex_of_readHex (h : readHex text = some (n, rest)) :
    ∃ digits, text = digits ++ rest ∧ Hex digits n := by
  unfold readHex at h
  split at h
  · next a b c d rest =>
    obtain ⟨x, ha, h⟩ := Option.bind_eq_some_iff.mp h
    obtain ⟨y, hb, h⟩ := Option.bind_eq_some_iff.mp h
    obtain ⟨z, hc, h⟩ := Option.bind_eq_some_iff.mp h
    obtain ⟨w, hd, h⟩ := Option.bind_eq_some_iff.mp h
    cases h
    exact ⟨[a, b, c, d], rfl, .digits ha hb hc hd⟩
  · cases h

namespace Hex

variable {digits digits' : Bytes} {high low : Nat}

theorem length_eq (h : Hex digits n) : digits.length = 4 := by
  cases h
  rfl

theorem parseHex4 (h : Hex digits n) : CJson.parseHex4 (digits ++ text) = n := by
  cases h with
  | digits ha hb hc hd =>
    simp [CJson.parseHex4, ha, hb, hc, hd, Nat.shiftLeft_eq]

/-- The first pass over an escape `\u`. -/
theorem scanned {skipped : Nat} (h : Hex digits n) (hscan : Scanned text input skipped rest) :
    Scanned (byte '\\' :: byte 'u' :: (digits ++ text))
      (byte '\\' :: byte 'u' :: (digits ++ input)) (skipped + 1) rest := by
  cases h with
  | digits ha hb hc hd => exact .escape (.hex ha (.hex hb (.hex hc (.hex hd hscan))))

/-- The second pass over an escape `\u` for a code point. -/
theorem decodeStep (h : Hex digits n) (hn : ¬(0xD800 ≤ n ∧ n < 0xE000)) (hmax : n < 0x10000) :
    CJson.decodeStep (byte '\\' :: byte 'u' :: (digits ++ input)) = some (utf8 n, 6) := by
  have hlength : ¬(byte '\\' :: byte 'u' :: (digits ++ input)).length < 6 := by
    rw [List.length_cons, List.length_cons, List.length_append, h.length_eq]
    omega
  have hcode : CJson.parseHex4 ((byte '\\' :: byte 'u' :: (digits ++ input)).drop 2) = n :=
    h.parseHex4
  have hliteral : utf16LiteralToUtf8 (byte '\\' :: byte 'u' :: (digits ++ input)) =
      some (utf8 n, 6) := by
    rw [utf16LiteralToUtf8, if_neg hlength]
    simp only [hcode]
    rw [if_neg (by omega), if_neg (by omega), encodeUtf8_eq (by omega), Option.map_some]
  exact hliteral

/-- The second pass over a pair of surrogates. -/
theorem decodeStep_pair (h : Hex digits high) (h' : Hex digits' low)
    (hhigh : 0xD800 ≤ high ∧ high < 0xDC00) (hlow : 0xDC00 ≤ low ∧ low < 0xE000) :
    CJson.decodeStep (byte '\\' :: byte 'u' ::
      (digits ++ byte '\\' :: byte 'u' :: (digits' ++ input))) =
      some (utf8 (0x10000 + (high - 0xD800) * 1024 + (low - 0xDC00)), 12) := by
  generalize htext : byte '\\' :: byte 'u' ::
    (digits ++ byte '\\' :: byte 'u' :: (digits' ++ input)) = text
  have hsecond : text.drop 6 = byte '\\' :: byte 'u' :: (digits' ++ input) := by
    rw [← htext, List.drop_succ_cons, List.drop_succ_cons, List.drop_left' h.length_eq]
  have hlength : ¬text.length < 6 := by
    rw [← htext, List.length_cons, List.length_cons, List.length_append, h.length_eq]
    omega
  have hlength' : ¬(text.drop 6).length < 6 := by
    rw [hsecond, List.length_cons, List.length_cons, List.length_append, h'.length_eq]
    omega
  have hcode : CJson.parseHex4 (text.drop 2) = high := by
    rw [← htext]
    exact h.parseHex4
  have hcode' : CJson.parseHex4 ((text.drop 6).drop 2) = low := by
    rw [hsecond]
    exact h'.parseHex4
  have hmark : ¬(text.drop 6).take 2 ≠ [byte '\\', byte 'u'] := by
    rw [hsecond]
    exact not_not.mpr rfl
  have hcodepoint : 0x10000 + (((high &&& 0x3FF) <<< 10) ||| (low &&& 0x3FF)) =
      0x10000 + (high - 0xD800) * 1024 + (low - 0xDC00) := by
    have hmask (m : Nat) : m &&& 0x3FF = m % 2 ^ 10 := Nat.and_two_pow_sub_one_eq_mod m 10
    rw [hmask, hmask, ← Nat.shiftLeft_add_eq_or_of_lt (Nat.mod_lt _ (by decide)), Nat.shiftLeft_eq]
    omega
  have hliteral : utf16LiteralToUtf8 text =
      some (utf8 (0x10000 + (high - 0xD800) * 1024 + (low - 0xDC00)), 12) := by
    rw [utf16LiteralToUtf8, if_neg hlength]
    simp only [hcode, hcode']
    rw [if_neg (by omega), if_pos (by omega), if_neg hlength', if_neg hmark, if_neg (by omega),
      hcodepoint, encodeUtf8_eq (by omega), Option.map_some]
  rw [← hliteral, ← htext]
  rfl

end Hex

/-- In front of `rest` stands a piece of a string that both passes take as a whole,
    and that stands for `bytes`. -/
def Piece (text bytes rest : Bytes) : Prop :=
  ∃ e, text = e ++ rest ∧ (∀ input, decodeStep (e ++ input) = some (bytes, e.length)) ∧
    ∀ input skipped rest', Scanned rest input skipped rest' →
      ∃ skipped', Scanned text (e ++ input) skipped' rest'

theorem Piece.conforms {rest' : Bytes} (h : Piece text bytes rest) (hrest : Conforms rest s rest') :
    Conforms text (bytes ++ s) rest' := by
  obtain ⟨e, rfl, hdecode, hscan⟩ := h
  obtain ⟨input, skipped, hscanned, hs⟩ := hrest
  obtain ⟨skipped', hscanned'⟩ := hscan input skipped rest' hscanned
  refine ⟨e ++ input, skipped', hscanned', ?_⟩
  rw [decode_of_decodeStep (hdecode input), List.drop_left, hs, Option.map_some]

theorem piece_unicode (h : readUnicode text = some (bytes, rest)) :
    Piece (byte '\\' :: byte 'u' :: text) bytes rest := by
  obtain ⟨⟨high, rest₁⟩, hhigh, hcases⟩ := Option.bind_eq_some_iff.mp h
  obtain ⟨digits, rfl, hdigits⟩ := hex_of_readHex hhigh
  have hcode : parseHex4 (digits ++ []) = high := hdigits.parseHex4
  have hlt : high < 0x10000 := hcode ▸ parseHex4_lt _
  dsimp only at hcases
  split at hcases
  · cases hcases
  · next hlow =>
    split at hcases
    · next hpair =>
      split at hcases
      · next backslash u rest₂ =>
        split at hcases
        · next hmark =>
          obtain ⟨rfl, rfl⟩ := hmark
          obtain ⟨⟨low, rest₃⟩, hread, hlast⟩ := Option.bind_eq_some_iff.mp hcases
          obtain ⟨digits', rfl, hdigits'⟩ := hex_of_readHex hread
          dsimp only at hlast
          split at hlast
          · next hlow' =>
            obtain ⟨rfl, rfl⟩ := Prod.mk.inj (Option.some.inj hlast)
            -- a surrogate pair, in two escapes
            refine ⟨byte '\\' :: byte 'u' :: (digits ++ byte '\\' :: byte 'u' :: digits'), ?_, ?_, ?_⟩
            · simp
            · intro input
              have hstep : decodeStep (byte '\\' :: byte 'u' ::
                  (digits ++ byte '\\' :: byte 'u' :: (digits' ++ input))) = _ :=
                hdigits.decodeStep_pair hdigits' hpair hlow'
              have hlength : (byte '\\' :: byte 'u' ::
                  (digits ++ byte '\\' :: byte 'u' :: digits')).length = 12 := by
                simp [hdigits.length_eq, hdigits'.length_eq]
              rw [hlength, ← hstep]
              simp
            · intro input skipped rest' hscan
              refine ⟨skipped + 1 + 1, ?_⟩
              have hscanned := hdigits.scanned (hdigits'.scanned hscan)
              simpa using hscanned
          · cases hlast
        · cases hcases
      · cases hcases
    · next hpair =>
      cases hcases
      -- one escape
      refine ⟨byte '\\' :: byte 'u' :: digits, rfl, ?_, ?_⟩
      · intro input
        have hstep : decodeStep (byte '\\' :: byte 'u' :: (digits ++ input)) = _ :=
          hdigits.decodeStep (by omega) hlt
        have hlength : (byte '\\' :: byte 'u' :: digits).length = 6 := by
          simp [hdigits.length_eq]
        rw [hlength, ← hstep]
        simp
      · intro input skipped rest' hscan
        exact ⟨_, hdigits.scanned hscan⟩

theorem unescape_of_lookup (h : escapes.lookup c = some b) : unescape c = some b ∧ c ≠ byte 'u' := by
  have hall : ∀ p ∈ escapes, unescape p.1 = some p.2 ∧ p.1 ≠ byte 'u' := by
    simp only [escapes, List.forall_mem_cons]
    exact ⟨⟨rfl, by decide⟩, ⟨rfl, by decide⟩, ⟨rfl, by decide⟩, ⟨rfl, by decide⟩,
      ⟨rfl, by decide⟩, ⟨rfl, by decide⟩, ⟨rfl, by decide⟩, ⟨rfl, by decide⟩,
      List.forall_mem_nil _⟩
  obtain ⟨l₁, l₂, hmem, -⟩ := List.lookup_eq_some_iff.mp h
  exact hall (c, b) (by rw [hmem]; simp)

theorem decodeStep_escape (hu : c ≠ byte 'u') (h : unescape c = some b) :
    decodeStep (byte '\\' :: c :: input) = some ([b], 2) := by
  simp [decodeStep, hu, h]

theorem piece_escape (h : readEscape text = some (bytes, rest)) :
    Piece (byte '\\' :: text) bytes rest := by
  unfold readEscape at h
  split at h
  · cases h
  · next c text =>
    split at h
    · next b hlookup =>
      cases h
      obtain ⟨hunescape, hu⟩ := unescape_of_lookup hlookup
      refine ⟨[byte '\\', c], rfl, fun input => ?_, fun input skipped rest' hscan => ?_⟩
      · exact decodeStep_escape hu hunescape
      · exact ⟨_, .escape hscan⟩
    · split at h
      · next hu =>
        subst hu
        exact piece_unicode h
      · cases h

/-- A string of the grammar is read as the grammar reads it. -/
theorem conforms_of_readString (h : readString fuel text = some (s, rest)) : Conforms text s rest := by
  induction fuel generalizing text s with
  | zero => cases h
  | succ fuel ih =>
    cases text with
    | nil => cases h
    | cons c text =>
      rw [readString] at h
      split at h
      · next hc =>
        subst hc
        cases h
        exact ⟨[], 0, .close, rfl⟩
      · next hquote =>
        split at h
        · next hc =>
          subst hc
          obtain ⟨⟨bytes, rest₁⟩, hescape, h⟩ := Option.bind_eq_some_iff.mp h
          obtain ⟨⟨s', rest₂⟩, hstring, h⟩ := Option.bind_eq_some_iff.mp h
          cases h
          exact (piece_escape hescape).conforms (ih hstring)
        · next hbackslash =>
          split at h
          · cases h
          · obtain ⟨⟨s', rest₁⟩, hstring, h⟩ := Option.bind_eq_some_iff.mp h
            cases h
            have hpiece : Piece (c :: text) [c] text := by
              refine ⟨[c], rfl, fun input => if_pos hbackslash, fun input skipped rest' hscan => ?_⟩
              exact ⟨skipped, .char hquote hbackslash hscan⟩
            exact hpiece.conforms (ih hstring)

theorem parseString_of_readString (h : readString fuel text = some (s, rest)) :
    parseString (byte '"' :: text) = some (ofBytes s, rest) := by
  obtain ⟨input, skipped, hscan, hdecode⟩ := conforms_of_readString h
  rw [parseString, if_neg (not_not.mpr rfl), hscan.scanString]
  simp only [Option.bind_eq_bind, Option.bind_some]
  rw [← decode, hdecode]
  rfl

/-! ## Numbers -/

/-- What follows a number in a shorter text: the same first byte, or nothing. -/
def Follows (rest' rest : Bytes) : Prop := rest' = [] ∨ rest'.head? = rest.head?

theorem follows_takeWhile {p : UInt8 → Bool} : Follows (rest.takeWhile p) rest := by
  cases rest with
  | nil => exact .inl rfl
  | cons c rest =>
    by_cases hc : p c = true
    · exact .inr (by rw [List.takeWhile_cons_of_pos hc]; rfl)
    · exact .inl (List.takeWhile_cons_of_neg hc)

theorem Follows.append {rest' part : Bytes} (h : Follows rest' rest) :
    Follows (part ++ rest') (part ++ rest) := by
  cases part with
  | nil => exact h
  | cons c part => exact .inr rfl

section Digits

variable {digits rest' : Bytes}

theorem readDigits_some (h : JsonText.readDigits text = some (digits, rest)) :
    text = digits ++ rest ∧ digits ≠ [] ∧ (∀ b ∈ digits, isDigit b = true) ∧
      ∀ b, rest.head? = some b → isDigit b = false := by
  unfold JsonText.readDigits at h
  split at h
  · cases h
  · next hdigits =>
    cases h
    refine ⟨List.takeWhile_append_dropWhile.symm, hdigits, ?_, ?_⟩
    · exact fun b hb => List.mem_takeWhile_imp hb
    · intro b hb
      have hhead := List.head?_dropWhile_not isDigit text
      rw [hb] at hhead
      simpa using hhead

/-- Digits end where something else follows them. -/
theorem takeWhile_digits (hdigits : ∀ b ∈ digits, isDigit b = true)
    (hrest : ∀ b, rest.head? = some b → isDigit b = false) (h : Follows rest' rest) :
    (digits ++ rest').takeWhile isDigit = digits ∧ (digits ++ rest').dropWhile isDigit = rest' := by
  have hrest' : rest'.takeWhile isDigit = [] ∧ rest'.dropWhile isDigit = rest' := by
    cases rest' with
    | nil => exact ⟨rfl, rfl⟩
    | cons c rest' =>
      have hc : ¬isDigit c = true := by
        obtain h | h := h
        · cases h
        · simp [hrest c h.symm]
      exact ⟨List.takeWhile_cons_of_neg hc, List.dropWhile_cons_of_neg hc⟩
  rw [List.takeWhile_append_of_pos hdigits, List.dropWhile_append_of_pos hdigits, hrest'.1,
    hrest'.2]
  exact ⟨List.append_nil digits, rfl⟩

theorem readDigits_append (hdigits : ∀ b ∈ digits, isDigit b = true)
    (hrest : ∀ b, rest.head? = some b → isDigit b = false) (h : Follows rest' rest) :
    CString.readDigits (digits ++ rest') = CString.readDigits digits := by
  have hself : digits.takeWhile isDigit = digits := List.takeWhile_eq_self_iff.mpr hdigits
  rw [CString.readDigits, CString.readDigits, (takeWhile_digits hdigits hrest h).1, hself]

theorem isNumberChar_of_isDigit (h : isDigit b = true) : isNumberChar b = true := by
  simp [isNumberChar, h]

theorem scanSign_digit (h : isDigit c = true) : Numeral.scanSign (c :: text) = (false, c :: text) := by
  have hminus : c ≠ byte '-' := by
    rintro rfl
    exact absurd h (by decide)
  have hplus : c ≠ byte '+' := by
    rintro rfl
    exact absurd h (by decide)
  rw [Numeral.scanSign, if_neg hminus, if_neg hplus]

end Digits

/-- The part of a number that `scanner` finds where the grammar reads `part`. -/
def Scans {α : Type} (scanner : Bytes → α × Bytes) (text part rest : Bytes) : Prop :=
  text = part ++ rest ∧ (∀ b ∈ part, isNumberChar b = true) ∧
    ∃ value, ∀ rest', Follows rest' rest → scanner (part ++ rest') = (value, rest')

variable {part : Bytes}

theorem readPart_cases {marks : List UInt8} {read : Bytes → Option (Bytes × Bytes)}
    (h : readPart marks read text = some (part, rest)) :
    (∃ c text' digits, text = c :: text' ∧ c ∈ marks ∧ read text' = some (digits, rest) ∧
      part = c :: digits) ∨
    (part = [] ∧ rest = text ∧ ∀ c, text.head? = some c → c ∉ marks) := by
  unfold readPart at h
  split at h
  · next c text =>
    split at h
    · next hc =>
      obtain ⟨⟨digits, rest₁⟩, hdigits, h⟩ := Option.bind_eq_some_iff.mp h
      cases h
      exact .inl ⟨c, text, digits, rfl, hc, hdigits, rfl⟩
    · next hc =>
      cases h
      exact .inr ⟨rfl, rfl, fun c' hc' => Option.some.inj hc' ▸ hc⟩
  · cases h
    exact .inr ⟨rfl, rfl, fun c hc => by cases hc⟩

/-- A part that is not there is not found in a shorter text either. -/
theorem scans_nil {α : Type} {scanner : Bytes → α × Bytes} {marks : List UInt8} (value : α)
    (habsent : ∀ text, (∀ c, text.head? = some c → c ∉ marks) → scanner text = (value, text))
    (h : ∀ c, text.head? = some c → c ∉ marks) : Scans scanner text [] text := by
  refine ⟨rfl, fun b hb => absurd hb List.not_mem_nil, value, fun rest' hfollows => ?_⟩
  refine habsent rest' fun c hc => ?_
  obtain rfl | hhead := hfollows
  · cases hc
  · exact h c (hhead ▸ hc)

theorem scans_fraction (h : readPart [byte '.'] JsonText.readDigits text = some (part, rest)) :
    Scans Numeral.scanFraction text part rest := by
  obtain ⟨c, text, digits, rfl, hc, hdigits, rfl⟩ | ⟨rfl, rfl, habsent⟩ := readPart_cases h
  · obtain rfl : c = byte '.' := List.mem_singleton.mp hc
    obtain ⟨rfl, -, hall, hend⟩ := readDigits_some hdigits
    refine ⟨rfl, ?_, digits, fun rest' hfollows => ?_⟩
    · intro b hb
      obtain rfl | hb := List.mem_cons.mp hb
      · decide
      · exact isNumberChar_of_isDigit (hall b hb)
    · obtain ⟨htake, hdrop⟩ := takeWhile_digits hall hend hfollows
      rw [List.cons_append, Numeral.scanFraction, if_pos rfl, htake, hdrop]
  · refine scans_nil [] (fun text habsent => ?_) habsent
    cases text with
    | nil => rfl
    | cons c text => exact if_neg fun hc => habsent c rfl (List.mem_singleton.mpr hc)

/-- The exponent behind its letter, with an optional sign. -/
theorem readExponent_some (h : readExponent text = some (part, rest)) :
    ∃ sign digits, part = sign ++ digits ∧ text = part ++ rest ∧
      (∀ b ∈ part, isNumberChar b = true) ∧ digits ≠ [] ∧ (∀ b ∈ digits, isDigit b = true) ∧
      (∀ b, rest.head? = some b → isDigit b = false) ∧
      ∃ negative, ∀ rest', Numeral.scanSign (part ++ rest') = (negative, digits ++ rest') := by
  cases text with
  | nil => cases h
  | cons c text =>
    rw [readExponent] at h
    split at h
    · next hc =>
      obtain ⟨⟨digits, rest₁⟩, hdigits, h⟩ := Option.bind_eq_some_iff.mp h
      cases h
      obtain ⟨rfl, hne, hall, hend⟩ := readDigits_some hdigits
      have hchars : ∀ b ∈ c :: digits, isNumberChar b = true := by
        intro b hb
        obtain rfl | hb := List.mem_cons.mp hb
        · obtain rfl | rfl := hc <;> decide
        · exact isNumberChar_of_isDigit (hall b hb)
      refine ⟨[c], digits, rfl, rfl, hchars, hne, hall, hend, ?_⟩
      obtain rfl | rfl := hc
      · exact ⟨false, fun rest' => rfl⟩
      · exact ⟨true, fun rest' => rfl⟩
    · obtain ⟨htext, hne, hall, hend⟩ := readDigits_some h
      refine ⟨[], part, rfl, htext, fun b hb => isNumberChar_of_isDigit (hall b hb), hne, hall,
        hend, false, fun rest' => ?_⟩
      obtain ⟨d, digits, rfl⟩ := List.exists_cons_of_ne_nil hne
      exact scanSign_digit (hall d List.mem_cons_self)

theorem scans_exponent (h : readPart [byte 'e', byte 'E'] readExponent text = some (part, rest)) :
    Scans Numeral.scanExponent text part rest := by
  obtain ⟨c, text, part, rfl, hc, hexponent, rfl⟩ | ⟨rfl, rfl, habsent⟩ := readPart_cases h
  · have hletter : c = byte 'e' ∨ c = byte 'E' := by simpa using hc
    obtain ⟨sign, digits, -, rfl, hchars, hne, hall, hend, negative, hsign⟩ :=
      readExponent_some hexponent
    refine ⟨rfl, ?_, if negative then -(CString.readDigits digits : Int)
      else CString.readDigits digits, fun rest' hfollows => ?_⟩
    · intro b hb
      obtain rfl | hb := List.mem_cons.mp hb
      · obtain rfl | rfl := hletter <;> decide
      · exact hchars b hb
    · obtain ⟨htake, hdrop⟩ := takeWhile_digits hall hend hfollows
      rw [List.cons_append, Numeral.scanExponent, if_pos hletter]
      simp only [hsign, htake, hdrop, hne, if_false, readDigits_append hall hend hfollows]
  · refine scans_nil 0 (fun text habsent => ?_) habsent
    cases text with
    | nil => rfl
    | cons c text => exact if_neg fun hc => habsent c rfl (by simpa using hc)

/-- An unsigned number is scanned as a whole, whatever else follows it. -/
theorem scan_of_readUnsigned (h : readUnsigned text = some (part, rest)) :
    text = part ++ rest ∧ (∀ b ∈ part, isNumberChar b = true) ∧
      (∃ d digits, part = d :: digits ∧ isDigit d = true) ∧
      ∃ value, ∀ rest', Follows rest' rest →
        Numeral.scanUnsigned (part ++ rest') = some (value, rest') := by
  obtain ⟨⟨whole, rest₁⟩, hwhole, h⟩ := Option.bind_eq_some_iff.mp h
  dsimp only at h
  split at h
  · cases h
  · obtain ⟨⟨fraction, rest₂⟩, hfraction, h⟩ := Option.bind_eq_some_iff.mp h
    obtain ⟨⟨exponent, rest₃⟩, hexponent, h⟩ := Option.bind_eq_some_iff.mp h
    obtain ⟨rfl, rfl⟩ := Prod.mk.inj (Option.some.inj h)
    obtain ⟨rfl, hne, hall, hend⟩ := readDigits_some hwhole
    obtain ⟨rfl, hchars₁, digits, hscan₁⟩ := scans_fraction hfraction
    obtain ⟨rfl, hchars₂, exponentValue, hscan₂⟩ := scans_exponent hexponent
    refine ⟨by simp, ?_, ?_, ?_⟩
    · intro b hb
      rw [List.mem_append, List.mem_append] at hb
      obtain (hb | hb) | hb := hb
      · exact isNumberChar_of_isDigit (hall b hb)
      · exact hchars₁ b hb
      · exact hchars₂ b hb
    · obtain ⟨d, whole, rfl⟩ := List.exists_cons_of_ne_nil hne
      exact ⟨d, _, rfl, hall d List.mem_cons_self⟩
    · refine ⟨CString.readDigits (whole ++ digits) * (10 : ℚ) ^ (exponentValue - digits.length),
        fun rest' hfollows => ?_⟩
      have hfollows₂ : Follows (exponent ++ rest') (exponent ++ rest₃) := hfollows.append
      have hfollows₁ : Follows (fraction ++ (exponent ++ rest')) (fraction ++ (exponent ++ rest₃)) :=
        hfollows₂.append
      obtain ⟨htake, hdrop⟩ := takeWhile_digits hall hend hfollows₁
      have hnonempty : whole ++ digits ≠ [] := fun hnil => hne (List.append_eq_nil_iff.mp hnil).1
      rw [Numeral.scanUnsigned, List.append_assoc, List.append_assoc]
      simp only [htake, hdrop, hscan₁ _ hfollows₂, hscan₂ _ hfollows, hnonempty, if_false]

theorem scan_of_readNumber (h : readNumber text = some (part, rest)) :
    text = part ++ rest ∧ (∀ b ∈ part, isNumberChar b = true) ∧
      (∃ c digits, part = c :: digits ∧ (c = byte '-' ∨ isDigit c = true)) ∧
      ∃ value, ∀ rest', Follows rest' rest → Numeral.scan (part ++ rest') = some (value, rest') := by
  unfold readNumber at h
  split at h
  · next c text =>
    split at h
    · next hc =>
      subst hc
      obtain ⟨⟨number, rest₁⟩, hnumber, h⟩ := Option.bind_eq_some_iff.mp h
      obtain ⟨rfl, rfl⟩ := Prod.mk.inj (Option.some.inj h)
      obtain ⟨rfl, hchars, -, value, hscan⟩ := scan_of_readUnsigned hnumber
      refine ⟨rfl, ?_, ⟨_, _, rfl, .inl rfl⟩, -value, fun rest' hfollows => ?_⟩
      · intro b hb
        obtain rfl | hb := List.mem_cons.mp hb
        · decide
        · exact hchars b hb
      · have hsign : Numeral.scanSign (byte '-' :: (number ++ rest')) = (true, number ++ rest') := by
          rw [Numeral.scanSign, if_pos rfl]
        rw [List.cons_append, Numeral.scan]
        simp only [hsign, hscan rest' hfollows, Option.map_some, if_true]
    · obtain ⟨htext, hchars, ⟨d, digits, rfl, hd⟩, value, hscan⟩ := scan_of_readUnsigned h
      refine ⟨htext, hchars, ⟨d, digits, rfl, .inr hd⟩, value, fun rest' hfollows => ?_⟩
      have hsign : Numeral.scanSign (d :: digits ++ rest') = (false, d :: digits ++ rest') :=
        scanSign_digit hd
      rw [Numeral.scan]
      simp only [hsign, hscan rest' hfollows, Option.map_some]
      rfl
  · cases h

/-- The `int` that a number is cut to. -/
def numberInt (number : Bytes) : Int :=
  match Numeral.strtod number with
  | some (x, _) => Numeral.toInt x
  | none => 0

/-- A number of the grammar is passed as a whole. -/
theorem parseNumber_of_readNumber (h : readNumber text = some (part, rest)) :
    parseNumber text = some (numberInt part, rest) := by
  obtain ⟨rfl, hchars, -, value, hscan⟩ := scan_of_readNumber h
  have hself : Numeral.scan part = some (value, []) := by
    have hnil := hscan [] (.inl rfl)
    rwa [List.append_nil] at hnil
  have hint : numberInt part = Numeral.toInt (Numeral.nearestDouble value) := by
    simp only [numberInt, Numeral.strtod, hself, Option.map_some]
  rw [parseNumber, List.takeWhile_append_of_pos hchars, Numeral.strtod,
    hscan _ follows_takeWhile, Option.map_some, Option.map_some, hint]
  dsimp only
  rw [List.length_append, Nat.add_sub_cancel, List.drop_left]

end CJson

end Xiaozhi
