-- SUMMARY: A text that was cut off is parsed to what the whole text is parsed to, or not at all.
import Xiaozhi.Protocol.Messages
import Xiaozhi.Protocol.Parsing

/-!
# Cutting

The main loop sees a message as far as it fits an event, cut off like a C string.
cJSON does not look behind the value that it finds, and it does not find one
before its last character: so what it returns for the part, it returns for the
whole. The exception is a number that the cut shortens, which is no message.
-/

namespace Xiaozhi

namespace CJson

open CString

variable {c : UInt8} {n level skipped : Nat} {s text input rest more : Bytes} {value : Json}
  {items : List Json} {members : List (Bytes × Json)}

/-! ## Tokens -/

/-- White space ends where something else comes. -/
theorem skipWhitespace_append (more : Bytes) (h : skipWhitespace text ≠ []) :
    skipWhitespace (text ++ more) = skipWhitespace text ++ more := by
  rw [skipWhitespace] at h
  rw [skipWhitespace, List.dropWhile_append, if_neg]
  · rfl
  · rwa [List.isEmpty_iff]

theorem skipWhitespace_append_cons (more : Bytes) (h : skipWhitespace text = c :: rest) :
    skipWhitespace (text ++ more) = c :: (rest ++ more) := by
  rw [skipWhitespace_append more (h ▸ List.cons_ne_nil _ _), h, List.cons_append]

theorem Scanned.append (h : Scanned text input skipped rest) :
    Scanned (text ++ more) input skipped (rest ++ more) := by
  induction h with
  | close => exact .close
  | escape _ ih => exact .escape ih
  | char hquote hbackslash _ ih => exact .char hquote hbackslash ih

theorem parseString_append (h : parseString text = some (s, rest)) :
    parseString (text ++ more) = some (s, rest ++ more) := by
  obtain ⟨tail, input, skipped, output, rfl, hscan, hdecode, rfl⟩ := exists_of_parseString h
  rw [List.cons_append, parseString, if_neg (not_not_intro rfl), hscan.append.scanString]
  simp only [Option.bind_eq_bind, Option.bind_some]
  rw [hdecode]
  rfl

/-- What follows the value shows that a number is complete. -/
def Ended (rest : Bytes) : Prop := ∃ c tail, rest = c :: tail ∧ isNumberChar c = false

theorem ended_of_skipWhitespace {d : UInt8} (h : skipWhitespace text = d :: rest)
    (hd : isNumberChar d = false) : Ended text := by
  cases text with
  | nil => cases h
  | cons c text =>
    refine ⟨c, text, rfl, ?_⟩
    by_cases hspace : c ≤ 32
    · -- white space comes before all characters of a number
      rw [← Bool.not_eq_true]
      intro hc
      simp only [isNumberChar, Bool.or_eq_true, decide_eq_true_eq] at hc
      obtain ((((hdigit | rfl) | rfl) | rfl) | rfl) | rfl := hc
      · obtain ⟨hmin, -⟩ := Numeral.isDigit_iff.mp hdigit
        have hle : c.toNat ≤ 32 := UInt8.le_iff_toNat_le.mp hspace
        omega
      all_goals exact absurd hspace (by decide)
    · rw [skipWhitespace, List.dropWhile_cons_of_neg (by simpa using hspace)] at h
      cases h
      exact hd

/-- A prefix of what passes a test is all of it, if what follows fails the test;
    and then more text changes nothing. -/
theorem takeWhile_append_of_drop {p : UInt8 → Bool} {k : Nat} (more : Bytes)
    (hk : k ≤ (text.takeWhile p).length) (hdrop : text.drop k = c :: rest) (hc : p c = false) :
    k = (text.takeWhile p).length ∧ (text ++ more).takeWhile p = text.takeWhile p := by
  induction text generalizing k with
  | nil =>
    rw [List.drop_nil] at hdrop
    cases hdrop
  | cons b text ih =>
    by_cases hb : p b = true
    · rw [List.takeWhile_cons_of_pos hb] at hk ⊢
      rw [List.cons_append, List.takeWhile_cons_of_pos hb]
      cases k with
      | zero =>
        obtain rfl : b = c := (List.cons.inj hdrop).1
        rw [hc] at hb
        cases hb
      | succ k =>
        obtain ⟨hlen, happend⟩ := ih (Nat.le_of_succ_le_succ hk) hdrop
        exact ⟨congrArg Nat.succ hlen, by rw [happend]⟩
    · rw [List.takeWhile_cons_of_neg hb] at hk ⊢
      rw [List.cons_append, List.takeWhile_cons_of_neg hb]
      exact ⟨Nat.le_zero.mp hk, rfl⟩

theorem parseNumber_append {n : Int} (h : parseNumber text = some (n, rest)) (hrest : Ended rest) :
    parseNumber (text ++ more) = some (n, rest ++ more) := by
  obtain ⟨⟨x, left⟩, hstrtod, heq⟩ := Option.map_eq_some_iff.mp h
  obtain ⟨rfl, rfl⟩ := Prod.mk.inj heq
  obtain ⟨c, tail, hdrop, hc⟩ := hrest
  obtain ⟨hlen, happend⟩ := takeWhile_append_of_drop more (Nat.sub_le _ _) hdrop hc
  have hle : (text.takeWhile isNumberChar).length ≤ text.length :=
    (List.takeWhile_sublist isNumberChar).length_le
  rw [parseNumber, happend, hstrtod, Option.map_some]
  dsimp only
  rw [List.drop_append_of_le_length ((Nat.sub_le _ _).trans hle)]

/-! ## Values -/

theorem ParsesItems.ne_nil (h : ParsesItems level text items rest) : text ≠ [] := by
  obtain ⟨c, tail, rfl, -⟩ := h.head
  exact List.cons_ne_nil _ _

theorem ParsesMembers.ne_nil (h : ParsesMembers level text members rest) : text ≠ [] := by
  obtain ⟨tail, rfl⟩ := h.head
  exact List.cons_ne_nil _ _

theorem Parses.ne_nil (h : Parses level text value rest) : text ≠ [] := by
  obtain ⟨c, tail, rfl, -⟩ := h.head
  exact List.cons_ne_nil _ _

mutual

/-- A value is found in a longer text as well, unless that completes a number. -/
theorem Parses.append {level : Nat} {text rest : Bytes} {value : Json} (more : Bytes)
    (h : Parses level text value rest) (hend : Ended rest ∨ ∀ n, value ≠ .number n) :
    Parses level (text ++ more) value (rest ++ more) := by
  cases h with
  | null =>
    rw [List.append_assoc]
    exact .null
  | false =>
    rw [List.append_assoc]
    exact .false
  | true =>
    rw [List.append_assoc]
    exact .true
  | string h => exact .string (parseString_append h)
  | number hc h =>
    obtain hrest | hno := hend
    · exact .number hc (parseNumber_append h hrest)
    · exact absurd rfl (hno _)
  | emptyArray hlevel hclose => exact .emptyArray hlevel (skipWhitespace_append_cons more hclose)
  | array hlevel h =>
    refine .array hlevel ?_
    exact skipWhitespace_append more h.ne_nil ▸ ParsesItems.append more h
  | emptyObject hlevel hclose => exact .emptyObject hlevel (skipWhitespace_append_cons more hclose)
  | object hlevel h =>
    refine .object hlevel ?_
    exact skipWhitespace_append more h.ne_nil ▸ ParsesMembers.append more h

theorem ParsesItems.append {level : Nat} {text rest : Bytes} {items : List Json} (more : Bytes)
    (h : ParsesItems level text items rest) :
    ParsesItems level (text ++ more) items (rest ++ more) := by
  cases h with
  | last h hclose =>
    refine .last ?_ (skipWhitespace_append_cons more hclose)
    exact Parses.append more h (.inl (ended_of_skipWhitespace hclose (by decide)))
  | cons h hcomma hitems =>
    refine .cons ?_ (skipWhitespace_append_cons more hcomma) ?_
    · exact Parses.append more h (.inl (ended_of_skipWhitespace hcomma (by decide)))
    · exact skipWhitespace_append more hitems.ne_nil ▸ ParsesItems.append more hitems

theorem ParsesMembers.append {level : Nat} {text rest : Bytes} {members : List (Bytes × Json)}
    (more : Bytes) (h : ParsesMembers level text members rest) :
    ParsesMembers level (text ++ more) members (rest ++ more) := by
  cases h with
  | last hname hcolon h hclose =>
    refine .last (parseString_append hname) (skipWhitespace_append_cons more hcolon) ?_
      (skipWhitespace_append_cons more hclose)
    exact skipWhitespace_append more h.ne_nil ▸
      Parses.append more h (.inl (ended_of_skipWhitespace hclose (by decide)))
  | cons hname hcolon h hcomma hmembers =>
    refine .cons (parseString_append hname) (skipWhitespace_append_cons more hcolon) ?_
      (skipWhitespace_append_cons more hcomma) ?_
    · exact skipWhitespace_append more h.ne_nil ▸
        Parses.append more h (.inl (ended_of_skipWhitespace hcomma (by decide)))
    · exact skipWhitespace_append more hmembers.ne_nil ▸ ParsesMembers.append more hmembers

end

/-! ## Documents -/

/-- A byte order mark is skipped in the part just if it is skipped in the whole. -/
theorem skipUtf8Bom_append (h : Parses level (skipWhitespace (skipUtf8Bom text)) value rest) :
    skipUtf8Bom (text ++ more) = skipUtf8Bom text ++ more := by
  by_cases hbom : text.length ≥ 4 ∧ [0xEF, 0xBB, 0xBF] <+: text
  · have hbom' : (text ++ more).length ≥ 4 ∧ [0xEF, 0xBB, 0xBF] <+: text ++ more := by
      rw [List.length_append]
      exact ⟨by omega, hbom.2.trans (List.prefix_append _ _)⟩
    rw [skipUtf8Bom, if_pos hbom', skipUtf8Bom, if_pos hbom, List.drop_append_of_le_length (by omega)]
  · -- no value starts with the first byte of the mark
    have hno : ¬((text ++ more).length ≥ 4 ∧ [0xEF, 0xBB, 0xBF] <+: text ++ more) := by
      rintro ⟨-, tail, htail⟩
      rw [skipUtf8Bom, if_neg hbom] at h
      obtain ⟨c, rest', hskip, -, hascii, -⟩ := h.head
      cases text with
      | nil => cases hskip
      | cons b text =>
        obtain rfl : 0xEF = b := (List.cons.inj htail).1
        rw [skipWhitespace, List.dropWhile_cons_of_neg (by decide)] at hskip
        obtain rfl : 0xEF = c := (List.cons.inj hskip).1
        exact absurd hascii (by decide)
    rw [skipUtf8Bom, if_neg hno, skipUtf8Bom, if_neg hbom]

/-- Where the part has a number, the whole has one too. -/
theorem exists_parses_number_append {m : Int} (more : Bytes) (h : Parses level text (.number m) rest) :
    ∃ n rest', Parses level (text ++ more) (.number n) rest' := by
  cases h with
  | @number _ c text _ _ hc h =>
    obtain ⟨r, hstrtod, -⟩ := Option.map_eq_some_iff.mp h
    obtain ⟨t, ht⟩ : (c :: text).takeWhile isNumberChar <+: (c :: text ++ more).takeWhile isNumberChar := by
      rw [List.takeWhile_append]
      split
      · exact (List.takeWhile_prefix _).trans (List.prefix_append _ _)
      · exact List.prefix_refl _
    obtain ⟨r', hr'⟩ := Numeral.exists_strtod_append t hstrtod
    rw [ht] at hr'
    refine ⟨_, _, .number hc (Option.map_eq_some_iff.mpr ⟨r', ?_, rfl⟩)⟩
    exact hr'

/-- What is parsed of a text that was cut off is parsed of the whole text, or both
    are numbers. -/
theorem cjsonParse_copy (h : cjsonParse (copy n text) = some value) :
    cjsonParse text = some value ∨
      ∃ m m', value = .number m ∧ cjsonParse text = some (.number m') := by
  obtain ⟨rest, hrules⟩ := cjsonParse_eq_some_iff.mp h
  rw [ofBytes_copy] at hrules
  obtain ⟨more, hmore⟩ : copy n text <+: ofBytes text := List.take_prefix _ _
  have hskip : skipWhitespace (skipUtf8Bom (ofBytes text)) =
      skipWhitespace (skipUtf8Bom (copy n text)) ++ more := by
    rw [← hmore, skipUtf8Bom_append hrules, skipWhitespace_append more hrules.ne_nil]
  by_cases hnumber : ∃ m, value = .number m
  · obtain ⟨m, rfl⟩ := hnumber
    obtain ⟨m', rest', hrules'⟩ := exists_parses_number_append more hrules
    rw [← hskip] at hrules'
    exact .inr ⟨m, m', rfl, cjsonParse_eq_some_iff.mpr ⟨rest', hrules'⟩⟩
  · have happend := hrules.append more (.inr fun m hm => hnumber ⟨m, hm⟩)
    rw [← hskip] at happend
    exact .inl (cjsonParse_eq_some_iff.mpr ⟨rest ++ more, happend⟩)

end CJson

namespace XiaozhiProtocol

open CString

variable {n : Nat} {text : Bytes} {event : XiaozhiIncomingEvent}

/-- An event that is read from a text that was cut off is the event of the whole text. -/
theorem parseIncomingJson_copy (h : parseIncomingJson CJson.cjsonParse (copy n text) = some event) :
    parseIncomingJson CJson.cjsonParse text = some event := by
  obtain ⟨root, hroot, rfl⟩ := Option.map_eq_some_iff.mp h
  obtain hwhole | ⟨m, m', rfl, hwhole⟩ := CJson.cjsonParse_copy hroot
  · rw [parseIncomingJson, hwhole, Option.map_some]
  · -- no member is looked up in a number
    rw [parseIncomingJson, hwhole, Option.map_some]
    rfl

/-- The message ends before the cut, and what follows it does not matter. -/
theorem parseIncomingJson_copy_tts :
    parseIncomingJson CJson.cjsonParse
        (ofString "\x7b\"type\":\"tts\",\"state\":\"stop\"\x7d, \x7b") =
      some { type := .ttsStop, sessionId := [], text := [], emotion := [], outputSampleRate := 0,
             outputChannels := 0 } := by
  have hpart : parseIncomingJson CJson.cjsonParse
      (copy 32 (ofString "\x7b\"type\":\"tts\",\"state\":\"stop\"\x7d, \x7b")) =
      some { type := .ttsStop, sessionId := [], text := [], emotion := [], outputSampleRate := 0,
             outputChannels := 0 } := by decide +kernel
  exact parseIncomingJson_copy hpart

end XiaozhiProtocol

end Xiaozhi
