-- SUMMARY: The parse buffer of cJSON: a terminated text that is read by its offset, with every read in bounds.
import Mathlib
import Xiaozhi.Data.Checked
import Xiaozhi.Protocol.Parsing

/-!
# The parse buffer

`parse_buffer` of `cJSON.c` and the functions that only read it. Every read is
checked against the length of the content, the NUL included. `Ahead` relates an
offset to the text that the parser on texts has left. A loop is a function of the
offset where it stands.
-/

namespace Xiaozhi

namespace CJson

open CString Checked

/-- `parse_buffer`; its content and length do not change. -/
structure ParseBuffer where
  offset : Nat
  depth : Nat

namespace ParseBuffer

abbrev Reader : Type → Type := Checked ParseBuffer

variable (content : Bytes)

/-! ## Reading -/

/-- `can_access_at_index`. -/
def canAccessAtIndex (index : Nat) : Reader Bool := do
  let buffer ← get
  return buffer.offset + index < content.length

/-- `content[position]`. -/
def readByte (position : Nat) : Reader UInt8 :=
  match content[position]? with
  | some c => return c
  | none => Checked.undefined

/-- `buffer_at_offset(buffer)[index]`. -/
def readAt (index : Nat) : Reader UInt8 := do
  let buffer ← get
  readByte content (buffer.offset + index)

/-- `can_access_at_index(buffer, 0) && buffer_at_offset(buffer)[0] == c`. -/
def isAt (c : UInt8) : Reader Bool := do
  if ← canAccessAtIndex content 0 then
    let d ← readAt content 0
    return d = c
  else
    return false

/-- `can_access_at_index(buffer, 0)`, and there is a minus sign or a digit. -/
def isAtNumber : Reader Bool := do
  if ← canAccessAtIndex content 0 then
    let c ← readAt content 0
    return c = byte '-' ∨ isDigit c
  else
    return false

/-- `content[start]` to `content[stop - 1]`. -/
def readRange (start stop : Nat) : Reader Bytes :=
  if stop ≤ content.length then return (content.drop start).take (stop - start)
  else Checked.undefined

/-- `can_read(buffer, n) && strncmp(buffer_at_offset(buffer), word, n) == 0`. -/
def startsWith (word : Bytes) : Reader Bool := do
  let buffer ← get
  if buffer.offset + word.length ≤ content.length then
    let text ← readRange content buffer.offset (buffer.offset + word.length)
    return text = word
  else
    return false

/-- `offset += n`. -/
def advance (n : Nat) : Reader Unit :=
  modify fun buffer => { buffer with offset := buffer.offset + n }

/-- `offset--`. -/
def stepBack : Reader Unit := do
  let buffer ← get
  if buffer.offset = 0 then Checked.undefined
  else set { buffer with offset := buffer.offset - 1 }

/-- The loop of `buffer_skip_whitespace`, from `offset` on: where it ends. -/
def skipSpaces (offset : Nat) : Reader Nat := do
  if offset < content.length then
    let c ← readByte content offset
    if c ≤ 32 then
      skipSpaces (offset + 1)
    else
      return offset
  else
    return offset
termination_by content.length - offset

/-- `buffer_skip_whitespace`. -/
def skipWhitespace : Reader Unit := do
  if ← canAccessAtIndex content 0 then
    let buffer ← get
    let offset ← skipSpaces content buffer.offset
    set { buffer with offset := offset }
    if offset = content.length then
      stepBack

/-- `skip_utf8_bom`. -/
def skipUtf8Bom : Reader Unit := do
  let buffer ← get
  if buffer.offset = 0 then
    if ← canAccessAtIndex content 4 then
      let text ← readRange content 0 3
      if text = [0xEF, 0xBB, 0xBF] then
        advance 3

/-- The first loop of `parse_string`, from `input_end` on: where the closing quote
    is, and `skipped_bytes`. -/
def scanString (inputEnd skippedBytes : Nat) : Reader (Option (Nat × Nat)) := do
  if inputEnd < content.length then
    let c ← readByte content inputEnd
    if c = byte '"' then
      return some (inputEnd, skippedBytes)
    else if c = byte '\\' then
      if inputEnd + 1 ≥ content.length then
        return none
      else
        scanString (inputEnd + 2) (skippedBytes + 1)
    else
      scanString (inputEnd + 1) skippedBytes
  else
    return none
termination_by content.length - inputEnd

/-- The first loop of `parse_number`, from `i` on: the number of characters. -/
def numberLength (i : Nat) : Reader Nat := do
  let buffer ← get
  if buffer.offset + i < content.length then
    let c ← readByte content (buffer.offset + i)
    if isNumberChar c then
      numberLength (i + 1)
    else
      return i
  else
    return i
termination_by content.length - i

/-! ## What is ahead -/

/-- The text from an offset to the NUL. -/
def Ahead (offset : Nat) (text : Bytes) : Prop := content.drop offset = text ++ [0]

variable {content} {offset : Nat} {text rest word : Bytes} {c : UInt8} {b : ParseBuffer}

namespace Ahead

theorem length_eq (h : Ahead content offset text) : content.length = offset + text.length + 1 := by
  have hlength := congrArg List.length h
  simp only [List.length_drop, List.length_append, List.length_singleton] at hlength
  omega

theorem lt_length (h : Ahead content offset text) : offset < content.length := by
  rw [h.length_eq]
  omega

theorem getElem?_eq (h : Ahead content offset text) (i : Nat) :
    content[offset + i]? = (text ++ [0])[i]? := by
  rw [← h, List.getElem?_drop]

/-- Behind a part of the text. -/
theorem append (h : Ahead content offset (word ++ rest)) :
    Ahead content (offset + word.length) rest := by
  rw [Ahead, ← List.drop_drop, h, List.append_assoc, List.drop_left]

theorem tail (h : Ahead content offset (c :: rest)) : Ahead content (offset + 1) rest := by
  have hcons : Ahead content offset ([c] ++ rest) := h
  exact hcons.append

theorem drop (h : Ahead content offset text) {n : Nat} (hn : n ≤ text.length) :
    Ahead content (offset + n) (text.drop n) := by
  have hsplit : Ahead content offset (text.take n ++ text.drop n) := by
    rwa [List.take_append_drop]
  have hrest := hsplit.append
  rwa [List.length_take_of_le hn] at hrest

/-- The character in front. -/
theorem exists_cons (h : Ahead content offset text) (hpos : 0 < offset) :
    ∃ c, Ahead content (offset - 1) (c :: text) := by
  have hin : offset - 1 < content.length := by
    rw [h.length_eq]
    omega
  refine ⟨content[offset - 1], ?_⟩
  rw [Ahead, List.drop_eq_getElem_cons hin, Nat.sub_add_cancel hpos, h, List.cons_append]

theorem take (h : Ahead content offset (word ++ rest)) :
    (content.drop offset).take word.length = word := by
  rw [h, List.append_assoc, List.take_left]

end Ahead

/-! ## What the functions do -/

section Rules

variable {α : Type} {i : Nat}

theorem canAccessAtIndex_wp {Q : Bool → ParseBuffer → Prop} (h : Ahead content b.offset text)
    (hQ : Q (i ≤ text.length) b) : (canAccessAtIndex content i).wp Q b := by
  have hiff : b.offset + i < content.length ↔ i ≤ text.length := by
    rw [h.length_eq]
    omega
  simpa only [canAccessAtIndex, wp_bind, wp_get, wp_pure, hiff] using hQ

theorem readByte_wp {Q : UInt8 → ParseBuffer → Prop} (h : content[i]? = some c) (hQ : Q c b) :
    (readByte content i).wp Q b := by
  simpa only [readByte, h, wp_pure] using hQ

theorem readAt_wp {Q : UInt8 → ParseBuffer → Prop} (h : Ahead content b.offset text)
    (hc : (text ++ [0])[i]? = some c) (hQ : Q c b) : (readAt content i).wp Q b := by
  simp only [readAt, wp_bind, wp_get]
  exact readByte_wp ((h.getElem?_eq i).trans hc) hQ

theorem isAt_wp {Q : Bool → ParseBuffer → Prop} (h : Ahead content b.offset text) (hc : c ≠ 0)
    (hQ : Q (text.head? = some c) b) : (isAt content c).wp Q b := by
  rw [isAt, wp_bind]
  refine canAccessAtIndex_wp h ?_
  rw [decide_eq_true (Nat.zero_le _), if_pos rfl, wp_bind]
  cases text with
  | nil =>
    refine readAt_wp h rfl (wp_pure.mpr ?_)
    rwa [decide_eq_false hc.symm]
  | cons d rest =>
    refine readAt_wp h rfl (wp_pure.mpr ?_)
    simpa using hQ

theorem isAtNumber_wp {Q : Bool → ParseBuffer → Prop} (h : Ahead content b.offset text)
    (hQ : Q (text.head?.any fun c => c = byte '-' ∨ isDigit c) b) : (isAtNumber content).wp Q b := by
  rw [isAtNumber, wp_bind]
  refine canAccessAtIndex_wp h ?_
  rw [decide_eq_true (Nat.zero_le _), if_pos rfl, wp_bind]
  cases text with
  | nil => exact readAt_wp h rfl (wp_pure.mpr hQ)
  | cons c rest => exact readAt_wp h rfl (wp_pure.mpr hQ)

theorem readRange_wp {Q : Bytes → ParseBuffer → Prop} {start : Nat}
    (h : Ahead content start (word ++ rest)) (hQ : Q word b) :
    (readRange content start (start + word.length)).wp Q b := by
  have hstop : start + word.length ≤ content.length := by
    rw [h.length_eq, List.length_append]
    omega
  rw [readRange, if_pos hstop, Nat.add_sub_cancel_left, h.take, wp_pure]
  exact hQ

theorem startsWith_wp {Q : Bool → ParseBuffer → Prop} (h : Ahead content b.offset text)
    (hword : 0 ∉ word) (hQ : Q (word <+: text) b) : (startsWith content word).wp Q b := by
  have hiff : (content.drop b.offset).take word.length = word ↔ word <+: text := by
    rw [h, ← List.prefix_iff_eq_take.trans eq_comm, List.prefix_concat_iff]
    exact or_iff_right fun heq => hword (heq ▸ List.mem_append_right _ List.mem_cons_self)
  simp only [startsWith, wp_bind, wp_get]
  split
  · next hfits =>
    rw [readRange, if_pos hfits, wp_bind, wp_pure, wp_pure, Nat.add_sub_cancel_left]
    simpa only [hiff] using hQ
  · next hfits =>
    have hnot : ¬word <+: text := by
      intro hprefix
      have hlength := hprefix.length_le
      rw [h.length_eq] at hfits
      omega
    rw [wp_pure]
    rwa [decide_eq_false hnot] at hQ

end Rules

theorem stepBack_wp {Q : Unit → ParseBuffer → Prop} (hpos : 0 < b.offset)
    (hQ : Q ⟨⟩ ⟨b.offset - 1, b.depth⟩) : stepBack.wp Q b := by
  simp only [stepBack, wp_bind, wp_get, if_neg hpos.ne', wp_set]
  exact hQ

theorem skipSpaces_wp {offset : Nat} (h : Ahead content offset text) :
    (skipSpaces content offset).wp (fun stop b' => b' = b ∧
      (stop = content.length ∧ CJson.skipWhitespace text = [] ∨
        Ahead content stop (CJson.skipWhitespace text) ∧ CJson.skipWhitespace text ≠ [])) b := by
  induction text generalizing offset with
  | nil =>
    have hend : ¬offset + 1 < content.length := by
      rw [h.length_eq]
      exact Nat.lt_irrefl _
    rw [skipSpaces, if_pos h.lt_length, wp_bind]
    refine readByte_wp (h.getElem?_eq 0) ?_
    -- the NUL is passed, and nothing is left
    rw [if_pos (by decide), skipSpaces, if_neg hend, wp_pure]
    exact ⟨rfl, .inl ⟨h.length_eq.symm, rfl⟩⟩
  | cons c rest ih =>
    rw [skipSpaces, if_pos h.lt_length, wp_bind]
    refine readByte_wp (h.getElem?_eq 0) ?_
    split
    · next hspace =>
      have hskip : CJson.skipWhitespace (c :: rest) = CJson.skipWhitespace rest :=
        List.dropWhile_cons_of_pos (decide_eq_true hspace)
      rw [hskip]
      exact ih h.tail
    · next hspace =>
      have hskip : CJson.skipWhitespace (c :: rest) = c :: rest :=
        List.dropWhile_cons_of_neg (by simpa using hspace)
      rw [hskip, wp_pure]
      exact ⟨rfl, .inr ⟨h, List.cons_ne_nil _ _⟩⟩

theorem skipWhitespace_wp (h : Ahead content b.offset text) :
    (skipWhitespace content).wp (fun _ b' => b'.depth = b.depth ∧
      Ahead content b'.offset (CJson.skipWhitespace text)) b := by
  rw [skipWhitespace, wp_bind]
  refine canAccessAtIndex_wp h ?_
  rw [decide_eq_true (Nat.zero_le _), if_pos rfl, wp_bind, wp_get]
  refine (skipSpaces_wp h).bind fun stop b' hskipped => ?_
  obtain ⟨rfl, ⟨hend, hnil⟩ | ⟨hahead, hne⟩⟩ := hskipped
  · have hpos : 0 < stop := by
      rw [hend, h.length_eq]
      exact Nat.succ_pos _
    rw [wp_bind, wp_set, if_pos hend]
    refine stepBack_wp hpos ⟨rfl, ?_⟩
    -- back on the NUL
    have hlast : stop - 1 = b'.offset + text.length := by
      rw [hend, h.length_eq]
      rfl
    rw [hnil, hlast, ← List.drop_length (l := text)]
    exact h.drop le_rfl
  · have hne : stop ≠ content.length := by
      rw [hahead.length_eq]
      omega
    rw [wp_bind, wp_set, if_neg hne, wp_pure]
    exact ⟨rfl, hahead⟩

/-- A scan from behind `word` on, which skips `k` bytes more. -/
theorem map_scanned (word : Bytes) (k : Nat) {inputEnd skippedBytes : Nat}
    (scan : Option (Bytes × Nat × Bytes)) :
    (scan.map fun s => (inputEnd + word.length + s.1.length, skippedBytes + k + s.2.1)) =
      (scan.map fun s => (word ++ s.1, s.2.1 + k, s.2.2)).map fun s =>
        (inputEnd + s.1.length, skippedBytes + s.2.1) := by
  rw [Option.map_map]
  congr 1
  funext s
  simp only [Function.comp_apply, List.length_append, Prod.mk.injEq]
  omega

theorem scanString_wp {inputEnd skippedBytes : Nat} (h : Ahead content inputEnd text) :
    (scanString content inputEnd skippedBytes).wp (fun r b' => b' = b ∧
      r = (CJson.scanString text).map fun s => (inputEnd + s.1.length, skippedBytes + s.2.1)) b := by
  induction hlength : text.length using Nat.strong_induction_on generalizing text inputEnd skippedBytes with
  | _ n ih =>
    subst hlength
    rw [scanString, if_pos h.lt_length, wp_bind]
    cases text with
    | nil =>
      refine readByte_wp (h.getElem?_eq 0) ?_
      have hquote : (0 : UInt8) ≠ byte '"' := by decide
      have hbackslash : (0 : UInt8) ≠ byte '\\' := by decide
      rw [if_neg hquote, if_neg hbackslash, scanString, if_neg, wp_pure]
      · exact ⟨rfl, rfl⟩
      · rw [h.length_eq]
        simp
    | cons c rest =>
      refine readByte_wp (h.getElem?_eq 0) ?_
      rw [CJson.scanString.eq_def]
      dsimp only [List.cons_append, List.getElem_cons_zero]
      split
      · next hquote =>
        rw [wp_pure]
        exact ⟨rfl, rfl⟩
      · split
        · next hbackslash =>
          have hin' : ¬inputEnd + 1 ≥ content.length := by
            rw [h.length_eq, List.length_cons]
            omega
          rw [if_neg hin']
          cases rest with
          | nil =>
            -- the NUL is taken with the backslash
            have hend : ¬inputEnd + 2 < content.length := by
              rw [h.length_eq]
              simp
            rw [scanString, if_neg hend, wp_pure]
            exact ⟨rfl, rfl⟩
          | cons d rest =>
            have hrest : Ahead content (inputEnd + 2) rest := h.tail.tail
            refine (ih _ (by simp only [List.length_cons]; omega) hrest rfl).mono fun r b' hr => ?_
            obtain ⟨rfl, rfl⟩ := hr
            exact ⟨rfl, map_scanned [c, d] 1 _⟩
        · refine (ih _ (by simp) h.tail rfl).mono fun r b' hr => ?_
          obtain ⟨rfl, rfl⟩ := hr
          exact ⟨rfl, map_scanned [c] 0 _⟩

theorem numberLength_wp {i : Nat} (h : Ahead content (b.offset + i) text) :
    (numberLength content i).wp (fun n b' => b' = b ∧
      n = i + (text.takeWhile isNumberChar).length) b := by
  induction text generalizing i with
  | nil =>
    rw [numberLength, wp_bind, wp_get, if_pos h.lt_length, wp_bind]
    refine readByte_wp (h.getElem?_eq 0) ?_
    rw [if_neg (by decide), wp_pure]
    exact ⟨rfl, rfl⟩
  | cons c rest ih =>
    rw [numberLength, wp_bind, wp_get, if_pos h.lt_length, wp_bind]
    refine readByte_wp (h.getElem?_eq 0) ?_
    split
    · next hc =>
      refine (ih h.tail).mono fun n b' hn => ?_
      obtain ⟨rfl, rfl⟩ := hn
      refine ⟨rfl, ?_⟩
      rw [List.takeWhile_cons_of_pos hc, List.length_cons]
      omega
    · next hc =>
      rw [wp_pure, List.takeWhile_cons_of_neg hc]
      exact ⟨rfl, rfl⟩

theorem skipUtf8Bom_wp (h : Ahead content 0 text) (hb : b.offset = 0) :
    (skipUtf8Bom content).wp (fun _ b' => b'.depth = b.depth ∧
      Ahead content b'.offset (CJson.skipUtf8Bom text)) b := by
  have hstart : Ahead content b.offset text := hb ▸ h
  simp only [skipUtf8Bom, wp_bind, wp_get, if_pos hb]
  refine canAccessAtIndex_wp hstart ?_
  rw [CJson.skipUtf8Bom]
  split
  · next hlength =>
    rw [decide_eq_true_eq] at hlength
    have hsplit : Ahead content 0 (text.take 3 ++ text.drop 3) := by
      rwa [List.take_append_drop]
    have htake : (text.take 3).length = 3 := List.length_take_of_le (by omega)
    have hiff : text.take 3 = [0xEF, 0xBB, 0xBF] ↔ [0xEF, 0xBB, 0xBF] <+: text :=
      eq_comm.trans List.prefix_iff_eq_take.symm
    have hread : (readRange content 0 (0 + (text.take 3).length)).wp
        (fun s b' => s = text.take 3 ∧ b' = b) b := readRange_wp hsplit ⟨rfl, rfl⟩
    rw [htake, Nat.zero_add] at hread
    refine hread.bind fun s b' hs => ?_
    obtain ⟨rfl, rfl⟩ := hs
    simp only [hiff, hlength, true_and]
    split
    · rw [advance, wp_modify]
      exact ⟨rfl, hstart.drop (by omega)⟩
    · rw [wp_pure]
      exact ⟨rfl, hstart⟩
  · next hlength =>
    rw [decide_eq_true_eq] at hlength
    rw [if_neg fun h => hlength h.1, wp_pure]
    exact ⟨rfl, hstart⟩

end ParseBuffer

end CJson

end Xiaozhi
