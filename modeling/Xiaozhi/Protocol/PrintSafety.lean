-- SUMMARY: The printer of cJSON stays inside its buffer, frees what it allocates, and returns the text that printing means.
import Mathlib.Data.Nat.Digits.Defs
import Xiaozhi.Protocol.PrintBuffer
import Xiaozhi.Protocol.Printing

/-!
# Safety of the printer

What the buffer holds at each point of `print_value`: the text printed so far,
and where it ends. The bytes that `ensure` is asked for are enough for what is
written then, so no write goes outside; and a failure is due to the allocator, to
the size of the text, or to its nesting.
-/

namespace Xiaozhi

namespace CJson

open CString Json Checked

variable {heap : InternalHooks} {b c : UInt8} {d k needed : Nat} {out text block : Bytes}
  {s s' : PrintBuffer}

/-- The buffer starts with `out`, at nesting depth `d`. -/
structure Filled (d : Nat) (out : Bytes) (s : PrintBuffer) : Prop where
  block : ∃ block, s.buffer = some block ∧ block.length = s.length ∧ out <+: block
  size : s.length ≤ maxSize
  depth : s.depth = d
  blocks : s.blocks = 1

/-- The text so far is `out`, and the offset is behind it. -/
structure At (d : Nat) (out : Bytes) (s : PrintBuffer) : Prop extends Filled d out s where
  offset : s.offset = out.length
  room : out.length < s.length

/-- The text so far is `out`, with a NUL; the offset has not been updated yet. -/
structure Ends (d : Nat) (out : Bytes) (s : PrintBuffer) : Prop extends Filled d (out ++ [0]) s where
  offset : s.offset ≤ out.length

/-- There is a block just if the buffer has one. -/
def Balanced (s : PrintBuffer) : Prop := s.blocks = if s.buffer.isSome then 1 else 0

/-- The last of so many calls of the allocator has failed. -/
def AllocatorFailed (heap : InternalHooks) (calls : Nat) : Prop :=
  ∃ call, calls = call + 1 ∧ heap.fails call = true

/-- Why a text of `length` characters is not printed at depth `depth`, after so many
    calls of the allocator. -/
def Refused (heap : InternalHooks) (calls length depth : Nat) : Prop :=
  AllocatorFailed heap calls ∨ maxSize < length + 2 ∨ nestingLimit < depth

theorem Refused.mono {calls length length' depth depth' : Nat} (h : Refused heap calls length depth)
    (hlength : length ≤ length') (hdepth : depth ≤ depth') : Refused heap calls length' depth' := by
  obtain h | h | h := h
  · exact .inl h
  · exact .inr (.inl (by omega))
  · exact .inr (.inr (by omega))

theorem Filled.balanced (h : Filled d out s) : Balanced s := by
  obtain ⟨block, hblock, -, -⟩ := h.block
  rw [Balanced, hblock, h.blocks]
  rfl

/-- The offset says nothing about what is in the buffer. -/
theorem Filled.moved (h : Filled d out s) (offset : Nat) : Filled d out { s with offset } :=
  ⟨h.block, h.size, h.depth, h.blocks⟩

/-! ## Memory -/

theorem wp_advanceOffset {n : Nat} {Q : Unit → PrintBuffer → Prop} :
    (advanceOffset n).wp Q s ↔ Q () { s with offset := s.offset + n } := wp_modify

/-- What is written behind the text continues it. -/
theorem Filled.write {data : Bytes} {Q : Unit → PrintBuffer → Prop} (h : Filled d out s)
    (hfits : out.length + data.length ≤ s.length)
    (hQ : ∀ block, Filled d (out ++ data) { s with buffer := some block } →
      Q () { s with buffer := some block }) :
    (CJson.write out.length data).wp Q s := by
  obtain ⟨block, hblock, hlen, hpre⟩ := h.block
  obtain ⟨block', hwrite, hlen', hpre'⟩ := Block.write_eq_some hpre rfl (hlen ▸ hfits)
  simp only [CJson.write, wp_bind, wp_get, hblock, Option.bind_some, hwrite, wp_set]
  exact hQ block' ⟨⟨block', rfl, hlen'.trans hlen, hpre'⟩, h.size, h.depth, h.blocks⟩

theorem prefix_block (heap : InternalHooks) (h : out <+: block) (call size : Nat) (hsize : block.length ≤ size) :
    out <+: heap.block call block size ∧ (heap.block call block size).length = size := by
  constructor
  · rw [InternalHooks.block, List.take_of_length_le hsize]
    exact h.trans (List.prefix_append _ _)
  · simp only [InternalHooks.block, List.length_append, List.length_take, List.length_map,
      List.length_range]
    omega

/-- `ensure` makes room behind the text for what it is asked for. -/
theorem At.ensure (h : At d out s) : (CJson.ensure heap needed).wp (fun r s' =>
    r = some out.length ∧ At d out s' ∧ out.length + needed < s'.length ∨
    r = none ∧ Balanced s' ∧
      (AllocatorFailed heap s'.calls ∨ maxSize < out.length + needed + 1)) s := by
  obtain ⟨block, hblock, hlen, hpre⟩ := h.block
  have hoffset : ¬(s.length > 0 ∧ s.offset ≥ s.length) := by
    rw [h.offset]
    have hroom := h.room
    omega
  have hbalanced := h.balanced
  have hsize := h.size
  have hroom := h.room
  simp only [CJson.ensure, wp_bind, wp_get, hblock, wp_ite, wp_pure]
  refine ⟨fun hpast => absurd hpast hoffset, fun _ => ?_⟩
  rw [h.offset]
  refine ⟨fun hbig => .inr ⟨trivial, hbalanced, .inr (by omega)⟩, fun _ => ?_⟩
  refine ⟨fun hfits => .inl ⟨rfl, h, by omega⟩, fun hless => ?_⟩
  refine ⟨fun hbig => .inr ⟨trivial, hbalanced, .inr (by omega)⟩, fun hint => ?_⟩
  -- the new size is twice what is needed, or the largest one
  generalize hnew : (if needed + out.length + 1 > maxSize / 2 then maxSize
    else (needed + out.length + 1) * 2) = newsize
  have hnewsize : needed + out.length + 1 ≤ newsize ∧ newsize ≤ maxSize := by
    rw [← hnew]
    split <;> omega
  simp only [reallocate, wp_bind, wp_get, wp_set, wp_pure]
  cases hfails : heap.fails s.calls with
  | true =>
    simp only [if_true, deallocate, wp_bind, wp_get, wp_ite, wp_set, wp_modify, wp_pure, h.blocks]
    refine ⟨fun hzero => absurd hzero one_ne_zero, fun _ => .inr ⟨trivial, rfl, .inl ⟨_, rfl, hfails⟩⟩⟩
  | false =>
    obtain ⟨hpre', hlen'⟩ := prefix_block heap hpre s.calls newsize (by omega)
    simp only [Bool.false_eq_true, if_false, wp_bind, wp_modify, wp_pure]
    refine .inl ⟨trivial, ⟨⟨⟨_, rfl, hlen', hpre'⟩, hnewsize.2, h.depth, h.blocks⟩,
      h.offset, ?_⟩, ?_⟩
    · show out.length < newsize
      omega
    · show out.length + needed < newsize
      omega

/-- `update_offset` moves behind the text. -/
theorem Ends.updateOffset (h : Ends d out s) (hout : IsCString out) :
    CJson.updateOffset.wp (fun _ s' => At d out s' ∧ Filled d (out ++ [0]) s') s := by
  obtain ⟨block, hblock, hlen, hpre⟩ := h.block
  have hroom : out.length < s.length := by
    have hle := hpre.length_le
    rw [List.length_append, List.length_singleton] at hle
    omega
  have hoffset := h.offset
  have hnul : Block.strlen block s.offset = some (out.length - s.offset) :=
    Block.strlen_eq_some hpre hoffset hout
  have hmoved : s.offset + (out.length - s.offset) = out.length := by omega
  simp only [CJson.updateOffset, wp_bind, wp_get, hblock, hnul, wp_set, hmoved]
  refine ⟨⟨⟨⟨block, rfl, hlen, (List.prefix_append _ _).trans hpre⟩, h.size, h.depth, h.blocks⟩,
    rfl, hroom⟩, ⟨block, rfl, hlen, hpre⟩, h.size, h.depth, h.blocks⟩

/-- The text so far and `text` are in the buffer, or there is a reason against it. -/
def Printed (heap : InternalHooks) (d : Nat) (out text : Bytes) (levels : Nat) (ok : Bool)
    (s : PrintBuffer) : Prop :=
  ok = true ∧ Ends d (out ++ text) s ∨
  ok = false ∧ Balanced s ∧ Refused heap s.calls (out ++ text).length (d + levels)

/-- The same, with the offset behind the text. -/
def Passed (heap : InternalHooks) (d : Nat) (out text : Bytes) (levels : Nat) (ok : Bool)
    (s : PrintBuffer) : Prop :=
  ok = true ∧ At d (out ++ text) s ∨
  ok = false ∧ Balanced s ∧ Refused heap s.calls (out ++ text).length (d + levels)

/-! ## Characters and literals -/

theorem At.printChar (h : At d out s) (hmin : 1 ≤ needed) (hmax : needed ≤ 2) :
    (CJson.printChar heap needed c).wp (Passed heap d out [c] 0) s := by
  refine h.ensure.bind fun r s₁ hr => ?_
  obtain ⟨rfl, h₁, hroom⟩ | ⟨rfl, hbalanced, hwhy⟩ := hr
  · simp only [wp_bind]
    refine h₁.write (by rw [List.length_singleton]; omega) fun block hfilled => ?_
    simp only [wp_bind, wp_advanceOffset, wp_pure]
    refine .inl ⟨rfl, hfilled.moved _, ?_, ?_⟩
    · show s₁.offset + 1 = _
      rw [h₁.offset, List.length_append, List.length_singleton]
    · show _ < s₁.length
      rw [List.length_append, List.length_singleton]
      omega
  · refine wp_pure.mpr (.inr ⟨rfl, hbalanced, ?_⟩)
    rw [List.length_append, List.length_singleton]
    exact hwhy.imp_right fun hbig => .inl (by omega)

theorem At.printLiteral (h : At d out s) :
    (CJson.printLiteral heap text).wp (Printed heap d out text 0) s := by
  refine h.ensure.bind fun r s₁ hr => ?_
  obtain ⟨rfl, h₁, hroom⟩ | ⟨rfl, hbalanced, hwhy⟩ := hr
  · simp only [wp_bind]
    refine h₁.write (by rw [List.length_append, List.length_singleton]; omega) fun block hfilled => ?_
    rw [← List.append_assoc] at hfilled
    simp only [wp_pure]
    refine .inl ⟨rfl, hfilled, ?_⟩
    show s₁.offset ≤ _
    rw [h₁.offset, List.length_append]
    omega
  · refine wp_pure.mpr (.inr ⟨rfl, hbalanced, ?_⟩)
    rw [List.length_append]
    exact hwhy.imp_right fun hbig => .inl (by omega)

theorem At.printNumber {n : Int} (h : At d out s) (hmin : -2 ^ 31 ≤ n) (hmax : n ≤ 2 ^ 31 - 1) :
    (CJson.printNumber heap n).wp (Printed heap d out (ofInt n) 0) s := by
  have hshort : ¬(ofInt n).length > 25 := by
    have hdigits : (Numeral.decimal n.natAbs).length ≤ 10 := by
      rw [Numeral.decimal, List.length_map]
      exact Nat.toDigits_length 10 n.natAbs 10 (by decide) (by omega)
    rw [Numeral.ofInt_eq]
    split
    · rw [List.length_cons]
      omega
    · omega
  simp only [CJson.printNumber, if_neg hshort]
  refine h.ensure.bind fun r s₁ hr => ?_
  obtain ⟨rfl, h₁, hroom⟩ | ⟨rfl, hbalanced, hwhy⟩ := hr
  · simp only [wp_bind]
    refine h₁.write (by rw [List.length_append, List.length_singleton]; omega) fun block hfilled => ?_
    rw [← List.append_assoc] at hfilled
    simp only [wp_bind, wp_advanceOffset, wp_pure]
    refine .inl ⟨rfl, hfilled.moved _, ?_⟩
    show s₁.offset + _ ≤ _
    rw [h₁.offset, List.length_append]
  · refine wp_pure.mpr (.inr ⟨rfl, hbalanced, ?_⟩)
    rw [List.length_append]
    exact hwhy.imp_right fun hbig => .inl (by omega)

/-! ## Strings -/

theorem escapeByte_of_plain (h : b > 31 ∧ b ≠ byte '"' ∧ b ≠ byte '\\') : escapeByte b = [b] :=
  if_pos h

theorem escapeByte_of_letter (h : ¬(b > 31 ∧ b ≠ byte '"' ∧ b ≠ byte '\\'))
    (hletter : escapeLetter b = some c) : escapeByte b = [byte '\\', c] := by
  unfold escapeLetter at hletter
  rw [escapeByte, if_neg h]
  split_ifs at hletter ⊢ <;> (obtain rfl := Option.some.inj hletter; rfl)

theorem escapeByte_of_unicode (h : ¬(b > 31 ∧ b ≠ byte '"' ∧ b ≠ byte '\\'))
    (hletter : escapeLetter b = none) :
    escapeByte b = byte '\\' ::
      (ofString "u00" ++ [hexDigit (b.toNat / 16), hexDigit (b.toNat % 16)]) := by
  unfold escapeLetter at hletter
  rw [escapeByte, if_neg h]
  split_ifs at hletter ⊢
  rfl

/-- The characters for which the first loop counts one more. -/
theorem escapeLetter_isSome_iff : (escapeLetter b).isSome ↔
    b = byte '"' ∨ b = byte '\\' ∨ b = 8 ∨ b = 12 ∨ b = 10 ∨ b = 13 ∨ b = 9 := by
  unfold escapeLetter
  split_ifs <;> simp_all

theorem length_escapeByte (b : UInt8) : (escapeByte b).length =
    1 + (if b = byte '"' ∨ b = byte '\\' ∨ b = 8 ∨ b = 12 ∨ b = 10 ∨ b = 13 ∨ b = 9 then 1
      else if b < 32 then 5
      else 0) := by
  by_cases hplain : b > 31 ∧ b ≠ byte '"' ∧ b ≠ byte '\\'
  · have hspecial : ¬(b = byte '"' ∨ b = byte '\\' ∨ b = 8 ∨ b = 12 ∨ b = 10 ∨ b = 13 ∨ b = 9) := by
      rintro (rfl | rfl | rfl | rfl | rfl | rfl | rfl) <;> exact absurd hplain (by decide)
    have hcontrol : ¬b < 32 := by
      intro hlt
      have hgt : 31 < b.toNat := UInt8.lt_iff_toNat_lt.mp hplain.1
      have hlt : b.toNat < 32 := UInt8.lt_iff_toNat_lt.mp hlt
      omega
    rw [escapeByte_of_plain hplain, if_neg hspecial, if_neg hcontrol]
    rfl
  · cases hletter : escapeLetter b with
    | some e =>
      rw [escapeByte_of_letter hplain hletter,
        if_pos (escapeLetter_isSome_iff.mp (hletter ▸ rfl))]
      rfl
    | none =>
      have hspecial := mt escapeLetter_isSome_iff.mpr (by rw [hletter]; decide)
      have hcontrol : b < 32 := by
        have hle : ¬b > 31 := fun hgt => hplain
          ⟨hgt, fun hq => hspecial (.inl hq), fun hb => hspecial (.inr (.inl hb))⟩
        have hle : b.toNat ≤ 31 := UInt8.le_iff_toNat_le.mp (UInt8.not_lt.mp hle)
        exact UInt8.lt_iff_toNat_lt.mpr (Nat.lt_succ_of_le hle)
      rw [escapeByte_of_unicode hplain hletter, if_neg hspecial, if_pos hcontrol]
      rfl

/-- The first loop counts what the second one adds. -/
theorem length_flatMap_escapeByte (input : Bytes) :
    (input.flatMap escapeByte).length = input.length + escapeCharacters input := by
  induction input with
  | nil => rfl
  | cons b input ih =>
    have hone : (escapeByte b).length = 1 + (if b = byte '"' ∨ b = byte '\\' ∨ b = 8 ∨ b = 12 ∨ b = 10 ∨
        b = 13 ∨ b = 9 then 1 else if b < 32 then 5 else 0) := length_escapeByte b
    rw [List.flatMap_cons, List.length_append, ih, List.length_cons, escapeCharacters, hone]
    omega

theorem Filled.shorten (h : Filled d (out ++ text) s) : Filled d out s := by
  obtain ⟨block, hblock, hlen, hpre⟩ := h.block
  exact ⟨⟨block, hblock, hlen, (List.prefix_append _ _).trans hpre⟩, h.size, h.depth, h.blocks⟩

/-- The second loop writes what the characters are printed as, and one NUL at most. -/
theorem Filled.copyEscaped {input : Bytes} {length offset : Nat} (h : Filled d out s)
    (hlength : s.length = length) (hoffset : s.offset = offset)
    (hfits : out.length + (input.flatMap escapeByte).length + 1 ≤ length) :
    (CJson.copyEscaped out.length input).wp (fun _ s' =>
      Filled d (out ++ input.flatMap escapeByte) s' ∧ s'.length = length ∧ s'.offset = offset) s := by
  induction input generalizing out s with
  | nil =>
    rw [List.flatMap_nil, List.append_nil]
    exact wp_pure.mpr ⟨h, hlength, hoffset⟩
  | cons b input ih =>
    rw [List.flatMap_cons, List.length_append] at hfits
    -- the induction is on the characters, with what is printed of them moved to `out`
    have happend : ∀ {data : Bytes}, data = escapeByte b →
        out ++ (b :: input).flatMap escapeByte = out ++ data ++ input.flatMap escapeByte := by
      rintro data rfl
      rw [List.flatMap_cons, List.append_assoc]
    simp only [CJson.copyEscaped, wp_ite, wp_bind]
    refine ⟨fun hplain => ?_, fun hescape => ?_⟩
    · have heq : escapeByte b = [b] := escapeByte_of_plain hplain
      rw [heq, List.length_singleton] at hfits
      refine h.write (by rw [List.length_singleton]; omega) fun block h₁ => ?_
      have hpos : out.length + 1 = (out ++ [b]).length := by
        rw [List.length_append, List.length_singleton]
      rw [happend heq.symm, hpos]
      exact ih h₁ hlength hoffset (by omega)
    · -- a backslash, and then a letter or the code of the character
      have hpos := length_escapeByte_pos (b := b)
      refine h.write (by rw [List.length_singleton]; omega) fun block h₁ => ?_
      have hpos₁ : out.length + 1 = (out ++ [byte '\\']).length := by
        rw [List.length_append, List.length_singleton]
      rw [hpos₁]
      split
      · next letter hletter =>
        have heq : escapeByte b = [byte '\\', letter] := escapeByte_of_letter hescape hletter
        have htwo : (escapeByte b).length = 2 := by rw [heq]; rfl
        simp only [wp_bind]
        refine h₁.write ?_ fun block h₂ => ?_
        · show (out ++ [byte '\\']).length + 1 ≤ s.length
          omega
        · have hpos₂ : out.length + 2 = (out ++ [byte '\\', letter]).length := by
            rw [List.length_append]
            rfl
          rw [List.append_assoc] at h₂
          rw [happend heq.symm, hpos₂]
          exact ih h₂ hlength hoffset (by omega)
      · next hletter =>
        have heq := escapeByte_of_unicode hescape hletter
        have hsix : (escapeByte b).length = 6 := by rw [heq]; rfl
        simp only [wp_bind]
        refine h₁.write ?_ fun block h₂ => ?_
        · show (out ++ [byte '\\']).length + 6 ≤ s.length
          omega
        · -- the NUL of `sprintf` is not part of the text
          have hsplit : out ++ [byte '\\'] ++
              (ofString "u00" ++ [hexDigit (b.toNat / 16), hexDigit (b.toNat % 16), 0]) =
              out ++ escapeByte b ++ [0] := by
            rw [heq]
            simp
          rw [hsplit] at h₂
          have hpos₂ : out.length + 6 = (out ++ escapeByte b).length := by
            rw [List.length_append, hsix]
          rw [happend rfl, hpos₂]
          refine ih h₂.shorten hlength hoffset ?_
          rw [List.length_append]
          omega

/-- Where nothing is counted, the characters are printed as they are. -/
theorem flatMap_escapeByte_eq {input : Bytes} (h : escapeCharacters input = 0) :
    input.flatMap escapeByte = input := by
  induction input with
  | nil => rfl
  | cons b input ih =>
    have hcount := length_escapeByte b
    rw [escapeCharacters, Nat.add_eq_zero_iff] at h
    rw [h.1] at hcount
    have hplain : b > 31 ∧ b ≠ byte '"' ∧ b ≠ byte '\\' := by
      by_contra hescape
      cases hletter : escapeLetter b with
      | some e =>
        rw [escapeByte_of_letter hescape hletter] at hcount
        cases hcount
      | none =>
        rw [escapeByte_of_unicode hescape hletter] at hcount
        cases hcount
    rw [List.flatMap_cons, escapeByte_of_plain hplain, ih h.2, List.singleton_append]

theorem At.printStringPtr {input : Bytes} (h : At d out s) :
    (CJson.printStringPtr heap input).wp (Printed heap d out (printString input) 0) s := by
  have hlen : ((ofBytes input).flatMap escapeByte).length =
      (ofBytes input).length + escapeCharacters (ofBytes input) := length_flatMap_escapeByte _
  have hprint : printString input =
      [byte '"'] ++ (ofBytes input).flatMap escapeByte ++ [byte '"'] := rfl
  have hlength : (printString input).length =
      (ofBytes input).length + escapeCharacters (ofBytes input) + 2 := by
    rw [hprint, List.length_append, List.length_append, hlen, List.length_singleton]
    omega
  simp only [CJson.printStringPtr]
  refine h.ensure.bind fun r s₁ hr => ?_
  obtain ⟨rfl, h₁, hroom⟩ | ⟨rfl, hbalanced, hwhy⟩ := hr
  · have hclose : ∀ s₃ : PrintBuffer,
        Filled d (out ++ [byte '"'] ++ (ofBytes input).flatMap escapeByte) s₃ ∧
          s₃.length = s₁.length ∧ s₃.offset = out.length →
        (do
          CJson.write (out.length + ((ofBytes input).length + escapeCharacters (ofBytes input)) + 1)
            [byte '"', 0]
          return true : Printer Bool).wp (Printed heap d out (printString input) 0) s₃ := by
      rintro s₃ ⟨h₃, hlen₃, hoffset₃⟩
      have hpos : out.length + ((ofBytes input).length + escapeCharacters (ofBytes input)) + 1 =
          (out ++ [byte '"'] ++ (ofBytes input).flatMap escapeByte).length := by
        rw [List.length_append, List.length_append, hlen, List.length_singleton]
        omega
      have hend : out ++ [byte '"'] ++ (ofBytes input).flatMap escapeByte ++ [byte '"', 0] =
          out ++ printString input ++ [0] := by
        rw [hprint]
        simp
      rw [wp_bind, hpos]
      refine h₃.write ?_ fun block h₄ => wp_pure.mpr (.inl ⟨rfl, hend ▸ h₄, ?_⟩)
      · show _ + 2 ≤ _
        omega
      · show s₃.offset ≤ _
        rw [hoffset₃, List.length_append]
        omega
    have hpos : out.length + 1 = (out ++ [byte '"']).length := by
      rw [List.length_append, List.length_singleton]
    simp only [wp_bind]
    refine h₁.write (by rw [List.length_singleton]; omega) fun block h₂ => ?_
    rw [wp_ite, hpos]
    -- both ways to copy the characters leave them behind the quote
    refine ⟨fun hzero => ?_, fun _ => ?_⟩
    · have hsame := flatMap_escapeByte_eq hzero
      refine wp_bind.mpr (h₂.write ?_ fun block h₃ => hclose _ ⟨?_, rfl, h₁.offset⟩)
      · show _ ≤ s₁.length
        omega
      · rwa [hsame]
    · refine (h₂.copyEscaped rfl h₁.offset ?_).bind fun _ s₃ h₃ => hclose s₃ h₃
      show _ ≤ s₁.length
      omega
  · refine wp_pure.mpr (.inr ⟨rfl, hbalanced, ?_⟩)
    rw [List.length_append, hlength]
    exact hwhy.imp_right fun hbig => .inl (by omega)

/-! ## Values -/

/-- After a failure nothing more is printed. -/
theorem wp_orFail {p rest : Printer Bool} {Q Q' : Bool → PrintBuffer → Prop} (h : p.wp Q s)
    (htrue : ∀ s', Q true s' → rest.wp Q' s') (hfalse : ∀ s', Q false s' → Q' false s') :
    (p >>= fun ok => if ¬ok = true then pure false else rest).wp Q' s := by
  refine h.bind fun ok s' hQ => ?_
  cases ok with
  | true =>
    rw [if_neg (not_not_intro rfl)]
    exact htrue s' hQ
  | false =>
    rw [if_pos (by decide)]
    exact wp_pure.mpr (hfalse s' hQ)

theorem Printed.of_true {levels : Nat} (h : Printed heap d out text levels true s) :
    Ends d (out ++ text) s := by
  obtain ⟨-, h⟩ | ⟨hfalse, -⟩ := h
  · exact h
  · cases hfalse

theorem Passed.of_true {levels : Nat} (h : Passed heap d out text levels true s) :
    At d (out ++ text) s := by
  obtain ⟨-, h⟩ | ⟨hfalse, -⟩ := h
  · exact h
  · cases hfalse

theorem Printed.of_false {levels : Nat} (h : Printed heap d out text levels false s) :
    Balanced s ∧ Refused heap s.calls (out ++ text).length (d + levels) := by
  obtain ⟨htrue, -⟩ | ⟨-, h⟩ := h
  · cases htrue
  · exact h

theorem Passed.of_false {levels : Nat} (h : Passed heap d out text levels false s) :
    Balanced s ∧ Refused heap s.calls (out ++ text).length (d + levels) := by
  obtain ⟨htrue, -⟩ | ⟨-, h⟩ := h
  · cases htrue
  · exact h

/-- The depth says nothing about what is in the buffer. -/
theorem At.nested (h : At d out s) (depth : Nat) : At depth out { s with depth } :=
  ⟨⟨h.block, h.size, rfl, h.blocks⟩, h.offset, h.room⟩

theorem Ends.nested (h : Ends d out s) (depth : Nat) : Ends depth out { s with depth } :=
  ⟨⟨h.block, h.size, rfl, h.blocks⟩, h.offset⟩

/-- A container is printed if its items are: `print_array` and `print_object` differ
    in the brackets, and in what they ask `ensure` for. -/
theorem At.container {items : Printer Bool} {inner close : Bytes} {levels : Nat} (h : At d out s)
    (hmin : 1 ≤ needed) (hmax : needed ≤ 2)
    (hitems : ∀ s', At (d + 1) (out ++ [c]) s' →
      items.wp (Passed heap (d + 1) (out ++ [c]) inner levels) s') :
    (do
      if (← get).depth ≥ nestingLimit then
        return false
      else if ¬(← CJson.printChar heap needed c) then
        return false
      else
        modify fun p => { p with depth := p.depth + 1 }
        if ¬(← items) then
          return false
        else if ¬(← CJson.printLiteral heap close) then
          return false
        else
          modify fun p => { p with depth := p.depth - 1 }
          return true : Printer Bool).wp
      (Printed heap d out (c :: (inner ++ close)) (levels + 1)) s := by
  have hlength : (out ++ c :: (inner ++ close)).length =
      out.length + inner.length + close.length + 1 := by
    simp only [List.length_append, List.length_cons]
    omega
  rw [wp_bind, wp_get, wp_ite]
  refine ⟨fun hdeep => ?_, fun _ => ?_⟩
  · rw [h.depth] at hdeep
    exact wp_pure.mpr (.inr ⟨rfl, h.balanced, .inr (.inr (by omega))⟩)
  · -- the bracket, the items and the other bracket; each may fail
    refine wp_orFail (h.printChar hmin hmax) (fun s₁ h₁ => ?_) fun s₁ h₁ => ?_
    · have h₁ := h₁.of_true
      rw [wp_bind, wp_modify, h₁.depth]
      refine wp_orFail (hitems _ (h₁.nested (d + 1))) (fun s₂ h₂ => ?_) fun s₂ h₂ => ?_
      · refine wp_orFail h₂.of_true.printLiteral (fun s₃ h₃ => ?_) fun s₃ h₃ => ?_
        · have h₃ := h₃.of_true
          rw [wp_bind, wp_modify, wp_pure, h₃.depth, Nat.add_sub_cancel]
          refine .inl ⟨rfl, ?_⟩
          have happend : out ++ c :: (inner ++ close) = out ++ [c] ++ inner ++ close := by simp
          rw [happend]
          exact h₃.nested d
        · obtain ⟨hbalanced, hrefused⟩ := h₃.of_false
          refine .inr ⟨rfl, hbalanced, hrefused.mono ?_ (by omega)⟩
          simp only [List.length_append, List.length_cons, List.length_nil]
          omega
      · obtain ⟨hbalanced, hrefused⟩ := h₂.of_false
        refine .inr ⟨rfl, hbalanced, hrefused.mono ?_ (by omega)⟩
        simp only [List.length_append, List.length_cons, List.length_nil]
        omega
    · obtain ⟨hbalanced, hrefused⟩ := h₁.of_false
      refine .inr ⟨rfl, hbalanced, hrefused.mono ?_ (by omega)⟩
      simp only [List.length_append, List.length_cons, List.length_nil]
      omega

/-- What stands between two items: a comma, or nothing behind the last member. -/
theorem At.separator (separator : Bytes) {rest : Printer Bool} {Q : Bool → PrintBuffer → Prop}
    (h : At d out s) (hrest : ∀ s', At d (out ++ separator) s' → rest.wp Q s')
    (hfail : ∀ s', Balanced s' → Refused heap s'.calls (out ++ separator).length 0 → Q false s') :
    (do
      match ← CJson.ensure heap (separator.length + 1) with
      | none => return false
      | some output =>
        CJson.write output (separator ++ [0])
        advanceOffset separator.length
        rest : Printer Bool).wp Q s := by
  refine h.ensure.bind fun r s₁ hr => ?_
  obtain ⟨rfl, h₁, hroom⟩ | ⟨rfl, hbalanced, hwhy⟩ := hr
  · simp only [wp_bind]
    refine h₁.write (by rw [List.length_append, List.length_singleton]; omega) fun block hfilled => ?_
    rw [← List.append_assoc] at hfilled
    rw [wp_bind, wp_advanceOffset]
    refine hrest _ ⟨hfilled.shorten.moved _, ?_, ?_⟩
    · show s₁.offset + _ = _
      rw [h₁.offset, List.length_append]
    · show _ < s₁.length
      rw [List.length_append]
      omega
  · refine wp_pure.mpr (hfail s₁ hbalanced ?_)
    rw [List.length_append]
    exact hwhy.imp_right fun hbig => .inl (by omega)

mutual

/-- The printer writes what is printed for a value, or has a reason not to. -/
theorem printValue_wp (v : Json) {d : Nat} {out : Bytes} {s : PrintBuffer} (hheld : Held v)
    (h : At d out s) (hout : IsCString out) :
    (printValue heap v).wp (Printed heap d out (printUnformatted v) (depth (toValue v))) s := by
  cases v with
  | null => exact h.printLiteral
  | bool b => cases b <;> exact h.printLiteral
  | number n =>
    rw [Held] at hheld
    exact h.printNumber hheld.1 hheld.2
  | string s => exact h.printStringPtr
  | array items =>
    rw [Held] at hheld
    rw [printArray_eq]
    refine h.container (by decide) (by decide) fun s' h' => ?_
    exact printElements_wp items hheld h' (hout.append (by decide))
  | object members =>
    rw [Held] at hheld
    rw [printObject_eq]
    refine h.container (by decide) (by decide) fun s' h' => ?_
    exact printFields_wp members hheld h' (hout.append (by decide))

theorem printElements_wp (items : List Json) {d : Nat} {out : Bytes} {s : PrintBuffer}
    (hheld : HeldItems items) (h : At d out s) (hout : IsCString out) :
    (printElements heap items).wp
      (Passed heap d out (printItems items) (depthItems (toItems items))) s := by
  cases items with
  | nil =>
    refine wp_pure.mpr (.inl ⟨rfl, ?_⟩)
    rwa [printItems, List.append_nil]
  | cons item items =>
    rw [HeldItems] at hheld
    have hclean : IsCString (out ++ printUnformatted item) :=
      hout.append (isCString_printUnformatted item)
    rw [printElements]
    refine wp_orFail (printValue_wp item hheld.1 h hout) (fun s₁ h₁ => ?_) fun s₁ h₁ => ?_
    · refine (h₁.of_true.updateOffset hclean).bind fun _ s₂ ⟨h₂, _⟩ => ?_
      -- the last item has no comma behind it
      cases items with
      | nil => exact wp_pure.mpr (.inl ⟨rfl, h₂⟩)
      | cons item' items =>
        have happend : out ++ printItems (item :: item' :: items) =
            out ++ printUnformatted item ++ [byte ','] ++ printItems (item' :: items) := by
          simp [printItems_cons_cons]
        have hcomma : IsCString (out ++ printUnformatted item ++ [byte ',']) :=
          hclean.append (by decide)
        rw [wp_ite]
        refine ⟨fun hempty => absurd hempty Bool.false_ne_true, fun _ => ?_⟩
        refine h₂.separator [byte ','] (fun s₃ h₃ => ?_) fun s₃ hbalanced hwhy => ?_
        · refine (printElements_wp (item' :: items) hheld.2 h₃ hcomma).mono fun ok s₄ h₄ => ?_
          refine h₄.imp (fun ⟨hok, hat⟩ => ⟨hok, happend ▸ hat⟩) fun ⟨hok, hbalanced, hwhy⟩ =>
            ⟨hok, hbalanced, happend ▸ hwhy.mono le_rfl ?_⟩
          simp only [toItems, depthItems]
          omega
        · refine .inr ⟨rfl, hbalanced, hwhy.mono ?_ (Nat.zero_le _)⟩
          rw [happend]
          simp only [List.length_append]
          omega
    · obtain ⟨hbalanced, hwhy⟩ := h₁.of_false
      refine .inr ⟨rfl, hbalanced, hwhy.mono ?_ ?_⟩
      · cases items with
        | nil => exact le_rfl
        | cons item' items =>
          rw [printItems_cons_cons]
          simp only [List.length_append]
          omega
      · simp only [toItems, depthItems]
        omega

theorem printFields_wp (members : List (Bytes × Json)) {d : Nat} {out : Bytes} {s : PrintBuffer}
    (hheld : HeldMembers members) (h : At d out s) (hout : IsCString out) :
    (printFields heap members).wp
      (Passed heap d out (printMembers members) (depthMembers (toMembers members))) s := by
  cases members with
  | nil =>
    refine wp_pure.mpr (.inl ⟨rfl, ?_⟩)
    rwa [printMembers, List.append_nil]
  | cons m members =>
    obtain ⟨key, value⟩ := m
    rw [HeldMembers] at hheld
    -- the text of a member, and what follows it
    obtain ⟨comma, tail, hcomma, happend, hclean, htail⟩ : ∃ comma tail : Bytes,
        comma = (if members.isEmpty then [] else [byte ',']) ∧
        printMembers ((key, value) :: members) =
          printString key ++ ([byte ':'] ++ (printUnformatted value ++ (comma ++ tail))) ∧
        IsCString comma ∧ tail = printMembers members := by
      refine ⟨_, printMembers members, rfl, ?_, ?_, rfl⟩
      · cases members with
        | nil =>
          rw [printMembers_singleton]
          simp [printMembers]
        | cons m' members => simp [printMembers_cons_cons]
      · split <;> decide
    have hdepth : depthMembers (toMembers ((key, value) :: members)) =
        max (depth (toValue value)) (depthMembers (toMembers members)) := rfl
    have hkey : IsCString (out ++ printString key) := hout.append isCString_printString
    have hcolon : IsCString (out ++ printString key ++ [byte ':']) := hkey.append (by decide)
    have hvalue : IsCString (out ++ printString key ++ [byte ':'] ++ printUnformatted value) :=
      hcolon.append (isCString_printUnformatted value)
    rw [happend, hdepth, printFields, ← hcomma]
    refine wp_orFail h.printStringPtr (fun s₁ h₁ => ?_) fun s₁ h₁ => ?_
    · refine (h₁.of_true.updateOffset hkey).bind fun _ s₂ ⟨h₂, _⟩ => ?_
      refine wp_orFail (h₂.printChar (by decide) (by decide)) (fun s₃ h₃ => ?_) fun s₃ h₃ => ?_
      · refine wp_orFail (printValue_wp value hheld.1.2 h₃.of_true hcolon) (fun s₄ h₄ => ?_) fun s₄ h₄ => ?_
        · refine (h₄.of_true.updateOffset hvalue).bind fun _ s₅ ⟨h₅, _⟩ => ?_
          refine h₅.separator comma (fun s₆ h₆ => ?_) fun s₆ hbalanced hwhy => ?_
          · refine (printFields_wp members hheld.2 h₆ (hvalue.append hclean)).mono fun ok s₇ h₇ => ?_
            have hall : out ++ printString key ++ [byte ':'] ++ printUnformatted value ++ comma ++ tail =
                out ++ (printString key ++ ([byte ':'] ++ (printUnformatted value ++ (comma ++ tail)))) := by
              simp only [List.append_assoc]
            unfold Passed at h₇ ⊢
            rw [← htail, hall] at h₇
            exact h₇.imp_right fun ⟨hok, hbalanced, hwhy⟩ =>
              ⟨hok, hbalanced, hwhy.mono le_rfl (by omega)⟩
          · refine .inr ⟨rfl, hbalanced, hwhy.mono ?_ (Nat.zero_le _)⟩
            simp only [List.length_append]
            omega
        · obtain ⟨hbalanced, hwhy⟩ := h₄.of_false
          refine .inr ⟨rfl, hbalanced, hwhy.mono ?_ (by omega)⟩
          simp only [List.length_append]
          omega
      · obtain ⟨hbalanced, hwhy⟩ := h₃.of_false
        refine .inr ⟨rfl, hbalanced, hwhy.mono ?_ (by omega)⟩
        simp only [List.length_append]
        omega
    · obtain ⟨hbalanced, hwhy⟩ := h₁.of_false
      refine .inr ⟨rfl, hbalanced, hwhy.mono ?_ (by omega)⟩
      simp only [List.length_append]
      omega

end

/-! ## The whole text -/

theorem printFail_wp (h : Balanced s) :
    printFail.wp (fun r s' => r = none ∧ s'.blocks = 0 ∧ s'.calls = s.calls) s := by
  rw [Balanced] at h
  simp only [printFail, wp_bind, wp_get, wp_ite]
  refine ⟨fun hsome => ?_, fun hnone => ?_⟩
  · rw [if_pos hsome] at h
    simp only [deallocate, wp_bind, wp_get, wp_ite, wp_set, wp_modify, wp_pure, h]
    exact ⟨fun hzero => absurd hzero one_ne_zero, fun _ => ⟨trivial, trivial, trivial⟩⟩
  · rw [if_neg hnone] at h
    exact wp_pure.mpr ⟨rfl, h, rfl⟩

/-- What `print` returns: the text with its NUL, in the one block that is left; or
    nothing, with a reason, and no block is left. -/
def Outcome (heap : InternalHooks) (v : Json) (r : Option Bytes) (blocks calls : Nat) : Prop :=
  r = some (printUnformatted v ++ [0]) ∧ blocks = 1 ∨
  r = none ∧ blocks = 0 ∧ Refused heap calls (printUnformatted v).length (depth (toValue v))

theorem print_wp (heap : InternalHooks) {v : Json} (hheld : Held v) (hs : s.blocks = 0)
    (hoffset : s.offset = 0) (hdepth : s.depth = 0) :
    (print heap v).wp (fun r s' => Outcome heap v r s'.blocks s'.calls) s := by
  have hfail : ∀ {s₁ : PrintBuffer}, Balanced s₁ →
      Refused heap s₁.calls (printUnformatted v).length (depth (toValue v)) →
      printFail.wp (fun r s' => Outcome heap v r s'.blocks s'.calls) s₁ :=
    fun hbalanced hwhy => (printFail_wp hbalanced).mono fun r s' ⟨hnone, hblocks, hcalls⟩ =>
      .inr ⟨hnone, hblocks, hcalls ▸ hwhy⟩
  simp only [print, allocate, wp_bind, wp_get]
  cases hfails : heap.fails s.calls with
  | true =>
    simp only [if_true, wp_bind, wp_set, wp_pure, wp_modify]
    exact hfail hs (.inl ⟨_, rfl, hfails⟩)
  | false =>
    simp only [Bool.false_eq_true, if_false, wp_bind, wp_set, wp_pure, wp_modify,
      Option.isNone_some]
    generalize hstart : PrintBuffer.mk _ _ _ _ _ _ = s₁
    have h₁ : At 0 [] s₁ := by
      obtain ⟨hpre, hlen⟩ := prefix_block heap (List.nil_prefix (l := [])) s.calls 256
        (Nat.zero_le _)
      rw [← hstart]
      exact ⟨⟨⟨_, rfl, hlen, List.nil_prefix⟩, (by decide : 256 ≤ maxSize), hdepth,
        congrArg (· + 1) hs⟩, hoffset, (by decide : 0 < 256)⟩
    have hempty : IsCString [] := fun b hb => absurd hb List.not_mem_nil
    refine (printValue_wp v hheld h₁ hempty).mono fun ok s₂ h₂ => ?_
    cases ok with
    | false =>
      obtain ⟨hbalanced, hwhy⟩ := h₂.of_false
      rw [if_pos (by decide)]
      exact hfail hbalanced (hwhy.mono le_rfl (by omega))
    | true =>
      rw [if_neg (not_not_intro rfl)]
      refine (h₂.of_true.updateOffset (isCString_printUnformatted v)).bind fun _ s₃ hupdated => ?_
      obtain ⟨h₃, hnul⟩ := hupdated
      obtain ⟨block, hblock, hlen, hpre⟩ := hnul.block
      simp only [wp_bind, wp_get, hblock, reallocate, wp_set, wp_pure, h₃.offset]
      cases hfails' : heap.fails s₃.calls with
      | true =>
        simp only [if_true]
        refine hfail ?_ (.inl ⟨_, rfl, hfails'⟩)
        exact h₃.blocks
      | false =>
        simp only [Bool.false_eq_true, if_false, wp_bind, wp_modify, wp_pure]
        refine .inl ⟨congrArg some ?_, h₃.blocks⟩
        -- the block is cut behind the NUL
        rw [List.nil_append] at hpre ⊢
        have hsize : (printUnformatted v).length + 1 ≤ block.length := by
          simpa using hpre.length_le
        have htake : block.take ((printUnformatted v).length + 1) = printUnformatted v ++ [0] := by
          have heq := List.prefix_iff_eq_take.mp hpre
          rw [List.length_append, List.length_singleton] at heq
          exact heq.symm
        rw [InternalHooks.block, htake, Nat.sub_eq_zero_of_le hsize, List.range_zero, List.map_nil,
          List.append_nil]

/-- `cJSON_PrintUnformatted` never accesses anything outside of its buffer, and frees
    what it does not return. It returns the printed text, unless the last call of the
    allocator fails, the text is too long for an `int`, or it nests too deeply. -/
theorem cjsonPrintUnformatted_outcome (heap : InternalHooks) {v : Json} (hheld : Held v) :
    ∃ r blocks calls, cjsonPrintUnformatted heap v = some (r, blocks, calls) ∧
      Outcome heap v r blocks calls := by
  obtain ⟨r, s', hrun, houtcome⟩ := print_wp heap (s := ⟨none, 0, 0, 0, 0, 0⟩) hheld rfl rfl rfl
  exact ⟨r, s'.blocks, s'.calls, by rw [cjsonPrintUnformatted, hrun]; rfl, houtcome⟩

/-- The allocator refuses to cut the block down to the text in the end. -/
def refusesThird : InternalHooks := ⟨fun call => call = 2, fun _ _ => 0xAA⟩

/-- A name that is longer than the first block, and ends in a control character. -/
def longName : Json := .object [(List.replicate 300 65 ++ [1], .number (-1))]

theorem cjsonPrintUnformatted_outcome_long : ∃ r blocks calls,
    cjsonPrintUnformatted refusesThird longName = some (r, blocks, calls) ∧
      Outcome refusesThird longName r blocks calls := by
  refine cjsonPrintUnformatted_outcome _ ?_
  simp only [longName, Held, HeldMembers]
  decide +kernel

end CJson

end Xiaozhi
