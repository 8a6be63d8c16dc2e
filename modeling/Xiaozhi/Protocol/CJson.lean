-- SUMMARY: The parser of cJSON, from the bytes of a C string to the values that the application reads.
import Xiaozhi.Data.JsonText
import Xiaozhi.Data.Strtod
import Xiaozhi.Protocol.Json

/-!
# The parser of cJSON

`cJSON_Parse` of `cJSON.c`, with the allocations succeeding. A `parse_buffer` is
the text from its offset to the NUL that ends it, without that NUL; at the end
of the text it is empty. `depth` is the nesting depth in the buffer, and a
function returns the value with what follows it, or `none` where it fails.

The recursion has a fuel argument; the length of the text is enough
(`CJson.parseValue_fuel`).
-/

namespace Xiaozhi

namespace CJson

open CString

/-- `CJSON_NESTING_LIMIT`. -/
def nestingLimit : Nat := 1000

/-! ## Strings -/

/-- `parse_hex4`: zero if a digit is invalid. -/
def parseHex4 (input : Bytes) : Nat :=
  ((input.take 4).foldlM (fun h b => (JsonText.hexValue b).map fun d => (h <<< 4) + d) 0).getD 0

/-- The bytes behind the first one, last byte first: six bits each. The rest of
    the code point is for the first byte. -/
def encodeTail : Nat → Nat → Nat × Bytes
  | 0, codepoint => (codepoint, [])
  | n + 1, codepoint =>
    let (rest, bytes) := encodeTail n (codepoint >>> 6)
    (rest, bytes ++ [((codepoint ||| 0x80) &&& 0xBF).toUInt8])

/-- The encoding in `utf8_length` bytes, of which the first one is marked. -/
def encodeBytes (length mark codepoint : Nat) : Bytes :=
  let (rest, bytes) := encodeTail (length - 1) codepoint
  (if length > 1 then (rest ||| mark) &&& 0xFF else rest &&& 0x7F).toUInt8 :: bytes

/-- The end of `utf16_literal_to_utf8`. -/
def encodeUtf8 (codepoint : Nat) : Option Bytes :=
  if codepoint < 0x80 then some (encodeBytes 1 0 codepoint)
  else if codepoint < 0x800 then some (encodeBytes 2 0xC0 codepoint)
  else if codepoint < 0x10000 then some (encodeBytes 3 0xE0 codepoint)
  else if codepoint ≤ 0x10FFFF then some (encodeBytes 4 0xF0 codepoint)
  else none

/-- `utf16_literal_to_utf8`, with the length of the literal. -/
def utf16LiteralToUtf8 (input : Bytes) : Option (Bytes × Nat) :=
  if input.length < 6 then
    none
  else
    let firstCode := parseHex4 (input.drop 2)
    if 0xDC00 ≤ firstCode ∧ firstCode ≤ 0xDFFF then
      none
    else if 0xD800 ≤ firstCode ∧ firstCode ≤ 0xDBFF then
      let secondSequence := input.drop 6
      if secondSequence.length < 6 then
        none
      else if secondSequence.take 2 ≠ [byte '\\', byte 'u'] then
        none
      else
        let secondCode := parseHex4 (secondSequence.drop 2)
        if secondCode < 0xDC00 ∨ 0xDFFF < secondCode then
          none
        else
          (encodeUtf8 (0x10000 + (((firstCode &&& 0x3FF) <<< 10) ||| (secondCode &&& 0x3FF)))).map
            fun bytes => (bytes, 12)
    else
      (encodeUtf8 firstCode).map fun bytes => (bytes, 6)

/-- The first loop of `parse_string`, from behind the opening quote: what stands
    before the closing quote, `skipped_bytes`, and what follows the quote. -/
def scanString : Bytes → Option (Bytes × Nat × Bytes)
  | [] => none
  | c :: rest =>
    if c = byte '"' then
      some ([], 0, rest)
    else if c = byte '\\' then
      match rest with
      | [] => none
      | d :: rest => (scanString rest).map fun r => (c :: d :: r.1, r.2.1 + 1, r.2.2)
    else
      (scanString rest).map fun r => (c :: r.1, r.2.1, r.2.2)

/-- What an escape sequence of two characters stands for. -/
def unescape (c : UInt8) : Option UInt8 :=
  if c = byte 'b' then some 8
  else if c = byte 'f' then some 12
  else if c = byte 'n' then some 10
  else if c = byte 'r' then some 13
  else if c = byte 't' then some 9
  else if c = byte '"' ∨ c = byte '\\' ∨ c = byte '/' then some c
  else none

/-- One round of the second loop of `parse_string`, on what is left before
    `input_end`: the bytes it writes, and the number of bytes it passes. Where a
    backslash is all that is left, `input_pointer[1]` is the closing quote. -/
def decodeStep (input : Bytes) : Option (Bytes × Nat) :=
  match input with
  | [] => none
  | c :: rest =>
    if c ≠ byte '\\' then
      some ([c], 1)
    else
      let next := rest.headD (byte '"')
      if next = byte 'u' then utf16LiteralToUtf8 input
      else (unescape next).map fun b => ([b], 2)

/-- The second loop of `parse_string`. -/
def decodeString : Nat → Bytes → Option Bytes
  | _, [] => some []
  | 0, _ :: _ => none
  | fuel + 1, input => do
    let (bytes, sequenceLength) ← decodeStep input
    let output ← decodeString fuel (input.drop sequenceLength)
    return bytes ++ output

/-- `parse_string`; `valuestring` is a C string. -/
def parseString (text : Bytes) : Option (Bytes × Bytes) :=
  match text with
  | c :: rest =>
    if c ≠ byte '"' then
      none
    else do
      let (input, _, rest) ← scanString rest
      let output ← decodeString input.length input
      return (ofBytes output, rest)
  | [] => none

/-! ## Numbers -/

/-- The characters that `parse_number` copies for `strtod`. -/
def isNumberChar (c : UInt8) : Bool :=
  isDigit c || c = byte '+' || c = byte '-' || c = byte 'e' || c = byte 'E' || c = byte '.'

/-- `parse_number`: `valueint`, and what `strtod` has left. -/
def parseNumber (text : Bytes) : Option (Int × Bytes) :=
  let number := text.takeWhile isNumberChar
  (Numeral.strtod number).map fun r =>
    (Numeral.toInt r.1, text.drop (number.length - r.2.length))

/-! ## Values -/

/-- `buffer_skip_whitespace`. -/
def skipWhitespace (text : Bytes) : Bytes := text.dropWhile (· ≤ 32)

mutual

/-- `parse_value`. -/
def parseValue : Nat → Nat → Bytes → Option (Json × Bytes)
  | 0, _, _ => none
  | fuel + 1, depth, text =>
    if ofString "null" <+: text then some (.null, text.drop 4)
    else if ofString "false" <+: text then some (.bool false, text.drop 5)
    else if ofString "true" <+: text then some (.bool true, text.drop 4)
    else
      match text with
      | [] => none
      | c :: rest =>
        if c = byte '"' then do
          let (s, rest) ← parseString (c :: rest)
          return (.string s, rest)
        else if c = byte '-' ∨ isDigit c then do
          let (n, rest) ← parseNumber (c :: rest)
          return (.number n, rest)
        else if c = byte '[' then
          -- `parse_array`
          if depth ≥ nestingLimit then
            none
          else
            let rest := skipWhitespace rest
            if rest.head? = some (byte ']') then
              return (.array [], rest.tail)
            else do
              let (items, rest) ← parseItems fuel (depth + 1) rest
              return (.array items, rest)
        else if c = byte '\x7b' then
          -- `parse_object`
          if depth ≥ nestingLimit then
            none
          else
            let rest := skipWhitespace rest
            if rest.head? = some (byte '\x7d') then
              return (.object [], rest.tail)
            else do
              let (members, rest) ← parseMembers fuel (depth + 1) rest
              return (.object members, rest)
        else
          none

/-- The loop of `parse_array`, from an item on, to the closing bracket. -/
def parseItems : Nat → Nat → Bytes → Option (List Json × Bytes)
  | 0, _, _ => none
  | fuel + 1, depth, text => do
    let (item, rest) ← parseValue fuel depth text
    match skipWhitespace rest with
    | [] => none
    | c :: rest =>
      if c = byte ',' then
        let (items, rest) ← parseItems fuel depth (skipWhitespace rest)
        return (item :: items, rest)
      else if c = byte ']' then
        return ([item], rest)
      else
        none

/-- The loop of `parse_object`, from a name on, to the closing brace. -/
def parseMembers : Nat → Nat → Bytes → Option (List (Bytes × Json) × Bytes)
  | 0, _, _ => none
  | fuel + 1, depth, text => do
    let (string, rest) ← parseString text
    match skipWhitespace rest with
    | [] => none
    | c :: rest =>
      if c ≠ byte ':' then
        none
      else
        let (value, rest) ← parseValue fuel depth (skipWhitespace rest)
        match skipWhitespace rest with
        | [] => none
        | c :: rest =>
          if c = byte ',' then
            let (members, rest) ← parseMembers fuel depth (skipWhitespace rest)
            return ((string, value) :: members, rest)
          else if c = byte '\x7d' then
            return ([(string, value)], rest)
          else
            none

end

/-- `skip_utf8_bom`. -/
def skipUtf8Bom (text : Bytes) : Bytes :=
  if text.length ≥ 4 ∧ [0xEF, 0xBB, 0xBF] <+: text then text.drop 3 else text

/-- Enough fuel for a text. -/
def enough (text : Bytes) : Nat := 2 * text.length + 2

/-- `cJSON_Parse`: what follows the value is not looked at. -/
def cjsonParse (value : Bytes) : Option Json :=
  let text := skipWhitespace (skipUtf8Bom (ofBytes value))
  (parseValue (enough text) 0 text).map (·.1)

end CJson

end Xiaozhi
