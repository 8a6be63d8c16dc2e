-- SUMMARY: The parser of cJSON on the heap: it refines the parser of values, and leaves nothing behind where it fails.
import Xiaozhi.Protocol.ParseBuffer
import Xiaozhi.Protocol.StringParsing
import Xiaozhi.Protocol.Tree

/-!
# Parsing to memory

`cJSON_Parse` of `cJSON.c` with its allocations, each of which may fail, and its
pointers. The content is the C string with its NUL. The offset after a failure
is not kept: only the error position, which is left out, is made of it.
-/

namespace Xiaozhi

namespace CJson

namespace Tree

open CString Separation Separation.Assertion ParseBuffer

abbrev Parser : Type → Type := Program Block ParseBuffer

variable (allocator : Allocator Block) (content : Bytes)

/-- `cJSON_New_Item`. -/
def newItem : Parser Tree := alloc allocator (.item Item.zero)

/-- What is written to a block of `size` bytes, with the NUL behind it. -/
def fill (q size : Nat) (text : Bytes) : Parser Unit :=
  if text.length + 1 ≤ size then store q (.text text) else Checked.undefined

/-! ## Strings and numbers -/

/-- `parse_string`. -/
def parseString (item : Nat) : Parser Bool := do
  let buffer ← onVars get
  let first ← onVars (readAt content 0)
  if first ≠ byte '"' then
    return false
  else
    match ← onVars (ParseBuffer.scanString content (buffer.offset + 1) 0) with
    | none => return false
    | some (inputEnd, skippedBytes) =>
      let allocationLength := inputEnd - buffer.offset - skippedBytes
      match ← alloc allocator (.text []) with
      | none => return false
      | some output =>
        let input ← onVars (readRange content (buffer.offset + 1) inputEnd)
        match decodeString input.length input with
        | none =>
          free output
          return false
        | some bytes =>
          fill output (allocationLength + 1) bytes
          setItem item fun i => { i with type := typeString, valuestring := some output }
          onVars (set { buffer with offset := inputEnd + 1 })
          return true

/-- `parse_number`. -/
def parseNumber (item : Nat) : Parser Bool := do
  let buffer ← onVars get
  let numberStringLength ← onVars (numberLength content 0)
  match ← alloc allocator (.text []) with
  | none => return false
  | some numberCString =>
    let number ← onVars (readRange content buffer.offset (buffer.offset + numberStringLength))
    fill numberCString (numberStringLength + 1) number
    match Numeral.strtod number with
    | none =>
      free numberCString
      return false
    | some (value, afterEnd) =>
      setItem item fun i => { i with valueint := Numeral.toInt value, type := typeNumber }
      onVars (advance (number.length - afterEnd.length))
      free numberCString
      return true

/-! ## Values -/

/-- The item after the last one: `current_item->next = new_item`, and so on. -/
def attach (head current : Tree) (new : Nat) : Parser Tree := do
  match head, current with
  | none, _ => return some new
  | some _, some last =>
    setItem last fun i => { i with next := some new }
    setItem new fun i => { i with prev := current }
    return head
  | some _, none => Checked.undefined

/-- `if (head != NULL) { head->prev = current_item; }`. -/
def closeList (head current : Tree) : Parser Unit :=
  match head with
  | some first => setItem first fun i => { i with prev := current }
  | none => return

/-- `parse_array` and `parse_object` from `success` on. -/
def finish (item type : Nat) (head current : Tree) : Parser Bool := do
  onVars (modify fun buffer => { buffer with depth := buffer.depth - 1 })
  closeList head current
  setItem item fun i => { i with type := type, child := head }
  onVars (advance 1)
  return true

mutual

/-- `parse_value`. -/
def parseValue (item : Tree) : Parser Bool :=
  match item with
  | none => Checked.undefined
  | some p => do
    if ← onVars (startsWith content (ofString "null")) then
      setItem p fun i => { i with type := typeNull }
      onVars (advance 4)
      return true
    else if ← onVars (startsWith content (ofString "false")) then
      setItem p fun i => { i with type := typeFalse }
      onVars (advance 5)
      return true
    else if ← onVars (startsWith content (ofString "true")) then
      setItem p fun i => { i with type := typeTrue, valueint := 1 }
      onVars (advance 4)
      return true
    else if ← onVars (isAt content (byte '"')) then
      parseString allocator content p
    else if ← onVars (isAtNumber content) then
      parseNumber allocator content p
    else if ← onVars (isAt content (byte '[')) then
      item |>.parseArray
    else if ← onVars (isAt content (byte '\x7b')) then
      item |>.parseObject
    else
      return false
partial_fixpoint

/-- `parse_array`. -/
def parseArray (item : Tree) : Parser Bool :=
  match item with
  | none => Checked.undefined
  | some p => do
    let buffer ← onVars get
    if buffer.depth ≥ nestingLimit then
      return false
    else
      onVars (set { buffer with depth := buffer.depth + 1 })
      let first ← onVars (readAt content 0)
      if first ≠ byte '[' then
        return false
      else
        onVars (advance 1)
        onVars (ParseBuffer.skipWhitespace content)
        if ← onVars (isAt content (byte ']')) then
          finish p typeArray none none
        else
          -- the end of the buffer is not reached: the NUL is in it
          let more ← onVars (canAccessAtIndex content 0)
          onVars stepBack
          if more then
            let head : Tree := none
            let (parsed, head, current) ← head |>.parseElements none
            if parsed then
              finish p typeArray head current
            else
              delete head
              return false
          else
            return false
partial_fixpoint

/-- The loop of `parse_array`, with the check for the closing bracket. -/
def parseElements (head current : Tree) : Parser (Bool × Tree × Tree) := do
  match ← newItem allocator with
  | none => return (false, head, current)
  | some new =>
    let head ← attach head current new
    let current : Tree := some new
    onVars (advance 1)
    onVars (ParseBuffer.skipWhitespace content)
    if ← current |>.parseValue then
      onVars (ParseBuffer.skipWhitespace content)
      if ← onVars (isAt content (byte ',')) then
        head |>.parseElements current
      else
        let closed ← onVars (isAt content (byte ']'))
        return (closed, head, current)
    else
      return (false, head, current)
partial_fixpoint

/-- `parse_object`. -/
def parseObject (item : Tree) : Parser Bool :=
  match item with
  | none => Checked.undefined
  | some p => do
    let buffer ← onVars get
    if buffer.depth ≥ nestingLimit then
      return false
    else
      onVars (set { buffer with depth := buffer.depth + 1 })
      if ← onVars (isAt content (byte '\x7b')) then
        onVars (advance 1)
        onVars (ParseBuffer.skipWhitespace content)
        if ← onVars (isAt content (byte '\x7d')) then
          finish p typeObject none none
        else
          let more ← onVars (canAccessAtIndex content 0)
          onVars stepBack
          if more then
            let head : Tree := none
            let (parsed, head, current) ← head |>.parseFields none
            if parsed then
              finish p typeObject head current
            else
              delete head
              return false
          else
            return false
      else
        return false
partial_fixpoint

/-- The loop of `parse_object`, with the check for the closing brace. -/
def parseFields (head current : Tree) : Parser (Bool × Tree × Tree) := do
  match ← newItem allocator with
  | none => return (false, head, current)
  | some new =>
    let head ← attach head current new
    let current : Tree := some new
    if ← onVars (canAccessAtIndex content 1) then
      onVars (advance 1)
      onVars (ParseBuffer.skipWhitespace content)
      if ← parseString allocator content new then
        onVars (ParseBuffer.skipWhitespace content)
        setItem new fun i => { i with string := i.valuestring, valuestring := none }
        if ← onVars (isAt content (byte ':')) then
          onVars (advance 1)
          onVars (ParseBuffer.skipWhitespace content)
          if ← current |>.parseValue then
            onVars (ParseBuffer.skipWhitespace content)
            if ← onVars (isAt content (byte ',')) then
              head |>.parseFields current
            else
              let closed ← onVars (isAt content (byte '\x7d'))
              return (closed, head, current)
          else
            return (false, head, current)
        else
          return (false, head, current)
      else
        return (false, head, current)
    else
      return (false, head, current)
partial_fixpoint

end

/-- `cJSON_Parse`. -/
def parse : Parser Tree := do
  match ← newItem allocator with
  | none => return none
  | some root =>
    let item : Tree := some root
    onVars (ParseBuffer.skipUtf8Bom content)
    onVars (ParseBuffer.skipWhitespace content)
    if ← parseValue allocator content item then
      return item
    else
      delete item
      return none

end Tree

end CJson

end Xiaozhi
