-- SUMMARY: The printer of cJSON on its growing buffer, byte for byte, with the allocator that may fail.
import Xiaozhi.Data.Checked
import Xiaozhi.Protocol.CJson
import Xiaozhi.Protocol.Json

/-!
# The print buffer

`print` of `cJSON.c` and what it calls, without formatting, with the default
hooks. Every write is checked against the block that it goes to, and `strlen`
against the NUL that it looks for. All items have their strings, and all numbers
are `int`: their `valuedouble` is their `valueint`.
-/

namespace Xiaozhi

namespace CJson

open CString

/-- `INT_MAX`. -/
def maxSize : Nat := 2 ^ 31 - 1

/-- `internal_hooks`: which of the calls fail, and what is in a fresh block. -/
structure InternalHooks where
  fails : Nat → Bool
  fresh : Nat → Nat → UInt8

/-- The block that a call of the allocator makes of `old`. -/
def InternalHooks.block (heap : InternalHooks) (call : Nat) (old : Bytes) (size : Nat) : Bytes :=
  old.take size ++ (List.range (size - old.length)).map (heap.fresh call)

/-- `printbuffer`, with the state of the allocator. -/
structure PrintBuffer where
  buffer : Option Bytes
  length : Nat
  offset : Nat
  depth : Nat
  /-- The number of calls of the allocator. -/
  calls : Nat
  /-- The number of blocks that have not been freed. -/
  blocks : Nat

/-- A function on the print buffer. -/
abbrev Printer : Type → Type := Checked PrintBuffer

variable (heap : InternalHooks)

/-! ## Memory -/

/-- A write of `data` at `pos` in the buffer. -/
def write (pos : Nat) (data : Bytes) : Printer Unit := do
  let p ← get
  match p.buffer.bind fun block => Block.write block pos data with
  | some block => set { p with buffer := some block }
  | none => Checked.undefined

/-- `hooks.allocate`. -/
def allocate (size : Nat) : Printer (Option Bytes) := do
  let p ← get
  if heap.fails p.calls then
    set { p with calls := p.calls + 1 }
    return none
  else
    set { p with calls := p.calls + 1, blocks := p.blocks + 1 }
    return some (heap.block p.calls [] size)

/-- `hooks.reallocate`; the old block is gone just if it succeeds. -/
def reallocate (old : Bytes) (size : Nat) : Printer (Option Bytes) := do
  let p ← get
  set { p with calls := p.calls + 1 }
  return if heap.fails p.calls then none else some (heap.block p.calls old size)

/-- `hooks.deallocate`; each block is freed once. -/
def deallocate : Printer Unit := do
  let p ← get
  if p.blocks = 0 then
    Checked.undefined
  else
    set { p with blocks := p.blocks - 1 }

/-- `ensure`: the place behind the text so far, where `needed` bytes and a NUL fit. -/
def ensure (needed : Nat) : Printer (Option Nat) := do
  let p ← get
  match p.buffer with
  | none => return none
  | some block =>
    if p.length > 0 ∧ p.offset ≥ p.length then
      return none
    else if needed > maxSize then
      return none
    else
      let needed := needed + p.offset + 1
      if needed ≤ p.length then
        return some p.offset
      else if maxSize < needed then
        return none
      else
        let newsize := if needed > maxSize / 2 then maxSize else needed * 2
        match ← reallocate heap block newsize with
        | none =>
          deallocate
          modify fun p => { p with length := 0, buffer := none }
          return none
        | some newbuffer =>
          modify fun p => { p with length := newsize, buffer := some newbuffer }
          return some p.offset

/-- `update_offset`. -/
def updateOffset : Printer Unit := do
  let p ← get
  match p.buffer with
  | none => return
  | some block =>
    match Block.strlen block p.offset with
    | some length => set { p with offset := p.offset + length }
    | none => Checked.undefined

/-- `offset += n`. -/
def advanceOffset (n : Nat) : Printer Unit := modify fun p => { p with offset := p.offset + n }

/-! ## Strings and numbers -/

/-- The letter that `print_string_ptr` writes behind a backslash. -/
def escapeLetter (b : UInt8) : Option UInt8 :=
  if b = byte '\\' then some (byte '\\')
  else if b = byte '"' then some (byte '"')
  else if b = 8 then some (byte 'b')
  else if b = 12 then some (byte 'f')
  else if b = 10 then some (byte 'n')
  else if b = 13 then some (byte 'r')
  else if b = 9 then some (byte 't')
  else none

/-- The first loop of `print_string_ptr`: the characters needed for escapes. -/
def escapeCharacters : Bytes → Nat
  | [] => 0
  | b :: input =>
    (if b = byte '"' ∨ b = byte '\\' ∨ b = 8 ∨ b = 12 ∨ b = 10 ∨ b = 13 ∨ b = 9 then 1
      else if b < 32 then 5
      else 0) + escapeCharacters input

/-- The second loop of `print_string_ptr`, from `output_pointer` on. The NUL of
    `sprintf` is overwritten by what comes next. -/
def copyEscaped : Nat → Bytes → Printer Unit
  | _, [] => return
  | outputPointer, b :: input => do
    if b > 31 ∧ b ≠ byte '"' ∧ b ≠ byte '\\' then
      write outputPointer [b]
      copyEscaped (outputPointer + 1) input
    else
      write outputPointer [byte '\\']
      match escapeLetter b with
      | some letter =>
        write (outputPointer + 1) [letter]
        copyEscaped (outputPointer + 2) input
      | none =>
        write (outputPointer + 1)
          (ofString "u00" ++ [Json.hexDigit (b.toNat / 16), Json.hexDigit (b.toNat % 16), 0])
        copyEscaped (outputPointer + 6) input

/-- `print_string_ptr`. -/
def printStringPtr (input : Bytes) : Printer Bool := do
  let input := ofBytes input
  let escapes := escapeCharacters input
  let outputLength := input.length + escapes
  match ← ensure heap (outputLength + 3) with
  | none => return false
  | some output =>
    write output [byte '"']
    if escapes = 0 then
      write (output + 1) input
    else
      copyEscaped (output + 1) input
    write (output + outputLength + 1) [byte '"', 0]
    return true

/-- `print_number`, of a number whose `valuedouble` is its `valueint`. -/
def printNumber (n : Int) : Printer Bool := do
  let number := ofInt n
  if number.length > 25 then
    return false
  else
    match ← ensure heap (number.length + 1) with
    | none => return false
    | some output =>
      write output (number ++ [0])
      advanceOffset number.length
      return true

/-- `strcpy` of a literal behind the text so far. -/
def printLiteral (text : Bytes) : Printer Bool := do
  match ← ensure heap (text.length + 1) with
  | none => return false
  | some output =>
    write output (text ++ [0])
    return true

/-- A character that the text goes on behind; `needed` is what is asked for. -/
def printChar (needed : Nat) (c : UInt8) : Printer Bool := do
  match ← ensure heap needed with
  | none => return false
  | some output =>
    write output [c]
    advanceOffset 1
    return true

/-! ## Values -/

mutual

/-- `print_value`. -/
def printValue : Json → Printer Bool
  | .null => printLiteral heap (ofString "null")
  | .bool false => printLiteral heap (ofString "false")
  | .bool true => printLiteral heap (ofString "true")
  | .number n => printNumber heap n
  | .string s => printStringPtr heap s
  | .array items => do
    -- `print_array`
    if (← get).depth ≥ nestingLimit then
      return false
    else if ¬(← printChar heap 1 (byte '[')) then
      return false
    else
      modify fun p => { p with depth := p.depth + 1 }
      if ¬(← printElements items) then
        return false
      else if ¬(← printLiteral heap (ofString "]")) then
        return false
      else
        modify fun p => { p with depth := p.depth - 1 }
        return true
  | .object members => do
    -- `print_object`
    if (← get).depth ≥ nestingLimit then
      return false
    else if ¬(← printChar heap 2 (byte '\x7b')) then
      return false
    else
      modify fun p => { p with depth := p.depth + 1 }
      if ¬(← printFields members) then
        return false
      else if ¬(← printLiteral heap (ofString "\x7d")) then
        return false
      else
        modify fun p => { p with depth := p.depth - 1 }
        return true

/-- The loop of `print_array`. -/
def printElements : List Json → Printer Bool
  | [] => return true
  | item :: items => do
    if ¬(← printValue item) then
      return false
    else
      updateOffset
      if items.isEmpty then
        return true
      else
        match ← ensure heap 2 with
        | none => return false
        | some output =>
          write output [byte ',', 0]
          advanceOffset 1
          printElements items

/-- The loop of `print_object`. -/
def printFields : List (Bytes × Json) → Printer Bool
  | [] => return true
  | (string, item) :: items => do
    if ¬(← printStringPtr heap string) then
      return false
    else
      updateOffset
      if ¬(← printChar heap 1 (byte ':')) then
        return false
      else if ¬(← printValue item) then
        return false
      else
        updateOffset
        let comma := if items.isEmpty then [] else [byte ',']
        match ← ensure heap (comma.length + 1) with
        | none => return false
        | some output =>
          write output (comma ++ [0])
          advanceOffset comma.length
          printFields items

end

/-- `goto fail` of `print`. -/
def printFail : Printer (Option Bytes) := do
  if (← get).buffer.isSome then
    deallocate
    modify fun p => { p with buffer := none }
  return none

/-- `print`, from its `memset` on: the block that it returns. -/
def print (item : Json) : Printer (Option Bytes) := do
  let buffer ← allocate heap 256
  modify fun p => { p with buffer, length := 256 }
  if buffer.isNone then
    printFail
  else if ¬(← printValue heap item) then
    printFail
  else
    updateOffset
    let p ← get
    match p.buffer with
    | none => printFail
    | some block =>
      match ← reallocate heap block (p.offset + 1) with
      | none => printFail
      | some printed =>
        modify fun p => { p with buffer := none }
        return some printed

/-- `cJSON_PrintUnformatted`: what it returns, the number of blocks that it leaves,
    and the number of calls of the allocator. -/
def cjsonPrintUnformatted (item : Json) : Option (Option Bytes × Nat × Nat) :=
  ((print heap item).run { buffer := none, length := 0, offset := 0, depth := 0, calls := 0, blocks := 0 }).map
    fun r => (r.1, r.2.blocks, r.2.calls)

end CJson

end Xiaozhi
