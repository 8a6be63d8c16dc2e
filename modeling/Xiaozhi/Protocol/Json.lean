-- SUMMARY: JSON values as the parser of the application sees them, with member lookup and printing.
import Xiaozhi.Data.CString

/-!
# JSON values

The part of cJSON's item type that the application reads. Numbers carry the
`valueint` that cJSON computes from them; a key is the C string in `string`.
-/

namespace Xiaozhi

/-- A parsed JSON value. -/
inductive Json where
  | null
  | bool (value : Bool)
  | number (valueint : Int)
  | string (valuestring : Bytes)
  | array (items : List Json)
  | object (members : List (Bytes × Json))

namespace Json

/-- `tolower` on ASCII. -/
def tolower (b : UInt8) : UInt8 := if 65 ≤ b ∧ b ≤ 90 then b + 32 else b

/-- `case_insensitive_strcmp(a, b) == 0`. -/
def sameKey (a b : Bytes) : Bool := a.map tolower == b.map tolower

/-- `cJSON_GetObjectItem`: the first member whose key matches, letter case aside. -/
def getObjectItem (item : Json) (name : Bytes) : Option Json :=
  match item with
  | .object members => (members.find? fun m => sameKey name m.1).map (·.2)
  | _ => none

/-- `cJSON_GetObjectItemCaseSensitive`: the first member whose key matches. -/
def getObjectItemCaseSensitive (item : Json) (name : Bytes) : Option Json :=
  match item with
  | .object members => (members.find? fun m => name == m.1).map (·.2)
  | _ => none

/-- `cJSON_IsObject`. -/
def isObject : Option Json → Bool
  | some (.object _) => true
  | _ => false

/-! ## Printing -/

/-- A hexadecimal digit of `%04x`. -/
def hexDigit (n : Nat) : UInt8 := (Nat.digitChar n).toNat.toUInt8

/-- The characters that `print_string_ptr` writes for one character. -/
def escapeByte (b : UInt8) : Bytes :=
  if b > 31 ∧ b ≠ CString.byte '\"' ∧ b ≠ CString.byte '\\' then [b]
  else if b = CString.byte '\\' then CString.ofString "\\\\"
  else if b = CString.byte '\"' then CString.ofString "\\\""
  else if b = 8 then CString.ofString "\\b"
  else if b = 12 then CString.ofString "\\f"
  else if b = 10 then CString.ofString "\\n"
  else if b = 13 then CString.ofString "\\r"
  else if b = 9 then CString.ofString "\\t"
  else CString.ofString "\\u00" ++ [hexDigit (b.toNat / 16), hexDigit (b.toNat % 16)]

/-- `print_string_ptr`. -/
def printString (s : Bytes) : Bytes :=
  CString.ofString "\"" ++ (CString.ofBytes s).flatMap escapeByte ++ CString.ofString "\""

mutual

/-- `cJSON_PrintUnformatted`, with the allocations succeeding, of a value whose numbers
    are `int`: where `valuedouble` is not `valueint`, `print_number` prints that. -/
def printUnformatted : Json → Bytes
  | .null => CString.ofString "null"
  | .bool true => CString.ofString "true"
  | .bool false => CString.ofString "false"
  | .number n => CString.ofInt n
  | .string s => printString s
  | .array items => CString.ofString "[" ++ printItems items ++ CString.ofString "]"
  | .object members => CString.ofString "\x7b" ++ printMembers members ++ CString.ofString "\x7d"

/-- The items of an array, with commas between them. -/
def printItems : List Json → Bytes
  | [] => []
  | [item] => printUnformatted item
  | item :: items => printUnformatted item ++ CString.ofString "," ++ printItems items

/-- The members of an object, with commas between them. -/
def printMembers : List (Bytes × Json) → Bytes
  | [] => []
  | [(key, value)] => printString key ++ CString.ofString ":" ++ printUnformatted value
  | (key, value) :: members =>
    printString key ++ CString.ofString ":" ++ printUnformatted value ++ CString.ofString "," ++
      printMembers members

end

end Json

end Xiaozhi
