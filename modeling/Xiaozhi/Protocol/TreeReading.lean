-- SUMMARY: What the application reads of a parsed text in memory, and that it frees all of it.
import Xiaozhi.Protocol.Messages
import Xiaozhi.Protocol.TreeSafety
import Xiaozhi.Startup.Ota

/-!
# Reading a tree

The look-ups of `cJSON.c`, and the functions that parse a text, read some of its
members and delete it: `xiaozhi_parse_incoming_json` and `ota_parse_response`.
Looking up takes no memory and changes none, so its rules are about a whole heap
that has the value somewhere (`Contains`).
-/

namespace Xiaozhi

namespace CJson

namespace Tree

open CString Separation Separation.Assertion

variable {ρ : Type}

/-! ## Look-ups -/

/-- The comparison of `get_object_item`. -/
def matchesKey (caseSensitive : Bool) (name key : Bytes) : Bool :=
  if caseSensitive then name == key else Json.sameKey name key

/-- The loop of `get_object_item`. -/
def findItem (caseSensitive : Bool) (name : Bytes) (current : Tree) : Program Block ρ Tree := do
  match current with
  | none => return none
  | some p =>
    let element ← loadItem p
    match element.string with
    | none => if caseSensitive then return none else element.next |>.findItem caseSensitive name
    | some q =>
      let string ← loadText q
      if matchesKey caseSensitive name (ofBytes string) then
        return some p
      else
        element.next |>.findItem caseSensitive name
partial_fixpoint

/-- `get_object_item`. -/
def getObjectItem (caseSensitive : Bool) (object : Tree) (name : String) : Program Block ρ Tree := do
  match object with
  | none => return none
  | some p =>
    let item ← loadItem p
    findItem caseSensitive (ofString name) item.child

/-- `item->valuestring`, if `cJSON_IsString(item)`. -/
def stringValue (item : Tree) : Program Block ρ (Option Bytes) := do
  match item with
  | none => return none
  | some p =>
    let i ← loadItem p
    if i.type &&& 0xFF = typeString then
      match i.valuestring with
      | some q => return some (ofBytes (← loadText q))
      | none => Checked.undefined
    else
      return none

/-- `item->valueint`, if `cJSON_IsNumber(item)`. -/
def numberValue (item : Tree) : Program Block ρ (Option Int) := do
  match item with
  | none => return none
  | some p =>
    let i ← loadItem p
    return if i.type &&& 0xFF = typeNumber then some i.valueint else none

/-- `cJSON_IsObject`. -/
def isObject (item : Tree) : Program Block ρ Bool := do
  match item with
  | none => return false
  | some p =>
    let i ← loadItem p
    return i.type &&& 0xFF = typeObject

/-! ## Messages -/

/-- `parse_type`, of a text of type `"tts"`. -/
def parseState (state : Tree) : Program Block ρ XiaozhiEventType := do
  match ← stringValue state with
  | none => return .unknown
  | some t =>
    if t = ofString "start" then return .ttsStart
    else if t = ofString "stop" then return .ttsStop
    else if t = ofString "sentence_start" ∨ t = ofString "sentence_end" then return .ttsSentence
    else return .unknown

/-- `parse_type`. -/
def parseType (type state : Tree) : Program Block ρ XiaozhiEventType := do
  match ← stringValue type with
  | none => return .unknown
  | some t =>
    if t = ofString "hello" then return .hello
    else if t = ofString "stt" then return .stt
    else if t = ofString "llm" then return .llm
    else if t = ofString "system" then return .system
    else if t = ofString "mcp" then return .mcp
    else if t = ofString "iot" then return .iot
    else if t = ofString "tts" then parseState state
    else return .unknown

/-- `copy_json_string`, into a buffer of zeros. -/
def copyJsonString (size : Nat) (item : Tree) : Program Block ρ Bytes := do
  match ← stringValue item with
  | some s => return copy size s
  | none => return []

/-- `if (cJSON_IsNumber(item)) … = item->valueint;`, into a field that is zero. -/
def numberOrZero (item : Tree) : Program Block ρ Int := do
  return (← numberValue item).getD 0

/-- `xiaozhi_parse_incoming_json`, from the parsed text to the event. -/
def readEvent (root : Nat) : Program Block ρ XiaozhiIncomingEvent := do
  let type ← getObjectItem false (some root) "type"
  let state ← getObjectItem false (some root) "state"
  let sessionId ← getObjectItem false (some root) "session_id"
  let text ← getObjectItem false (some root) "text"
  let emotion ← getObjectItem false (some root) "emotion"
  let audioParams ← getObjectItem false (some root) "audio_params"
  let sampleRate ← getObjectItem false audioParams "sample_rate"
  let channels ← getObjectItem false audioParams "channels"
  return {
    type := ← parseType type state
    sessionId := ← copyJsonString 64 sessionId
    text := ← copyJsonString 256 text
    emotion := ← copyJsonString 64 emotion
    outputSampleRate := ← numberOrZero sampleRate
    outputChannels := ← numberOrZero channels }

variable (allocator : Allocator Block)

/-- `xiaozhi_parse_incoming_json`. -/
def parseIncomingJson (json : Bytes) : Parser (Option XiaozhiIncomingEvent) := do
  match ← parse allocator (ofBytes json ++ [0]) with
  | none => return none
  | some root =>
    let event ← readEvent root
    delete (some root)
    return some event

/-! ## The response to the OTA request -/

/-- `ota_copy_json_string`, into a buffer of zeros. -/
def otaCopyJsonString (size : Nat) (object : Tree) (key : String) : Program Block ρ Bytes := do
  copyJsonString size (← getObjectItem true object key)

/-- `ota_parse_response`, from the parsed text to the response. -/
def readResponse (root : Nat) : Program Block ρ OtaResponse := do
  let activation ← getObjectItem true (some root) "activation"
  let activated ← isObject activation
  let code ← (if activated then otaCopyJsonString 64 activation "code" else return [])
  let message ← (if activated then otaCopyJsonString 256 activation "message" else return [])
  let websocket ← getObjectItem true (some root) "websocket"
  let connected ← isObject websocket
  let url ← (if connected then otaCopyJsonString 256 websocket "url" else return [])
  let token ← (if connected then otaCopyJsonString 256 websocket "token" else return [])
  return {
    activationRequired := code ≠ []
    activation := { code := code, message := message }
    websocket := { url := url, token := token } }

/-- `ota_parse_response`. -/
def parseResponse (json : Bytes) : Parser (Except Bytes OtaResponse) := do
  match ← parse allocator (ofBytes json ++ [0]) with
  | none => return .error (ofString "invalid ota response json")
  | some root =>
    let response ← readResponse root
    delete (some root)
    return .ok response

/-! ## Values in a heap -/

variable {s : State Block ρ} {v : Json} {p q : Nat} {name : Bytes} {caseSensitive : Bool}

/-- The value is somewhere in the heap, with its item at `p`. -/
def Contains (h : Heap Block) (p : Nat) (v : Json) : Prop :=
  ∃ i : Item, (itemAt p i * holds v i.toItemData * ⊤) h

/-- A pointer to the value, or `NULL` if there is none. -/
abbrev Found (h : Heap Block) : Tree → Option Json → Prop := Option.Rel (Contains h)

theorem reads_loadItem {i : Item} {R : Assertion Block} (h : (itemAt p i * R) s.heap) :
    (loadItem p).reads (· = i) s := by
  refine (reads_load h).bind fun c hc => ?_
  rw [hc]
  exact Checked.reads_pure.mpr rfl

theorem reads_loadText {text : Bytes} {R : Assertion Block}
    (h : (cell q (Block.text text) * R) s.heap) : (loadText q).reads (· = text) s := by
  refine (reads_load h).bind fun c hc => ?_
  rw [hc]
  exact Checked.reads_pure.mpr rfl

theorem seg_cons_holds {c : Payload} {payloads : List Payload} {first prev last next : Tree}
    {R : Assertion Block} {h : Heap Block} :
    (Seg (c :: payloads) first prev last next * R) h ↔ ∃ p i, (first = some p ∧ i.prev = prev) ∧
      (itemAt p i * c i.toItemData * Seg payloads i.next (some p) last next * R) h := by
  simp only [Seg, Quantale.iSup_mul_distrib, iSup_holds, given_mul, given_holds]

theorem named_holds {c : Payload} {d : ItemData} {R : Assertion Block} {h : Heap Block} :
    (named name c d * R) h ↔ ∃ q text, d.string = some q ∧ ofBytes text = name ∧
      (cell q (Block.text text) * c d * R) h := by
  simp only [named, stringAt, Quantale.iSup_mul_distrib, iSup_holds, given_mul, given_holds]
  constructor
  · rintro ⟨q, hq, text, htext, h⟩
    exact ⟨q, text, hq, htext, h⟩
  · rintro ⟨q, text, hq, htext, h⟩
    exact ⟨q, hq, text, htext, h⟩

/-- A part of the heap that has the value. -/
theorem contains_of {i : Item} {R : Assertion Block} {h : Heap Block}
    (hR : (itemAt p i * holds v i.toItemData * R) h) : Contains h p v :=
  ⟨i, holds_of_le (mul_le_mul_right le_top _) hR⟩

/-- The members of an object are searched in order. -/
theorem reads_findItem_members {members : List (Bytes × Json)} {current prev last : Tree}
    {R : Assertion Block}
    (h : (Seg (members.map fun m => named m.1 (holds m.2)) current prev last none * R) s.heap) :
    (findItem caseSensitive name current).reads (Found s.heap ·
      ((members.find? fun m => matchesKey caseSensitive name m.1).map (·.2))) s := by
  induction members generalizing current prev R with
  | nil =>
    rw [List.map_nil, Seg, given_mul, given_holds] at h
    rw [h.1.1, findItem]
    exact Checked.reads_pure.mpr .none
  | cons m members ih =>
    rw [List.map_cons] at h
    -- the first member; the list behind it stays in the frame
    obtain ⟨p, i, hi, h⟩ := seg_cons_holds.mp h
    generalize members.map (fun m => named m.1 (holds m.2)) = payloads at h ih
    have hmember : (named m.1 (holds m.2) i.toItemData *
        (itemAt p i * Seg payloads i.next (some p) last none * R)) s.heap :=
      holds_of_eq (by ac_rfl) h
    obtain ⟨q, text, hq, htext, hname⟩ := named_holds.mp hmember
    have hitem : (itemAt p i * (named m.1 (holds m.2) i.toItemData *
        Seg payloads i.next (some p) last none * R)) s.heap := holds_of_eq (by ac_rfl) h
    have hstring : (cell q (Block.text text) * (holds m.2 i.toItemData *
        (itemAt p i * Seg payloads i.next (some p) last none * R))) s.heap :=
      holds_of_eq (mul_assoc _ _ _) hname
    rw [hi.1, findItem]
    refine (reads_loadItem hitem).bind fun j hj => ?_
    rw [hj, hq]
    refine (reads_loadText hstring).bind fun t ht => ?_
    rw [ht, htext, List.find?_cons]
    split
    · next hmatch =>
      rw [hmatch]
      exact Checked.reads_pure.mpr (.some (contains_of (i := i) (R := cell q (Block.text text) *
        (Seg payloads i.next (some p) last none * R)) (holds_of_eq (by ac_rfl) hname)))
    · next hmatch =>
      rw [Bool.not_eq_true] at hmatch
      rw [hmatch]
      exact ih (R := itemAt p i * named m.1 (holds m.2) i.toItemData * R)
        (holds_of_eq (by ac_rfl) h)

/-- The items of an array have no names. -/
theorem reads_findItem_items {items : List Json} {current prev last : Tree}
    {R : Assertion Block}
    (h : (Seg (items.map fun v => unnamed (holds v)) current prev last none * R) s.heap) :
    (findItem caseSensitive name current).reads (· = none) s := by
  induction items generalizing current prev R with
  | nil =>
    rw [List.map_nil, Seg, given_mul, given_holds] at h
    rw [h.1.1, findItem]
    exact Checked.reads_pure.mpr rfl
  | cons v items ih =>
    rw [List.map_cons] at h
    obtain ⟨p, i, hi, h⟩ := seg_cons_holds.mp h
    generalize items.map (fun v => unnamed (holds v)) = payloads at h ih
    have hunnamed : (unnamed (holds v) i.toItemData *
        (itemAt p i * Seg payloads i.next (some p) last none * R)) s.heap :=
      holds_of_eq (by ac_rfl) h
    rw [unnamed, given_mul, given_holds] at hunnamed
    have hitem : (itemAt p i * (unnamed (holds v) i.toItemData *
        Seg payloads i.next (some p) last none * R)) s.heap := holds_of_eq (by ac_rfl) h
    rw [hi.1, findItem]
    refine (reads_loadItem hitem).bind fun j hj => ?_
    rw [hj, hunnamed.1]
    dsimp only
    split
    · exact Checked.reads_pure.mpr rfl
    · exact ih (R := itemAt p i * unnamed (holds v) i.toItemData * R)
        (holds_of_eq (by ac_rfl) h)

/-- The look-up in a value. -/
def lookup (caseSensitive : Bool) (name : Bytes) (v : Json) : Option Json :=
  if caseSensitive then v.getObjectItemCaseSensitive name else v.getObjectItem name

theorem lookup_object (members : List (Bytes × Json)) : lookup caseSensitive name (.object members) =
    (members.find? fun m => matchesKey caseSensitive name m.1).map (·.2) := by
  cases caseSensitive <;> rfl

theorem lookup_of_not_object (h : ∀ members, v ≠ .object members) :
    lookup caseSensitive name v = none := by
  cases v with
  | object members => exact absurd rfl (h members)
  | _ => cases caseSensitive <;> rfl

/-- A value without children. -/
def Leaf : Json → Prop
  | .array _ | .object _ => False
  | _ => True

theorem holds_leaf (hv : Leaf v) (d : ItemData) :
    holds v d ≤ given (d.child = none) (holds v d) := by
  cases v with
  | null => exact given_le fun h => le_given h.2.1 (le_given h le_rfl)
  | bool b => exact given_le fun h => le_given h.2.1 (le_given h le_rfl)
  | number n => exact given_le fun h => le_given h.2.2.1 (le_given h le_rfl)
  | string s =>
    refine iSup_le fun q => given_le fun h => le_given h.2.1 (le_iSup_of_le q (le_given h le_rfl))
  | array items => exact False.elim hv
  | object members => exact False.elim hv

theorem reads_getObjectItem {object : Tree} {w : Option Json} {name : String}
    (h : Found s.heap object w) : (getObjectItem caseSensitive object name).reads
      (Found s.heap · (w.bind (lookup caseSensitive (ofString name)))) s := by
  cases h with
  | none => exact Checked.reads_pure.mpr .none
  | @some p v hp =>
    obtain ⟨i, hi⟩ := hp
    rw [getObjectItem, Option.bind_some]
    refine (reads_loadItem (holds_of_eq (mul_assoc _ _ _) hi)).bind fun j hj => ?_
    rw [hj]
    have hdata : (holds v i.toItemData * (itemAt p i * ⊤)) s.heap := holds_of_eq (by ac_rfl) hi
    by_cases hleaf : Leaf v
    · -- there is no child to search
      have hchild : (given (i.child = none) (holds v i.toItemData) * (itemAt p i * ⊤)) s.heap :=
        holds_of_le (mul_le_mul_left (holds_leaf hleaf _) _) hdata
      rw [given_mul, given_holds] at hchild
      have hlookup : lookup caseSensitive (ofString name) v = none :=
        lookup_of_not_object fun members hv => by rw [hv] at hleaf; exact hleaf
      rw [hchild.1, hlookup, findItem]
      exact Checked.reads_pure.mpr .none
    · cases v with
      | array items =>
        rw [holds, given_mul, given_holds, children, itemPayloads_eq, Quantale.iSup_mul_distrib,
          iSup_holds] at hdata
        obtain ⟨-, last, hlist⟩ := hdata
        refine (reads_findItem_items hlist).mono fun r hr => ?_
        rw [lookup_of_not_object (fun members => Json.noConfusion), hr]
        exact .none
      | object members =>
        rw [holds, given_mul, given_holds, children, memberPayloads_eq, Quantale.iSup_mul_distrib,
          iSup_holds] at hdata
        obtain ⟨-, last, hlist⟩ := hdata
        rw [lookup_object]
        exact reads_findItem_members hlist
      | _ => exact absurd trivial hleaf

/-- The type of an item that holds a value. -/
def typeOf : Json → Nat
  | .null => typeNull
  | .bool b => if b then typeTrue else typeFalse
  | .number _ => typeNumber
  | .string _ => typeString
  | .array _ => typeArray
  | .object _ => typeObject

theorem holds_type (v : Json) (d : ItemData) : holds v d ≤ given (d.type = typeOf v) (holds v d) := by
  cases v with
  | string s => exact iSup_le fun q => given_le fun h => le_given h.1 (le_iSup_of_le q (le_given h le_rfl))
  | _ => exact given_le fun h => le_given h.1 (le_given h le_rfl)

/-- The string that a value is. -/
def asString : Json → Option Bytes
  | .string s => some s
  | _ => none

/-- The number that a value is. -/
def asNumber : Json → Option Int
  | .number n => some n
  | _ => none

theorem Contains.item (h : Contains s.heap p v) : ∃ i : Item, i.type = typeOf v ∧
    (itemAt p i * (holds v i.toItemData * ⊤)) s.heap := by
  obtain ⟨i, hi⟩ := h
  have htype : (given (i.type = typeOf v) (holds v i.toItemData) * (itemAt p i * ⊤)) s.heap :=
    holds_of_le (mul_le_mul_left (holds_type v _) _) (holds_of_eq (by ac_rfl) hi)
  rw [given_mul, given_holds] at htype
  exact ⟨i, htype.1, holds_of_eq (mul_assoc _ _ _) hi⟩

theorem typeOf_eq_typeString : typeOf v &&& 0xFF = typeString ↔ ∃ s, v = .string s := by
  cases v with
  | bool b => cases b <;> simp [typeOf, typeTrue, typeFalse, typeString]
  | _ => simp [typeOf, typeNull, typeNumber, typeString, typeArray, typeObject]

theorem typeOf_eq_typeNumber : typeOf v &&& 0xFF = typeNumber ↔ ∃ n, v = .number n := by
  cases v with
  | bool b => cases b <;> simp [typeOf, typeTrue, typeFalse, typeNumber]
  | _ => simp [typeOf, typeNull, typeNumber, typeString, typeArray, typeObject]

theorem typeOf_eq_typeObject : typeOf v &&& 0xFF = typeObject ↔ Json.isObject (some v) = true := by
  cases v with
  | bool b => cases b <;> simp [typeOf, typeTrue, typeFalse, typeObject, Json.isObject]
  | _ => simp [typeOf, typeNull, typeNumber, typeString, typeArray, typeObject, Json.isObject]

theorem reads_stringValue {item : Tree} {w : Option Json} (h : Found s.heap item w) :
    (stringValue item).reads (fun r => r = w.bind asString ∧
      ∀ text, r = some text → ofBytes text = text) s := by
  cases h with
  | none => exact Checked.reads_pure.mpr ⟨rfl, fun text ht => by cases ht⟩
  | @some p v hp =>
    obtain ⟨i, htype, hi⟩ := hp.item
    rw [stringValue]
    refine (reads_loadItem hi).bind fun j hj => ?_
    rw [hj, htype]
    split
    · next hstring =>
      obtain ⟨string, rfl⟩ := typeOf_eq_typeString.mp hstring
      have hdata : (holds (.string string) i.toItemData * (itemAt p i * ⊤)) s.heap :=
        holds_of_eq (by ac_rfl) hi
      rw [holds] at hdata
      simp only [stringAt, Quantale.iSup_mul_distrib, iSup_holds, given_mul, given_holds] at hdata
      obtain ⟨q, hq, text, htext, hcell⟩ := hdata
      rw [hq.2.2]
      refine (reads_loadText hcell).bind fun t ht => Checked.reads_pure.mpr ?_
      rw [ht]
      refine ⟨congrArg some htext, fun t ht => ?_⟩
      rw [← Option.some.inj ht, ofBytes_ofBytes]
    · next hstring =>
      refine Checked.reads_pure.mpr ⟨?_, fun text ht => by cases ht⟩
      cases v with
      | string string => exact absurd (typeOf_eq_typeString.mpr ⟨string, rfl⟩) hstring
      | _ => rfl

theorem reads_numberValue {item : Tree} {w : Option Json} (h : Found s.heap item w) :
    (numberValue item).reads (· = w.bind asNumber) s := by
  cases h with
  | none => exact Checked.reads_pure.mpr rfl
  | @some p v hp =>
    obtain ⟨i, htype, hi⟩ := hp.item
    rw [numberValue]
    refine (reads_loadItem hi).bind fun j hj => Checked.reads_pure.mpr ?_
    rw [hj, htype]
    split
    · next hnumber =>
      obtain ⟨n, rfl⟩ := typeOf_eq_typeNumber.mp hnumber
      have hdata : (holds (.number n) i.toItemData * (itemAt p i * ⊤)) s.heap :=
        holds_of_eq (by ac_rfl) hi
      rw [holds, given_mul, given_holds] at hdata
      exact congrArg some hdata.1.2.1
    · next hnumber =>
      cases v with
      | number n => exact absurd (typeOf_eq_typeNumber.mpr ⟨n, rfl⟩) hnumber
      | _ => rfl

theorem reads_isObject {item : Tree} {w : Option Json} (h : Found s.heap item w) :
    (isObject item).reads (· = Json.isObject w) s := by
  cases h with
  | none => exact Checked.reads_pure.mpr rfl
  | @some p v hp =>
    obtain ⟨i, htype, hi⟩ := hp.item
    rw [isObject]
    refine (reads_loadItem hi).bind fun j hj => Checked.reads_pure.mpr ?_
    rw [hj, htype, Bool.eq_iff_iff, decide_eq_true_iff]
    exact typeOf_eq_typeObject

/-! ## What is read -/

theorem isString_iff {item : Option Json} {text : Bytes} (h : item.bind asString = some text)
    (htext : ofBytes text = text) (t : String) :
    XiaozhiProtocol.isString item t = true ↔ text = ofString t := by
  obtain ⟨v, rfl, hv⟩ := Option.bind_eq_some_iff.mp h
  cases v with
  | string string =>
    obtain rfl := Option.some.inj hv
    rw [XiaozhiProtocol.isString, htext, beq_iff_eq]
  | _ => cases hv

theorem isString_of_none {item : Option Json} (h : item.bind asString = none) (t : String) :
    XiaozhiProtocol.isString item t = false := by
  cases item with
  | none => rfl
  | some v =>
    cases v with
    | string string => cases h
    | _ => rfl

/-- A test of the source is one of the model. -/
theorem reads_ite {b : Bool} {c : Prop} [Decidable c] {α : Type} {x y : Program Block ρ α} {d e : α}
    (h : b = true ↔ c) (hx : x.reads (· = d) s) (hy : y.reads (· = e) s) :
    (if c then x else y).reads (· = if b then d else e) s := by
  by_cases hc : c
  · rw [if_pos hc, if_pos (h.mpr hc)]
    exact hx
  · rw [if_neg hc, if_neg fun hb => hc (h.mp hb)]
    exact hy

theorem reads_return {α : Type} (a : α) : (pure a : Program Block ρ α).reads (· = a) s :=
  Checked.reads_pure.mpr rfl

theorem reads_parseState {state : Tree} {w : Option Json} (h : Found s.heap state w) :
    (parseState state).reads (· =
      if XiaozhiProtocol.isString w "start" then .ttsStart
      else if XiaozhiProtocol.isString w "stop" then .ttsStop
      else if XiaozhiProtocol.isString w "sentence_start" ||
        XiaozhiProtocol.isString w "sentence_end" then .ttsSentence
      else .unknown) s := by
  refine (reads_stringValue h).bind fun r hr => ?_
  obtain ⟨hr, hcstring⟩ := hr
  cases r with
  | none =>
    simp only [isString_of_none hr.symm, Bool.or_self, Bool.false_eq_true, if_false]
    exact reads_return _
  | some text =>
    have hstring := isString_iff hr.symm (hcstring text rfl)
    have hsentence : (XiaozhiProtocol.isString w "sentence_start" ||
        XiaozhiProtocol.isString w "sentence_end") = true ↔
        text = ofString "sentence_start" ∨ text = ofString "sentence_end" := by
      rw [Bool.or_eq_true, hstring, hstring]
    refine reads_ite (hstring _) (reads_return _) (reads_ite (hstring _) (reads_return _) ?_)
    exact reads_ite hsentence (reads_return _) (reads_return _)

theorem reads_parseType {type state : Tree} {t st : Option Json} (ht : Found s.heap type t)
    (hst : Found s.heap state st) :
    (parseType type state).reads (· = XiaozhiProtocol.parseType t st) s := by
  refine (reads_stringValue ht).bind fun r hr => ?_
  obtain ⟨hr, hcstring⟩ := hr
  cases r with
  | none =>
    simp only [XiaozhiProtocol.parseType, isString_of_none hr.symm, Bool.false_eq_true, if_false]
    exact reads_return _
  | some text =>
    have hstring := isString_iff hr.symm (hcstring text rfl)
    rw [XiaozhiProtocol.parseType]
    refine reads_ite (hstring _) (reads_return _) (reads_ite (hstring _) (reads_return _) ?_)
    refine reads_ite (hstring _) (reads_return _) (reads_ite (hstring _) (reads_return _) ?_)
    refine reads_ite (hstring _) (reads_return _) (reads_ite (hstring _) (reads_return _) ?_)
    exact reads_ite (hstring _) (reads_parseState hst) (reads_return _)

theorem reads_copyJsonString {item : Tree} {w : Option Json} {size : Nat}
    (h : Found s.heap item w) :
    (copyJsonString size item).reads (· = XiaozhiProtocol.copyJsonString size w) s := by
  refine (reads_stringValue h).bind fun r hr => ?_
  obtain ⟨rfl, -⟩ := hr
  have hcopy : XiaozhiProtocol.copyJsonString size w = ((w.bind asString).map (copy size)).getD [] := by
    cases w with
    | none => rfl
    | some v => cases v <;> rfl
  rw [hcopy]
  cases w.bind asString with
  | none => exact reads_return _
  | some text => exact reads_return _

theorem reads_numberOrZero {item : Tree} {w : Option Json} (h : Found s.heap item w) :
    (numberOrZero item).reads (· = XiaozhiProtocol.numberOrZero w) s := by
  refine (reads_numberValue h).bind fun r hr => Checked.reads_pure.mpr ?_
  rw [hr]
  cases w with
  | none => rfl
  | some v => cases v <;> rfl

/-- The event is read off the value that was parsed. -/
theorem reads_readEvent (h : Contains s.heap p v) :
    (readEvent p).reads (· = XiaozhiProtocol.readIncomingJson v) s := by
  have hitem (name : String) : (getObjectItem false (some p) name).reads
      (Found s.heap · (v.getObjectItem (ofString name))) s := reads_getObjectItem (.some h)
  refine (hitem "type").bind fun type htype => ?_
  refine (hitem "state").bind fun state hstate => ?_
  refine (hitem "session_id").bind fun sessionId hsessionId => ?_
  refine (hitem "text").bind fun text htext => ?_
  refine (hitem "emotion").bind fun emotion hemotion => ?_
  refine (hitem "audio_params").bind fun audioParams haudioParams => ?_
  refine (reads_getObjectItem haudioParams).bind fun sampleRate hsampleRate => ?_
  refine (reads_getObjectItem haudioParams).bind fun channels hchannels => ?_
  refine (reads_parseType htype hstate).bind fun _ h₁ => ?_
  refine (reads_copyJsonString hsessionId).bind fun _ h₂ => ?_
  refine (reads_copyJsonString htext).bind fun _ h₃ => ?_
  refine (reads_copyJsonString hemotion).bind fun _ h₄ => ?_
  refine (reads_numberOrZero hsampleRate).bind fun _ h₅ => ?_
  refine (reads_numberOrZero hchannels).bind fun _ h₆ => ?_
  subst h₁ h₂ h₃ h₄ h₅ h₆
  exact reads_return _

theorem reads_otaCopyJsonString {object : Tree} {w : Option Json} {size : Nat} {key : String}
    (h : Found s.heap object w) :
    (otaCopyJsonString size object key).reads (· = Ota.copyJsonString size w key) s := by
  refine (reads_getObjectItem h).bind fun item hitem => ?_
  exact reads_copyJsonString hitem

/-- A string of an object is read only if there is the object. -/
theorem reads_ifObject {object : Tree} {w : Option Json} {size : Nat} {key : String}
    {b : Bool} (h : Found s.heap object w) (hb : b = Json.isObject w) :
    (if b then otaCopyJsonString size object key else pure []).reads
      (· = if Json.isObject w then Ota.copyJsonString size w key else []) s := by
  rw [← hb]
  exact reads_ite Iff.rfl (reads_otaCopyJsonString h) (reads_return _)

/-- The response is read off the value that was parsed. -/
theorem reads_readResponse (h : Contains s.heap p v) :
    (readResponse p).reads (· = Ota.readResponse v) s := by
  have hitem (name : String) : (getObjectItem true (some p) name).reads
      (Found s.heap · (v.getObjectItemCaseSensitive (ofString name))) s :=
    reads_getObjectItem (.some h)
  refine (hitem "activation").bind fun activation hactivation => ?_
  refine (reads_isObject hactivation).bind fun activated hactivated => ?_
  refine (reads_ifObject hactivation hactivated).bind fun code h₁ => ?_
  refine (reads_ifObject hactivation hactivated).bind fun message h₂ => ?_
  refine (hitem "websocket").bind fun websocket hwebsocket => ?_
  refine (reads_isObject hwebsocket).bind fun connected hconnected => ?_
  refine (reads_ifObject hwebsocket hconnected).bind fun url h₃ => ?_
  refine (reads_ifObject hwebsocket hconnected).bind fun token h₄ => ?_
  subst h₁ h₂ h₃ h₄
  exact reads_return _

/-! ## Whole runs -/

section Runs

variable {α β : Type}

/-- The state in which `cJSON_Parse` is called, after `calls` calls of the allocator. -/
def start (memory : Heap Block) (calls : Nat) : State Block ParseBuffer where
  heap := memory
  calls := calls
  env := { refused := false, vars := ⟨0, 0⟩ }

/-- `cJSON_Parse` has no undefined behaviour, whatever the text and wherever the
    allocator fails. `NULL` means that the text is no value or that memory was
    refused, and then all that was allocated is freed; a root is that of the
    value, in blocks of its own. -/
theorem parse_run (memory : Heap Block) (calls : Nat) (value : Bytes) :
    ∃ root s', (parse allocator (ofBytes value ++ [0])).run (start memory calls) = some (root, s') ∧
      (root = none → s'.heap = memory ∧ (cjsonParse value = none ∨ s'.env.refused = true)) ∧
      ∀ p, root = some p → ∃ v, cjsonParse value = some v ∧ (tree v p * exactly memory) s'.heap := by
  have hspec : Spec 1 (start memory calls).env (parse allocator (ofBytes value ++ [0])) _ :=
    parse_spec value rfl
  obtain ⟨root, s', hrun, hleft⟩ := hspec.run (start memory calls) rfl
  refine ⟨root, s', hrun, ?_, ?_⟩
  · rintro rfl
    obtain ⟨hnone, hheap⟩ := given_one_holds.mp hleft
    exact ⟨hheap, hnone⟩
  · rintro p rfl
    rw [Outcome, Quantale.iSup_mul_distrib, iSup_holds] at hleft
    obtain ⟨v, hv⟩ := hleft
    rw [given_mul, given_holds] at hv
    exact ⟨v, hv⟩

/-- `cJSON_Delete` frees the blocks of the value, once each, and nothing else. -/
theorem delete_run {memory : Heap Block} {s : State Block ρ}
    (h : (tree v p * exactly memory) s.heap) :
    (delete (some p)).wp (fun _ s' => s'.heap = memory ∧ s'.env = s.env) s := by
  have hdelete := releases_tree v p s.env (exactly memory) s rfl h
  refine hdelete.mono fun _ s' hs' => ?_
  obtain ⟨henv, hheap⟩ := given_one_holds.mp hs'
  exact ⟨hheap, henv⟩

/-- The items of `[{"k":"a"}]`: the array, the object and its member. -/
def sampleItems : Item × Item × Item :=
  (⟨⟨some 1, typeArray, none, 0, none⟩, none, none⟩,
    ⟨⟨some 2, typeObject, none, 0, none⟩, none, some 1⟩,
    ⟨⟨none, typeString, some 4, 0, some 3⟩, none, some 2⟩)

/-- The memory besides it. -/
def sampleMemory : Heap Block := Function.update Heap.empty 7 (some (.text (ofString "b")))

/-- The array `[{"k":"a"}]`, in five blocks. -/
def sampleTree : State Block Unit where
  heap := [(0, Block.item sampleItems.1), (1, .item sampleItems.2.1), (2, .item sampleItems.2.2),
    (3, .text (ofString "k")), (4, .text (ofString "a"))].foldr
      (fun block heap => Function.update heap block.1 (some block.2)) sampleMemory
  calls := 5
  env := { refused := false, vars := () }

/-- The blocks of the sample are those of a tree. -/
theorem le_tree_sample : itemAt 0 sampleItems.1 * (itemAt 1 sampleItems.2.1 *
    (itemAt 2 sampleItems.2.2 * (cell 3 (.text (ofString "k")) * cell 4 (.text (ofString "a"))))) ≤
      tree (.array [.object [(ofString "k", .string (ofString "a"))]]) 0 := by
  have htext {q : Nat} {s : Bytes} (hs : ofBytes s = s) :
      (cell q (.text s) : Assertion Block) ≤ stringAt q s := le_iSup_of_le s (le_given hs le_rfl)
  have hmember : cell 3 (.text (ofString "k")) * cell 4 (.text (ofString "a")) ≤
      named (ofString "k") (holds (.string (ofString "a"))) sampleItems.2.2.toItemData := by
    rw [named, holds]
    refine le_iSup_of_le 3 (le_given rfl (mul_le_mul' (htext (by decide)) ?_))
    exact le_iSup_of_le 4 (le_given ⟨rfl, rfl, rfl⟩ (htext (by decide)))
  have hobject : itemAt 2 sampleItems.2.2 * (cell 3 (.text (ofString "k")) *
      cell 4 (.text (ofString "a"))) ≤ unnamed (holds (.object [(ofString "k",
        .string (ofString "a"))])) sampleItems.2.1.toItemData := by
    rw [unnamed, holds, memberPayloads, memberPayloads]
    refine le_given rfl (le_given ⟨rfl, rfl⟩ ?_)
    exact (mul_le_mul_right hmember _).trans (le_children_singleton rfl rfl)
  rw [tree, holds, itemPayloads, itemPayloads]
  refine le_iSup_of_le sampleItems.1 (le_given ⟨rfl, rfl, rfl⟩ (mul_le_mul_right ?_ _))
  refine le_given ⟨rfl, rfl⟩ ?_
  exact (mul_le_mul_right hobject _).trans (le_children_singleton rfl rfl)

theorem delete_run_sample : (delete (some 0)).wp
    (fun _ s' => s'.heap = sampleMemory ∧ s'.env = sampleTree.env) sampleTree := by
  refine delete_run (v := .array [.object [(ofString "k", .string (ofString "a"))]]) ?_
  refine holds_of_le (mul_le_mul_left le_tree_sample _) ?_
  simp only [mul_assoc]
  exact cell_mul_update rfl (cell_mul_update rfl (cell_mul_update rfl (cell_mul_update rfl
    (cell_mul_update rfl rfl))))

/-- A value that was parsed. -/
theorem contains_tree {F : Assertion Block} {h : Heap Block} (hv : (tree v p * F) h) :
    Contains h p v := by
  rw [tree, Quantale.iSup_mul_distrib, iSup_holds] at hv
  obtain ⟨i, hi⟩ := hv
  rw [given_mul, given_holds] at hi
  exact contains_of hi.2

/-- What a function leaves that parses a text, reads the value and deletes it. -/
theorem spec_readAll {read : Nat → Parser α} {f : Json → α} (value : Bytes) (failed : β) (g : α → β)
    (hread : ∀ (s : State Block ParseBuffer) p v, Contains s.heap p v →
      (read p).reads (· = f v) s) (root : Tree) (e : Env ParseBuffer) :
    Spec (Outcome value root e) e
      (root.elim (pure failed) fun p => do let a ← read p; delete (some p); return g a)
      fun b e' => given (b = ((cjsonParse value).map fun v => g (f v)).getD failed ∨
        b = failed ∧ e'.refused = true) 1 := by
  cases root with
  | none =>
    refine Spec.given fun hnone => Spec.pure (le_given ?_ le_rfl)
    refine hnone.imp (fun hnone => ?_) fun hrefused => ⟨rfl, hrefused⟩
    rw [hnone]
    rfl
  | some p =>
    refine Spec.iSup fun v => Spec.given fun hv => ?_
    refine Spec.reads (fun s hp => hread s p v (contains_tree hp)) fun a ha => ?_
    refine (releases_tree v p).call (mul_one _).symm (Spec.pure (le_given (.inl ?_) le_rfl))
    rw [hv, ha]
    rfl

theorem readAll_run {read : Nat → Parser α} {f : Json → α} (memory : Heap Block) (calls : Nat)
    (value : Bytes) (failed : β) (g : α → β)
    (hread : ∀ (s : State Block ParseBuffer) p v, Contains s.heap p v →
      (read p).reads (· = f v) s) :
    (parse allocator (ofBytes value ++ [0]) >>= fun root =>
      root.elim (pure failed) fun p => do let a ← read p; delete (some p); return g a).wp
      (fun b s' => s'.heap = memory ∧ (b = ((cjsonParse value).map fun v => g (f v)).getD failed ∨
        b = failed ∧ s'.env.refused = true)) (start memory calls) := by
  have hspec : Spec 1 (start memory calls).env (parse allocator (ofBytes value ++ [0])) _ :=
    parse_spec value rfl
  have hall := hspec.bind (spec_readAll value failed g hread)
  refine (hall.run (start memory calls) rfl).mono fun b s' hs' => ?_
  exact (given_one_holds.mp hs').symm

/-- Wherever the allocator fails, `xiaozhi_parse_incoming_json` has no undefined
    behaviour and frees what it allocates, and it gives the event of the text
    unless memory was refused. -/
theorem parseIncomingJson_run (memory : Heap Block) (calls : Nat) (json : Bytes) :
    (parseIncomingJson allocator json).wp (fun event s' => s'.heap = memory ∧
      (event = XiaozhiProtocol.parseIncomingJson cjsonParse json ∨
        event = none ∧ s'.env.refused = true)) (start memory calls) := by
  have heq : parseIncomingJson allocator json = parse allocator (ofBytes json ++ [0]) >>= fun root =>
      root.elim (pure none) fun p => do let a ← readEvent p; delete (some p); return some a :=
    bind_congr fun root => by cases root <;> rfl
  rw [heq]
  refine (readAll_run allocator memory calls json none some fun _ _ _ => reads_readEvent).mono
    fun event s' hs' => hs'.imp_right (Or.imp_left fun hevent => ?_)
  rw [hevent, XiaozhiProtocol.parseIncomingJson]
  cases cjsonParse json with
  | none => rfl
  | some v => rfl

/-- The same of `ota_parse_response`. -/
theorem parseResponse_run (memory : Heap Block) (calls : Nat) (json : Bytes) :
    (parseResponse allocator json).wp (fun response s' => s'.heap = memory ∧
      (response = Ota.parseResponse cjsonParse json ∨
        response = .error (ofString "invalid ota response json") ∧ s'.env.refused = true))
      (start memory calls) := by
  have heq : parseResponse allocator json = parse allocator (ofBytes json ++ [0]) >>= fun root =>
      root.elim (pure (.error (ofString "invalid ota response json"))) fun p => do
        let a ← readResponse p; delete (some p); return .ok a :=
    bind_congr fun root => by cases root <;> rfl
  rw [heq]
  refine (readAll_run allocator memory calls json _ _ fun _ _ _ => reads_readResponse).mono
    fun response s' hs' => hs'.imp_right (Or.imp_left fun hresponse => ?_)
  rw [hresponse, Ota.parseResponse]
  cases cjsonParse json with
  | none => rfl
  | some v => rfl

end Runs

end Tree

end CJson

end Xiaozhi
