-- SUMMARY: When the parsers of incoming messages and of responses ignore members that they do not know.
import Xiaozhi.Protocol.Messages
import Xiaozhi.Startup.Ota

/-!
# Unknown members

Members are added to the objects of a JSON value, at any position and depth.
The parser of the responses compares keys exactly and never sees them. The
parser of the messages ignores the case of letters, and takes an added member
whose key is another spelling of one that it reads, if that stands first.
-/

namespace Xiaozhi

/-! ## Values that have grown -/

mutual

/-- A JSON value to whose objects members have been added. -/
inductive GrownJson (ι : Type) where
  | plain (value : Json)
  | array (items : List (GrownJson ι))
  | object (members : List (GrownMember ι))

/-- A member of the original object, or an added one. The values of the added
    members are given apart, under their indices. -/
inductive GrownMember (ι : Type) where
  | original (key : Bytes) (value : GrownJson ι)
  | added (key : Bytes) (index : ι)

end

variable {ι : Type}

namespace GrownMember

def key : GrownMember ι → Bytes
  | .original key _ | .added key _ => key

/-- The first member whose key matches is looked for. -/
def find (p : Bytes → Bool) (members : List (GrownMember ι)) : Option (GrownMember ι) :=
  members.find? fun m => p m.key

/-- An added member whose key matches stands before all original ones whose
    keys match. -/
def Overtaken (p : Bytes → Bool) (members : List (GrownMember ι)) : Prop :=
  ∃ front key index rest, members = front ++ .added key index :: rest ∧ p key = true ∧
    ∀ key' value, .original key' value ∈ front → p key' = false

theorem overtaken_iff {p : Bytes → Bool} {members : List (GrownMember ι)} :
    Overtaken p members ↔ ∃ key index, find p members = some (.added key index) := by
  constructor
  · rintro ⟨front, key, index, rest, rfl, hp, hfront⟩
    induction front with
    | nil => exact ⟨key, index, by simp [find, GrownMember.key, hp]⟩
    | cons m front ih =>
      obtain ⟨key', index', hfind⟩ := ih fun key' value hm => hfront key' value (.tail _ hm)
      cases m with
      | original key₀ value =>
        have hp₀ : p key₀ = false := hfront key₀ value (.head _)
        exact ⟨key', index', by simpa [find, GrownMember.key, hp₀] using hfind⟩
      | added key₀ index₀ =>
        cases hp₀ : p key₀ with
        | true => exact ⟨key₀, index₀, by simp [find, GrownMember.key, hp₀]⟩
        | false => exact ⟨key', index', by simpa [find, GrownMember.key, hp₀] using hfind⟩
  · rintro ⟨key, index, hfind⟩
    obtain ⟨hp, front, rest, rfl, hfront⟩ := List.find?_eq_some_iff_append.mp hfind
    refine ⟨front, key, index, rest, rfl, hp, fun key' value hm => ?_⟩
    simpa [GrownMember.key] using hfront _ hm

end GrownMember

namespace GrownJson

open GrownMember

mutual

/-- The value with those of the added members to which `values` gives a value. -/
def json (values : ι → Option Json) : GrownJson ι → Json
  | .plain value => value
  | .array items => .array (jsonItems values items)
  | .object members => .object (jsonMembers values members)

def jsonItems (values : ι → Option Json) : List (GrownJson ι) → List Json
  | [] => []
  | item :: items => item.json values :: jsonItems values items

def jsonMembers (values : ι → Option Json) : List (GrownMember ι) → List (Bytes × Json)
  | [] => []
  | .original key value :: members => (key, value.json values) :: jsonMembers values members
  | .added key index :: members =>
    match values index with
    | some value => (key, value) :: jsonMembers values members
    | none => jsonMembers values members

end

/-- The value before anything was added. -/
def before (v : GrownJson ι) : Json := v.json fun _ => none

/-- The value with all added members. -/
def after (values : ι → Json) (v : GrownJson ι) : Json := v.json fun i => some (values i)

/-! ## Looking up a member -/

/-- `get_object_item`: the first member whose key matches. -/
def lookup (p : Bytes → Bool) (item : Json) : Option Json :=
  match item with
  | .object members => (members.find? fun m => p m.1).map (·.2)
  | _ => none

variable {p : Bytes → Bool} {members : List (GrownMember ι)} {values values' : ι → Option Json}

/-- The value of a member, if it is there. -/
def value (values : ι → Option Json) : GrownMember ι → Option Json
  | .original _ v => some (v.json values)
  | .added _ index => values index

/-- The member that is looked up is the first one whose key matches, unless that
    is an added one that is not there. -/
theorem lookup_json (h : ∀ key index, find p members = some (.added key index) →
    (values index).isSome) :
    lookup p (json values (.object members)) = (find p members).bind (value values) := by
  induction members with
  | nil => rfl
  | cons m members ih =>
    cases hp : p m.key with
    | true =>
      have hfind : find p (m :: members) = some m := List.find?_cons_of_pos hp
      rw [hfind]
      cases m with
      | original key v =>
        have hkey : p key = true := hp
        simp [lookup, json, jsonMembers, value, hkey]
      | added key index =>
        have hkey : p key = true := hp
        obtain ⟨v, hv⟩ := Option.isSome_iff_exists.mp (h key index hfind)
        simp [lookup, json, jsonMembers, value, hkey, hv]
    | false =>
      have hfind : find p (m :: members) = find p members :=
        List.find?_cons_of_neg (Bool.eq_false_iff.mp hp)
      rw [hfind] at h ⊢
      rw [← ih h]
      cases m with
      | original key v =>
        have hkey : p key = false := hp
        simp [lookup, json, jsonMembers, hkey]
      | added key index =>
        have hkey : p key = false := hp
        cases hv : values index <;> simp [lookup, json, jsonMembers, hkey, hv]

/-- An added member that overtakes the original ones is found. -/
theorem lookup_overtaken (h : Overtaken p members) (v : Json) :
    lookup p (json (fun _ => some v) (.object members)) = some v := by
  obtain ⟨key, index, hfind⟩ := overtaken_iff.mp h
  rw [lookup_json fun _ _ _ => rfl, hfind]
  rfl

/-- A member that is not overtaken is found with and without the added ones. -/
theorem lookup_kept {α : Type} {f : Option Json → α} (h : ¬Overtaken p members)
    (hf : ∀ key v, find p members = some (.original key v) →
      f (some (v.json values)) = f (some (v.json values'))) :
    f (lookup p (json values (.object members))) =
      f (lookup p (json values' (.object members))) := by
  have hnone (key : Bytes) (index : ι) : find p members ≠ some (.added key index) :=
    fun hfind => h (overtaken_iff.mpr ⟨key, index, hfind⟩)
  rw [lookup_json fun key index hfind => absurd hfind (hnone key index),
    lookup_json fun key index hfind => absurd hfind (hnone key index)]
  cases hfind : find p members with
  | none => rfl
  | some m =>
    cases m with
    | original key v => exact hf key v hfind
    | added key index => exact absurd hfind (hnone key index)

end GrownJson

/-! ## Messages -/

namespace XiaozhiProtocol

open CString GrownJson GrownMember

theorem isString_grown (v : GrownJson ι) (s : String) (values values' : ι → Option Json) :
    isString (some (v.json values)) s = isString (some (v.json values')) s := by
  cases v <;> rfl

theorem copyJsonString_grown (v : GrownJson ι) (size : Nat) (values values' : ι → Option Json) :
    copyJsonString size (some (v.json values)) = copyJsonString size (some (v.json values')) := by
  cases v <;> rfl

theorem numberOrZero_grown (v : GrownJson ι) (values values' : ι → Option Json) :
    numberOrZero (some (v.json values)) = numberOrZero (some (v.json values')) := by
  cases v <;> rfl

/-- The state matters to the type of a tts message only. -/
theorem parseType_congr {type type' state state' : Option Json}
    (h : ∀ s, isString type s = isString type' s)
    (hs : isString type' "tts" = true → ∀ s, isString state s = isString state' s) :
    parseType type state = parseType type' state' := by
  simp only [parseType, h]
  cases htts : isString type' "tts" with
  | false => rfl
  | true => simp only [hs htts]

/-- The keys that match one which the parser reads. -/
def reads (name : String) : Bytes → Bool := Json.sameKey (ofString name)

/-- No added member takes the place of one that the parser reads. The state is
    read of tts messages only. -/
structure Unshadowed (members : List (GrownMember ι)) : Prop where
  type : ¬Overtaken (reads "type") members
  state : isString ((before (.object members)).getObjectItem (ofString "type")) "tts" = true →
    ¬Overtaken (reads "state") members
  sessionId : ¬Overtaken (reads "session_id") members
  text : ¬Overtaken (reads "text") members
  emotion : ¬Overtaken (reads "emotion") members
  audioParams : ¬Overtaken (reads "audio_params") members
  nested : ∀ key inner,
    find (reads "audio_params") members = some (.original key (.object inner)) →
      ¬Overtaken (reads "sample_rate") inner ∧ ¬Overtaken (reads "channels") inner

variable {members : List (GrownMember ι)}

/-- A string is read as before. -/
theorem copyJsonString_kept {name : String} (h : ¬Overtaken (reads name) members) (size : Nat)
    (values : ι → Option Json) :
    copyJsonString size (lookup (reads name) (json values (.object members))) =
      copyJsonString size (lookup (reads name) (before (.object members))) :=
  lookup_kept h fun _ v _ => copyJsonString_grown v size _ _

theorem isString_kept {name : String} (h : ¬Overtaken (reads name) members)
    (values : ι → Option Json) (s : String) :
    isString (lookup (reads name) (json values (.object members))) s =
      isString (lookup (reads name) (before (.object members))) s :=
  lookup_kept (f := (isString · s)) h fun _ v _ => isString_grown v s _ _

/-- A number of the audio parameters is read as before. -/
theorem numberOrZero_kept {name : String} (h : ¬Overtaken (reads "audio_params") members)
    (hnested : ∀ key inner,
      find (reads "audio_params") members = some (.original key (.object inner)) →
        ¬Overtaken (reads name) inner) (values : ι → Option Json) :
    numberOrZero ((lookup (reads "audio_params") (json values (.object members))).bind
      (lookup (reads name))) =
    numberOrZero ((lookup (reads "audio_params") (before (.object members))).bind
      (lookup (reads name))) := by
  refine lookup_kept (f := fun item => numberOrZero (item.bind (lookup (reads name)))) h
    fun key v hfind => ?_
  cases v with
  | plain value => rfl
  | array items => rfl
  | object inner =>
    exact lookup_kept (hnested key inner hfind) fun _ v _ => numberOrZero_grown v _ _

/-- The event is read as before. -/
theorem Unshadowed.readIncomingJson_eq (h : Unshadowed members) (values : ι → Option Json) :
    readIncomingJson (json values (.object members)) =
      readIncomingJson (before (.object members)) := by
  have htype := parseType_congr (isString_kept h.type values)
    fun htts => isString_kept (h.state htts) values
  have hid := copyJsonString_kept h.sessionId 64 values
  have htext := copyJsonString_kept h.text 256 values
  have hemotion := copyJsonString_kept h.emotion 64 values
  have hrate := numberOrZero_kept h.audioParams (fun key inner hf => (h.nested key inner hf).1)
    values
  have hchannels := numberOrZero_kept h.audioParams
    (fun key inner hf => (h.nested key inner hf).2) values
  exact XiaozhiIncomingEvent.mk.injEq .. |>.mpr ⟨htype, hid, htext, hemotion, hrate, hchannels⟩

/-- The added members change no event, whatever their values are. -/
def Ignored (members : List (GrownMember ι)) : Prop :=
  ∀ values : ι → Json, readIncomingJson (after values (.object members)) =
    readIncomingJson (before (.object members))

/-- If all added members have the same value, it makes no difference which one. -/
theorem Ignored.same (h : Ignored members) (v v' : Json) :
    readIncomingJson (after (fun _ => v) (.object members)) =
      readIncomingJson (after (fun _ => v') (.object members)) :=
  (h fun _ => v).trans (h fun _ => v').symm

/-- If a part of the event is read from one member, and two values of it differ
    there, no added member stands in its place. -/
theorem Ignored.not_overtaken {β : Type} (h : Ignored members) {inner : List (GrownMember ι)}
    {p : Bytes → Bool} (part : XiaozhiIncomingEvent → β) (f : Option Json → β) (v v' : Json)
    (hpart : ∀ v, part (readIncomingJson (after (fun _ => v) (.object members))) =
      f (lookup p (after (fun _ => v) (.object inner))))
    (hv : f (some v) ≠ f (some v')) : ¬Overtaken p inner := by
  intro hover
  have hsame := congrArg part (h.same v v')
  rw [hpart, hpart, after, after, lookup_overtaken hover, lookup_overtaken hover] at hsame
  exact hv hsame

/-- A string of the event is not one of an added member. -/
theorem Ignored.string (h : Ignored members) {name : String} (part : XiaozhiIncomingEvent → Bytes)
    (size : Nat) (hpart : ∀ item, part (readIncomingJson item) =
      copyJsonString size (lookup (reads name) item)) (hsize : 1 < size) :
    ¬Overtaken (reads name) members := by
  refine h.not_overtaken part (copyJsonString size) (.string [1]) (.string []) (fun _ => hpart _) ?_
  have hone : copy size [1] = [1] := copy_eq_self (by simp) hsize
  simp [copyJsonString, hone]

/-- The type is not one of an added member, which might call the message hello. -/
theorem Ignored.type (h : Ignored members) : ¬Overtaken (reads "type") members := by
  intro hover
  have hfound (v : Json) :
      (readIncomingJson (after (fun _ => v) (.object members))).type =
        parseType (some v) (lookup (reads "state") (after (fun _ => v) (.object members))) :=
    congrArg (parseType · _) (lookup_overtaken hover v)
  have hsame := congrArg (·.type) (h.same (.string (ofString "hello")) (.string []))
  have hne : XiaozhiEventType.hello = .unknown :=
    (hfound (.string (ofString "hello"))).symm.trans (hsame.trans (hfound (.string [])))
  cases hne

/-- The type of a tts message follows from the state. -/
theorem parseType_tts {type : Option Json} (h : isString type "tts" = true) (state : Option Json) :
    parseType type state = parseType (some (.string (ofString "tts"))) state := by
  refine parseType_congr (fun s => ?_) fun _ _ => rfl
  unfold isString at h
  split at h
  · next v =>
    have hv : ofBytes v = ofBytes (ofString "tts") := beq_iff_eq.mp h
    simp only [isString, hv]
  · cases h

/-- Nor is the state of a tts message, which might start a speech. -/
theorem Ignored.state (h : Ignored members)
    (htts : isString ((before (.object members)).getObjectItem (ofString "type")) "tts" = true) :
    ¬Overtaken (reads "state") members := by
  intro hover
  have hfound (v : Json) :
      (readIncomingJson (after (fun _ => v) (.object members))).type =
        parseType (some (.string (ofString "tts"))) (some v) := by
    rw [← parseType_tts ((isString_kept h.type _ "tts").trans htts)]
    exact congrArg (parseType _) (lookup_overtaken hover v)
  have hsame := congrArg (·.type) (h.same (.string (ofString "start")) (.string []))
  have hne : XiaozhiEventType.ttsStart = .unknown :=
    (hfound (.string (ofString "start"))).symm.trans (hsame.trans (hfound (.string [])))
  cases hne

theorem Ignored.unshadowed (h : Ignored members) : Unshadowed members := by
  have hid : ¬Overtaken (reads "session_id") members :=
    h.string (·.sessionId) 64 (fun _ => rfl) (by decide)
  have htext : ¬Overtaken (reads "text") members :=
    h.string (·.text) 256 (fun _ => rfl) (by decide)
  have hemotion : ¬Overtaken (reads "emotion") members :=
    h.string (·.emotion) 64 (fun _ => rfl) (by decide)
  have hparams : ¬Overtaken (reads "audio_params") members :=
    h.not_overtaken (·.outputSampleRate)
      (fun item => numberOrZero (item.bind (lookup (reads "sample_rate"))))
      (.object [(ofString "sample_rate", .number 1)]) .null (fun _ => rfl) (by decide)
  refine ⟨h.type, h.state, hid, htext, hemotion, hparams, fun key inner hfind => ?_⟩
  have hfound (v : Json) : lookup (reads "audio_params") (after (fun _ => v) (.object members)) =
      some (after (fun _ => v) (.object inner)) := by
    rw [after, lookup_json fun _ _ _ => rfl, hfind]
    rfl
  have hnumber (name : String) (v : Json) :
      numberOrZero ((lookup (reads "audio_params") (after (fun _ => v) (.object members))).bind
        (lookup (reads name))) =
      numberOrZero (lookup (reads name) (after (fun _ => v) (.object inner))) := by
    rw [hfound v]
    rfl
  have hrate : ¬Overtaken (reads "sample_rate") inner :=
    h.not_overtaken (·.outputSampleRate) numberOrZero (.number 1) .null
      (hnumber "sample_rate") (by decide)
  have hchannels : ¬Overtaken (reads "channels") inner :=
    h.not_overtaken (·.outputChannels) numberOrZero (.number 1) .null
      (hnumber "channels") (by decide)
  exact ⟨hrate, hchannels⟩

/-- The event of a text is that of a text without the added members. -/
def EventKept (members : List (GrownMember ι)) : Prop :=
  ∀ (values : ι → Json) (cjsonParse : Bytes → Option Json) (json json' : Bytes),
    cjsonParse json = some (before (.object members)) →
      cjsonParse json' = some (after values (.object members)) →
        parseIncomingJson cjsonParse json' = parseIncomingJson cjsonParse json

theorem eventKept_iff : EventKept members ↔ Ignored members := by
  constructor
  · intro h values
    let cjsonParse (json : Bytes) : Option Json :=
      if json = [] then some (before (.object members)) else some (after values (.object members))
    exact Option.some_inj.mp (h values cjsonParse [] [0] rfl rfl)
  · intro h values cjsonParse json json' hbefore hafter
    rw [parseIncomingJson, parseIncomingJson, hbefore, hafter, Option.map_some, Option.map_some,
      h values]

end XiaozhiProtocol

/-! ## Responses -/

/-- No added member has one of the keys. -/
def UnknownAt (names : List String) (members : List (GrownMember ι)) : Prop :=
  ∀ key index, .added key index ∈ members → ∀ name ∈ names, key ≠ CString.ofString name

/-- No added member has a key that is read at its level. The keys that are read
    at the root stand with those that are read below them. -/
def Unknown (levels : List (String × List String)) (members : List (GrownMember ι)) : Prop :=
  UnknownAt (levels.map (·.1)) members ∧
  ∀ level ∈ levels, ∀ inner, .original (CString.ofString level.1) (.object inner) ∈ members →
    UnknownAt level.2 inner

/-- The keys that `xiaozhi_parse_incoming_json` reads. -/
def XiaozhiProtocol.levels : List (String × List String) :=
  [("type", []), ("state", []), ("session_id", []), ("text", []), ("emotion", []),
   ("audio_params", ["sample_rate", "channels"])]

namespace Ota

open CString GrownJson GrownMember

/-- The keys that `ota_parse_response` reads. -/
def levels : List (String × List String) :=
  [("activation", ["code", "message"]), ("websocket", ["url", "token"])]

/-- The keys that match one which the parser reads. -/
def reads (name : String) (key : Bytes) : Bool := ofString name == key

variable {members : List (GrownMember ι)}

/-- An unknown key does not match. -/
theorem not_overtaken {names : List String} (h : UnknownAt names members) {name : String}
    (hname : name ∈ names) : ¬Overtaken (reads name) members := by
  rintro ⟨front, key, index, rest, rfl, hp, -⟩
  have hkey : ofString name = key := beq_iff_eq.mp hp
  exact h key index (by simp) name hname hkey.symm

/-- The text of a string. -/
def textOf : Option Json → Bytes
  | some (.string value) => ofBytes value
  | _ => []

/-- A string of one of the objects is carried as before. -/
theorem carried_kept (object key : String) {below : List String} (h : Unknown levels members)
    (hlevel : (object, below) ∈ levels) (hkey : key ∈ below) (values : ι → Option Json) :
    carried (json values (.object members)) object key =
      carried (before (.object members)) object key := by
  have hobject : ¬Overtaken (reads object) members :=
    not_overtaken h.1 (List.mem_map.mpr ⟨_, hlevel, rfl⟩)
  have hgrown (v : GrownJson ι) (values values' : ι → Option Json) :
      textOf (some (v.json values)) = textOf (some (v.json values')) := by
    cases v <;> rfl
  refine lookup_kept (f := fun item => textOf (item.bind (lookup (reads key)))) hobject
    fun name v hfind => ?_
  cases v with
  | plain value => rfl
  | array items => rfl
  | object inner =>
    have hp : reads object (GrownMember.original name (.object inner)).key = true :=
      List.find?_some (p := fun m : GrownMember ι => reads object m.key) hfind
    obtain rfl : ofString object = name := beq_iff_eq.mp hp
    have hinner : ¬Overtaken (reads key) inner :=
      not_overtaken (h.2 _ hlevel inner (List.mem_of_find?_eq_some hfind)) hkey
    exact lookup_kept (f := textOf) hinner fun _ v _ => hgrown v _ _

/-- The response is read as before. -/
theorem readResponse_kept (h : Unknown levels members) (values : ι → Option Json) :
    readResponse (json values (.object members)) = readResponse (before (.object members)) := by
  have hcode := carried_kept "activation" "code" h (.head _) (.head _) values
  have hmessage := carried_kept "activation" "message" h (.head _) (.tail _ (.head _)) values
  have hurl := carried_kept "websocket" "url" h (.tail _ (.head _)) (.head _) values
  have htoken := carried_kept "websocket" "token" h (.tail _ (.head _)) (.tail _ (.head _)) values
  simp only [readResponse, copy_carried, hcode, hmessage, hurl, htoken]

/-- The response in a text is that of a text without the added members. -/
def ResponseKept (members : List (GrownMember ι)) : Prop :=
  ∀ (values : ι → Json) (cjsonParse : Bytes → Option Json) (json json' : Bytes),
    cjsonParse json = some (before (.object members)) →
      cjsonParse json' = some (after values (.object members)) →
        parseResponse cjsonParse json' = parseResponse cjsonParse json

theorem responseKept (h : Unknown levels members) : ResponseKept members := by
  intro values cjsonParse json json' hbefore hafter
  have hread : readResponse (after values (.object members)) =
      readResponse (before (.object members)) := readResponse_kept h _
  simp only [parseResponse, hbefore, hafter, hread]

end Ota

/-! ## Both parsers -/

open GrownJson GrownMember XiaozhiProtocol

/-- For every object and any members added to it: they change no event, whatever
    their values, if and only if none of them takes the place of one that the
    parser reads; and they change no response if the keys are unknown. -/
theorem unknown_members_iff (members : List (GrownMember ι)) :
    (EventKept members ↔ Unshadowed members) ∧
    (Unknown Ota.levels members → Ota.ResponseKept members) := by
  refine ⟨?_, Ota.responseKept⟩
  rw [eventKept_iff]
  exact ⟨Ignored.unshadowed, fun h values => h.readIncomingJson_eq _⟩

/-- A timestamp is added to the front of a tts message. -/
theorem unknown_members_iff_timestamp :
    let members : List (GrownMember Unit) :=
      [.added (CString.ofString "timestamp") (),
       .original (CString.ofString "type") (.plain (.string (CString.ofString "tts")))]
    EventKept members ∧ Ota.ResponseKept members := by
  intro members
  have hunknown : Unknown Ota.levels members := by
    refine ⟨fun key index hkey => ?_, fun level _ inner hinner => ?_⟩
    · obtain rfl : key = CString.ofString "timestamp" := by simpa [members] using hkey
      decide
    · simp [members] at hinner
  have hnone (name : String) (hfind : find (reads name) members = none ∨
      ∃ key v, find (reads name) members = some (.original key v)) :
      ¬Overtaken (reads name) members := by
    rw [overtaken_iff]
    rintro ⟨key, index, hadded⟩
    rw [hadded] at hfind
    simp at hfind
  refine ⟨(unknown_members_iff members).1.mpr ?_, (unknown_members_iff members).2 hunknown⟩
  refine ⟨hnone _ (.inr ⟨_, _, rfl⟩), fun _ => hnone _ (.inl rfl), hnone _ (.inl rfl),
    hnone _ (.inl rfl), hnone _ (.inl rfl), hnone _ (.inl rfl), fun key inner hfind => ?_⟩
  cases hfind

/-- A member called `Type` stands before the `type` of a message. -/
theorem other_spelling_read :
    let members : List (GrownMember Unit) :=
      [.added (CString.ofString "Type") (),
       .original (CString.ofString "type") (.plain (.string (CString.ofString "stt")))]
    Unknown XiaozhiProtocol.levels members ∧ ¬EventKept members := by
  intro members
  constructor
  · refine ⟨fun key index hkey => ?_, fun level _ inner hinner => ?_⟩
    · obtain rfl : key = CString.ofString "Type" := by simpa [members] using hkey
      decide
    · simp [members] at hinner
  · intro h
    have hignored := eventKept_iff.mp h fun _ => .string (CString.ofString "hello")
    have hne : XiaozhiEventType.hello = .stt := congrArg (·.type) hignored
    cases hne

end Xiaozhi
