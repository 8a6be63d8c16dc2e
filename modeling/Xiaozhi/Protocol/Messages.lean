-- SUMMARY: The messages of the xiaozhi protocol: builders of the outgoing ones, and the parser of the incoming ones.
import Xiaozhi.Protocol.Json

/-!
# Protocol messages

`xiaozhi_protocol.c`. A builder returns the text that it leaves in a buffer of
`size` bytes, or `none` where it returns `-1`. `cJSON_Parse` is a parameter of
the parser.
-/

namespace Xiaozhi

/-- `xiaozhi_hello_config_t`. -/
structure XiaozhiHelloConfig where
  protocolVersion : Int
  sampleRate : Int
  channels : Int
  frameDurationMs : Int

/-- `xiaozhi_event_type_t`. -/
inductive XiaozhiEventType where
  | none
  | hello
  | stt
  | llm
  | ttsStart
  | ttsStop
  | ttsSentence
  | system
  | mcp
  | iot
  | unknown
  deriving DecidableEq, Repr

/-- `xiaozhi_incoming_event_t`. -/
structure XiaozhiIncomingEvent where
  type : XiaozhiEventType
  sessionId : Bytes
  text : Bytes
  emotion : Bytes
  outputSampleRate : Int
  outputChannels : Int
  deriving DecidableEq, Repr

namespace XiaozhiProtocol

open CString

/-! ## Outgoing messages -/

/-- The text that cJSON prints for the hello object. -/
def helloText (cfg : XiaozhiHelloConfig) : Bytes :=
  ofString "\x7b\"type\":\"hello\",\"version\":" ++ ofInt cfg.protocolVersion ++
  ofString ",\"transport\":\"websocket\",\"audio_params\":\x7b\"format\":\"opus\",\"sample_rate\":" ++
  ofInt cfg.sampleRate ++ ofString ",\"channels\":" ++ ofInt cfg.channels ++
  ofString ",\"frame_duration\":" ++ ofInt cfg.frameDurationMs ++ ofString "\x7d\x7d"

/-- `xiaozhi_build_hello`, with the allocations of cJSON succeeding. The result
    of `snprintf` is not looked at. -/
def buildHello (cfg : XiaozhiHelloConfig) (size : Nat) : Option Bytes :=
  if size = 0 then none else some (copy size (helloText cfg))

/-- `snprintf(buf, size, …) >= (int)size ? -1 : 0`. -/
def fits (size : Nat) (text : Bytes) : Option Bytes :=
  if text.length ≥ size then none else some text

/-- `xiaozhi_build_listen_start_manual` and `_stop_manual`, which differ in the `state`. -/
def buildListenManual (state : String) (sessionId : Bytes) (size : Nat) : Option Bytes :=
  if sessionId = [] ∨ size = 0 then
    none
  else
    fits size (ofString "\x7b\"session_id\":\"" ++ sessionId ++
      ofString "\",\"type\":\"listen\",\"state\":\"" ++ ofString state ++
      ofString "\",\"mode\":\"manual\"\x7d")

/-- `xiaozhi_build_listen_start_manual`. -/
def buildListenStartManual : Bytes → Nat → Option Bytes := buildListenManual "start"

/-- `xiaozhi_build_listen_stop_manual`. -/
def buildListenStopManual : Bytes → Nat → Option Bytes := buildListenManual "stop"

/-- `xiaozhi_build_abort`. -/
def buildAbort (reason : Option Bytes) (size : Nat) : Option Bytes :=
  fits size (ofString "\x7b\"type\":\"abort\",\"reason\":\"" ++
    reason.getD (ofString "unknown") ++ ofString "\"\x7d")

/-! ## Incoming messages -/

/-- `cJSON_IsString(item) && strcmp(item->valuestring, s) == 0`. -/
def isString (item : Option Json) (s : String) : Bool :=
  match item with
  | some (.string v) => ofBytes v == ofString s
  | _ => false

/-- `parse_type`. -/
def parseType (type state : Option Json) : XiaozhiEventType :=
  if isString type "hello" then .hello
  else if isString type "stt" then .stt
  else if isString type "llm" then .llm
  else if isString type "system" then .system
  else if isString type "mcp" then .mcp
  else if isString type "iot" then .iot
  else if isString type "tts" then
    if isString state "start" then .ttsStart
    else if isString state "stop" then .ttsStop
    else if isString state "sentence_start" || isString state "sentence_end" then .ttsSentence
    else .unknown
  else .unknown

/-- `copy_json_string`. -/
def copyJsonString (size : Nat) (item : Option Json) : Bytes :=
  match item with
  | some (.string v) => copy size v
  | _ => []

/-- `cJSON_IsNumber(item) ? item->valueint : 0`. -/
def numberOrZero (item : Option Json) : Int :=
  match item with
  | some (.number n) => n
  | _ => 0

/-- `xiaozhi_parse_incoming_json`, once `cJSON_Parse` has returned `root`. -/
def readIncomingJson (root : Json) : XiaozhiIncomingEvent :=
  let audioParams := root.getObjectItem (ofString "audio_params")
  let sampleRate := audioParams.bind (·.getObjectItem (ofString "sample_rate"))
  let channels := audioParams.bind (·.getObjectItem (ofString "channels"))
  { type := parseType (root.getObjectItem (ofString "type")) (root.getObjectItem (ofString "state"))
    sessionId := copyJsonString 64 (root.getObjectItem (ofString "session_id"))
    text := copyJsonString 256 (root.getObjectItem (ofString "text"))
    emotion := copyJsonString 64 (root.getObjectItem (ofString "emotion"))
    outputSampleRate := numberOrZero sampleRate
    outputChannels := numberOrZero channels }

/-- `xiaozhi_parse_incoming_json`. -/
def parseIncomingJson (cjsonParse : Bytes → Option Json) (json : Bytes) :
    Option XiaozhiIncomingEvent :=
  (cjsonParse json).map readIncomingJson

/-- The session id of an event fits the buffer that it is copied into. -/
theorem copy_sessionId {cjsonParse : Bytes → Option Json} {json : Bytes}
    {event : XiaozhiIncomingEvent} (h : parseIncomingJson cjsonParse json = some event) :
    copy 64 event.sessionId = event.sessionId := by
  obtain ⟨root, -, rfl⟩ := Option.map_eq_some_iff.mp h
  simp only [readIncomingJson, copyJsonString]
  split
  · exact copy_copy
  · exact copy_nil

end XiaozhiProtocol

end Xiaozhi
