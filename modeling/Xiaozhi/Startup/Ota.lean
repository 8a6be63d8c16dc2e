-- SUMMARY: The request to the update server: its text, the call of curl, and what is read of the response.
import Xiaozhi.Protocol.Json
import Xiaozhi.Startup.Config

/-!
# The OTA request

`ota_client.c`. The request is made by a child process that runs curl; what it
writes and how it ends is an answer of the environment.
-/

namespace Xiaozhi

open CString

/-- `ota_activation_info_t`. -/
structure OtaActivationInfo where
  code : Bytes
  message : Bytes

/-- `ota_websocket_info_t`. -/
structure OtaWebsocketInfo where
  url : Bytes
  token : Bytes

/-- `ota_response_t`. -/
structure OtaResponse where
  activationRequired : Bool
  activation : OtaActivationInfo
  websocket : OtaWebsocketInfo

namespace Ota

/-! ## The request -/

/-- `ota_add_optional_string`, on the members of the object. -/
def addOptionalString (members : List (Bytes × Json)) (key : String) (value : Bytes) :
    List (Bytes × Json) :=
  if value = [] then members else members ++ [(ofString key, .string value)]

/-- The object that `ota_build_request_json` prints. -/
def requestObject (cfg : Configuration) : Json :=
  let application := addOptionalString [(ofString "version", .string cfg.ota.appVersion)]
    "elf_sha256" cfg.ota.elfSha256
  let board := addOptionalString
    [(ofString "type", .string cfg.board.type), (ofString "name", .string cfg.board.name)]
    "ssid" cfg.board.ssid
  let board := if cfg.board.rssi ≠ 0 then board ++ [(ofString "rssi", .number cfg.board.rssi)]
    else board
  let root := [(ofString "application", .object application), (ofString "board", .object board)]
  let root := addOptionalString root "mac_address" cfg.device.deviceId
  .object (addOptionalString root "uuid" cfg.device.clientId)

/-- `ota_build_request_json`, with the allocations of cJSON succeeding. -/
def buildRequestJson (cfg : Configuration) (size : Nat) : Option Bytes :=
  let json := (requestObject cfg).printUnformatted
  if size = 0 ∨ json.length ≥ size then none else some json

/-! ## Running curl -/

/-- How the child process ends. -/
inductive ExitStatus where
  | exited (code : Nat)
  | signaled
  deriving DecidableEq

/-- What becomes of the child process: the results of `read` on its output, and
    the status that `waitpid` reports if it succeeds. -/
inductive CurlRun where
  | pipeFails
  | forkFails
  | ran (chunks : List Bytes) (readFails : Bool) (status : Option ExitStatus)

/-- The arguments of `execlp`. -/
def curlArguments (cfg : Configuration) (body : Bytes) : List Bytes :=
  let header (value : Bytes) : List Bytes := [ofString "-H", value]
  let language := if cfg.ota.acceptLanguage = [] then []
    else header (copy 96 (ofString "Accept-Language: " ++ cfg.ota.acceptLanguage))
  [ofString "curl", ofString "-sS", ofString "-X", ofString "POST", cfg.ota.url] ++
    header (ofString "Content-Type: application/json") ++
    header (copy 128 (ofString "Device-Id: " ++ cfg.device.deviceId)) ++
    header (copy 128 (ofString "Client-Id: " ++ cfg.device.clientId)) ++
    header (copy 160 (ofString "User-Agent: " ++ cfg.board.name ++ ofString "/" ++
      cfg.ota.appVersion)) ++
    language ++ [ofString "--data-binary", body]

/-- The loop of `ota_append_pipe_output`: what does not fit is read and dropped. -/
def appendPipeOutput (size : Nat) : List Bytes → Bytes → Bytes
  | [], dst => dst
  | chunk :: chunks, dst =>
    if dst.length ≥ size - 1 then appendPipeOutput size chunks dst
    else appendPipeOutput size chunks (dst ++ chunk.take (size - 1 - dst.length))

/-- `ota_trim_trailing_whitespace`. -/
def trimTrailingWhitespace (text : Bytes) : Bytes :=
  text.rdropWhile fun b => b = byte ' ' ∨ b = byte '\n' ∨ b = byte '\r' ∨ b = byte '\t'

/-- `ota_fetch`, up to the call of `ota_parse_response`: the text of the
    response, or the error message. -/
def fetchText (curl : List Bytes → CurlRun) (cfg : Configuration) : Except Bytes Bytes :=
  match buildRequestJson cfg 2048 with
  | none => .error (ofString "failed to build ota request body")
  | some body =>
    match curl (curlArguments cfg body) with
    | .pipeFails => .error (ofString "failed to create ota pipe")
    | .forkFails => .error (ofString "failed to fork ota curl process")
    | .ran chunks readFails status =>
      if readFails then
        .error (ofString "failed to read ota response")
      else
        let response := trimTrailingWhitespace (ofBytes (appendPipeOutput 8192 chunks []))
        match status with
        | none => .error (ofString "failed to wait for ota curl process")
        | some status =>
          if status = .exited 0 then .ok response
          else if response ≠ [] then .error (copy 256 response)
          else if status = .exited 127 then .error (ofString "curl command not found")
          else .error (ofString "ota request failed")

/-! ## The response -/

/-- `ota_copy_json_string` into a buffer of zeros. -/
def copyJsonString (size : Nat) (object : Option Json) (key : String) : Bytes :=
  match object.bind (·.getObjectItemCaseSensitive (ofString key)) with
  | some (.string value) => copy size value
  | _ => []

/-- `ota_parse_response`, once `cJSON_Parse` has returned `root`. -/
def readResponse (root : Json) : OtaResponse :=
  let activation := root.getObjectItemCaseSensitive (ofString "activation")
  let websocket := root.getObjectItemCaseSensitive (ofString "websocket")
  let activationString (size : Nat) (key : String) : Bytes :=
    if Json.isObject activation then copyJsonString size activation key else []
  let websocketString (size : Nat) (key : String) : Bytes :=
    if Json.isObject websocket then copyJsonString size websocket key else []
  { activationRequired := activationString 64 "code" ≠ []
    activation := { code := activationString 64 "code", message := activationString 256 "message" }
    websocket := { url := websocketString 256 "url", token := websocketString 256 "token" } }

/-- `ota_parse_response`. -/
def parseResponse (cjsonParse : Bytes → Option Json) (json : Bytes) : Except Bytes OtaResponse :=
  match cjsonParse json with
  | none => .error (ofString "invalid ota response json")
  | some root => .ok (readResponse root)

/-- `ota_fetch`. -/
def fetch (cjsonParse : Bytes → Option Json) (curl : List Bytes → CurlRun) (cfg : Configuration) :
    Except Bytes OtaResponse := do
  let response ← fetchText curl cfg
  parseResponse cjsonParse response

/-! ## What a response carries -/

/-- The string that the response gives to a key of one of its objects, as the C
    string that cJSON decodes it to, and the empty string if it gives none. -/
def carried (root : Json) (object key : String) : Bytes :=
  match (root.getObjectItemCaseSensitive (ofString object)).bind
    (·.getObjectItemCaseSensitive (ofString key)) with
  | some (.string value) => ofBytes value
  | _ => []

@[simp] theorem ofBytes_carried {root : Json} {object key : String} :
    ofBytes (carried root object key) = carried root object key := by
  unfold carried
  split
  · exact ofBytes_ofBytes
  · rfl

/-- A string of the response is the one carried, cut to the size of its buffer. -/
theorem copy_carried {root : Json} {object key : String} {size : Nat} :
    (if Json.isObject (root.getObjectItemCaseSensitive (ofString object)) then
      copyJsonString size (root.getObjectItemCaseSensitive (ofString object)) key else []) =
    copy size (carried root object key) := by
  rw [carried, copyJsonString]
  cases root.getObjectItemCaseSensitive (ofString object) with
  | none => exact copy_nil.symm
  | some item =>
    cases item with
    | object members =>
      have hobject : Json.isObject (some (.object members)) = true := rfl
      rw [if_pos hobject]
      split
      · exact copy_ofBytes.symm
      · exact copy_nil.symm
    | null => exact copy_nil.symm
    | bool value => exact copy_nil.symm
    | number value => exact copy_nil.symm
    | string value => exact copy_nil.symm
    | array items => exact copy_nil.symm

theorem readResponse_url {root : Json} :
    (readResponse root).websocket.url = copy 256 (carried root "websocket" "url") :=
  copy_carried

theorem readResponse_token {root : Json} :
    (readResponse root).websocket.token = copy 256 (carried root "websocket" "token") :=
  copy_carried

/-- A code is required exactly when the response carries one, however long. -/
theorem readResponse_activationRequired {root : Json} :
    (readResponse root).activationRequired = true ↔ carried root "activation" "code" ≠ [] := by
  have hcode : (readResponse root).activationRequired =
      decide (copy 64 (carried root "activation" "code") ≠ []) := by
    rw [← copy_carried]
    rfl
  rw [hcode, decide_eq_true_iff, ne_eq, copy_eq_nil_iff (by omega), ofBytes_carried]

end Ota

end Xiaozhi
