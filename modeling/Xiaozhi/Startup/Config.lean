-- SUMMARY: The configuration file: its lines, the fields that they set, and what a whole text sets.
import Mathlib.Data.List.DropRight
import Xiaozhi.Data.CString

/-!
# Configuration

`config.c`. A text is read line by line; every line of the form `key = value`
assigns the value to the field that the section and the key name, cut to the
size of the field. `assignments` is the reading that the cuts are compared with.
-/

namespace Xiaozhi

open CString

/-- `server_config_t`. -/
structure ServerConfig where
  url : Bytes
  token : Bytes
  protocolVersion : Int

/-- `ota_config_t`. -/
structure OtaConfig where
  url : Bytes
  acceptLanguage : Bytes
  appVersion : Bytes
  elfSha256 : Bytes

/-- `device_config_t`. -/
structure DeviceConfig where
  deviceId : Bytes
  clientId : Bytes

/-- `board_config_t`. -/
structure BoardConfig where
  type : Bytes
  name : Bytes
  ssid : Bytes
  rssi : Int

/-- `audio_config_t`. -/
structure AudioConfig where
  captureDevice : Bytes
  playbackDevice : Bytes
  inputSampleRate : Int
  silenceTimeoutMs : Int
  silenceThreshold : Int
  maxUtteranceMs : Int

/-- `runtime_config_t`. -/
structure RuntimeConfig where
  logLevel : Bytes
  reconnectBackoffMs : Int

/-- `app_config_t`. -/
structure Configuration where
  ota : OtaConfig
  server : ServerConfig
  device : DeviceConfig
  board : BoardConfig
  audio : AudioConfig
  runtime : RuntimeConfig

/-! ## Fields -/

/-- `config_assign_value` in the section `ota`. -/
def OtaConfig.assign (c : OtaConfig) (key value : Bytes) : OtaConfig :=
  if key = ofString "url" then { c with url := copy 256 value }
  else if key = ofString "accept_language" then { c with acceptLanguage := copy 32 value }
  else if key = ofString "app_version" then { c with appVersion := copy 64 value }
  else if key = ofString "elf_sha256" then { c with elfSha256 := copy 96 value }
  else c

/-- `config_assign_value` in the section `server`. -/
def ServerConfig.assign (c : ServerConfig) (key value : Bytes) : ServerConfig :=
  if key = ofString "url" then { c with url := copy 256 value }
  else if key = ofString "token" then { c with token := copy 256 value }
  else if key = ofString "protocol_version" then { c with protocolVersion := atoi value }
  else c

/-- `config_assign_value` in the section `device`. -/
def DeviceConfig.assign (c : DeviceConfig) (key value : Bytes) : DeviceConfig :=
  if key = ofString "device_id" then { c with deviceId := copy 64 value }
  else if key = ofString "client_id" then { c with clientId := copy 64 value }
  else c

/-- `config_assign_value` in the section `board`. -/
def BoardConfig.assign (c : BoardConfig) (key value : Bytes) : BoardConfig :=
  if key = ofString "type" then { c with type := copy 64 value }
  else if key = ofString "name" then { c with name := copy 64 value }
  else if key = ofString "ssid" then { c with ssid := copy 64 value }
  else if key = ofString "rssi" then { c with rssi := atoi value }
  else c

/-- `config_assign_value` in the section `audio`. -/
def AudioConfig.assign (c : AudioConfig) (key value : Bytes) : AudioConfig :=
  if key = ofString "capture_device" then { c with captureDevice := copy 64 value }
  else if key = ofString "playback_device" then { c with playbackDevice := copy 64 value }
  else if key = ofString "input_sample_rate" then { c with inputSampleRate := atoi value }
  else if key = ofString "silence_timeout_ms" then { c with silenceTimeoutMs := atoi value }
  else if key = ofString "silence_threshold" then { c with silenceThreshold := atoi value }
  else if key = ofString "max_utterance_ms" then { c with maxUtteranceMs := atoi value }
  else c

/-- `config_assign_value` in the section `runtime`. -/
def RuntimeConfig.assign (c : RuntimeConfig) (key value : Bytes) : RuntimeConfig :=
  if key = ofString "log_level" then { c with logLevel := copy 16 value }
  else if key = ofString "reconnect_backoff_ms" then { c with reconnectBackoffMs := atoi value }
  else c

namespace Configuration

/-- `config_apply_defaults`. -/
def defaults : Configuration where
  ota := { url := [], acceptLanguage := [], appVersion := [], elfSha256 := [] }
  server := { url := [], token := [], protocolVersion := 1 }
  device := { deviceId := [], clientId := [] }
  board := { type := [], name := [], ssid := [], rssi := 0 }
  audio := {
    captureDevice := ofString "default"
    playbackDevice := ofString "default"
    inputSampleRate := 16000
    silenceTimeoutMs := 1200
    silenceThreshold := 500
    maxUtteranceMs := 15000 }
  runtime := { logLevel := ofString "info", reconnectBackoffMs := 3000 }

/-- `config_assign_value`. -/
def assignValue (cfg : Configuration) (sect key value : Bytes) : Configuration :=
  if sect = ofString "ota" then { cfg with ota := cfg.ota.assign key value }
  else if sect = ofString "server" then { cfg with server := cfg.server.assign key value }
  else if sect = ofString "device" then { cfg with device := cfg.device.assign key value }
  else if sect = ofString "board" then { cfg with board := cfg.board.assign key value }
  else if sect = ofString "audio" then { cfg with audio := cfg.audio.assign key value }
  else if sect = ofString "runtime" then { cfg with runtime := cfg.runtime.assign key value }
  else cfg

/-- `config_validate`. -/
def validate (cfg : Configuration) : Except String Unit :=
  if cfg.ota.url = [] then .error "missing ota.url"
  else if cfg.ota.appVersion = [] then .error "missing ota.app_version"
  else if cfg.board.type = [] then .error "missing board.type"
  else if cfg.board.name = [] then .error "missing board.name"
  else if cfg.server.protocolVersion ≤ 0 then .error "invalid server.protocol_version"
  else .ok ()

/-! ## Lines -/

/-- `strtok_r(copy, "\n", &saveptr)`, until it returns no line. -/
def lines (ini : Bytes) : List Bytes := (ini.splitOn (byte '\n')).filter (· ≠ [])

/-- What a line says. -/
inductive Line where
  | ignored
  | header (name : Bytes)
  | unclosed
  | assignment (key value : Bytes)
  deriving DecidableEq

/-- The tests that `config_load_from_string` makes on a line. -/
def readLine (line : Bytes) : Line :=
  let trimmed := trim line
  if trimmed = [] ∨ trimmed.head? = some (byte '#') ∨ trimmed.head? = some (byte ';') then
    .ignored
  else if trimmed.head? = some (byte '[') then
    if byte ']' ∈ trimmed then .header (trimmed.tail.takeWhile (· ≠ byte ']')) else .unclosed
  else if byte '=' ∈ trimmed then
    .assignment (trim (trimmed.takeWhile (· ≠ byte '=')))
      (trim (trimmed.dropWhile (· ≠ byte '=')).tail)
  else
    .ignored

/-- The loop of `config_load_from_string`; the section has 32 bytes. -/
def loadLines : List Bytes → Bytes → Configuration → Except String Configuration
  | [], _, cfg => .ok cfg
  | line :: rest, sect, cfg =>
    match readLine line with
    | .ignored => loadLines rest sect cfg
    | .header name => loadLines rest (copy 32 name) cfg
    | .unclosed => .error "invalid section header"
    | .assignment key value => loadLines rest sect (cfg.assignValue sect key value)

/-- `config_load_from_string`; `strdup` tells whether there is memory for the copy. -/
def loadFromString (strdup : Bool) (ini : Bytes) : Except String Configuration :=
  if strdup then do
    let cfg ← loadLines (lines ini) [] defaults
    cfg.validate
    return cfg
  else
    .error "out of memory"

/-- What reading the configuration file comes to. -/
inductive FileRead where
  | openFails
  | seekFails
  | tellFails
  | rewindFails
  | noMemory
  | short
  | contents (bytes : Bytes)

/-- `config_load_file`. -/
def loadFile (strdup : Bool) : FileRead → Except String Configuration
  | .openFails => .error "failed to open config file"
  | .seekFails => .error "failed to seek config file"
  | .tellFails => .error "failed to determine config size"
  | .rewindFails => .error "failed to rewind config file"
  | .noMemory => .error "out of memory"
  | .short => .error "failed to read config file"
  | .contents bytes => loadFromString strdup (ofBytes bytes)

/-! ## What a text assigns -/

/-- The assignments of the lines that follow a header, with their section. -/
def assignments : Bytes → List Bytes → List (Bytes × Bytes × Bytes)
  | _, [] => []
  | sect, line :: rest =>
    match readLine line with
    | .header name => assignments name rest
    | .assignment key value => (sect, key, value) :: assignments sect rest
    | .ignored | .unclosed => assignments sect rest

/-- The last of the values that are assigned to a key of a section. -/
def lastValue (sect key : String) (as : List (Bytes × Bytes × Bytes)) : Option Bytes :=
  (as.filter fun a => a.1 = ofString sect ∧ a.2.1 = ofString key).getLast?.map (·.2.2)

/-- The value that the text gives to a key of a section, and the empty string if
    it gives none. -/
def setting (ini : Bytes) (sect key : String) : Bytes :=
  (lastValue sect key (assignments [] (lines ini))).getD []

@[simp] theorem lastValue_nil {sect key : String} : lastValue sect key [] = none := rfl

theorem lastValue_cons {sect key : String} {a : Bytes × Bytes × Bytes}
    {as : List (Bytes × Bytes × Bytes)} :
    lastValue sect key (a :: as) = (lastValue sect key as).or
      (if a.1 = ofString sect ∧ a.2.1 = ofString key then some a.2.2 else none) := by
  simp only [lastValue, List.filter_cons, decide_eq_true_eq]
  split
  · rw [List.getLast?_cons]
    cases (as.filter _).getLast? <;> rfl
  · rw [Option.or_none]

/-! ## Fields hold what the text assigns -/

/-- The only assignments to a field are those to one key of one section; they
    convert the value. -/
def Stores {α : Type} (field : Configuration → α) (sect key : String) (convert : Bytes → α) : Prop :=
  ∀ cfg s k v, field (assignValue cfg s k v) =
    if s = ofString sect ∧ k = ofString key then convert v else field cfg

theorem assignValue_server (cfg : Configuration) (s k v : Bytes) :
    (assignValue cfg s k v).server =
      if s = ofString "server" then cfg.server.assign k v else cfg.server := by
  have hne : ofString "server" ≠ ofString "ota" := by decide
  unfold assignValue
  split_ifs with hota hserver <;> first | rfl | exact absurd (‹s = _›.symm.trans ‹s = _›) hne

theorem stores_url : Stores (·.server.url) "server" "url" (copy 256) := by
  intro cfg s k v
  simp only [assignValue_server, ServerConfig.assign]
  split_ifs <;> simp_all

theorem stores_token : Stores (·.server.token) "server" "token" (copy 256) := by
  intro cfg s k v
  have hne : ofString "token" ≠ ofString "url" := by decide
  simp only [assignValue_server, ServerConfig.assign]
  split_ifs <;> simp_all

/-! ## Lines without NUL -/

/-- The bytes of a line are bytes of the text. -/
theorem mem_of_mem_lines {ini line : Bytes} {b : UInt8} (h : line ∈ lines ini) (hb : b ∈ line) :
    b ∈ ini := by
  have hmem : ∀ ls : List Bytes, line ∈ ls → b ∈ [byte '\n'].intercalate ls := by
    intro ls hline
    induction ls with
    | nil => cases hline
    | cons l ls ih =>
      cases ls with
      | nil =>
        rw [List.mem_singleton] at hline
        simpa [← hline] using hb
      | cons l' ls =>
        rw [List.intercalate_cons_cons]
        rcases List.mem_cons.mp hline with rfl | htail
        · simp [hb]
        · exact List.mem_append_right _ (ih htail)
  have hjoin := hmem (ini.splitOn (byte '\n')) (List.mem_of_mem_filter h)
  rwa [List.intercalate_splitOn] at hjoin

theorem mem_of_mem_trim {s : Bytes} {b : UInt8} (h : b ∈ trim s) : b ∈ s :=
  (List.dropWhile_suffix _).mem ((List.rdropWhile_prefix _ _).mem h)

/-- The name of a section consists of bytes of its line. -/
theorem mem_of_readLine_header {line name : Bytes} (h : readLine line = .header name) :
    ∀ b ∈ name, b ∈ line := by
  intro b hb
  simp only [readLine] at h
  split_ifs at h
  cases h
  exact mem_of_mem_trim (List.mem_of_mem_tail ((List.takeWhile_prefix _).mem hb))

/-- The value of an assignment consists of bytes of its line. -/
theorem mem_of_readLine_assignment {line key value : Bytes}
    (h : readLine line = .assignment key value) : ∀ b ∈ value, b ∈ line := by
  intro b hb
  simp only [readLine] at h
  split_ifs at h
  cases h
  exact mem_of_mem_trim ((List.dropWhile_suffix _).mem (List.mem_of_mem_tail (mem_of_mem_trim hb)))

/-- The lines contain no NUL. -/
def Plain (ls : List Bytes) : Prop := ∀ line ∈ ls, ∀ b ∈ line, b ≠ 0

theorem plain_lines {bytes : Bytes} : Plain (lines (ofBytes bytes)) := by
  intro line hline b hb
  have hmem := mem_of_mem_lines hline hb
  exact ne_zero_of_mem_ofBytes hmem

theorem ne_zero_of_mem_assignments {s : Bytes} {ls : List Bytes} {a : Bytes × Bytes × Bytes}
    (hls : Plain ls) (h : a ∈ assignments s ls) : ∀ b ∈ a.2.2, b ≠ 0 := by
  induction ls generalizing s with
  | nil => cases h
  | cons line ls ih =>
    obtain ⟨hline, hrest⟩ := List.forall_mem_cons.mp hls
    rw [assignments] at h
    split at h
    · exact ih hrest h
    · next key value hread =>
      rcases List.mem_cons.mp h with rfl | htail
      · exact fun b hb => hline b (mem_of_readLine_assignment hread b hb)
      · exact ih hrest htail
    · exact ih hrest h
    · exact ih hrest h

/-- A setting of a C string contains no NUL. -/
@[simp] theorem ofBytes_setting {bytes : Bytes} {sect key : String} :
    ofBytes (setting (ofBytes bytes) sect key) = setting (ofBytes bytes) sect key := by
  rw [setting, lastValue]
  cases hlast : ((assignments [] (lines (ofBytes bytes))).filter fun a =>
      a.1 = ofString sect ∧ a.2.1 = ofString key).getLast? with
  | none => rfl
  | some a =>
    have hmem := List.mem_of_mem_filter (List.mem_of_getLast? hlast)
    exact ofBytes_eq_self (ne_zero_of_mem_assignments plain_lines hmem)

/-! ## The loop -/

/-- What the loop leaves in a field is the last value that the lines assign to it. -/
theorem loadLines_field {α : Type} {field : Configuration → α} {sect key : String}
    {convert : Bytes → α} (hst : Stores field sect key convert)
    (hsect : (ofString sect).length < 31) {ls : List Bytes} {s : Bytes}
    {cfg cfg' : Configuration} (hls : Plain ls) (hs : ∀ b ∈ s, b ≠ 0)
    (h : loadLines ls (copy 32 s) cfg = .ok cfg') :
    field cfg' = ((lastValue sect key (assignments s ls)).map convert).getD (field cfg) := by
  induction ls generalizing s cfg with
  | nil =>
    cases h
    rfl
  | cons line ls ih =>
    obtain ⟨hline, hrest⟩ := List.forall_mem_cons.mp hls
    rw [loadLines] at h
    rw [assignments]
    split at h
    · next hread =>
      rw [hread]
      exact ih hrest hs h
    · next name hread =>
      rw [hread]
      exact ih hrest (fun b hb => hline b (mem_of_readLine_header hread b hb)) h
    · cases h
    · next k v hread =>
      have hwhole : copy 32 s = ofString sect ↔ s = ofString sect := copy_eq_iff hs hsect
      rw [hread, ih hrest hs h, hst, lastValue_cons]
      simp only [hwhole]
      cases lastValue sect key (assignments s ls) with
      | some value => rfl
      | none =>
        simp only [Option.none_or, Option.map_none, Option.getD_none]
        split <;> rfl

/-- A field that is empty by default holds what the text assigns. -/
theorem loadFromString_field {field : Configuration → Bytes} {sect key : String} {size : Nat}
    (hst : Stores field sect key (copy size)) (hsect : (ofString sect).length < 31)
    (hdefault : field defaults = []) {strdup : Bool} {bytes : Bytes} {cfg : Configuration}
    (h : loadFromString strdup (ofBytes bytes) = .ok cfg) :
    field cfg = copy size (setting (ofBytes bytes) sect key) := by
  unfold loadFromString at h
  split at h
  · cases hload : loadLines (lines (ofBytes bytes)) [] defaults with
    | error e => simp [hload, bind, Except.bind] at h
    | ok cfg' =>
      have hcfg : cfg' = cfg := by
        cases hval : cfg'.validate with
        | error e => simp [hload, hval, bind, Except.bind] at h
        | ok u => simpa [hload, hval, bind, Except.bind, pure, Except.pure] using h
      subst hcfg
      rw [loadLines_field hst hsect plain_lines (by simp) (s := []) (by simpa using hload), hdefault,
        setting]
      cases lastValue sect key (assignments [] (lines (ofBytes bytes))) with
      | none => exact copy_nil.symm
      | some value => rfl
  · cases h

end Configuration

end Xiaozhi
