-- SUMMARY: The start of the program: the command line, `app_init` and `main` up to the loop of `app_run`.
import Xiaozhi.App.System
import Xiaozhi.Startup.Ota

/-!
# Startup

`main.c`, and the part of `app.c` that runs before the loop of `app_run`. What
the system and the libraries answer is collected in a `Host`. Once `app_run`
enters its loop, the process is the system of all threads.
-/

namespace Xiaozhi

open CString

/-- `app_options_t`. -/
structure AppOptions where
  configPath : Option Bytes
  checkOnly : Bool
  skipRuntimeInit : Bool
  otaFetch : Option (Configuration → Except Bytes OtaResponse)

/-- `xiaozhi_client_config_t`. -/
structure XiaozhiClientConfig where
  url : Bytes
  protocolVersion : Int
  authorization : Bytes
  deviceId : Bytes
  clientId : Bytes

/-- `xiaozhi_client_append_header`. -/
def XiaozhiClientConfig.appendHeader (name : String) (value : Bytes) : List (String × Bytes) :=
  if value = [] then [] else [(name, value)]

/-- The headers of the handshake, as `LWS_CALLBACK_CLIENT_APPEND_HANDSHAKE_HEADER`
    adds them where there is room. -/
def XiaozhiClientConfig.handshakeHeaders (config : XiaozhiClientConfig) : List (String × Bytes) :=
  appendHeader "Authorization:" config.authorization ++
    appendHeader "Protocol-Version:" (copy 16 (ofInt config.protocolVersion)) ++
    appendHeader "Device-Id:" config.deviceId ++ appendHeader "Client-Id:" config.clientId

/-- The part of `app_runtime_t` that is set before the loop of `app_run`.
    `client` is what `xiaozhi_client_init` is given. -/
structure Startup where
  config : Configuration
  otaResponse : Option OtaResponse
  checkOnly : Bool
  skipRuntimeInit : Bool
  activationPending : Bool
  client : Option XiaozhiClientConfig
  encoder : Option OpusEncoder
  runtimeModulesInitialized : Bool

/-- What the system and the libraries answer during startup. The last five are
    the outcomes of allocations and thread creations, and of the library's
    constructors for a sample rate and a number of channels. -/
structure Host where
  file : Bytes → Configuration.FileRead
  strdup : Bool
  curl : List Bytes → Ota.CurlRun
  eventQueueInit : Bool
  clientBufferInit : Bool
  opusEncoderCreate : Int → Int → Bool
  opusDecoderCreate : Int → Int → Bool
  playbackInit : Bool
  captureStart : Bool

/-- What the threads read of the configuration. -/
def Configuration.running (cfg : Configuration) : AppConfig where
  protocolVersion := cfg.server.protocolVersion
  inputSampleRate := cfg.audio.inputSampleRate
  silenceTimeoutMs := cfg.audio.silenceTimeoutMs
  silenceThreshold := cfg.audio.silenceThreshold

namespace Startup

/-! ## The command line -/

/-- The loop of `parse_args`, over the arguments after the program's name. -/
def parseArgsFrom (opts : AppOptions) : List Bytes → AppOptions
  | [] => opts
  | [arg] => if arg = ofString "--check-config" then { opts with checkOnly := true } else opts
  | arg :: next :: rest =>
    if arg = ofString "--config" then
      parseArgsFrom { opts with configPath := some next } rest
    else if arg = ofString "--check-config" then
      parseArgsFrom { opts with checkOnly := true } (next :: rest)
    else
      parseArgsFrom opts (next :: rest)

/-- `parse_args`. -/
def parseArgs (args : List Bytes) : AppOptions :=
  parseArgsFrom {
    configPath := some (ofString "config/xiaozhi.ini")
    checkOnly := false
    skipRuntimeInit := false
    otaFetch := none } args

/-! ## `app_init` -/

/-- `app_fill_default_ids`. -/
def fillDefaultIds (cfg : Configuration) : Configuration :=
  let cfg := if cfg.device.deviceId = [] then
    { cfg with device.deviceId := copy 64 (ofString "desktop-device") } else cfg
  if cfg.device.clientId = [] then
    { cfg with device.clientId := copy 64 (ofString "desktop-client") }
  else
    cfg

/-- The copies of `app_bootstrap_ota`: what the response gives goes over what is configured. -/
def overlay (server : ServerConfig) (websocket : OtaWebsocketInfo) : ServerConfig where
  url := if websocket.url ≠ [] then copy 256 websocket.url else server.url
  token := if websocket.token ≠ [] then copy 256 websocket.token else server.token
  protocolVersion := server.protocolVersion

/-- `app_bootstrap_ota`. -/
def bootstrapOta (fetcher : Configuration → Except Bytes OtaResponse) (app : Startup) :
    Option Startup :=
  match fetcher app.config with
  | .error _ => none
  | .ok response =>
    let server := overlay app.config.server response.websocket
    let app := { app with otaResponse := some response, config.server := server }
    if response.activationRequired then some { app with activationPending := true }
    else if server.url = [] then none
    else some app

/-- The configuration that `app_init_runtime_modules` makes for the client. -/
def clientConfig (cfg : Configuration) : XiaozhiClientConfig where
  url := copy 256 cfg.server.url
  protocolVersion := cfg.server.protocolVersion
  authorization := if cfg.server.token ≠ [] then
    copy 256 (ofString "Bearer " ++ (ofBytes cfg.server.token).take 240) else []
  deviceId := copy 64 cfg.device.deviceId
  clientId := copy 64 cfg.device.clientId

/-- `opus_encoder_wrapper_init` for one channel and frames of 60 ms. -/
def initEncoder (host : Host) (sampleRate : Int) : Option OpusEncoder :=
  if sampleRate ≤ 0 ∨ ¬host.opusEncoderCreate sampleRate 1 then none
  else some (.init sampleRate 1 60)

/-- `app_init_runtime_modules`. -/
def initRuntimeModules (host : Host) (app : Startup) : Option Startup :=
  let client := clientConfig app.config
  if client.url = [] ∨ ¬host.clientBufferInit then
    none
  else
    match initEncoder host app.config.audio.inputSampleRate with
    | none => none
    | some encoder =>
      if ¬host.opusDecoderCreate 24000 1 ∨ ¬host.playbackInit ∨ ¬host.captureStart then
        none
      else
        some { app with
          client := some client
          encoder := some encoder
          runtimeModulesInitialized := true }

variable (cjsonParse : Bytes → Option Json) (host : Host)

/-- `app_init`, from the configuration it has loaded. -/
def initLoaded (opts : AppOptions) (cfg : Configuration) : Option Startup :=
  let app : Startup := {
    config := fillDefaultIds cfg
    otaResponse := none
    checkOnly := opts.checkOnly
    skipRuntimeInit := opts.skipRuntimeInit
    activationPending := false
    client := none
    encoder := none
    runtimeModulesInitialized := false }
  if ¬host.eventQueueInit then
    none
  else if app.checkOnly then
    some app
  else
    match bootstrapOta (opts.otaFetch.getD (Ota.fetch cjsonParse host.curl)) app with
    | none => none
    | some app =>
      if app.activationPending ∨ app.skipRuntimeInit then some app
      else initRuntimeModules host app

/-- The file that `app_init` loads. -/
def configFile (opts : AppOptions) : Configuration.FileRead :=
  host.file (opts.configPath.getD (ofString "config/xiaozhi.ini"))

/-- `app_init`; a failure leaves a state that `main` does not look at. -/
def appInit (opts : AppOptions) : Option Startup :=
  match Configuration.loadFile host.strdup (configFile host opts) with
  | .error _ => none
  | .ok cfg => initLoaded cjsonParse host opts cfg

/-! ## `main` -/

/-- What `app_run` comes to: it returns, or it enters its loop. -/
inductive AppRun where
  | returns (rc : Int)
  | loops

/-- `app_run`, up to its loop. -/
def appRun (app : Startup) : AppRun :=
  if app.activationPending then .returns 1
  else if app.skipRuntimeInit then .returns 0
  else .loops

/-- What `main` comes to: the process ends, or `app_run` enters its loop. -/
inductive Launch where
  | exits (status : Int)
  | loops (app : Startup)

/-- `main`. -/
def main (args : List Bytes) : Launch :=
  let opts := parseArgs args
  match appInit cjsonParse host opts with
  | none => .exits 1
  | some app =>
    if opts.checkOnly then
      .exits 0
    else
      match app.appRun with
      | .returns rc => .exits (if rc = 0 then 0 else 1)
      | .loops => .loops app

end Startup

/-! ## The process -/

/-- A state of the process: it has ended before the loop of `app_run`, or the
    threads run. -/
inductive Process where
  | ended (status : Int)
  | running (cfg : System.Config)

namespace Process

/-- The states that the process reaches on a command line. -/
def Reach (cjsonParse : Bytes → Option Json) (host : Host) (args : List Bytes) : Process → Prop
  | .ended status => Startup.main cjsonParse host args = .exits status
  | .running cfg => ∃ app, Startup.main cjsonParse host args = .loops app ∧
      System.Reach cjsonParse System.anyStep app.config.running cfg

/-- `xiaozhi_client_start` has been called. -/
def ClientStartCalled : Process → Prop
  | .ended _ => False
  | .running cfg => ∃ entry ∈ cfg.shared.log,
      entry = .runsAlready ∨ (∃ k, entry = .starts k) ∨ ∃ queued, entry = .startFails queued

end Process

/-! ## What startup has to find -/

namespace Startup

/-- The url to connect to: the one of the response, or else the configured one. -/
def effectiveUrl (ini : Bytes) (root : Json) : Bytes :=
  let url := Ota.carried root "websocket" "url"
  if url ≠ [] then url else Configuration.setting ini "server" "url"

/-- The token to present: the one of the response, or else the configured one. -/
def effectiveToken (ini : Bytes) (root : Json) : Bytes :=
  let token := Ota.carried root "websocket" "token"
  if token ≠ [] then token else Configuration.setting ini "server" "token"

end Startup

end Xiaozhi
