-- SUMMARY: What a successful start has found: when the websocket client is started at all, and where it connects to.
import Xiaozhi.Startup.Main

/-!
# The gate before the client

The checks on the way to `xiaozhi_client_start` are spread over the loading of
the configuration, the parsing of the response, `app_bootstrap_ota`, `app_init`,
`app_run` and `main`. `appInit_modules` collects what all of them have checked,
and what has become of the url and the token on the way.
-/

namespace Xiaozhi

open CString

namespace Startup

/-! ## Options -/

@[simp] theorem parseArgsFrom_skipRuntimeInit {opts : AppOptions} {args : List Bytes} :
    (parseArgsFrom opts args).skipRuntimeInit = opts.skipRuntimeInit := by
  fun_induction parseArgsFrom opts args <;> first | rfl | assumption

@[simp] theorem parseArgsFrom_otaFetch {opts : AppOptions} {args : List Bytes} :
    (parseArgsFrom opts args).otaFetch = opts.otaFetch := by
  fun_induction parseArgsFrom opts args <;> first | rfl | assumption

@[simp] theorem parseArgs_skipRuntimeInit {args : List Bytes} :
    (parseArgs args).skipRuntimeInit = false := parseArgsFrom_skipRuntimeInit

@[simp] theorem parseArgs_otaFetch {args : List Bytes} : (parseArgs args).otaFetch = none :=
  parseArgsFrom_otaFetch

/-! ## What startup reads -/

/-- `app_init` reads the configuration text `ini`, which is valid, and a
    response of the update server, which is the JSON document `root`. -/
structure Reads (cjsonParse : Bytes → Option Json) (host : Host) (opts : AppOptions)
    (ini : Bytes) (root : Json) : Prop where
  contents : ∃ bytes, configFile host opts = .contents bytes ∧ ini = ofBytes bytes
  fetched : ∃ cfg text, Configuration.loadFromString host.strdup ini = .ok cfg ∧
    Ota.fetchText host.curl (fillDefaultIds cfg) = .ok text ∧ cjsonParse text = some root

/-- The conditions under which the device may connect. -/
def MayConnect (cjsonParse : Bytes → Option Json) (host : Host) (args : List Bytes) : Prop :=
  (parseArgs args).checkOnly = false ∧
  ∃ ini root, Reads cjsonParse host (parseArgs args) ini root ∧
    Ota.carried root "activation" "code" = [] ∧ effectiveUrl ini root ≠ []

variable {cjsonParse : Bytes → Option Json} {host : Host}

@[simp] theorem fillDefaultIds_server {cfg : Configuration} :
    (fillDefaultIds cfg).server = cfg.server := by
  dsimp only [fillDefaultIds]
  split_ifs <;> rfl

/-- What a successful fetch has read. -/
theorem fetch_ok {curl : List Bytes → Ota.CurlRun} {cfg : Configuration} {response : OtaResponse}
    (h : Ota.fetch cjsonParse curl cfg = .ok response) :
    ∃ text root, Ota.fetchText curl cfg = .ok text ∧ cjsonParse text = some root ∧
      response = Ota.readResponse root := by
  cases htext : Ota.fetchText curl cfg with
  | error e => simp [Ota.fetch, htext, bind, Except.bind] at h
  | ok text =>
    simp only [Ota.fetch, htext, bind, Except.bind, Ota.parseResponse] at h
    split at h
    · cases h
    · next root hroot =>
      cases h
      exact ⟨text, root, rfl, hroot, rfl⟩

/-- What `app_bootstrap_ota` leaves behind. Unless activation is required, there
    is a url to connect to. -/
theorem bootstrapOta_some {fetcher : Configuration → Except Bytes OtaResponse} {app app' : Startup}
    (h : bootstrapOta fetcher app = some app') :
    ∃ response, fetcher app.config = .ok response ∧
      app'.skipRuntimeInit = app.skipRuntimeInit ∧
      app'.client = app.client ∧
      app'.config.server = overlay app.config.server response.websocket ∧
      (app'.activationPending = false →
        response.activationRequired = false ∧ app'.config.server.url ≠ []) := by
  unfold bootstrapOta at h
  split at h
  · cases h
  · next response hresponse =>
    refine ⟨response, hresponse, ?_⟩
    dsimp only at h
    split_ifs at h with hrequired hempty
    · cases h
      exact ⟨rfl, rfl, rfl, fun hpending => by cases hpending⟩
    · cases h
      exact ⟨rfl, rfl, rfl, fun _ => ⟨Bool.eq_false_iff.mpr hrequired, hempty⟩⟩

/-- A successful initialisation of the runtime modules keeps the configuration,
    and hands its url and token to the client and its sample rate to the encoder. -/
theorem initRuntimeModules_some {app app' : Startup} (h : initRuntimeModules host app = some app') :
    app'.config = app.config ∧ app'.client = some (clientConfig app.config) ∧
      app'.encoder = initEncoder host app.config.audio.inputSampleRate ∧ app'.encoder.isSome ∧
      app'.skipRuntimeInit = app.skipRuntimeInit := by
  unfold initRuntimeModules at h
  dsimp only at h
  split at h
  · cases h
  · split at h
    · cases h
    · next encoder hencoder =>
      split at h
      · cases h
      · cases h
        exact ⟨rfl, rfl, hencoder.symm, rfl, rfl⟩

/-- The ways in which `app_init` succeeds: it stops after the configuration or
    the response, and no client is initialised, or all modules are initialised. -/
theorem initLoaded_some {args : List Bytes} {cfg : Configuration} {app : Startup}
    (h : initLoaded cjsonParse host (parseArgs args) cfg = some app) :
    app.skipRuntimeInit = false ∧
    ((app.client = none ∧ ((parseArgs args).checkOnly = true ∨ app.activationPending = true)) ∨
    ((parseArgs args).checkOnly = false ∧ ∃ text root,
      Ota.fetchText host.curl (fillDefaultIds cfg) = .ok text ∧ cjsonParse text = some root ∧
      Ota.carried root "activation" "code" = [] ∧
      app.config.server = overlay cfg.server (Ota.readResponse root).websocket ∧
      app.config.server.url ≠ [] ∧
      app.client = some (clientConfig app.config) ∧
      app.encoder = initEncoder host app.config.audio.inputSampleRate ∧ app.encoder.isSome)) := by
  unfold initLoaded at h
  dsimp only at h
  split at h
  · cases h
  · split at h
    · next hcheck =>
      cases h
      exact ⟨parseArgs_skipRuntimeInit, .inl ⟨rfl, .inl hcheck⟩⟩
    · next hcheck =>
      split at h
      · cases h
      · next app₁ hboot =>
        obtain ⟨response, hfetch, hskip, hclient, hserver, hrequired⟩ := bootstrapOta_some hboot
        rw [parseArgs_otaFetch, Option.getD_none] at hfetch
        obtain ⟨text, root, htext, hroot, rfl⟩ := fetch_ok hfetch
        split at h
        · next hpending =>
          cases h
          rw [hskip, parseArgs_skipRuntimeInit] at hpending
          exact ⟨hskip.trans parseArgs_skipRuntimeInit, .inl ⟨hclient, .inr (by simpa using hpending)⟩⟩
        · next hpending =>
          obtain ⟨hcfg, hinit, henc, hsome, hskip'⟩ := initRuntimeModules_some h
          obtain ⟨hcode, hurl⟩ := hrequired (by simpa using fun h => hpending (.inl h))
          refine ⟨(hskip'.trans hskip).trans parseArgs_skipRuntimeInit, .inr
            ⟨Bool.eq_false_iff.mpr hcheck, text, root, htext, hroot, ?_, ?_, ?_, ?_, ?_, hsome⟩⟩
          · by_contra hne
            rw [Ota.readResponse_activationRequired.mpr hne] at hcode
            cases hcode
          · rw [hcfg, hserver]
            exact congrArg₂ overlay fillDefaultIds_server rfl
          · rwa [hcfg]
          · rw [hcfg, hinit]
          · rw [hcfg, henc]

/-! ## From the texts to the client -/

/-- Taking the first of two strings that is not empty may be done before or
    after they are cut to a buffer. -/
theorem copy_first {carried configured : Bytes} (h : ofBytes carried = carried) :
    (if copy 256 carried ≠ [] then copy 256 (copy 256 carried) else copy 256 configured) =
      copy 256 (if carried ≠ [] then carried else configured) := by
  have hnil : copy 256 carried = [] ↔ carried = [] := by
    rw [copy_eq_nil_iff (by omega), h]
  simp only [ne_eq, hnil, copy_copy]
  split_ifs <;> rfl

/-- What `app_bootstrap_ota` leaves as the server are the effective url and
    token, cut to the size of their buffers. -/
theorem overlay_eq {ini : Bytes} {server : ServerConfig} {root : Json}
    (hurl : server.url = copy 256 (Configuration.setting ini "server" "url"))
    (htoken : server.token = copy 256 (Configuration.setting ini "server" "token")) :
    (overlay server (Ota.readResponse root).websocket).url = copy 256 (effectiveUrl ini root) ∧
    (overlay server (Ota.readResponse root).websocket).token = copy 256 (effectiveToken ini root) := by
  dsimp only [overlay, effectiveUrl, effectiveToken]
  rw [Ota.readResponse_url, Ota.readResponse_token, hurl, htoken]
  exact ⟨copy_first Ota.ofBytes_carried, copy_first Ota.ofBytes_carried⟩

/-- What `app_init` has found and handed on, where it does not stop early. -/
theorem appInit_some {args : List Bytes} {app : Startup}
    (h : appInit cjsonParse host (parseArgs args) = some app) :
    app.skipRuntimeInit = false ∧
    ((app.client = none ∧ ((parseArgs args).checkOnly = true ∨ app.activationPending = true)) ∨
    ((parseArgs args).checkOnly = false ∧ ∃ ini root,
      Reads cjsonParse host (parseArgs args) ini root ∧
      Ota.carried root "activation" "code" = [] ∧
      app.config.server.url = copy 256 (effectiveUrl ini root) ∧
      app.config.server.token = copy 256 (effectiveToken ini root) ∧
      app.config.server.url ≠ [] ∧
      app.client = some (clientConfig app.config) ∧
      app.encoder = initEncoder host app.config.audio.inputSampleRate ∧ app.encoder.isSome)) := by
  unfold appInit at h
  split at h
  · cases h
  · next cfg hload =>
    obtain ⟨hskip, hearly | ⟨hcheck, text, root, htext, hroot, hcode, hserver, hne, hrest⟩⟩ :=
      initLoaded_some h
    · exact ⟨hskip, .inl hearly⟩
    · cases hfile : configFile host (parseArgs args) with
      | contents bytes =>
        rw [hfile] at hload
        have hurl := Configuration.loadFromString_field Configuration.stores_url (by decide) rfl hload
        have htoken := Configuration.loadFromString_field Configuration.stores_token (by decide) rfl hload
        obtain ⟨hurl', htoken'⟩ := overlay_eq hurl htoken
        rw [← hserver] at hurl' htoken'
        have hreads : Reads cjsonParse host (parseArgs args) (ofBytes bytes) root :=
          ⟨⟨bytes, hfile, rfl⟩, cfg, text, hload, htext, hroot⟩
        exact ⟨hskip, .inr ⟨hcheck, ofBytes bytes, root, hreads, hcode, hurl', htoken', hne, hrest⟩⟩
      | _ => rw [hfile] at hload; cases hload

/-- The texts that startup reads are determined. -/
theorem Reads.unique {opts : AppOptions} {ini ini' : Bytes} {root root' : Json}
    (h : Reads cjsonParse host opts ini root) (h' : Reads cjsonParse host opts ini' root') :
    ini = ini' ∧ root = root' := by
  obtain ⟨⟨bytes, hfile, rfl⟩, cfg, text, hload, htext, hroot⟩ := h
  obtain ⟨⟨bytes', hfile', rfl⟩, cfg', text', hload', htext', hroot'⟩ := h'
  rw [hfile] at hfile'
  cases hfile'
  rw [hload] at hload'
  cases hload'
  rw [htext] at htext'
  cases htext'
  rw [hroot] at hroot'
  cases hroot'
  exact ⟨rfl, rfl⟩

/-! ## When the client is started -/

/-- Where `app_run` enters its loop, everything that must hold for the device to
    connect has been checked. -/
theorem mayConnect_of_main {args : List Bytes} {app : Startup}
    (h : main cjsonParse host args = .loops app) : MayConnect cjsonParse host args := by
  simp only [main] at h
  split at h
  · cases h
  · next app' hinit =>
    split at h
    · cases h
    · next hcheck =>
      split at h
      · cases h
      · next hrun =>
        cases h
        obtain ⟨-, ⟨-, hearly⟩ | ⟨hno, ini, root, hreads, hcode, hurl, -, hne, -⟩⟩ := appInit_some hinit
        · rcases hearly with hyes | hpending
          · exact absurd hyes hcheck
          · simp [appRun, hpending] at hrun
        · refine ⟨hno, ini, root, hreads, hcode, fun hnil => hne ?_⟩
          rw [hurl, hnil, copy_nil]

/-- The process ends with a failure, unless only the configuration check was asked for. -/
theorem status_of_main {args : List Bytes} {status : Int}
    (h : main cjsonParse host args = .exits status) :
    status ≠ 0 ∨ (parseArgs args).checkOnly = true := by
  simp only [main] at h
  split at h
  · cases h
    exact .inl (by decide)
  · next app hinit =>
    split at h
    · next hcheck => exact .inr hcheck
    · split at h
      · next rc hrun =>
        cases h
        obtain ⟨hskip, -⟩ := appInit_some hinit
        simp only [appRun, hskip] at hrun
        split at hrun
        · cases hrun
          exact .inl (by decide)
        · cases hrun
      · cases h

/-! ## Where the client connects to -/

theorem Reads.ofBytes_effectiveUrl {opts : AppOptions} {ini : Bytes} {root : Json}
    (h : Reads cjsonParse host opts ini root) :
    ofBytes (effectiveUrl ini root) = effectiveUrl ini root := by
  obtain ⟨⟨bytes, -, rfl⟩, -⟩ := h
  dsimp only [effectiveUrl]
  split_ifs
  · exact Ota.ofBytes_carried
  · exact Configuration.ofBytes_setting

theorem Reads.ofBytes_effectiveToken {opts : AppOptions} {ini : Bytes} {root : Json}
    (h : Reads cjsonParse host opts ini root) :
    ofBytes (effectiveToken ini root) = effectiveToken ini root := by
  obtain ⟨⟨bytes, -, rfl⟩, -⟩ := h
  dsimp only [effectiveToken]
  split_ifs
  · exact Ota.ofBytes_carried
  · exact Configuration.ofBytes_setting

/-- What the client is given to connect to, from the texts that startup reads. -/
theorem client_of_appInit {args : List Bytes} {ini : Bytes} {root : Json} {app : Startup}
    {client : XiaozhiClientConfig} (hreads : Reads cjsonParse host (parseArgs args) ini root)
    (hinit : appInit cjsonParse host (parseArgs args) = some app) (hclient : app.client = some client) :
    client.url = copy 256 (effectiveUrl ini root) ∧
    client.authorization = if effectiveToken ini root = [] then [] else
      ofString "Bearer " ++ (effectiveToken ini root).take 240 := by
  obtain ⟨-, ⟨hnone, -⟩ | ⟨-, ini', root', hreads', -, hurl, htoken, -, hsome, -⟩⟩ := appInit_some hinit
  · rw [hnone] at hclient
    cases hclient
  · obtain ⟨rfl, rfl⟩ := hreads.unique hreads'
    have hwhole := hreads.ofBytes_effectiveToken
    rw [hsome] at hclient
    cases hclient
    refine ⟨by rw [clientConfig, hurl, copy_copy], ?_⟩
    have hnil : copy 256 (effectiveToken ini root) = [] ↔ effectiveToken ini root = [] := by
      rw [copy_eq_nil_iff (by omega), hwhole]
    have hne : ∀ b ∈ ofString "Bearer ", b ≠ 0 := by decide +kernel
    have htake : (effectiveToken ini root).take 240 = copy 241 (effectiveToken ini root) := by
      rw [copy, hwhole]
    simp only [clientConfig, htoken, ne_eq, hnil, ite_not, ofBytes_copy]
    refine if_congr Iff.rfl rfl ?_
    have hcut : (copy 256 (effectiveToken ini root)).take 240 = (effectiveToken ini root).take 240 := by
      rw [copy, hwhole, List.take_take]
      rfl
    rw [hcut]
    refine copy_eq_self (fun b hb => ?_) ?_
    · rcases List.mem_append.mp hb with hb | hb
      · exact hne b hb
      · rw [htake] at hb
        exact ne_zero_of_mem_copy hb
    · have hlen : (ofString "Bearer ").length = 7 := by decide
      rw [List.length_append, List.length_take]
      omega

theorem lookup_authorization {config : XiaozhiClientConfig} :
    config.handshakeHeaders.lookup "Authorization:" =
      if config.authorization = [] then none else some config.authorization := by
  have hother : ∀ {name : String} {value : Bytes}, name ≠ "Authorization:" →
      (XiaozhiClientConfig.appendHeader name value).lookup "Authorization:" = none := by
    intro name value hne
    unfold XiaozhiClientConfig.appendHeader
    split
    · rfl
    · rw [List.lookup_cons, beq_false_of_ne hne.symm]
      rfl
  have hfirst : (XiaozhiClientConfig.appendHeader "Authorization:" config.authorization).lookup
      "Authorization:" = if config.authorization = [] then none else some config.authorization := by
    unfold XiaozhiClientConfig.appendHeader
    split
    · rfl
    · rw [List.lookup_cons, beq_self_eq_true]
  simp only [XiaozhiClientConfig.handshakeHeaders, List.lookup_append]
  have hversion : "Protocol-Version:" ≠ "Authorization:" := by decide
  have hdevice : "Device-Id:" ≠ "Authorization:" := by decide
  have hclient : "Client-Id:" ≠ "Authorization:" := by decide
  rw [hfirst, hother hversion, hother hdevice, hother hclient]
  simp only [Option.or_none]

/-- The value that the `Authorization` header should have, and none without a token. -/
def bearer (token : Bytes) : Option Bytes :=
  if token = [] then none else some (ofString "Bearer " ++ token)

/-- The client connects to the effective url with the effective token exactly
    when these fit the smallest buffers on the way. -/
theorem client_endpoint_iff {args : List Bytes} {ini : Bytes} {root : Json} {app : Startup}
    {client : XiaozhiClientConfig} (hreads : Reads cjsonParse host (parseArgs args) ini root)
    (hinit : appInit cjsonParse host (parseArgs args) = some app) (hclient : app.client = some client) :
    (client.url = effectiveUrl ini root ∧
      client.handshakeHeaders.lookup "Authorization:" = bearer (effectiveToken ini root)) ↔
    (effectiveUrl ini root).length ≤ 255 ∧ (effectiveToken ini root).length ≤ 240 := by
  obtain ⟨hurl, hauth⟩ := client_of_appInit hreads hinit hclient
  refine and_congr ?_ ?_
  · rw [hurl]
    have hiff : copy 256 (effectiveUrl ini root) = ofBytes (effectiveUrl ini root) ↔ _ :=
      copy_eq_ofBytes_iff (by omega)
    rw [hreads.ofBytes_effectiveUrl] at hiff
    rw [hiff]
    omega
  · rw [lookup_authorization, hauth, bearer]
    by_cases htoken : effectiveToken ini root = []
    · simp [htoken]
    · have hne : ofString "Bearer " ++ (effectiveToken ini root).take 240 ≠ [] := by simp [ofString]
      rw [if_neg htoken, if_neg htoken, if_neg hne, Option.some_inj, List.append_cancel_left_eq]
      constructor
      · intro htake
        have hlen := congrArg List.length htake
        rw [List.length_take] at hlen
        omega
      · exact List.take_of_length_le

/-! ## A sample -/

/-- A configuration text. -/
def sampleIni : Bytes := ofString
  "[ota]\nurl = http://host/ota\napp_version = 1\n[board]\ntype = pc\nname = desk\n[server]\nurl = ws://host\n"

/-- A response with the given token. -/
def sampleResponse (token : Bytes) : Json :=
  .object [(ofString "websocket", .object [(ofString "token", .string token)])]

/-- `cJSON_Parse` on the sample response. -/
def parseSample (token text : Bytes) : Option Json :=
  if text = (sampleResponse token).printUnformatted then some (sampleResponse token) else none

/-- Everything succeeds, and the update server sends the sample response. -/
def sampleHost (token : Bytes) : Host where
  file _ := .contents sampleIni
  strdup := true
  curl _ := .ran [(sampleResponse token).printUnformatted] false (some (.exited 0))
  eventQueueInit := true
  clientBufferInit := true
  opusEncoderCreate rate channels := rate ∈ [8000, 12000, 16000, 24000, 48000] ∧ channels ∈ [1, 2]
  opusDecoderCreate rate channels := rate ∈ [8000, 12000, 16000, 24000, 48000] ∧ channels ∈ [1, 2]
  playbackInit := true
  captureStart := true

/-- What `app_init` hands to the client in the sample. -/
def sampleClient (token : Bytes) : Option XiaozhiClientConfig :=
  (appInit (parseSample token) (sampleHost token) (parseArgs [])).bind (·.client)

theorem reads_sample {token : Bytes} (h : (sampleClient token).isSome = true) :
    Reads (parseSample token) (sampleHost token) (parseArgs []) sampleIni (sampleResponse token) ∧
    ∃ app client, appInit (parseSample token) (sampleHost token) (parseArgs []) = some app ∧
      app.client = some client := by
  obtain ⟨client, hsome⟩ := Option.isSome_iff_exists.mp h
  obtain ⟨app, hinit, hclient⟩ := Option.bind_eq_some_iff.mp hsome
  refine ⟨?_, app, client, hinit, hclient⟩
  obtain ⟨-, ⟨hnone, -⟩ | ⟨-, ini, root, ⟨⟨bytes, hfile, rfl⟩, cfg, text, hload, htext, hroot⟩, -⟩⟩ :=
    appInit_some hinit
  · rw [hnone] at hclient
    cases hclient
  · have hini : ofBytes sampleIni = sampleIni := by decide
    cases hfile
    rw [hini] at hload
    unfold parseSample at hroot
    split at hroot
    · next hprinted =>
      cases hroot
      exact ⟨⟨sampleIni, rfl, hini.symm⟩, cfg, text, hload, htext, if_pos hprinted⟩
    · cases hroot

theorem client_endpoint_sample : ∃ client, sampleClient (ofString "tok") = some client ∧
    client.url = ofString "ws://host" ∧
    client.handshakeHeaders.lookup "Authorization:" = some (ofString "Bearer tok") := by
  have hsome : (sampleClient (ofString "tok")).isSome = true := by decide +kernel
  obtain ⟨hreads, app, client, hinit, hclient⟩ := reads_sample hsome
  have hurl : effectiveUrl sampleIni (sampleResponse (ofString "tok")) = ofString "ws://host" := by
    decide +kernel
  have htoken : effectiveToken sampleIni (sampleResponse (ofString "tok")) = ofString "tok" := by
    decide +kernel
  have hiff := client_endpoint_iff hreads hinit hclient
  rw [hurl, htoken] at hiff
  exact ⟨client, by rw [sampleClient, hinit]; exact hclient, hiff.mpr (by decide)⟩

/-- A token of 241 bytes loses its last byte. -/
theorem long_token_cut : ¬∀ (cjsonParse : Bytes → Option Json) (host : Host) (args : List Bytes)
    (ini : Bytes) (root : Json) (app : Startup) (client : XiaozhiClientConfig),
    Reads cjsonParse host (parseArgs args) ini root →
    appInit cjsonParse host (parseArgs args) = some app → app.client = some client →
    client.url = effectiveUrl ini root ∧
      client.handshakeHeaders.lookup "Authorization:" = bearer (effectiveToken ini root) := by
  intro hall
  have hsome : (sampleClient (List.replicate 241 97)).isSome = true := by decide +kernel
  obtain ⟨hreads, app, client, hinit, hclient⟩ := reads_sample hsome
  obtain ⟨-, hcut⟩ := client_of_appInit hreads hinit hclient
  obtain ⟨-, hwhole⟩ := hall _ _ _ _ _ _ _ hreads hinit hclient
  have htoken : effectiveToken sampleIni (sampleResponse (List.replicate 241 97)) =
      List.replicate 241 97 := by decide +kernel
  rw [htoken] at hcut hwhole
  rw [lookup_authorization, hcut] at hwhole
  exact absurd hwhole (by decide +kernel)

end Startup

namespace Process

open Startup

/-- The websocket client is started only in a device that may connect. Where it
    may not, the process ends before, and a process that ends there has never
    started the client and reports a failure, unless only the configuration
    check was asked for. -/
theorem client_start_gated {cjsonParse : Bytes → Option Json} {host : Host} {args : List Bytes} :
    (∀ p, Reach cjsonParse host args p → p.ClientStartCalled → MayConnect cjsonParse host args) ∧
    (¬MayConnect cjsonParse host args → ∃ status, Reach cjsonParse host args (.ended status)) ∧
    ∀ status, Reach cjsonParse host args (.ended status) →
      (∀ p, Reach cjsonParse host args p → p = .ended status ∧ ¬p.ClientStartCalled) ∧
      (status ≠ 0 ∨ (parseArgs args).checkOnly = true) := by
  refine ⟨fun p hp hstart => ?_, fun hno => ?_, fun status hended => ⟨fun p hp => ?_, ?_⟩⟩
  · cases p with
    | ended status => exact hstart.elim
    | running cfg =>
      obtain ⟨app, hmain, -⟩ := hp
      exact mayConnect_of_main hmain
  · cases hmain : main cjsonParse host args with
    | exits status => exact ⟨status, hmain⟩
    | loops app => exact absurd (mayConnect_of_main hmain) hno
  · have hmain : main cjsonParse host args = .exits status := hended
    cases p with
    | ended status' =>
      have hmain' : main cjsonParse host args = .exits status' := hp
      cases hmain.symm.trans hmain'
      exact ⟨rfl, id⟩
    | running cfg =>
      obtain ⟨app, hloops, -⟩ := hp
      cases hmain.symm.trans hloops
  · exact status_of_main hended

/-- The sample gets as far as the loop. -/
example : (match main (parseSample (ofString "tok")) (sampleHost (ofString "tok")) [] with
    | .loops _ => true
    | .exits _ => false) = true := by decide +kernel

end Process

end Xiaozhi
