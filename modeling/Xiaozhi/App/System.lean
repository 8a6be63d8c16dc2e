-- SUMMARY: The system of all threads, from the state that `app_init` leaves behind.
import Xiaozhi.Client.Service
import Xiaozhi.App.Main

/-!
# System

The threads under any schedule, from the end of a successful `app_init`: the
main thread calls `app_run`, the capture and playback threads run, and the
service threads wait to be created. SIGINT may come at any time.
-/

namespace Xiaozhi

/-- The encoder for the configured rate. -/
def OpusEncoder.init (sampleRate channels frameMs : Int) : OpusEncoder :=
  { sampleRate, channels, frameMs, samplesPerChannel := (sampleRate * frameMs).tdiv 1000 }

/-- `audio_buffer_init` of the client and the playback. -/
def AudioBuffer.init32 (blockCapacity : Nat) : AudioBuffer Nat :=
  { blocks := .init 32 fun i => { data := i * blockCapacity, len := 0, sampleRate := 0, tag := 0 }
    storage := fun _ => 0
    blockCapacity }

theorem AudioBuffer.init32_eq {blockCapacity : Nat} (h : blockCapacity ≠ 0) :
    AudioBuffer.init 32 blockCapacity = some (init32 blockCapacity) := by
  simp [AudioBuffer.init, init32, h]

/-- `xiaozhi_client_init`. -/
def XiaozhiClient.init : XiaozhiClient where
  context := false
  wsi := none
  thread := none
  running := false
  connected := false
  recvText := []
  recvBinary := []
  pendingText := { items := [], capacity := 0 }
  pendingBinary := .init32 4096

/-- `audio_playback_init`. -/
def AudioPlayback.init : AudioPlayback where
  channels := 1
  queue := .init32 8192
  running := true
  stopRequested := false
  waiting := false
  pcm := false
  currentRate := 0
  enqueued := 0
  accepted := []
  stopMark := 0
  log := []

/-- `audio_capture_start`. -/
def AudioCapture.init (config : AppConfig) : AudioCapture where
  sampleRate := if config.inputSampleRate ≤ 0 then 16000 else config.inputSampleRate
  channels := 1
  periodFrames := 960
  silenceTimeoutMs := if config.silenceTimeoutMs < 0 then 1200 else config.silenceTimeoutMs
  silenceThreshold := if config.silenceThreshold < 0 then 500 else config.silenceThreshold
  running := true
  uploading := false
  silenceAccumulatorMs := 0
  pcm := false
  log := []

/-- The state that a successful `app_init` leaves behind. -/
def AppRuntime.init (config : AppConfig) : AppRuntime where
  config
  events := .init64
  session := .idle
  client := .init
  encoder := some (.init config.inputSampleRate 1 60)
  decoder := some { sampleRate := 24000, channels := 1 }
  capture := .init config
  playback := .init
  stopRequested := false
  clientStarted := false
  uploadEnabled := false
  ttsDone := false
  decoderSampleRate := 24000
  opusDumpFile := none
  opusDumpIndex := 0
  sessionId := []

/-- Nothing has happened yet. -/
def World.init (config : AppConfig) : World where
  toAppRuntime := .init config
  lws _ := .absent
  writable _ := false
  started := 0
  exited _ := false
  joined := []
  returned := none
  log := []
  pushes := []
  marks := []
  texts := []
  received := []
  delivered := []
  checks := 0
  queued := []
  dequeued := []
  wire := []

namespace System

/-- A configuration of the system. -/
abbrev Config := Threads.Config ThreadId World Answer

variable (cjsonParse : Bytes → Option Json)

/-- What the threads repeat. The service threads run once, since a second round
    is never enabled. -/
def body : ThreadId → Thread Unit
  | .main => App.runLoop cjsonParse
  | .service k => XiaozhiClient.serviceThread k
  | .playback => AudioPlayback.thread
  | .capture => AudioCapture.thread
  | .signal => App.requestStop .signal

/-- The main thread enters `app_run`, the capture thread opens its device, and
    the others are at the start of their loops. -/
def init (config : AppConfig) : Config where
  shared := .init config
  cur
    | .main => some App.runStart
    | .capture => some AudioCapture.openDevice
    | _ => none

/-- The configurations that the system reaches in runs whose steps all meet `ok`. -/
def Reach (ok : ThreadId → World → World → Prop) (config : AppConfig) (cfg : Config) : Prop :=
  Threads.Reach (body cjsonParse) ok (init config) cfg

/-- Every step is admitted. -/
def anyStep : ThreadId → World → World → Prop := fun _ _ _ => True

/-- The main thread is between two rounds of the loop of `app_run`. -/
def AtBoundary (cfg : Config) : Prop := cfg.cur .main = none

/-- Messages of a server, with the values that cJSON makes of them, for runs on
    fixed inputs. -/
def sampleMessages : List (Bytes × Json) :=
  let str (s : String) : Json := .string (CString.ofString s)
  let object (members : List (String × Json)) : Json :=
    .object (members.map fun m => (CString.ofString m.1, m.2))
  [(CString.ofString "\x7b\"type\":\"hello\",\"session_id\":\"s1\"\x7d",
      object [("type", str "hello"), ("session_id", str "s1")]),
   (CString.ofString "\x7b\"type\":\"hello\"\x7d", object [("type", str "hello")]),
   (CString.ofString "\x7b\"type\":\"tts\",\"state\":\"start\"\x7d",
      object [("type", str "tts"), ("state", str "start")]),
   (CString.ofString "\x7b\"type\":\"tts\",\"state\":\"stop\"\x7d",
      object [("type", str "tts"), ("state", str "stop")])]

/-- `cJSON_Parse` on the sample messages. -/
def sampleParse (json : Bytes) : Option Json := sampleMessages.lookup json

/-- The sample message number `i` arrives in one fragment. -/
def receives (i : Nat) : Answer :=
  .callback (.receive false ((sampleMessages.map (·.1)).getD i []) true)

/-- What a step adds to a history, for tests of steps. -/
def added {α : Type} (l l' : List α) : Option α :=
  if l'.length = l.length + 1 then l'.head? else none

@[simp] theorem added_cons {α : Type} {l : List α} {x : α} : added l (x :: l) = some x := by
  simp [added]

/-- Let the threads make steps in turn, from the start, all of which pass the
    test `check`. Steps that wait for no answer take `spurious`. -/
def play (check : ThreadId → World → World → Bool) (config : AppConfig)
    (turns : List (ThreadId × Nat × List Answer)) : Option Config :=
  (init config).play (body cjsonParse) check .spurious turns

/-- What is found after some turns is true of a run. -/
theorem exists_of_play {cjsonParse : Bytes → Option Json} {config : AppConfig}
    {check : ThreadId → World → World → Bool} {ok : ThreadId → World → World → Prop}
    {turns : List (ThreadId × Nat × List Answer)} {p : Config → Bool}
    (hok : ∀ i w w', check i w w' = true → ok i w w')
    (h : (play cjsonParse check config turns).any p = true) :
    ∃ cfg, Reach cjsonParse ok config cfg ∧ p cfg = true := by
  obtain ⟨cfg, hplay, hp⟩ := (Option.any_eq_true p _).mp h
  exact ⟨cfg, Threads.Reach.of_play hok .refl hplay, hp⟩

end System

end Xiaozhi
