-- SUMMARY: The capture of microphone audio: the call of the main thread, and the capture thread with its callback.
import Xiaozhi.Client.Client

/-!
# Capture

`audio_capture.c`, with `app_capture_on_pcm` and the encoder that it calls. The
sound device answers `captured pcm` or `fail` to a read.
-/

namespace Xiaozhi

namespace OpusEncoder

/-- `opus_encode`, on the samples `pcm`; it fills at most the 512 bytes that it is given. -/
def encode (pcm : List Int16) : Thread (Option Bytes) := .act (fun c w =>
  let w' := { w with capture := { w.capture with log := .encodes pcm :: w.capture.log } }
  match c with
  | .packet bytes => if bytes.length ≤ 512 then some (some bytes, w') else none
  | .fail => some (none, w')
  | _ => none) .ret

/-- `opus_encode_frame`. -/
def encodeFrame (pcm : List Int16) : Thread (Option Bytes) := do
  match ← Threads.Prog.read fun w => w.encoder with
  | some enc =>
    if (pcm.length : Int) ≠ enc.samplesPerChannel then
      return none
    else
      encode pcm
  | none => return none

end OpusEncoder

/-- `app_write_opus_packet`; the file takes `count n` of the bytes. -/
def appWriteOpusPacket (packet : Bytes) : Thread Bool := .act (fun c w =>
  if packet = [] ∨ packet.length > 65535 then
    some (false, w)
  else
    match w.opusDumpFile, c with
    | none, _ => some (false, w)
    | some content, .count n =>
      let header := [packet.length.toUInt8, (packet.length / 256).toUInt8]
      let data := header ++ packet
      some (decide (data.length ≤ n), { w with opusDumpFile := some (content ++ data.take n) })
    | some _, _ => none) .ret

/-- The first test in `app_capture_on_pcm`. -/
def uploads (pcm : List Int16) : Thread Bool := .atomic fun w =>
  let log := if w.uploadEnabled then .reads pcm :: w.capture.log else w.capture.log
  (w.uploadEnabled, { w with capture := { w.capture with log } })

/-- `app_capture_on_pcm`. -/
def appCaptureOnPcm (pcm : List Int16) : Thread Unit := do
  if ← uploads pcm then
    match ← OpusEncoder.encodeFrame pcm with
    | some packet =>
      if packet = [] then
        pure ()
      else
        let _ ← appWriteOpusPacket packet
        let _ ← XiaozhiClient.queueBinary packet
    | none => pure ()
  else
    pure ()

namespace AudioCapture

/-- `audio_capture_set_uploading`. -/
def setUploading (enabled : Bool) : Thread Unit := .modify fun w =>
  let acc := if enabled then w.capture.silenceAccumulatorMs else 0
  { w with capture := { w.capture with uploading := enabled, silenceAccumulatorMs := acc } }

/-- `max_abs_sample`: the magnitude is cut to 16 bits. -/
def maxAbsSample (pcm : List Int16) : Int16 :=
  pcm.foldl (fun peak sample =>
    let s := sample.toInt
    let absSample := Int16.ofInt (if s < 0 then -s else s)
    if absSample > peak then absSample else peak) 0

/-- `push_silence_timeout`. -/
def pushSilenceTimeout : Thread Unit :=
  .modify (·.pushEvent (.ofType .captureSilenceTimeout .capture))

/-- `cap->silence_accumulator_ms = ms`. -/
def setSilence (ms : Int) : Thread Unit := .modify fun w =>
  { w with capture := { w.capture with silenceAccumulatorMs := ms } }

/-- `cap->silence_accumulator_ms += ms`, and the new value. The sum wraps around. -/
def addSilence (ms : Int) : Thread Int := .atomic fun w =>
  let acc := (w.capture.silenceAccumulatorMs + ms).bmod (2 ^ 32)
  (acc, { w with capture := { w.capture with silenceAccumulatorMs := acc } })

/-- `chunk_ms`: whole milliseconds, cut to an `int`. -/
def chunkMs (rate : Int) (frames : Nat) : Int := ((frames * 1000 : Int).tdiv rate).bmod (2 ^ 32)

/-- The silence detection on one chunk. -/
def detectSilence (uploading : Bool) (pcm : List Int16) : Thread Unit := do
  let (rate, channels, timeout, threshold) ← .read fun w =>
    (w.capture.sampleRate, w.capture.channels, w.capture.silenceTimeoutMs,
      w.capture.silenceThreshold)
  if uploading ∧ timeout > 0 then
    if (maxAbsSample pcm).toInt ≤ threshold then
      let acc ← addSilence (chunkMs rate (pcm.length / channels))
      if acc ≥ timeout then
        pushSilenceTimeout
        setSilence 0
      else
        pure ()
    else
      setSilence 0
  else
    setSilence 0

/-- `audio_capture_open_device` and the allocation of the buffer, before the
    loop. The device may grant another period. -/
def openDevice : Thread Unit := .act (fun c w =>
  match c with
  | .count period =>
    some ((), { w with capture := { w.capture with pcm := true, periodFrames := period } })
  | .fail => some ((), w)
  | _ => none) .ret

/-- One chunk of at most a period, or a read error. -/
def readFrames : Thread (Option (List Int16)) := .act (fun c w =>
  match c with
  | .captured pcm =>
    if pcm.length ≤ w.capture.periodFrames * w.capture.channels then some (some pcm, w) else none
  | .fail => some (none, w)
  | _ => none) .ret

/-- One iteration of `audio_capture_thread`, once the device is open. -/
def thread : Thread Unit := do
  .await fun w => w.capture.pcm
  let (uploading, running) ← .read fun w => (w.capture.uploading, w.capture.running)
  if running then
    match ← readFrames with
    | some pcm =>
      appCaptureOnPcm pcm
      detectSilence uploading pcm
    | none => pure ()
  else
    .modify fun w => { w with capture := { w.capture with pcm := false } }

end AudioCapture

end Xiaozhi
