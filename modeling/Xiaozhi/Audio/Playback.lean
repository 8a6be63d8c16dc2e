-- SUMMARY: The playback of decoded audio: the calls of other threads, and the playback thread.
import Xiaozhi.App.Runtime

/-!
# Playback

`audio_playback.c`. The queue has a lock of its own; the playback mutex guards
the flags and the condition variable. The sound device answers `ok` or `fail`
when it is opened, and `count n` or `error` to a write.
-/

namespace Xiaozhi

namespace AudioPlayback

/-- `pthread_cond_signal(&pb->cond)`: wakes the thread if it waits, and is lost otherwise. -/
def signal (pb : AudioPlayback) : AudioPlayback := { pb with waiting := false }

/-- Add to the history of the playback thread. -/
def record (pb : AudioPlayback) (entry : PlaybackEntry) : AudioPlayback :=
  { pb with log := entry :: pb.log }

/-- `audio_buffer_push(&pb->queue, pcm, bytes, sample_rate)`; the block gets the next number. -/
def pushBlock (pcm : Bytes) (frames : Nat) (sampleRate : Int) : Thread Bool := .atomic fun w =>
  let pb := w.playback
  let bytes := pcm.take (frames * 2 * pb.channels)
  match pb.queue.push bytes sampleRate pb.enqueued with
  | some queue => (true, { w with
      playback := { pb with
        queue, enqueued := pb.enqueued + 1, accepted := bytes :: pb.accepted } })
  | none => (false, w)

/-- `audio_playback_enqueue`. -/
def enqueue (pcm : Bytes) (frames : Nat) (sampleRate : Int) : Thread Bool := do
  if frames = 0 then
    return false
  else if ← pushBlock pcm frames sampleRate then
    .modify fun w => { w with playback := w.playback.signal }
    return true
  else
    return false

/-- `audio_playback_request_stop`. -/
def requestStop : Thread Unit := .modify fun w =>
  let pb := { w.playback with stopRequested := true, stopMark := w.playback.enqueued }
  { w with playback := pb.signal }

/-! ## The playback thread -/

/-- `push_playback_finished`. -/
def pushPlaybackFinished : Thread Unit := .modify fun w =>
  let w' := w.pushEvent (.ofType .playbackFinished .playback)
  { w' with playback := w'.playback.record (.finishes (¬w.events.Full)) }

/-- The thread goes to sleep in `pthread_cond_wait`, or finds that it need not;
    then the result says whether the playback still runs. -/
def checkWork : Thread (Option Bool) := .atomic fun w =>
  let pb := w.playback
  if pb.running ∧ pb.queue.size = 0 ∧ ¬pb.stopRequested then
    (none, { w with playback := { pb with waiting := true } })
  else
    (some pb.running, w)

/-- `pthread_cond_wait` returns: after a signal, or spuriously. -/
def wakeUp : Thread Unit := .act (fun c w =>
  if w.playback.waiting = false ∨ c = .spurious then
    some ((), { w with playback := { w.playback with waiting := false } })
  else
    none) .ret

/-- The critical section at the head of the loop, with its wait. -/
def waitForWork : Thread Bool := .iter (fun _ : Unit => do
  match ← checkWork with
  | none =>
    wakeUp
    return .inl ()
  | some running => return .inr running) () .ret

/-- `snd_pcm_drop` and `snd_pcm_close`. -/
def closeDevice : Thread Unit := .modify fun w =>
  { w with playback := { w.playback with pcm := false, currentRate := 0 } }

/-- `audio_playback_open_device`, and what the thread notes of the result. -/
def openDevice (sampleRate : Int) : Thread Bool := .act (fun c w =>
  match c with
  | .ok =>
    let pb := { w.playback with pcm := true, currentRate := sampleRate }
    some (true, { w with playback := pb.record (.opens true) })
  | .fail =>
    let pb := { w.playback with pcm := false, currentRate := 0 }
    some (false, { w with playback := pb.record (.opens false) })
  | _ => none) .ret

/-- The stop request is consumed. -/
def clearStop : Thread Unit := .modify fun w =>
  let pb := { w.playback with stopRequested := false }
  { w with playback := pb.record (.stops pb.stopMark) }

/-- `audio_buffer_pop(&pb->queue, &block)`. -/
def popBlock : Thread (Option (AudioBlock Nat)) := .atomic fun w =>
  match w.playback.queue.pop with
  | some (block, queue) =>
    (some block, { w with playback := { w.playback with queue }.record (.pops block.tag) })
  | none => (none, w)

/-- One round of `audio_playback_write_all_frames`, with `written` frames
    accepted: the device takes some frames from the slot, or reports an error. -/
def writeFrames (block : AudioBlock Nat) (frames written : Nat) : Thread (Nat ⊕ Bool) :=
  .act (fun c w =>
    let pb := w.playback
    let fails := some (.inr false, { w with playback := pb.record .writeFails })
    if written < frames then
      match c with
      | .count n =>
        if n = 0 then fails
        else if n ≤ frames - written then
          let size := 2 * pb.channels
          let pcm := pb.queue.storage.read (block.data + written * size) (n * size)
          some (.inl (written + n), { w with playback := pb.record (.writes block.tag pcm) })
        else none
      | .error recovered => if recovered then some (.inl written, w) else fails
      | _ => none
    else
      some (.inr true, w)) .ret

/-- `audio_playback_write_all_frames`, on the bytes of a popped block. -/
def writeAllFrames (block : AudioBlock Nat) (frames : Nat) : Thread Bool := do
  if frames = 0 then
    .modify fun w => { w with playback := w.playback.record .writeFails }
    return false
  else
    .iter (writeFrames block frames) 0 .ret

/-- A device for blocks of the given rate: the open one if it fits, or a new one. -/
def readyDevice (sampleRate : Int) : Thread Bool := do
  let (pcm, currentRate) ← .read fun w => (w.playback.pcm, w.playback.currentRate)
  if pcm ∧ currentRate = sampleRate then
    return true
  else
    Thread.when pcm closeDevice
    openDevice sampleRate

/-- What the playback thread does with a block. -/
def playBlock (block : AudioBlock Nat) : Thread Unit := do
  if ← readyDevice block.sampleRate then
    let frames ← .read fun w => block.len / (2 * w.playback.channels)
    if ← writeAllFrames block frames then
      let size ← Threads.Prog.read fun w => w.playback.queue.size
      Thread.when (size = 0) pushPlaybackFinished
    else
      pure ()
  else
    pure ()

/-- One iteration of `audio_playback_thread`. A thread that has left the loop
    closes the device and does nothing more. -/
def thread : Thread Unit := do
  if ← waitForWork then
    if ← .read fun w => w.playback.stopRequested then
      clearStop
      closeDevice
      pushPlaybackFinished
    else
      match ← popBlock with
      | some block => playBlock block
      | none => pure ()
  else
    closeDevice

/-- What is left of the iteration when the thread has gone to sleep. -/
def sleeping : Thread Unit := do
  wakeUp
  thread

/-- An iteration that finds nothing to do goes to sleep. -/
theorem thread_sleeps {w : World} {c : Answer}
    (h : w.playback.running ∧ w.playback.queue.size = 0 ∧ ¬w.playback.stopRequested) :
    ∃ p, thread.step c w = some (w, p) ∧
      p.step c w = some ({ w with playback := { w.playback with waiting := true } }, sleeping) := by
  have hstep (k : Option Bool → Thread Unit) : (checkWork >>= k).step c w =
      some ({ w with playback := { w.playback with waiting := true } }, k none) :=
    congrArg (fun r : Option Bool × World => some (r.2, k r.1)) (if_pos h)
  exact ⟨_, rfl, hstep _⟩

end AudioPlayback

end Xiaozhi
