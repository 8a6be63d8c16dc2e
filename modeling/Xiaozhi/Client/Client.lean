-- SUMMARY: The calls of the websocket client that other threads make: starting and stopping it, and queueing messages.
import Xiaozhi.App.Runtime

/-!
# Websocket client

The part of `xiaozhi_client.c` that runs in the calling thread. A critical
section is one action.
-/

namespace Xiaozhi

namespace XiaozhiClient

/-- Double `n` until it reaches `needed`; `fuel` bounds the rounds. -/
def doubleUntil (needed : Nat) : Nat → Nat → Nat
  | 0, n => n
  | fuel + 1, n => if n < needed then doubleUntil needed fuel (n * 2) else n

/-- The new capacity that `ensure_text_capacity` asks for. -/
def growCapacity (capacity needed : Nat) : Nat :=
  doubleUntil needed needed (if capacity ≠ 0 then capacity * 2 else 4)

theorem le_doubleUntil {needed fuel n : Nat} (hn : 0 < n) (h : needed ≤ n + fuel) :
    needed ≤ doubleUntil needed fuel n := by
  induction fuel generalizing n with
  | zero => exact h
  | succ fuel ih =>
    unfold doubleUntil
    split
    · exact ih (by omega) (by omega)
    · next hle => exact Nat.le_of_not_lt hle

/-- The new capacity suffices. -/
theorem le_growCapacity {capacity needed : Nat} : needed ≤ growCapacity capacity needed :=
  le_doubleUntil (by split <;> omega) (Nat.le_add_left _ _)

/-- `ensure_text_capacity(client, client->pending_text.count + 1)`. -/
def ensureTextCapacity : Thread Bool := .act (fun c w =>
  let texts := w.client.pendingText
  let needed := texts.items.length + 1
  let w' := { w with checks := w.checks + 1 }
  if texts.capacity ≥ needed then
    some (true, w')
  else
    match c with
    | .ok =>
      let capacity := growCapacity texts.capacity needed
      some (true, { w' with client.pendingText.capacity := capacity })
    | .fail => some (false, w)
    | _ => none) .ret

/-- `xiaozhi_client_signal_writable`. `lws_cancel_service` only wakes the service thread. -/
def signalWritable : Thread Unit := do
  let wsi ← .read fun w => w.client.wsi
  .modify (·.requestWritable wsi)

/-- The append at the end of `xiaozhi_client_queue_text`. -/
def appendText (payload : Bytes) : Thread Unit := .modify fun w =>
  let items := w.client.pendingText.items ++ [⟨payload, w.started⟩]
  { w with
    client.pendingText.items := items
    queued := ⟨.text, payload⟩ :: w.queued }.record (.queues payload)

/-- `xiaozhi_client_queue_text`; only the main thread calls it. -/
def queueText (payload : Bytes) : Thread Bool := do
  if ← ensureTextCapacity then
    if ← Thread.choose then
      appendText payload
      signalWritable
      return true
    else
      return false
  else
    return false

/-- `audio_buffer_push(&client->pending_binary, …)` under the mutex. -/
def pushBinary (payload : Bytes) : Thread Bool := .atomic fun w =>
  match w.client.pendingBinary.push payload 0 w.started with
  | some b => (true, { w with client.pendingBinary := b, queued := ⟨.binary, payload⟩ :: w.queued })
  | none => (false, w)

/-- `xiaozhi_client_queue_binary`. -/
def queueBinary (payload : Bytes) : Thread Bool := do
  if payload = [] then
    return false
  else if ← pushBinary payload then
    signalWritable
    return true
  else
    return false

/-- `xiaozhi_client_is_connected`. -/
def isConnected (w : World) : Bool := w.client.connected

/-! ## Start and stop -/

/-- The first critical section of `xiaozhi_client_start`. -/
def testAndSetRunning : Thread Bool := .atomic fun w =>
  if w.client.running then
    (true, w.record .runsAlready)
  else
    (false, { w with client.running := true })

/-- `pthread_create(&client->thread, …)`. -/
def createThread : Thread Bool := .act (fun c w =>
  match c with
  | .ok =>
    let k := w.started + 1
    some (true, { w with started := k, client.thread := some k }.record (.starts k))
  | .fail => some (false, w.record (.startFails w.errorQueued))
  | _ => none) .ret

/-- `xiaozhi_client_start`. -/
def start : Thread Bool := do
  if ← testAndSetRunning then
    return true
  else if ← createThread then
    return true
  else
    .modify fun w => { w with client.running := false }
    return false

/-- The first critical section of `xiaozhi_client_stop`. -/
def testAndClearRunning : Thread Bool := .atomic fun w =>
  (w.client.running, { w with client.running := false })

/-- `pthread_join` of the service thread `k`. -/
def join (k : Nat) : Thread Unit :=
  .modifyWhen (fun w => w.exited k) fun w => { w with joined := k :: w.joined }

/-- `pthread_join(client->thread, NULL)`, when there is a thread. -/
def joinThread : Thread Unit := do
  match ← Threads.Prog.read fun w => w.client.thread with
  | some k => join k
  | none => pure ()

/-- `xiaozhi_client_stop`. -/
def stop : Thread Unit := do
  if ← testAndClearRunning then
    joinThread
    .modify fun w => { w with client.thread := none }
  else
    pure ()

end XiaozhiClient

end Xiaozhi
