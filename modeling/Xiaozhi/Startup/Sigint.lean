-- SUMMARY: SIGINT at any point of the main thread: when the handler can return, and when its stop request is seen.
import Xiaozhi.App.Event
import Xiaozhi.Threads.Interrupt
import Xiaozhi.Threads.System

/-!
# SIGINT

The handler that `main` installs runs on the main thread's stack, between any
two of its actions, and calls `app_request_stop`. That writes the flag that
`app_init` clears and locks the mutex that the main thread locks in
`event_queue_push` and `event_queue_pop`.

Here the memory of `app` is arbitrary at first, every access to the flag and to
the queue is an action of its own, and the mutex is modelled by its owner. What
the main thread does besides touches neither; only its calls of
`event_queue_push` and `app_request_stop` are kept, in any number and order.
-/

namespace Xiaozhi

open Threads Threads.Prog

/-- The main thread, on whose stack the handler runs, and the other threads. -/
inductive QueueUser (ι : Type) where
  | main
  | other (i : ι)
  deriving DecidableEq

namespace Sigint

/-- What the handler does next. -/
inductive HandlerPoint where
  | looks
  | sets
  | locks
  | pushes
  | unlocks
  | returns
  deriving DecidableEq

/-- A test of `while (!app->stop_requested)`: what it finds, and whether SIGINT
    has been delivered by then. -/
structure LoopTest where
  delivered : Bool
  found : Bool
  deriving DecidableEq

/-- The memory that the main thread, the handler and the other threads share. -/
structure State (ι : Type) where
  globalApp : Bool
  stopRequested : Bool
  events : RingBuffer AppEvent
  /-- The owner of `events.mutex`. -/
  owner : Option (QueueUser ι)
  /-- The other threads have been created. -/
  threads : Bool
  /-- `main` or `app_run` has returned. -/
  returned : Bool
  /-- `app_init` has cleared the queue (history). -/
  clearedEvents : Bool
  /-- `app_init` has cleared the flag (history). -/
  clearedFlag : Bool
  /-- Where the handler stands, if it runs (history). -/
  handler : Option HandlerPoint
  /-- SIGINT has been delivered (history). -/
  delivered : Bool
  /-- The tests of the loop, the latest first (history). -/
  tests : List LoopTest

/-- What the environment decides: when SIGINT comes, how calls and waits end, and
    what the threads have to do. -/
inductive Answer where
  | sigint
  | ok
  | fail
  | timedOut
  | push (event : AppEvent)
  | requestStop
  | shutdown
  | nothing
  deriving DecidableEq

/-- A program of one of the threads. -/
abbrev Program (ι : Type) := Prog (State ι) Answer

variable {ι : Type} [DecidableEq ι]

/-- What the handler does next, if it is the handler that acts. -/
def State.note (s : State ι) (inHandler : Bool) (pt : HandlerPoint) : State ι :=
  if inHandler then { s with handler := some pt } else s

/-- A call that succeeds or fails. -/
def choose : Program ι Bool := .ask fun
  | .ok => some true
  | .fail => some false
  | _ => none

/-! ## The event queue -/

/-- `pthread_mutex_lock(&queue->mutex)`, called by `self`. -/
def lock (self : QueueUser ι) (inHandler : Bool) : Program ι Unit :=
  .modifyWhen (fun s => s.owner.isNone) fun s => { s with owner := some self }.note inHandler .pushes

/-- `pthread_mutex_unlock(&queue->mutex)`: only the owner sets the mutex free. -/
def unlock (self : QueueUser ι) (inHandler : Bool) : Program ι Unit := .modify fun s =>
  (if s.owner = some self then { s with owner := none } else s).note inHandler .returns

/-- The critical section of `event_queue_push`; a full queue refuses the event. -/
def pushLocked (event : AppEvent) (inHandler : Bool) : Program ι Unit := .modify fun s =>
  { s with events := (s.events.push event).getD s.events }.note inHandler .unlocks

/-- `event_queue_push`. -/
def eventQueuePush (self : QueueUser ι) (event : AppEvent) (inHandler : Bool) : Program ι Unit := do
  lock self inHandler
  pushLocked event inHandler
  unlock self inHandler

/-- `app_request_stop`. -/
def requestStop (inHandler : Bool) : Program ι Unit := do
  .modify fun s => { s with stopRequested := true }.note inHandler .locks
  eventQueuePush .main (.make .shutdown none 0 (if inHandler then .signal else .main)) inHandler

/-- What `event_queue_pop` returns, the event aside. -/
inductive Popped where
  | event
  | timeout
  | failed
  deriving DecidableEq

/-- A check of `event_queue_pop` that may find an event. -/
def tryPop : Program ι Bool := .atomic fun s =>
  match s.events.pop with
  | some (_, events) => (true, { s with events })
  | none => (false, s)

/-- How `pthread_cond_timedwait` ends. -/
def waitEnds : Program ι (Unit ⊕ Popped) := .ask fun
  | .ok => some (.inl ())
  | .timedOut => some (.inr .timeout)
  | .fail => some (.inr .failed)
  | _ => none

/-- A round of the loop of `event_queue_wait_locked`. The wait gives the mutex
    away, and has it again when it ends. -/
def waitRound : Program ι (Unit ⊕ Popped) := do
  if ← tryPop then
    return .inr .event
  else
    unlock .main false
    let ends ← waitEnds
    lock .main false
    return ends

/-- `event_queue_pop(&app->events, &event, 100)`. -/
def eventQueuePop : Program ι Popped := do
  lock .main false
  .iter (fun _ : Unit => waitRound) () fun popped => do
    unlock .main false
    return popped

/-! ## The handler -/

/-- SIGINT is delivered, or not. -/
def deliver : Program ι Bool := .act (fun c s =>
  match c with
  | .sigint => some (true, { s with delivered := true, handler := some .looks })
  | _ => some (false, s)) .ret

/-- The test of `global_app`. -/
def lookGlobalApp : Program ι Bool := .atomic fun s =>
  (s.globalApp, s.note true (if s.globalApp then .sets else .returns))

/-- `sigint_handler`. -/
def sigintHandler : Program ι Unit := do
  if ← lookGlobalApp then
    requestStop true
  else
    pure ()

/-- SIGINT comes any number of times, one after the other. -/
def sigint : Program ι Unit := .iter (fun _ : Unit => do
  if ← deliver then
    sigintHandler
    .modify fun s => { s with handler := none }
    return .inl ()
  else
    return .inr ()) () .ret

/-! ## `app_init` -/

/-- The bytes of the queue in `memset(app, 0, sizeof(*app))`. A mutex of zeros
    is an unlocked one. -/
def clearEvents : Program ι Unit := .modify fun s => { s with
  events := .init 0 fun _ => .ofType .none .main
  owner := none
  clearedEvents := true }

/-- The bytes of the flag in `memset(app, 0, sizeof(*app))`. -/
def clearFlag : Program ι Unit := .modify fun s => { s with
  stopRequested := false
  clearedFlag := true }

/-- `memset(app, 0, sizeof(*app))`, in either order. -/
def clearApp : Program ι Unit := do
  if ← choose then
    clearEvents
    clearFlag
  else
    clearFlag
    clearEvents

/-- `event_queue_init(&app->events, 64)`. -/
def eventQueueInit : Program ι Bool := do
  .modify fun s => { s with events := .init 0 fun _ => .ofType .none .main, owner := none }
  if ← choose then
    .modify fun s => { s with events := { s.events with capacity := 64 } }
    .modify fun s => { s with owner := none }
    return true
  else
    return false

/-- `main` returns, or `app_run` does. -/
def leave : Program ι Unit := .modify fun s => { s with returned := true }

/-- What the main thread does with the queue and the flag besides: any number of
    pushes, of calls of `app_request_stop`, and of events that set the flag. -/
def mainCalls : Program ι Unit := .iter (fun _ : Unit => do
  match ← (.ask fun c => some c : Program ι Answer) with
  | .push event =>
    eventQueuePush .main event false
    return .inl ()
  | .requestStop =>
    requestStop false
    return .inl ()
  | .shutdown =>
    .modify fun s => { s with stopRequested := true }
    return .inl ()
  | _ => return .inr ()) () .ret

/-- `app_init` after `memset`, and `app_run` up to its loop. The configuration,
    the options and the OTA request decide how far they get; the runtime modules
    create the other threads. -/
def startUp : Program ι Unit := do
  if ← choose then
    if ← eventQueueInit then
      if ← choose then
        .modify fun s => { s with threads := true }
        mainCalls
        if ← choose then
          pure ()
        else
          leave
      else
        leave
    else
      leave
  else
    leave

/-- `main` from the installation of the handler to the loop of `app_run`. -/
def mainStart : Program ι Unit := do
  .modify fun s => { s with globalApp := true }
  clearApp
  startUp

/-! ## The loop of `app_run` -/

/-- The test of the loop. -/
def testStop : Program ι Bool := .atomic fun s =>
  (s.stopRequested, { s with tests := ⟨s.delivered, s.stopRequested⟩ :: s.tests })

/-- One iteration of the loop of `app_run`; none follows once it has returned. -/
def runLoop : Program ι Unit := do
  .await fun s => !s.returned
  if ← testStop then
    leave
  else
    match ← eventQueuePop with
    | .failed => leave
    | _ => mainCalls

/-- What another thread does with the queue. -/
def otherThread (i : ι) : Program ι Unit := do
  .await fun s => s.threads
  match ← (.ask fun c => some c : Program ι Answer) with
  | .push event => eventQueuePush (.other i) event false
  | _ => pure ()

/-- What the threads repeat. -/
def body : QueueUser ι → Program ι Unit
  | .main => interruptible sigint runLoop
  | .other i => otherThread i

/-- The handler is installed; the memory of `app` holds whatever was there. -/
def start (stopRequested : Bool) (events : RingBuffer AppEvent) (owner : Option (QueueUser ι)) :
    Config (QueueUser ι) (State ι) Answer where
  shared := {
    globalApp := false
    stopRequested
    events
    owner
    threads := false
    returned := false
    clearedEvents := false
    clearedFlag := false
    handler := none
    delivered := false
    tests := [] }
  cur
    | .main => some (interruptible sigint mainStart)
    | .other _ => none

/-! ## When the request is served -/

/-- SIGINT does no harm: the handler knows `app`, `memset` is over, and the main
    thread does not hold `events.mutex`. -/
def State.Ready (s : State ι) : Prop :=
  s.globalApp = true ∧ s.clearedEvents = true ∧ s.clearedFlag = true ∧ s.owner ≠ some .main

instance (s : State ι) : Decidable s.Ready := inferInstanceAs (Decidable (_ ∧ _ ∧ _ ∧ _))

/-- The condition on the steps of a run: SIGINT is only delivered where it does no harm. -/
def InterruptCondition (i : QueueUser ι) (s s' : State ι) : Prop :=
  i = .main → s.handler = none → s'.handler ≠ none → s.Ready

instance (i : QueueUser ι) (s s' : State ι) : Decidable (InterruptCondition i s s') :=
  inferInstanceAs (Decidable (_ → _ → _ → _))

/-- Ctrl+C is served. -/
structure State.Served (s : State ι) : Prop where
  /-- The handler does not wait for a mutex that the thread it interrupted holds. -/
  free : s.handler = some .locks → s.owner ≠ some .main
  /-- The request is set from the handler's assignment on. -/
  kept : s.delivered = true →
    s.handler = some .looks ∨ s.handler = some .sets ∨ s.stopRequested = true
  /-- A test of the loop after SIGINT finds the request. -/
  found : ∀ t ∈ s.tests, t.delivered = true → t.found = true
  /-- A test that finds it is the last one. -/
  last : ∀ t ∈ s.tests.tail, t.found = false

/-- The other thread `i` sets the mutex free in at most two steps of its own. -/
def Frees (i : ι) (cfg : Config (QueueUser ι) (State ι) Answer) : Prop :=
  ∃ n, n ≤ 2 ∧ ∃ cfg', cfg.drive body (fun _ _ _ => true) .nothing (.other i) n [] = some cfg' ∧
    cfg'.shared.owner = none

end Sigint

end Xiaozhi
