-- SUMMARY: The playback thread never sleeps through a wake-up: somebody is about to signal whenever it waits with work to do.
import Xiaozhi.Audio.Buffer
import Xiaozhi.Threads.Points

/-!
# Wake-ups of the playback thread

The queue of the playback has a lock of its own, and a block is pushed outside
the mutex that the condition variable belongs to. So the queue may change while
the playback thread holds the mutex, between its look at the queue and its wait.
The callers that push or ask for a stop signal afterwards, under the mutex.

Here every access is a step of its own, and the mutex is modelled by its owner.
-/

namespace Xiaozhi

open Threads Threads.Prog

/-- The playback thread, and the threads that use the playback. -/
inductive PlaybackUser (ι : Type) where
  | caller (i : ι)
  | playback
  deriving DecidableEq

namespace PlaybackUser

variable {ι : Type}

/-- What the threads share of `audio_playback_t`. `waiting` says that the playback
    thread is blocked in `pthread_cond_wait` and has not been signalled. -/
structure State (ι : Type) where
  queue : AudioBuffer Unit
  mutex : Option (PlaybackUser ι)
  running : Bool
  stopRequested : Bool
  waiting : Bool

/-- What the environment decides: the next call, and that a wait ends by itself. -/
inductive Answer where
  | enqueue (pcm : Bytes) (sampleRate : Int)
  | requestStop
  | spurious

/-- A program of one of the threads. -/
abbrev Program (ι : Type) := Prog (State ι) Answer

/-! ## The mutex and the condition variable -/

/-- `pthread_mutex_lock(&pb->mutex)`, called by `self`. -/
def lock (self : PlaybackUser ι) : Program ι Unit :=
  .modifyWhen (fun s => s.mutex.isNone) fun s => { s with mutex := some self }

/-- `pthread_mutex_unlock(&pb->mutex)`. -/
def unlock : Program ι Unit := .modify fun s => { s with mutex := none }

/-- `pthread_cond_signal(&pb->cond)`. -/
def signal : Program ι Unit := .modify fun s => { s with waiting := false }

/-- `pthread_cond_wait` gives the mutex away and goes to sleep in one step. -/
def sleep : Program ι Unit := .modify fun s => { s with mutex := none, waiting := true }

/-- The sleep ends, after a signal or spuriously. -/
def wakeUp : Program ι Unit := .act (fun c s =>
  if s.waiting = false ∨ c matches .spurious then
    some ((), { s with waiting := false })
  else
    none) .ret

/-! ## The callers -/

/-- The call of `audio_buffer_push` in `audio_playback_enqueue`. -/
def pushBlock (pcm : Bytes) (sampleRate : Int) : Program ι Bool := .atomic fun s =>
  match s.queue.push pcm sampleRate () with
  | some queue => (true, { s with queue })
  | none => (false, s)

/-- The end of both calls: a signal, with the mutex held. -/
def signalAndUnlock : Program ι Unit := do
  signal
  unlock

/-- `audio_playback_enqueue`. -/
def enqueue (i : ι) (pcm : Bytes) (sampleRate : Int) : Program ι Unit := do
  if pcm = [] then
    pure ()
  else if ← pushBlock pcm sampleRate then
    lock (.caller i)
    signalAndUnlock
  else
    pure ()

/-- `pb->stop_requested = requested`. -/
def setStopRequested (requested : Bool) : Program ι Unit :=
  .modify fun s => { s with stopRequested := requested }

/-- `audio_playback_request_stop`. -/
def requestStop (i : ι) : Program ι Unit := do
  lock (.caller i)
  setStopRequested true
  signalAndUnlock

/-- A thread that makes one call after the other. -/
def callerThread (i : ι) : Program ι Unit := do
  match ← (.ask fun c => some c : Program ι Answer) with
  | .enqueue pcm sampleRate => enqueue i pcm sampleRate
  | .requestStop => requestStop i
  | .spurious => pure ()

/-! ## The playback thread -/

/-- The test and the body of the loop around `pthread_cond_wait`. -/
def waitRound : Program ι (Unit ⊕ Unit) := do
  if ← .read fun s => s.running then
    if (← .read fun s => s.queue.size) = 0 then
      if ← .read fun s => s.stopRequested then
        return .inr ()
      else
        sleep
        wakeUp
        lock .playback
        return .inl ()
    else
      return .inr ()
  else
    return .inr ()

/-- `audio_buffer_pop(&pb->queue, &block)`. What the thread does with the block
    does not concern the other threads. -/
def popBlock : Program ι Unit := .modify fun s =>
  match s.queue.pop with
  | some (_, queue) => { s with queue }
  | none => s

/-- What follows the wait in an iteration: `stop_requested` is looked at and
    cleared without the mutex. -/
def serve (running : Bool) : Program ι Unit := do
  if running then
    if ← .read fun s => s.stopRequested then
      setStopRequested false
    else
      popBlock
  else
    pure ()

/-- The end of the critical section, and the rest of the iteration. -/
def afterWait : Program ι Unit := do
  let running ← .read fun s => s.running
  unlock
  serve running

/-- One iteration of `audio_playback_thread`. -/
def playbackThread : Program ι Unit := do
  lock .playback
  .iter (fun _ => waitRound) () fun _ => afterWait

/-- What the threads repeat. -/
def body : PlaybackUser ι → Program ι Unit
  | .caller i => callerThread i
  | .playback => playbackThread

/-! ## Where the threads stand -/

/-- Where a caller stands. -/
inductive CallerPoint where
  | between
  | picks
  | pushes (pcm : Bytes) (sampleRate : Int)
  | locks
  | locksForStop
  | sets
  | signals
  | unlocks
  | ends

namespace CallerPoint

/-- What is left of the round. -/
def program (i : ι) : CallerPoint → Option (Program ι Unit)
  | between => none
  | picks => some (callerThread i)
  | pushes pcm sampleRate => some do
    if ← pushBlock pcm sampleRate then
      lock (.caller i)
      signalAndUnlock
    else
      pure ()
  | locks => some do
    lock (.caller i)
    signalAndUnlock
  | locksForStop => some (requestStop i)
  | sets => some do
    setStopRequested true
    signalAndUnlock
  | signals => some signalAndUnlock
  | unlocks => some unlock
  | ends => some (pure ())

/-- The steps of a caller. -/
inductive Moves (i : ι) (s : State ι) : CallerPoint → State ι → CallerPoint → Prop where
  | enters : Moves i s between s picks
  | enqueues {pcm : Bytes} {sampleRate : Int} : Moves i s picks s (pushes pcm sampleRate)
  | stops : Moves i s picks s locksForStop
  | nothing : Moves i s picks s ends
  | pushes {pcm : Bytes} {sampleRate : Int} {queue : AudioBuffer Unit} :
      Moves i s (pushes pcm sampleRate) { s with queue } locks
  | full {pcm : Bytes} {sampleRate : Int} : Moves i s (pushes pcm sampleRate) s ends
  | locks : s.mutex = none → Moves i s locks { s with mutex := some (.caller i) } signals
  | locksForStop : s.mutex = none →
      Moves i s locksForStop { s with mutex := some (.caller i) } sets
  | sets : Moves i s sets { s with stopRequested := true } signals
  | signals : Moves i s signals { s with waiting := false } unlocks
  | unlocks : Moves i s unlocks { s with mutex := none } ends
  | leaves : Moves i s ends s between

theorem moves (i : ι) (pt : CallerPoint) (c : Answer) (s s' : State ι)
    (p' : Option (Program ι Unit)) (h : turn (callerThread i) c s (pt.program i) = some (s', p')) :
    ∃ pt', p' = pt'.program i ∧ Moves i s pt s' pt' := by
  -- each point has one next action, which decides the points that can follow
  cases pt with
  | between =>
    obtain ⟨rfl, rfl⟩ := Prod.mk.inj (Option.some.inj h)
    exact ⟨.picks, rfl, .enters⟩
  | picks =>
    obtain ⟨call, hf, rfl⟩ := turn_act h
    obtain ⟨rfl, rfl⟩ := Prod.mk.inj (Option.some.inj hf)
    cases c with
    | enqueue pcm sampleRate =>
      cases pcm with
      | nil => exact ⟨.ends, rfl, .nothing⟩
      | cons b pcm => exact ⟨.pushes (b :: pcm) sampleRate, rfl, .enqueues⟩
    | requestStop => exact ⟨.locksForStop, rfl, .stops⟩
    | spurious => exact ⟨.ends, rfl, .nothing⟩
  | pushes pcm sampleRate =>
    obtain ⟨pushed, hf, rfl⟩ := turn_act h
    obtain ⟨rfl, rfl⟩ := Prod.mk.inj (Option.some.inj hf)
    split
    · exact ⟨.locks, rfl, .pushes⟩
    · exact ⟨.ends, rfl, .full⟩
  | locks =>
    obtain ⟨_, hf, rfl⟩ := turn_act h
    obtain ⟨hfree, hf⟩ := Option.ite_none_right_eq_some.mp hf
    obtain ⟨⟩ := hf
    exact ⟨.signals, rfl, .locks (Option.isNone_iff_eq_none.mp hfree)⟩
  | locksForStop =>
    obtain ⟨_, hf, rfl⟩ := turn_act h
    obtain ⟨hfree, hf⟩ := Option.ite_none_right_eq_some.mp hf
    obtain ⟨⟩ := hf
    exact ⟨.sets, rfl, .locksForStop (Option.isNone_iff_eq_none.mp hfree)⟩
  | sets =>
    obtain ⟨_, hf, rfl⟩ := turn_act h
    obtain ⟨⟩ := hf
    exact ⟨.signals, rfl, .sets⟩
  | signals =>
    obtain ⟨_, hf, rfl⟩ := turn_act h
    obtain ⟨⟩ := hf
    exact ⟨.unlocks, rfl, .signals⟩
  | unlocks =>
    obtain ⟨_, hf, rfl⟩ := turn_act h
    obtain ⟨⟩ := hf
    exact ⟨.ends, rfl, .unlocks⟩
  | ends =>
    obtain ⟨rfl, rfl⟩ := Prod.mk.inj (Option.some.inj h)
    exact ⟨.between, rfl, .leaves⟩

end CallerPoint

/-- Where the playback thread stands. -/
inductive PlaybackPoint where
  | between
  | locks
  | loops
  | tests
  | sizes
  | looks
  | sleeps
  | wakes
  | relocks
  | leavesLoop
  | unlocks (running : Bool)
  | serves
  | clears
  | pops
  | ends

namespace PlaybackPoint

/-- What comes after a round of the wait. -/
def continueWait : Unit ⊕ Unit → Program ι Unit :=
  unroll (fun _ => waitRound) fun _ => afterWait

/-- What is left of the round. -/
def program : PlaybackPoint → Option (Program ι Unit)
  | between => none
  | locks => some playbackThread
  | loops => some (.iter (fun _ => waitRound) () fun _ => afterWait)
  | tests => some (waitRound >>= continueWait)
  | sizes => some ((do
      if (← .read fun s => s.queue.size) = 0 then
        if ← .read fun s => s.stopRequested then
          return .inr ()
        else
          sleep
          wakeUp
          lock .playback
          return .inl ()
      else
        return .inr ()) >>= continueWait)
  | looks => some ((do
      if ← .read fun s => s.stopRequested then
        return .inr ()
      else
        sleep
        wakeUp
        lock .playback
        return .inl ()) >>= continueWait)
  | sleeps => some ((do
      sleep
      wakeUp
      lock .playback
      return .inl ()) >>= continueWait)
  | wakes => some ((do
      wakeUp
      lock .playback
      return .inl ()) >>= continueWait)
  | relocks => some ((do
      lock .playback
      return .inl ()) >>= continueWait)
  | leavesLoop => some afterWait
  | unlocks running => some do
      unlock
      serve running
  | serves => some (serve true)
  | clears => some (setStopRequested false)
  | pops => some popBlock
  | ends => some (pure ())

/-- The steps of the playback thread. -/
inductive Moves (s : State ι) : PlaybackPoint → State ι → PlaybackPoint → Prop where
  | enters : Moves s between s locks
  | locks : s.mutex = none → Moves s locks { s with mutex := some .playback } loops
  | loops : Moves s loops s tests
  | runs : Moves s tests s sizes
  | stopped : Moves s tests s leavesLoop
  | empty : s.queue.size = 0 → Moves s sizes s looks
  | queued : Moves s sizes s leavesLoop
  | idle : s.stopRequested = false → Moves s looks s sleeps
  | requested : Moves s looks s leavesLoop
  | sleeps : Moves s sleeps { s with mutex := none, waiting := true } wakes
  | wakes : Moves s wakes { s with waiting := false } relocks
  | relocks : s.mutex = none → Moves s relocks { s with mutex := some .playback } loops
  | leavesLoop {running : Bool} : Moves s leavesLoop s (unlocks running)
  | unlocks : Moves s (unlocks true) { s with mutex := none } serves
  | unlocksLast : Moves s (unlocks false) { s with mutex := none } ends
  | stops : Moves s serves s clears
  | plays : Moves s serves s pops
  | clears : Moves s clears { s with stopRequested := false } ends
  | pops {queue : AudioBuffer Unit} : Moves s pops { s with queue } ends
  | leaves : Moves s ends s between

theorem moves (pt : PlaybackPoint) (c : Answer) (s s' : State ι) (p' : Option (Program ι Unit))
    (h : turn playbackThread c s pt.program = some (s', p')) :
    ∃ pt' : PlaybackPoint, p' = pt'.program ∧ Moves s pt s' pt' := by
  cases pt with
  | between =>
    obtain ⟨rfl, rfl⟩ := Prod.mk.inj (Option.some.inj h)
    exact ⟨.locks, rfl, .enters⟩
  | locks =>
    obtain ⟨_, hf, rfl⟩ := turn_act h
    obtain ⟨hfree, hf⟩ := Option.ite_none_right_eq_some.mp hf
    obtain ⟨⟩ := hf
    exact ⟨.loops, rfl, .locks (Option.isNone_iff_eq_none.mp hfree)⟩
  | loops =>
    obtain ⟨rfl, rfl⟩ := Prod.mk.inj (Option.some.inj h)
    exact ⟨.tests, rfl, .loops⟩
  | tests =>
    obtain ⟨running, hf, rfl⟩ := turn_act h
    obtain ⟨-, rfl⟩ := Prod.mk.inj (Option.some.inj hf)
    cases running with
    | true => exact ⟨.sizes, rfl, .runs⟩
    | false => exact ⟨.leavesLoop, rfl, .stopped⟩
  | sizes =>
    obtain ⟨size, hf, rfl⟩ := turn_act h
    obtain ⟨hsize, rfl⟩ := Prod.mk.inj (Option.some.inj hf)
    cases size with
    | zero => exact ⟨.looks, rfl, .empty hsize⟩
    | succ n => exact ⟨.leavesLoop, rfl, .queued⟩
  | looks =>
    obtain ⟨requested, hf, rfl⟩ := turn_act h
    obtain ⟨hrequested, rfl⟩ := Prod.mk.inj (Option.some.inj hf)
    cases requested with
    | true => exact ⟨.leavesLoop, rfl, .requested⟩
    | false => exact ⟨.sleeps, rfl, .idle hrequested⟩
  | sleeps =>
    obtain ⟨_, hf, rfl⟩ := turn_act h
    obtain ⟨⟩ := hf
    exact ⟨.wakes, rfl, .sleeps⟩
  | wakes =>
    obtain ⟨_, hf, rfl⟩ := turn_act h
    obtain ⟨-, hf⟩ := Option.ite_none_right_eq_some.mp hf
    obtain ⟨⟩ := hf
    exact ⟨.relocks, rfl, .wakes⟩
  | relocks =>
    obtain ⟨_, hf, rfl⟩ := turn_act h
    obtain ⟨hfree, hf⟩ := Option.ite_none_right_eq_some.mp hf
    obtain ⟨⟩ := hf
    exact ⟨.loops, rfl, .relocks (Option.isNone_iff_eq_none.mp hfree)⟩
  | leavesLoop =>
    obtain ⟨running, hf, rfl⟩ := turn_act h
    obtain ⟨rfl, rfl⟩ := Prod.mk.inj (Option.some.inj hf)
    exact ⟨.unlocks s.running, rfl, .leavesLoop⟩
  | unlocks running =>
    obtain ⟨_, hf, rfl⟩ := turn_act h
    obtain ⟨⟩ := hf
    cases running with
    | true => exact ⟨.serves, rfl, .unlocks⟩
    | false => exact ⟨.ends, rfl, .unlocksLast⟩
  | serves =>
    obtain ⟨requested, hf, rfl⟩ := turn_act h
    obtain ⟨-, rfl⟩ := Prod.mk.inj (Option.some.inj hf)
    cases requested with
    | true => exact ⟨.clears, rfl, .stops⟩
    | false => exact ⟨.pops, rfl, .plays⟩
  | clears =>
    obtain ⟨_, hf, rfl⟩ := turn_act h
    obtain ⟨⟩ := hf
    exact ⟨.ends, rfl, .clears⟩
  | pops =>
    obtain ⟨_, hf, rfl⟩ := turn_act h
    obtain ⟨-, rfl⟩ := Prod.mk.inj (Option.some.inj hf)
    dsimp only
    split
    · exact ⟨.ends, rfl, .pops⟩
    · exact ⟨.ends, rfl, .pops⟩
  | ends =>
    obtain ⟨rfl, rfl⟩ := Prod.mk.inj (Option.some.inj h)
    exact ⟨.between, rfl, .leaves⟩

end PlaybackPoint

/-- Where the threads can stand. -/
abbrev points : (i : PlaybackUser ι) → Points (body i)
  | .caller i => ⟨CallerPoint, CallerPoint.program i, fun pt s s' pt' => pt.Moves i s s' pt',
      CallerPoint.moves i⟩
  | .playback => ⟨PlaybackPoint, PlaybackPoint.program, fun pt s s' pt' => pt.Moves s s' pt',
      PlaybackPoint.moves⟩

/-- Where every thread stands. -/
abbrev Places (ι : Type) := (i : PlaybackUser ι) → (points i).Point

/-! ## The mutex -/

/-- The caller is in its critical section. -/
def CallerPoint.Holds : CallerPoint → Prop
  | sets | signals | unlocks => True
  | between | picks | pushes _ _ | locks | locksForStop | ends => False

/-- The playback thread is in its critical section, and not asleep there. -/
def PlaybackPoint.Holds : PlaybackPoint → Prop
  | loops | tests | sizes | looks | sleeps | leavesLoop | unlocks _ => True
  | between | locks | wakes | relocks | serves | clears | pops | ends => False

/-- The thread is in its critical section. -/
def Holds : (i : PlaybackUser ι) → (points i).Point → Prop
  | .caller _ => CallerPoint.Holds
  | .playback => PlaybackPoint.Holds

/-- What a step of the thread `i` can do with the mutex, when it is in its
    critical section before (`held`) or afterwards (`held'`). -/
inductive Exchange (i : PlaybackUser ι) (held held' : Prop) (s s' : State ι) : Prop where
  | keeps : s'.mutex = s.mutex → (held' → held) → Exchange i held held' s s'
  | takes : s.mutex = none → s'.mutex = some i → Exchange i held held' s s'
  | gives : held → s'.mutex = none → ¬held' → Exchange i held held' s s'

theorem CallerPoint.Moves.exchange {i : ι} {s s' : State ι} {pt pt' : CallerPoint}
    (h : pt.Moves i s s' pt') : Exchange (.caller i) pt.Holds pt'.Holds s s' := by
  cases h with
  | locks hfree => exact .takes hfree rfl
  | locksForStop hfree => exact .takes hfree rfl
  | unlocks => exact .gives trivial rfl id
  | _ => exact .keeps rfl id

theorem PlaybackPoint.Moves.exchange {s s' : State ι} {pt pt' : PlaybackPoint}
    (h : pt.Moves s s' pt') : Exchange .playback pt.Holds pt'.Holds s s' := by
  cases h with
  | locks hfree => exact .takes hfree rfl
  | relocks hfree => exact .takes hfree rfl
  | sleeps => exact .gives trivial rfl id
  | unlocks => exact .gives trivial rfl id
  | unlocksLast => exact .gives trivial rfl id
  | _ => exact .keeps rfl id

/-- The thread in a critical section owns the mutex. -/
def Owned (loc : Places ι) (s : State ι) : Prop := ∀ i, Holds i (loc i) → s.mutex = some i

theorem Owned.step [DecidableEq ι] {loc : Places ι} {s s' : State ι} {i : PlaybackUser ι}
    {pt' : (points i).Point} (h : Owned loc s)
    (hx : Exchange i (Holds i (loc i)) (Holds i pt') s s') :
    Owned (Function.update loc i pt') s' := by
  intro j hj
  by_cases hji : j = i
  · subst hji
    rw [Function.update_self] at hj
    cases hx with
    | keeps hmutex hheld => exact hmutex.trans (h j (hheld hj))
    | takes _ hmutex => exact hmutex
    | gives _ _ hheld => exact absurd hj hheld
  · rw [Function.update_of_ne hji] at hj
    have howner := h j hj
    cases hx with
    | keeps hmutex _ => exact hmutex.trans howner
    | takes hfree _ => cases hfree.symm.trans howner
    | gives hheld _ _ => exact absurd (Option.some.inj (howner.symm.trans (h i hheld))) hji

/-! ## Who is about to signal -/

/-- The caller is between its push, or its setting of the flag, and its signal. -/
def CallerPoint.Due : CallerPoint → Prop
  | locks | signals => True
  | between | picks | pushes _ _ | locksForStop | sets | unlocks | ends => False

/-- Some caller is about to signal. -/
def SomeDue (loc : Places ι) : Prop := ∃ i, CallerPoint.Due (loc (.caller i))

/-- There is something to do for the playback thread. -/
def HasWork (s : State ι) : Prop := 0 < s.queue.size ∨ s.stopRequested = true

/-- What the playback thread may overlook where it stands is about to be signalled (`due`). -/
def Watched (s : State ι) (due : Prop) : PlaybackPoint → Prop
  | .looks => s.waiting = false ∧ (0 < s.queue.size → due)
  -- the flag cannot be set while the thread holds the mutex
  | .sleeps => s.waiting = false ∧ s.stopRequested = false ∧ (0 < s.queue.size → due)
  | .wakes => s.waiting = true → HasWork s → due
  | _ => s.waiting = false

namespace Watched

variable {s s' : State ι} {due due' : Prop} {ppt : PlaybackPoint}

/-- Nothing happens to what the thread looks at. -/
theorem mono (h : Watched s due ppt) (hwaiting : s'.waiting = s.waiting)
    (hstop : s'.stopRequested = s.stopRequested) (hqueue : s'.queue = s.queue)
    (hdue : due → due') : Watched s' due' ppt := by
  cases ppt with
  | looks => exact ⟨hwaiting.trans h.1, fun hsize => hdue (h.2 (hqueue ▸ hsize))⟩
  | sleeps => exact ⟨hwaiting.trans h.1, hstop.trans h.2.1, fun hsize => hdue (h.2.2 (hqueue ▸ hsize))⟩
  | wakes =>
    intro hw hwork
    refine hdue (h (hwaiting.symm.trans hw) ?_)
    rwa [HasWork, ← hqueue, ← hstop]
  | _ => exact hwaiting.trans h

/-- A caller is about to signal now. -/
theorem of_due (h : Watched s due ppt) (hdue : due') (hwaiting : s'.waiting = s.waiting)
    (hstop : ppt = .sleeps → s'.stopRequested = s.stopRequested) : Watched s' due' ppt := by
  cases ppt with
  | looks => exact ⟨hwaiting.trans h.1, fun _ => hdue⟩
  | sleeps => exact ⟨hwaiting.trans h.1, (hstop rfl).trans h.2.1, fun _ => hdue⟩
  | wakes => exact fun _ _ => hdue
  | _ => exact hwaiting.trans h

/-- The playback thread is signalled, unless it holds the mutex. -/
theorem signalled (h : Watched s due ppt) (hfree : ¬ppt.Holds) :
    Watched { s with waiting := false } due' ppt := by
  cases ppt with
  | looks => exact absurd trivial hfree
  | sleeps => exact absurd trivial hfree
  | wakes => exact fun hw => (nomatch hw)
  | _ => rfl

end Watched

/-- A caller's step leaves the playback thread watched. -/
theorem CallerPoint.Moves.watched {i : ι} {s s' : State ι} {pt pt' : CallerPoint}
    {ppt : PlaybackPoint} {due due' : Prop} (h : pt.Moves i s s' pt')
    (hexcl : pt.Holds → ¬ppt.Holds) (hself : pt'.Due → due')
    (hother : due → pt.Due ∨ due') (hw : Watched s due ppt) : Watched s' due' ppt := by
  cases h with
  | pushes => exact hw.of_due (hself trivial) rfl fun _ => rfl
  | sets =>
    refine hw.of_due (hself trivial) rfl fun hsleeps => ?_
    exact absurd (hsleeps ▸ trivial) (hexcl trivial)
  | locks => exact hw.mono rfl rfl rfl fun _ => hself trivial
  | signals => exact hw.signalled (hexcl trivial)
  | _ => exact hw.mono rfl rfl rfl fun hdue => (hother hdue).resolve_left id

/-- The playback thread goes on to where it is watched. -/
theorem PlaybackPoint.Moves.watched {s s' : State ι} {pt pt' : PlaybackPoint} {due : Prop}
    (h : pt.Moves s s' pt') (hw : Watched s due pt) : Watched s' due pt' := by
  cases h with
  | empty hsize => exact ⟨hw, fun hpos => absurd hsize (Nat.ne_of_gt hpos)⟩
  | idle hstop => exact ⟨hw.1, hstop, hw.2⟩
  | requested => exact hw.1
  | sleeps =>
    intro _ hwork
    rcases hwork with hsize | hstop
    · exact hw.2.2 hsize
    · cases hw.2.1.symm.trans hstop
  | wakes => rfl
  | _ => exact hw

/-! ## Runs -/

/-- The thread in a critical section owns the mutex, and the playback thread is watched. -/
structure Safe (loc : Places ι) (s : State ι) : Prop where
  owned : Owned loc s
  watched : Watched s (SomeDue loc) (loc .playback)

variable [DecidableEq ι]

theorem Safe.step {loc : Places ι} {s s' : State ι} {i : PlaybackUser ι} {pt' : (points i).Point}
    (h : Safe loc s) (hmove : (points i).Moves (loc i) s s' pt') :
    Safe (Function.update loc i pt') s' := by
  cases i with
  | caller i =>
    have hmove : CallerPoint.Moves i s (loc (.caller i)) s' pt' := hmove
    refine ⟨h.owned.step hmove.exchange, ?_⟩
    rw [Function.update_of_ne (by simp)]
    refine hmove.watched (fun hheld hplayback => ?_) (fun hdue => ⟨i, ?_⟩) (fun hdue => ?_) h.watched
    · have hmine := h.owned (.caller i) hheld
      have htheirs := h.owned .playback hplayback
      cases hmine.symm.trans htheirs
    · rw [Function.update_self]
      exact hdue
    · obtain ⟨j, hj⟩ := hdue
      by_cases hji : j = i
      · exact .inl (hji ▸ hj)
      · refine .inr ⟨j, ?_⟩
        rw [Function.update_of_ne (by simpa using hji)]
        exact hj
  | playback =>
    have hmove : PlaybackPoint.Moves s (loc .playback) s' pt' := hmove
    refine ⟨h.owned.step hmove.exchange, ?_⟩
    have hdue : SomeDue (Function.update loc .playback pt') ↔ SomeDue loc := by
      refine exists_congr fun j => ?_
      rw [Function.update_of_ne (by simp)]
    rw [Function.update_self, propext hdue]
    exact hmove.watched h.watched

/-- A playback of which no thread is inside a round. -/
def start (queue : AudioBuffer Unit) : Config (PlaybackUser ι) (State ι) Answer where
  shared := { queue, mutex := none, running := true, stopRequested := false, waiting := false }
  cur _ := none

/-- Whenever the playback thread is blocked with something to do and has not been
    signalled, a caller stands between its push, or its setting of the flag, and
    its signal. -/
theorem no_lost_wake_up {queue : AudioBuffer Unit} {cfg : Config (PlaybackUser ι) (State ι) Answer}
    (hr : Reach body (fun _ _ _ => True) (start queue) cfg) (hwaiting : cfg.shared.waiting = true)
    (hwork : HasWork cfg.shared) :
    ∃ i pt, cfg.cur (.caller i) = CallerPoint.program i pt ∧ pt.Due := by
  let init (i : PlaybackUser ι) : (points i).Point := match i with
    | .caller _ => CallerPoint.between
    | .playback => PlaybackPoint.between
  have hinit : Safe init (start queue : Config (PlaybackUser ι) (State ι) Answer).shared := by
    refine ⟨fun i hi => ?_, rfl⟩
    cases i <;> exact hi.elim
  have hloc (i : PlaybackUser ι) : (start queue).cur i = (points i).program (init i) := by
    cases i <;> rfl
  obtain ⟨loc, hloc, h⟩ := @Threads.Reach.points _ (PlaybackUser ι) _ _ _ _ _ _ _ _ _
    Function.injective_id points Safe ⟨init, hloc, hinit⟩
    (fun i loc s s' pt' _ hmove h => h.step hmove) (fun i loc s s' hi => absurd rfl (hi i)) hr
  have hdue : SomeDue loc := by
    have hw := h.watched
    cases hpt : loc .playback with
    | wakes =>
      rw [hpt] at hw
      exact hw hwaiting hwork
    | looks => 
      rw [hpt] at hw
      cases hw.1.symm.trans hwaiting
    | sleeps =>
      rw [hpt] at hw
      cases hw.1.symm.trans hwaiting
    | _ =>
      rw [hpt] at hw
      cases (show cfg.shared.waiting = false from hw).symm.trans hwaiting
  obtain ⟨i, hi⟩ := hdue
  exact ⟨i, loc (.caller i), hloc (.caller i), hi⟩

/-- The playback thread sleeps, and a caller has pushed a block. -/
theorem no_lost_wake_up_pushed : ∃ (queue : AudioBuffer Unit)
    (cfg : Config (PlaybackUser Unit) (State Unit) Answer), AudioBuffer.init 2 4 = some queue ∧
    Reach body (fun _ _ _ => True) (start queue) cfg ∧
    cfg.shared.waiting = true ∧ cfg.shared.queue.size = 1 ∧
    ∃ i pt, cfg.cur (.caller i) = CallerPoint.program i pt ∧ pt.Due := by
  obtain ⟨queue, hqueue⟩ : ∃ queue : AudioBuffer Unit, AudioBuffer.init 2 4 = some queue := ⟨_, rfl⟩
  have h : ((AudioBuffer.init 2 4).bind fun queue =>
      Config.play (σ := State Unit) body (fun _ _ _ => true) (.enqueue [1, 2] 24000)
        [(.playback, 7, []), (.caller (), 3, [])] (start queue)).any (fun cfg =>
      cfg.shared.waiting && decide (cfg.shared.queue.size = 1)) = true := by decide +kernel
  rw [hqueue] at h
  obtain ⟨cfg, hplay, hp⟩ := (Option.any_eq_true _ _).mp h
  simp only [Bool.and_eq_true, decide_eq_true_eq] at hp
  have hr : Reach body (fun _ _ _ => True) (start queue) cfg :=
    Threads.Reach.of_play (fun _ _ _ _ => trivial) .refl hplay
  have hwork : HasWork cfg.shared := .inl (hp.2 ▸ Nat.one_pos)
  exact ⟨queue, cfg, hqueue, hr, hp.1, hp.2, no_lost_wake_up hr hp.1 hwork⟩

end PlaybackUser

end Xiaozhi
