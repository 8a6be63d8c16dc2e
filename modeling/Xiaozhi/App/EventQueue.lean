-- SUMMARY: The event queue under any number of threads that push and pop: every call is answered as by a bounded list of events.
import Xiaozhi.App.Event
import Xiaozhi.Threads.System

/-!
# Event queue

`event_queue.c`, for any capacity. Any number of threads call `event_queue_push`
and `event_queue_pop` as often as they like. A push is one critical section. So
is a check of a pop, which takes an event if there is one; a pop that may wait
gives the mutex away and checks again when it is woken.

The result of a call is decided in a critical section. In the order of these
sections the results are those of a bounded list of events, whatever the threads
do, and each thread is given the results of its own calls.
-/

namespace Xiaozhi

namespace EventQueueThread

open Threads Threads.Prog

/-- A call of `event_queue_push` or `event_queue_pop`. -/
inductive Call where
  | push (event : AppEvent)
  | pop (timeoutMs : Int)
  deriving DecidableEq

/-- What a call returns, with the event that a pop stores. -/
structure Result where
  code : Int
  event : Option AppEvent
  deriving DecidableEq

/-- A call of a thread, with its result. -/
structure Answered (ι : Type) where
  thread : ι
  call : Call
  result : Result
  deriving DecidableEq

/-- The queue. History, the most recent first: `settled` are the calls in the
    order in which their results were decided, and `returned` are those that have
    returned, with what they returned. No function reads these. -/
structure State (ι : Type) where
  queue : RingBuffer AppEvent
  settled : List (Answered ι)
  returned : List (Answered ι)

variable {ι : Type}

namespace State

/-- `event_queue_init`, with the allocation succeeding; `none` is the result `-1`. -/
def init (capacity : Nat) : Option (State ι) :=
  if capacity = 0 then
    none
  else
    some { queue := .init capacity fun _ => .ofType .none .main, settled := [], returned := [] }

/-- The result of a call is decided. -/
def settle (s : State ι) (i : ι) (call : Call) (result : Result) : State ι :=
  { s with settled := ⟨i, call, result⟩ :: s.settled }

/-- A call has returned. -/
def hand (s : State ι) (i : ι) (call : Call) (result : Result) : State ι :=
  { s with returned := ⟨i, call, result⟩ :: s.returned }

/-- The critical section of `event_queue_push`. -/
def push (s : State ι) (i : ι) (event : AppEvent) : Int × State ι :=
  match s.queue.push event with
  | none => (-1, s.settle i (.push event) ⟨-1, none⟩)
  | some queue => (0, { s with queue }.settle i (.push event) ⟨0, none⟩)

/-- `event_queue_pop` takes the oldest event, unless the queue is empty. -/
def take (s : State ι) (i : ι) (timeoutMs : Int) : Option (Result × State ι) :=
  s.queue.pop.map fun popped =>
    let result := ⟨1, some popped.1⟩
    (result, { s with queue := popped.2 }.settle i (.pop timeoutMs) result)

/-- `event_queue_pop` returns without an event. -/
def giveUp (s : State ι) (i : ι) (timeoutMs code : Int) : Result × State ι :=
  (⟨code, none⟩, s.settle i (.pop timeoutMs) ⟨code, none⟩)

end State

/-- What the environment decides: which call comes next, and how a wait ends. -/
inductive Answer where
  | call (call : Call)
  | woken
  | timedOut
  | failed

/-- `event_queue_push`, called by the thread `i`. -/
def eventQueuePush (i : ι) (event : AppEvent) : Prog (State ι) Answer Int :=
  .atomic fun s => s.push i event

/-- The check for an event, with the mutex held; the result says that none is there. -/
def check (i : ι) (timeoutMs : Int) : Prog (State ι) Answer (Option Result) := .atomic fun s =>
  match s.take i timeoutMs with
  | some (result, s) => (some result, s)
  | none => (none, s)

/-- `pthread_cond_timedwait`: the thread is woken, or the call gives up. -/
def wait (i : ι) (timeoutMs : Int) : Prog (State ι) Answer (Option Result) := .act (fun c s =>
  match c with
  | .woken => some (none, s)
  | .timedOut => some ((s.giveUp i timeoutMs 0).map some id)
  | .failed => some ((s.giveUp i timeoutMs (-1)).map some id)
  | .call _ => none) .ret

/-- `event_queue_pop`, called by the thread `i`. -/
def eventQueuePop (i : ι) (timeoutMs : Int) : Prog (State ι) Answer Result :=
  if timeoutMs ≤ 0 then
    .atomic fun s => (s.take i timeoutMs).getD (s.giveUp i timeoutMs 0)
  else
    .iter (fun _ : Unit => do
      match ← check i timeoutMs with
      | some result => return .inr result
      | none =>
        match ← wait i timeoutMs with
        | some result => return .inr result
        | none => return .inl ()) () .ret

/-- A thread makes one call after the other. -/
def caller (i : ι) : Prog (State ι) Answer Unit := do
  match ← .ask fun | .call c => some c | _ => none with
  | .push event =>
    let code ← eventQueuePush i event
    .modify (·.hand i (.push event) ⟨code, none⟩)
  | .pop timeoutMs =>
    let result ← eventQueuePop i timeoutMs
    .modify (·.hand i (.pop timeoutMs) result)

/-! ## A bounded list of events -/

/-- What a call on the list `q` of at most `capacity` events may return, and the
    list afterwards. A pop that may wait can give up at any time. -/
inductive Serves (capacity : Nat) : List AppEvent → Call → Result → List AppEvent → Prop where
  | accepts {q : List AppEvent} {event : AppEvent} : q.length ≠ capacity →
      Serves capacity q (.push event) ⟨0, none⟩ (q ++ [event])
  | refuses {q : List AppEvent} {event : AppEvent} : q.length = capacity →
      Serves capacity q (.push event) ⟨-1, none⟩ q
  | takes {q : List AppEvent} {event : AppEvent} {timeoutMs : Int} :
      Serves capacity (event :: q) (.pop timeoutMs) ⟨1, some event⟩ q
  | finds {timeoutMs : Int} : timeoutMs ≤ 0 → Serves capacity [] (.pop timeoutMs) ⟨0, none⟩ []
  | givesUp {q : List AppEvent} {timeoutMs code : Int} : 0 < timeoutMs → code = 0 ∨ code = -1 →
      Serves capacity q (.pop timeoutMs) ⟨code, none⟩ q

/-- The calls, the most recent first, lead from the empty list to the list `q`. -/
inductive Served (capacity : Nat) : List (Answered ι) → List AppEvent → Prop where
  | nil : Served capacity [] []
  | cons {log : List (Answered ι)} {q q' : List AppEvent} {a : Answered ι} : Served capacity log q →
      Serves capacity q a.call a.result q' → Served capacity (a :: log) q'

/-- The events that have been accepted, in order. -/
def acceptedEvents (log : List (Answered ι)) : List AppEvent :=
  log.reverse.filterMap fun a => match a.call with
    | .push event => if a.result.code = 0 then some event else none
    | .pop _ => none

/-- The events that have been popped, in order. -/
def poppedEvents (log : List (Answered ι)) : List AppEvent :=
  log.reverse.filterMap fun a => match a.call with
    | .push _ => none
    | .pop _ => a.result.event

section

variable {capacity : Nat} {q q' : List AppEvent} {result : Result} {log : List (Answered ι)}

/-- A push is refused exactly when the list is full, and then it changes nothing. -/
theorem Serves.push_iff {event : AppEvent} (h : Serves capacity q (.push event) result q') :
    (result.code = -1 ↔ q.length = capacity) ∧ (result.code = -1 → q' = q) := by
  cases h with
  | accepts hne => exact ⟨iff_of_false nofun hne, nofun⟩
  | refuses heq => exact ⟨iff_of_true rfl heq, fun _ => rfl⟩

/-- A pop that does not wait returns 0 exactly when the list is empty, and then
    it changes nothing. -/
theorem Serves.pop_iff {timeoutMs : Int} (h : Serves capacity q (.pop timeoutMs) result q')
    (hnow : timeoutMs ≤ 0) :
    (result.code = 0 ↔ q = []) ∧ (result.code = 0 → q' = q) := by
  cases h with
  | takes => exact ⟨iff_of_false nofun nofun, nofun⟩
  | finds => exact ⟨iff_of_true rfl rfl, fun _ => rfl⟩
  | givesUp hwait => omega

/-- What had been served before some of the calls. -/
theorem Served.of_append {later : List (Answered ι)} (h : Served capacity (later ++ log) q) :
    ∃ q, Served capacity log q := by
  induction later generalizing q with
  | nil => exact ⟨q, h⟩
  | cons a later ih =>
    cases h with
    | cons h _ => exact ih h

/-- The accepted events are the popped ones, and then those that are left. -/
theorem Served.accepted (h : Served capacity log q) :
    acceptedEvents log = poppedEvents log ++ q := by
  induction h with
  | nil => rfl
  | @cons log q q' a hlog hserves ih =>
    obtain ⟨i, call, result⟩ := a
    simp only [acceptedEvents, poppedEvents, List.reverse_cons, List.filterMap_append] at ih ⊢
    rw [ih]
    cases hserves <;> simp

end

/-! ## What a call does -/

section

variable {capacity : Nat} {i : ι} {s s' : State ι} {event : AppEvent} {timeoutMs : Int}

/-- What the thread `i` does in one step. -/
inductive Step (i : ι) (s : State ι) : State ι → Prop where
  | stays : Step i s s
  | pushes (event : AppEvent) : Step i s (s.push i event).2
  | takes {timeoutMs : Int} {result : Result} {s' : State ι} :
      s.take i timeoutMs = some (result, s') → Step i s s'
  | finds {timeoutMs : Int} : timeoutMs ≤ 0 → s.take i timeoutMs = none →
      Step i s (s.giveUp i timeoutMs 0).2
  | givesUp {timeoutMs code : Int} : 0 < timeoutMs → code = 0 ∨ code = -1 →
      Step i s (s.giveUp i timeoutMs code).2
  | returns (call : Call) (result : Result) : Step i s (s.hand i call result)

theorem step_eventQueuePush : (eventQueuePush i event).Within (Step i) :=
  within_atomic fun _ => .pushes event

theorem step_check : (check i timeoutMs).Within (Step i) := by
  refine within_atomic fun s => ?_
  cases htake : s.take i timeoutMs with
  | some taken => exact .takes htake
  | none => exact .stays

theorem step_wait (hwait : 0 < timeoutMs) : (wait i timeoutMs).Within (Step i) := by
  refine within_act fun c s result s' hs => ?_
  cases c with
  | call c => cases hs
  | woken =>
    obtain ⟨⟩ := hs
    exact .stays
  | timedOut =>
    obtain ⟨⟩ := hs
    exact .givesUp hwait (.inl rfl)
  | failed =>
    obtain ⟨⟩ := hs
    exact .givesUp hwait (.inr rfl)

theorem step_eventQueuePop : (eventQueuePop i timeoutMs).Within (Step i) := by
  unfold eventQueuePop
  split
  · next hnow =>
    refine within_atomic fun s => ?_
    cases htake : s.take i timeoutMs with
    | some taken => exact .takes htake
    | none => exact .finds hnow htake
  · next hwait =>
    refine ⟨fun _ => .bind step_check fun result => ?_, fun _ => trivial⟩
    cases result with
    | some result => trivial
    | none =>
      refine .bind (step_wait (by omega)) fun result => ?_
      cases result <;> trivial

theorem step_caller : (caller i).Within (Step i) := by
  refine .bind (within_ask fun _ => .stays) fun call => ?_
  cases call with
  | push event => exact .bind step_eventQueuePush fun _ => within_modify fun _ => .returns _ _
  | pop timeoutMs => exact .bind step_eventQueuePop fun _ => within_modify fun _ => .returns _ _

/-- What a push does, accepted or not. -/
theorem State.push_cases (s : State ι) (i : ι) (event : AppEvent) :
    (∃ queue, s.queue.push event = some queue ∧
      s.push i event = (0, { s with queue }.settle i (.push event) ⟨0, none⟩)) ∨
    (s.queue.push event = none ∧ s.push i event = (-1, s.settle i (.push event) ⟨-1, none⟩)) := by
  unfold State.push
  cases s.queue.push event with
  | none => exact .inr ⟨rfl, rfl⟩
  | some queue => exact .inl ⟨queue, rfl, rfl⟩

/-- What a pop does that finds an event. -/
theorem State.take_eq {result : Result} (h : s.take i timeoutMs = some (result, s')) :
    ∃ event queue, s.queue.pop = some (event, queue) ∧ result = ⟨1, some event⟩ ∧
      s' = { s with queue }.settle i (.pop timeoutMs) ⟨1, some event⟩ := by
  obtain ⟨popped, hpop, hs⟩ := Option.map_eq_some_iff.mp h
  obtain ⟨rfl, rfl⟩ := Prod.mk.inj hs
  exact ⟨popped.1, popped.2, hpop, rfl, rfl⟩

/-- The queue refines the list: the indices hang together, and the calls that are
    settled lead to the events that are queued. -/
structure Refines (capacity : Nat) (s : State ι) : Prop where
  capacity_eq : s.queue.capacity = capacity
  wf : s.queue.WF
  served : Served capacity s.settled s.queue.toList

theorem Refines.init (h : State.init capacity = some s) : Refines capacity s := by
  unfold State.init at h
  split at h
  · cases h
  · next hne =>
    obtain rfl := Option.some.inj h
    exact ⟨rfl, RingBuffer.init_wf (Nat.pos_of_ne_zero hne), .nil⟩

theorem Refines.push (h : Refines capacity s) : Refines capacity (s.push i event).2 := by
  obtain ⟨queue, hpush, hs⟩ | ⟨hpush, hs⟩ := s.push_cases i event
  · have hlist := RingBuffer.push_toList h.wf hpush
    have hwf := RingBuffer.push_wf h.wf hpush
    obtain ⟨hroom, hqueue⟩ := RingBuffer.push_eq_some hpush
    rw [hs]
    refine ⟨?_, hwf, h.served.cons ?_⟩
    · show queue.capacity = capacity
      rw [hqueue]
      exact h.capacity_eq
    · show Serves capacity _ _ _ queue.toList
      rw [hlist]
      exact .accepts (by rwa [RingBuffer.length_toList, ← h.capacity_eq])
  · have hfull := RingBuffer.push_eq_none.mp hpush
    rw [hs]
    refine ⟨h.capacity_eq, h.wf, h.served.cons (.refuses ?_)⟩
    rwa [RingBuffer.length_toList, ← h.capacity_eq]

theorem Refines.take {result : Result} (h : Refines capacity s)
    (htake : s.take i timeoutMs = some (result, s')) : Refines capacity s' := by
  obtain ⟨event, queue, hpop, -, rfl⟩ := State.take_eq htake
  have hlist := RingBuffer.pop_toList hpop h.wf
  have hwf := RingBuffer.pop_wf h.wf hpop
  obtain ⟨-, -, hqueue⟩ := RingBuffer.pop_eq_some hpop
  refine ⟨?_, hwf, h.served.cons ?_⟩
  · show queue.capacity = capacity
    rw [hqueue]
    exact h.capacity_eq
  · rw [hlist]
    exact .takes

theorem Refines.step (h : Refines capacity s) (hs : Step i s s') : Refines capacity s' := by
  cases hs with
  | stays => exact h
  | pushes event => exact h.push
  | takes htake => exact h.take htake
  | finds hnow htake =>
    have hempty := RingBuffer.pop_eq_none.mp (Option.map_eq_none_iff.mp htake)
    refine ⟨h.capacity_eq, h.wf, h.served.cons ?_⟩
    show Serves capacity _ _ _ s.queue.toList
    rw [hempty]
    exact .finds hnow
  | givesUp hwait hcode => exact ⟨h.capacity_eq, h.wf, h.served.cons (.givesUp hwait hcode)⟩
  | returns call result => exact ⟨h.capacity_eq, h.wf, h.served⟩

end

/-! ## The results of a thread -/

variable [DecidableEq ι]

namespace State

/-- The calls of the thread `i` whose results are decided. -/
def settledBy (s : State ι) (i : ι) : List (Answered ι) := s.settled.filter (·.thread = i)

/-- The calls of the thread `i` that have returned. -/
def returnedBy (s : State ι) (i : ι) : List (Answered ι) := s.returned.filter (·.thread = i)

/-- The results that are decided have been returned. -/
def Level (s : State ι) (i : ι) : Prop := s.settledBy i = s.returnedBy i

/-- The result of one more call is decided. -/
def Ahead (s : State ι) (i : ι) (call : Call) (result : Result) : Prop :=
  s.settledBy i = ⟨i, call, result⟩ :: s.returnedBy i

end State

section

variable {i j : ι} {s s' : State ι} {call : Call} {result : Result} {event : AppEvent}
  {timeoutMs : Int}

theorem State.Level.settle (h : s.Level i) : (s.settle i call result).Ahead i call result := by
  have hcons : (s.settle i call result).settledBy i = ⟨i, call, result⟩ :: s.settledBy i :=
    List.filter_cons_of_pos (decide_eq_true rfl)
  exact hcons.trans (congrArg _ h)

theorem State.Ahead.hand (h : s.Ahead i call result) : (s.hand i call result).Level i := by
  have hcons : (s.hand i call result).returnedBy i = ⟨i, call, result⟩ :: s.returnedBy i :=
    List.filter_cons_of_pos (decide_eq_true rfl)
  exact Eq.trans h hcons.symm

/-- The other threads leave the results of the thread `i` alone; at most one of
    its results has not been returned yet. -/
def resultContract (i : ι) : Contract (State ι) where
  rely s s' := s'.settledBy i = s.settledBy i ∧ s'.returnedBy i = s.returnedBy i
  assume _ _ := True
  guar _ s' := s'.Level i ∨ ∃ call result, s'.Ahead i call result
  rely_refl _ := ⟨rfl, rfl⟩
  rely_trans h h' := ⟨h'.1.trans h.1, h'.2.trans h.2⟩

theorem State.Level.rely (h : s.Level i) (hr : (resultContract i).rely s s') : s'.Level i :=
  hr.1.trans (h.trans hr.2.symm)

theorem State.Ahead.rely (h : s.Ahead i call result) (hr : (resultContract i).rely s s') :
    s'.Ahead i call result := by
  rw [Ahead, hr.1, hr.2]
  exact h

theorem Step.rely (hs : Step j s s') (hj : j ≠ i) : (resultContract i).rely s s' := by
  have hsettle (queue : RingBuffer AppEvent) (call : Call) (result : Result) :
      (resultContract i).rely s ({ s with queue }.settle j call result) :=
    ⟨List.filter_cons_of_neg (by simpa using hj), rfl⟩
  cases hs with
  | stays => exact ⟨rfl, rfl⟩
  | pushes event =>
    obtain ⟨queue, -, hs⟩ | ⟨-, hs⟩ := s.push_cases j event
    · exact hs ▸ hsettle queue _ _
    · exact hs ▸ hsettle s.queue _ _
  | takes htake =>
    obtain ⟨event, queue, -, -, rfl⟩ := State.take_eq htake
    exact hsettle queue _ _
  | finds => exact hsettle s.queue _ _
  | givesUp => exact hsettle s.queue _ _
  | returns call result => exact ⟨rfl, List.filter_cons_of_neg (by simpa using hj)⟩

/-- The result of a push is the one that is decided. -/
theorem eventQueuePush_wp (h : s.Level i) : (eventQueuePush i event).wp (resultContract i)
    (fun code s => s.Ahead i (.push event) ⟨code, none⟩) s := by
  refine wp_atomic fun s₁ h₁ _ => ?_
  have hahead : (s₁.push i event).2.Ahead i (.push event) ⟨(s₁.push i event).1, none⟩ := by
    obtain ⟨queue, -, hs⟩ | ⟨-, hs⟩ := s₁.push_cases i event
    · rw [hs]
      exact State.Level.settle (s := { s₁ with queue }) (h.rely h₁)
    · rw [hs]
      exact (h.rely h₁).settle
  exact ⟨.inr ⟨_, _, hahead⟩, fun s₂ h₂ => hahead.rely h₂⟩

theorem take_ahead (h : s.Level i) (htake : s.take i timeoutMs = some (result, s')) :
    s'.Ahead i (.pop timeoutMs) result := by
  obtain ⟨event, queue, -, rfl, rfl⟩ := State.take_eq htake
  exact State.Level.settle (s := { s with queue }) h

/-- The result of a pop, or none as long as it goes on. -/
def Popped (i : ι) (timeoutMs : Int) : Option Result → State ι → Prop
  | some result, s => s.Ahead i (.pop timeoutMs) result
  | none, s => s.Level i

theorem Popped.rely {result : Option Result} (h : Popped i timeoutMs result s)
    (hr : (resultContract i).rely s s') : Popped i timeoutMs result s' := by
  cases result with
  | some result => exact State.Ahead.rely h hr
  | none => exact State.Level.rely h hr

theorem check_wp (h : s.Level i) :
    (check i timeoutMs).wp (resultContract i) (Popped i timeoutMs) s := by
  refine wp_atomic fun s₁ h₁ _ => ?_
  have h := h.rely h₁
  cases htake : s₁.take i timeoutMs with
  | some taken =>
    have hahead := take_ahead h htake
    exact ⟨.inr ⟨_, _, hahead⟩, fun s₂ h₂ => hahead.rely h₂⟩
  | none => exact ⟨.inl h, fun s₂ h₂ => h.rely h₂⟩

theorem wait_wp (h : s.Level i) :
    (wait i timeoutMs).wp (resultContract i) (Popped i timeoutMs) s := by
  refine wp_act fun s₁ h₁ c result s₂ hs _ => ?_
  have h := h.rely h₁
  have hpopped : Popped i timeoutMs result s₂ := by
    cases c <;> obtain ⟨⟩ := hs
    · exact h
    · exact h.settle
    · exact h.settle
  refine ⟨?_, wp_ret fun s₃ h₃ => hpopped.rely h₃⟩
  cases result with
  | some result => exact .inr ⟨_, _, hpopped⟩
  | none => exact .inl hpopped

/-- The result of a pop is the one that is decided. -/
theorem eventQueuePop_wp (h : s.Level i) : (eventQueuePop i timeoutMs).wp (resultContract i)
    (fun result s => s.Ahead i (.pop timeoutMs) result) s := by
  unfold eventQueuePop
  split
  · refine wp_atomic fun s₁ h₁ _ => ?_
    have h := h.rely h₁
    have hahead : ((s₁.take i timeoutMs).getD (s₁.giveUp i timeoutMs 0)).2.Ahead i
        (.pop timeoutMs) ((s₁.take i timeoutMs).getD (s₁.giveUp i timeoutMs 0)).1 := by
      cases htake : s₁.take i timeoutMs with
      | some taken => exact take_ahead h htake
      | none => exact h.settle
    exact ⟨.inr ⟨_, _, hahead⟩, fun s₂ h₂ => hahead.rely h₂⟩
  · refine ⟨fun _ s => s.Level i, fun _ _ _ h hr => h.rely hr, h, fun _ s h => ?_⟩
    refine wp.bind ((check_wp h).mono fun result s h => ?_)
    cases result with
    | some result => exact wp_ret fun s₁ h₁ s₂ h₂ => (State.Ahead.rely h h₁).rely h₂
    | none =>
      refine wp.bind ((wait_wp h).mono fun result s h => ?_)
      cases result with
      | some result => exact wp_ret fun s₁ h₁ s₂ h₂ => (State.Ahead.rely h h₁).rely h₂
      | none => exact wp_ret fun s₁ h₁ => State.Level.rely h h₁

/-- A thread is given the results of its calls. -/
theorem caller_wp (h : s.Level i) : (caller i).wp (resultContract i) (fun _ s => s.Level i) s := by
  have hhand {call : Call} {result : Result} {s : State ι} (h : s.Ahead i call result) :
      (modify (·.hand i call result) : Prog (State ι) Answer Unit).wp (resultContract i)
        (fun _ s => s.Level i) s :=
    wp_modify fun s₁ h₁ _ => ⟨.inl (h.rely h₁).hand, fun s₂ h₂ => (h.rely h₁).hand.rely h₂⟩
  refine wp.bind (wp_act fun s₁ h₁ c b s₂ hs _ => ?_)
  obtain ⟨call, -, hs⟩ := Option.map_eq_some_iff.mp hs
  obtain ⟨rfl, rfl⟩ := Prod.mk.inj hs
  have h := h.rely h₁
  refine ⟨.inl h, wp_ret fun s₂ h₂ => ?_⟩
  cases call with
  | push event => exact wp.bind ((eventQueuePush_wp (h.rely h₂)).mono fun code s h => hhand h)
  | pop timeoutMs => exact wp.bind ((eventQueuePop_wp (h.rely h₂)).mono fun result s h => hhand h)

end

/-! ## Runs -/

/-- The runs of any threads on the queue that starts as `s`. -/
abbrev Reach (s : State ι) : Config ι (State ι) Answer → Prop :=
  Threads.Reach caller (fun _ _ _ => True) ⟨s, fun _ => none⟩

variable {capacity : Nat} {s : State ι} {cfg : Config ι (State ι) Answer}

theorem Reach.steps (hr : Reach s cfg) : Threads.Reach caller Step ⟨s, fun _ => none⟩ cfg :=
  Threads.Reach.strengthen (fun _ _ _ _ hr hs _ => Threads.Reach.step_within
    (fun _ _ => .stays) (fun _ => step_caller) (fun _ _ h => by cases h) hr hs) hr

/-- The queue refines the list in every state of every run. -/
theorem Reach.refines (hinit : State.init capacity = some s) (hr : Reach s cfg) :
    Refines capacity cfg.shared :=
  Threads.Reach.invariant (.init hinit) (fun _ _ _ hs h => h.step hs) hr.steps

theorem init_level (hinit : State.init capacity = some s) (i : ι) : s.Level i := by
  unfold State.init at hinit
  split at hinit
  · cases hinit
  · obtain rfl := Option.some.inj hinit
    rfl

/-- Between two calls, the thread `i` has been given all its results. -/
theorem Reach.level (hinit : State.init capacity = some s) (hr : Reach s cfg) (i : ι) :
    cfg.Local i (fun p => p.wp (resultContract i) fun _ s => s.Level i) fun s => s.Level i := by
  have hlocal : (⟨s, fun _ => none⟩ : Config ι (State ι) Answer).Local i
      (fun p => p.wp (resultContract i) fun _ s => s.Level i) fun s => s.Level i :=
    init_level hinit i
  exact Threads.Reach.thread (C := resultContract i) (fun _ _ _ => trivial) (fun _ _ _ hj h => h.rely hj)
    (fun _ _ h hr => h.rely hr) (fun _ h => caller_wp h) hlocal hr.steps

/-- At any time, at most one of them is still to come. -/
theorem Reach.near (hinit : State.init capacity = some s) (hr : Reach s cfg) (i : ι) :
    cfg.shared.Level i ∨ ∃ call result, cfg.shared.Ahead i call result := by
  have hsteps : Threads.Reach caller (fun j s s' => Step j s s' ∧ (j = i →
      (resultContract i).guar s s' ∨ s' = s)) ⟨s, fun _ => none⟩ cfg := by
    refine Threads.Reach.strengthen (fun cfg cfg' j c hr hs h => ⟨h, ?_⟩) hr.steps
    rintro rfl
    have hlocal : (⟨s, fun _ => none⟩ : Config ι (State ι) Answer).Local j
        (fun p => p.wp (resultContract j) fun _ s => s.Level j) fun s => s.Level j :=
      init_level hinit j
    exact Threads.Reach.thread_guar (C := resultContract j) (fun _ _ _ => trivial)
      (fun _ _ _ hj h => h.rely hj) (fun _ _ h hr => h.rely hr) (fun _ h => caller_wp h)
      hlocal hr hs h
  let near (s : State ι) : Prop := s.Level i ∨ ∃ call result, s.Ahead i call result
  have hstart : near (⟨s, fun _ => none⟩ : Config ι (State ι) Answer).shared :=
    .inl (init_level hinit i)
  refine Threads.Reach.invariant hstart (fun j s s' h hnear => ?_) hsteps
  by_cases hj : j = i
  · obtain hguar | rfl := h.2 hj
    · exact hguar
    · exact hnear
  · obtain hlevel | ⟨call, result, hahead⟩ := hnear
    · exact .inl (hlevel.rely (h.1.rely hj))
    · exact .inr ⟨call, result, hahead.rely (h.1.rely hj)⟩

/-- For every capacity, in every state that any threads reach: the indices hang
    together; in the order in which their results are decided, the calls are
    answered as by a list of at most `capacity` events, which is the list of the
    queued events now; a push is refused exactly when the list is full, a pop that
    does not wait finds nothing exactly when it is empty, and both change nothing
    then; the accepted events are the popped ones followed by the queued ones; and
    each call returns to its thread what was decided for it. -/
theorem events_in_order (hinit : State.init capacity = some s) (hr : Reach s cfg) :
    (cfg.shared.queue.count ≤ capacity ∧
      cfg.shared.queue.tail = (cfg.shared.queue.head + cfg.shared.queue.count) % capacity) ∧
    Served capacity cfg.shared.settled cfg.shared.queue.toList ∧
    (∀ later a earlier, cfg.shared.settled = later ++ a :: earlier →
      ∃ q q', Served capacity earlier q ∧ Served capacity (a :: earlier) q' ∧
        (∀ event, a.call = .push event →
          (a.result.code = -1 ↔ q.length = capacity) ∧ (a.result.code = -1 → q' = q)) ∧
        ∀ timeoutMs ≤ 0, a.call = .pop timeoutMs →
          (a.result.code = 0 ↔ q = []) ∧ (a.result.code = 0 → q' = q)) ∧
    acceptedEvents cfg.shared.settled =
      poppedEvents cfg.shared.settled ++ cfg.shared.queue.toList ∧
    ∀ i, ∃ pending, pending.length ≤ 1 ∧
      cfg.shared.settledBy i = pending ++ cfg.shared.returnedBy i ∧
      (cfg.cur i = none → pending = []) := by
  have h := hr.refines hinit
  refine ⟨⟨?_, ?_⟩, h.served, fun later a earlier hsplit => ?_, h.served.accepted, fun i => ?_⟩
  · exact h.capacity_eq ▸ h.wf.count_le
  · exact h.capacity_eq ▸ h.wf.tail_eq
  · obtain ⟨q', hserved⟩ := Served.of_append (hsplit ▸ h.served)
    cases hserved with
    | @cons _ q _ _ hearlier hserves =>
      refine ⟨q, q', hearlier, hearlier.cons hserves, fun event hcall => ?_,
        fun timeoutMs hnow hcall => ?_⟩
      · exact Serves.push_iff (hcall ▸ hserves)
      · exact Serves.pop_iff (hcall ▸ hserves) hnow
  · obtain hlevel | ⟨call, result, hahead⟩ := hr.near hinit i
    · exact ⟨[], Nat.zero_le _, hlevel, fun _ => rfl⟩
    · refine ⟨[⟨i, call, result⟩], Nat.le_refl _, hahead, fun hcur => ?_⟩
      -- a thread without a call under way is level
      have hlevel := hr.level hinit i
      unfold Threads.Config.Local at hlevel
      rw [hcur] at hlevel
      exact absurd (hahead.symm.trans hlevel) (List.cons_ne_self _ _)

/-- Three threads push into a queue of one event, and a fourth one pops: the
    second push is refused, and the pop gets the event of the first. -/
theorem events_in_order_one : ∃ (s : State ThreadId) (cfg : Config ThreadId (State ThreadId) Answer),
    State.init 1 = some s ∧ Reach s cfg ∧ cfg.shared.returned = [
      ⟨.capture, .push (.ofType .error .main), ⟨0, none⟩⟩,
      ⟨.main, .pop 0, ⟨1, some (.ofType .wsConnected .main)⟩⟩,
      ⟨.playback, .push (.ofType .shutdown .main), ⟨-1, none⟩⟩,
      ⟨.service 1, .push (.ofType .wsConnected .main), ⟨0, none⟩⟩] ∧
    acceptedEvents cfg.shared.settled = [.ofType .wsConnected .main, .ofType .error .main] ∧
    cfg.shared.queue.toList = [.ofType .error .main] := by
  obtain ⟨s, hinit⟩ : ∃ s : State ThreadId, State.init 1 = some s := ⟨_, rfl⟩
  have h : ((State.init 1).bind fun s : State ThreadId => Config.play caller (fun _ _ _ => true)
      .woken [
        (.service 1, 4, [.call (.push (.ofType .wsConnected .main))]),
        (.playback, 4, [.call (.push (.ofType .shutdown .main))]),
        (.main, 4, [.call (.pop 0)]),
        (.capture, 4, [.call (.push (.ofType .error .main))])] ⟨s, fun _ => none⟩).any (fun cfg =>
      decide (cfg.shared.returned = [
        ⟨.capture, .push (.ofType .error .main), ⟨0, none⟩⟩,
        ⟨.main, .pop 0, ⟨1, some (.ofType .wsConnected .main)⟩⟩,
        ⟨.playback, .push (.ofType .shutdown .main), ⟨-1, none⟩⟩,
        ⟨.service 1, .push (.ofType .wsConnected .main), ⟨0, none⟩⟩]) &&
      decide (acceptedEvents cfg.shared.settled =
        [.ofType .wsConnected .main, .ofType .error .main]) &&
      decide (poppedEvents cfg.shared.settled = [.ofType .wsConnected .main])) = true := by
    decide +kernel
  rw [hinit] at h
  obtain ⟨cfg, hplay, hp⟩ := (Option.any_eq_true _ _).mp h
  simp only [Bool.and_eq_true, decide_eq_true_eq] at hp
  obtain ⟨⟨hreturned, haccepted⟩, hpopped⟩ := hp
  have hr : Reach s cfg := Threads.Reach.of_play (fun _ _ _ _ => trivial) .refl hplay
  have hhistory := (events_in_order hinit hr).2.2.2.1
  rw [haccepted, hpopped] at hhistory
  exact ⟨s, cfg, hinit, hr, hreturned, haccepted, (List.cons.inj hhistory).2.symm⟩

end EventQueueThread

end Xiaozhi
