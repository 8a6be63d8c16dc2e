-- SUMMARY: The variables that only the main thread writes, and the weakest preconditions of its steps on them.
import Mathlib.Tactic.Simps.Basic
import Xiaozhi.App.System

/-!
# The main thread's variables

`World.mainView` collects the variables that no other thread writes, with the
history of the main thread. The rules below compute the weakest precondition of
each step of the main thread on this view; what a step reads of the other
threads' variables may be anything.
-/

namespace Xiaozhi

/-- The variables that only the main thread writes. -/
structure MainView where
  session : SessionState
  sessionId : Bytes
  ttsDone : Bool
  uploadEnabled : Bool
  clientStarted : Bool
  uploading : Bool
  dumpOpen : Bool
  running : Bool
  thread : Option Nat
  started : Nat
  joined : List Nat
  returned : Option Int
  log : List MainEntry

namespace World

def mainView (w : World) : MainView where
  session := w.session
  sessionId := w.sessionId
  ttsDone := w.ttsDone
  uploadEnabled := w.uploadEnabled
  clientStarted := w.clientStarted
  uploading := w.capture.uploading
  dumpOpen := w.opusDumpFile.isSome
  running := w.client.running
  thread := w.client.thread
  started := w.started
  joined := w.joined
  returned := w.returned
  log := w.log

/-- Replace the main thread's variables. -/
def withView (w : World) (v : MainView) : World :=
  { w with
    session := v.session
    sessionId := v.sessionId
    ttsDone := v.ttsDone
    uploadEnabled := v.uploadEnabled
    clientStarted := v.clientStarted
    capture := { w.capture with uploading := v.uploading }
    opusDumpFile := if v.dumpOpen then some [] else none
    client := { w.client with running := v.running, thread := v.thread }
    started := v.started
    joined := v.joined
    returned := v.returned
    log := v.log }

@[simp] theorem mainView_withView (w : World) (v : MainView) : (w.withView v).mainView = v := by
  cases v with
  | mk _ _ _ _ _ _ dumpOpen => cases dumpOpen <;> rfl

/-- A state in which nothing has happened, to show that views exist. -/
def blank : World := .init ⟨1, 16000, 0, 0⟩

theorem mainView_surjective : Function.Surjective mainView := fun v =>
  ⟨blank.withView v, mainView_withView _ _⟩

end World

namespace EventQueue

/-- A queue without room. -/
def full : EventQueue :=
  ⟨{ init64.ring with count := 64 }, ⟨by decide, by decide, by decide, by decide⟩⟩

theorem exists_full (b : Bool) : ∃ q : EventQueue, decide (¬q.Full) = b := by
  cases b
  · exact ⟨full, by decide⟩
  · exact ⟨init64, by decide⟩

/-- Some queue hands out the given event. -/
theorem exists_pop (x : Option AppEvent) : ∃ q : EventQueue, q.pop.map Prod.fst = x := by
  cases x with
  | none => exact ⟨init64, rfl⟩
  | some e => exact ⟨(init64.push e).2, rfl⟩

theorem push_fst_eq {q : EventQueue} {e : AppEvent} : (q.push e).1 = decide (¬q.Full) := by
  rw [Bool.eq_iff_iff, RingBuffer.Queue.push_fst, decide_eq_true_iff]

end EventQueue

namespace MainView

/-- Add to the history. -/
@[simps] def record (v : MainView) (entry : MainEntry) : MainView := { v with log := entry :: v.log }

/-- A new service thread. -/
@[simps!] def create (v : MainView) : MainView :=
  { v with started := v.started + 1, thread := some (v.started + 1) }.record (.starts (v.started + 1))

end MainView

end Xiaozhi
