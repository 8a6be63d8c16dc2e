-- SUMMARY: The session state machine.
import Xiaozhi.App.Event

/-!
# Session

`session.c`: which action the main loop performs on an event, and the state it
goes to. Handlers of the main loop also write the state directly.
-/

namespace Xiaozhi

/-- `session_state_t`. -/
inductive SessionState where
  | idle
  | wakeDetecting
  | connecting
  | handshaking
  | ready
  | uploadingAudio
  | waitingTts
  | playingTts
  | errorBackoff
  deriving DecidableEq, Repr

/-- `session_action_t`. -/
inductive SessionAction where
  | none
  | connect
  | sendHello
  | startListen
  | stopListen
  | abort
  | startPlayback
  | returnToWake
  deriving DecidableEq, Repr

namespace Session

/-- `session_handle_event`. -/
def handleEvent (state : SessionState) (event : AppEventType) : SessionState × SessionAction :=
  if event = .error then
    (.errorBackoff, .returnToWake)
  else
    match state with
    | .idle | .wakeDetecting =>
      if event = .manualStart ∨ event = .wakewordDetected then (.connecting, .connect)
      else (state, .none)
    | .connecting =>
      if event = .wsConnected then (.handshaking, .sendHello) else (state, .none)
    | .handshaking =>
      if event = .wsHello then (.ready, .none) else (state, .none)
    | .ready =>
      if event = .manualStart ∨ event = .wakewordDetected then (.uploadingAudio, .startListen)
      else (state, .none)
    | .uploadingAudio =>
      if event = .wsBinary then (state, .none)
      else if event = .manualStop then (.waitingTts, .stopListen)
      else (state, .none)
    | .playingTts =>
      if event = .manualStart ∨ event = .wakewordDetected then (.connecting, .abort)
      else (state, .none)
    | .waitingTts | .errorBackoff => (state, .none)

/-- The actions of the state machine, with the states they start from and lead
    to: what `session_handle_event` can do in one step. -/
theorem handleEvent_cases (state : SessionState) (event : AppEventType) :
    handleEvent state event = (state, .none) ∨
    (event = .error ∧ handleEvent state event = (.errorBackoff, .returnToWake)) ∨
    ((state = .idle ∨ state = .wakeDetecting) ∧ handleEvent state event = (.connecting, .connect)) ∨
    (state = .connecting ∧ event = .wsConnected ∧
      handleEvent state event = (.handshaking, .sendHello)) ∨
    (state = .handshaking ∧ event = .wsHello ∧ handleEvent state event = (.ready, .none)) ∨
    (state = .ready ∧ handleEvent state event = (.uploadingAudio, .startListen)) ∨
    (state = .uploadingAudio ∧ event = .manualStop ∧
      handleEvent state event = (.waitingTts, .stopListen)) ∨
    (state = .playingTts ∧ handleEvent state event = (.connecting, .abort)) := by
  cases state <;> cases event <;> simp [handleEvent]

end Session

end Xiaozhi
