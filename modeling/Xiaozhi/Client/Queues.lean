-- SUMMARY: The two pending queues of the client keep every accepted message, in order, until it is taken.
import Xiaozhi.Client.Frames

/-!
# Pending queues

Texts and packets wait in two queues of the client. Each of the queues hands
its messages out in the order in which they were accepted, with the bytes that
were accepted, whatever slots of the ring they have passed through.
-/

namespace Xiaozhi

/-- The payloads of one kind. -/
def payloads (opcode : Opcode) (messages : List Message) : List Bytes :=
  (messages.filter (·.opcode = opcode)).map (·.payload)

@[simp] theorem payloads_nil {opcode : Opcode} : payloads opcode [] = [] := rfl

@[simp] theorem payloads_append {opcode : Opcode} {l l' : List Message} :
    payloads opcode (l ++ l') = payloads opcode l ++ payloads opcode l' := by
  simp [payloads]

@[simp] theorem payloads_cons_self {opcode : Opcode} {payload : Bytes} {l : List Message} :
    payloads opcode (⟨opcode, payload⟩ :: l) = payload :: payloads opcode l := by
  simp [payloads]

/-- The message that a frame carries. -/
def Frame.message (frame : Frame) : Message := ⟨frame.opcode, frame.payload⟩

namespace World

/-- The messages accepted, the oldest first. -/
def accepted (w : World) : List Message := w.queued.reverse

/-- The messages taken from the pending queues, the oldest first. -/
def taken (w : World) : List Message := (w.dequeued.map Frame.message).reverse

/-- The messages written, the oldest first. -/
def written (w : World) : List Message := (w.wire.map Frame.message).reverse

/-- The texts that wait, the oldest first. -/
def waitingTexts (w : World) : List Bytes := w.client.pendingText.items.map (·.payload)

/-- The packets that wait, the oldest first. -/
def waitingPackets (w : World) : List Bytes := w.client.pendingBinary.records.map (·.bytes)

/-- What was accepted has been taken, in order, or waits. -/
structure Conserved (w : World) : Prop where
  wf : w.client.pendingBinary.WF
  texts : payloads .text w.accepted = payloads .text w.taken ++ w.waitingTexts
  packets : payloads .binary w.accepted = payloads .binary w.taken ++ w.waitingPackets

variable {w w' : World}

theorem accepted_cons {m : Message} (h : w'.queued = m :: w.queued) :
    w'.accepted = w.accepted ++ [m] := by
  simp [accepted, h]

theorem Unsent.conserved (h : w.Unsent w') (hc : w.Conserved) : w'.Conserved := by
  refine ⟨h.binary ▸ hc.wf, ?_, ?_⟩
  · rw [accepted, taken, waitingTexts, h.queued, h.dequeued, h.texts]
    exact hc.texts
  · rw [accepted, taken, waitingPackets, h.queued, h.dequeued, h.binary]
    exact hc.packets

end World

/-- Taking a message, writing one, or anything else that a service thread does
    keeps what waits in order. -/
theorem ServiceStep.conserved {k : Nat} {w w' : World} (h : ServiceStep k w w')
    (hc : w.Conserved) : w'.Conserved := by
  cases h with
  | quiet hq _ => exact hq.unsent.conserved hc
  | connection _ hq _ =>
    exact hq.unsent.conserved ⟨hc.wf, hc.texts, hc.packets⟩
  | popsText hitems =>
    refine ⟨hc.wf, ?_, ?_⟩
    · refine hc.texts.trans ?_
      simp [World.taken, World.waitingTexts, hitems, Frame.message, payloads]
    · refine hc.packets.trans ?_
      simp [World.taken, World.waitingPackets, Frame.message, payloads]
  | popsBinary hitems hpop =>
    refine ⟨AudioBuffer.pop_wf hc.wf hpop, ?_, ?_⟩
    · refine hc.texts.trans ?_
      simp [World.taken, World.waitingTexts, Frame.message, payloads]
    · refine hc.packets.trans ?_
      simp [World.taken, World.waitingPackets, AudioBuffer.pop_records hc.wf hpop, AudioBuffer.record,
        Frame.message, payloads]
  | _ => exact ⟨hc.wf, hc.texts, hc.packets⟩

/-- No step loses a message, takes one twice, or changes their order. -/
theorem Step.conserved {i : ThreadId} {w w' : World} (h : Step i w w') (hc : w.Conserved) :
    w'.Conserved := by
  cases h.frames with
  | same hu => exact hu.conserved hc
  | starts _ hu => exact hu.conserved hc
  | service k _ hs => exact hs.conserved hc
  | queuesText payload _ hu hitems =>
    have htaken : w'.taken = w.taken := congrArg (fun l => (l.map Frame.message).reverse) hu.dequeued
    have hbinary : w'.client.pendingBinary = w.client.pendingBinary := hu.binary
    refine ⟨hbinary ▸ hc.wf, ?_, ?_⟩
    · rw [World.accepted_cons hu.queued, htaken, payloads_append, hc.texts]
      simp [World.waitingTexts, hitems, payloads]
    · rw [World.accepted_cons hu.queued, htaken, payloads_append, hc.packets]
      simp [World.waitingPackets, hbinary, payloads]
  | queuesBinary payload _ hu hpush =>
    have htaken : w'.taken = w.taken := congrArg (fun l => (l.map Frame.message).reverse) hu.dequeued
    have hitems : w'.client.pendingText.items = w.client.pendingText.items := hu.texts
    refine ⟨AudioBuffer.push_wf hc.wf hpush, ?_, ?_⟩
    · rw [World.accepted_cons hu.queued, htaken, payloads_append, hc.texts]
      simp [World.waitingTexts, hitems, payloads]
    · rw [World.accepted_cons hu.queued, htaken, payloads_append, hc.packets]
      simp [World.waitingPackets, AudioBuffer.push_records hc.wf hpush, payloads]

/-- A packet is taken only when no text waits. -/
theorem Step.waitingTexts_of_binary {i : ThreadId} {w w' : World} {frame : Frame} (h : Step i w w')
    (hd : w'.dequeued = frame :: w.dequeued) (hbinary : frame.opcode = .binary) :
    w.waitingTexts = [] := by
  have hsame (hsame : w'.dequeued = w.dequeued) : w.waitingTexts = [] :=
    absurd (hd.symm.trans hsame) (List.cons_ne_self _ _)
  cases h.frames with
  | same hu => exact hsame hu.dequeued
  | starts _ hu => exact hsame hu.dequeued
  | queuesText _ _ hu => exact hsame hu.dequeued
  | queuesBinary _ _ hu => exact hsame hu.dequeued
  | service k _ hs =>
    cases hs with
    | quiet hq => exact hsame hq.dequeued
    | connection _ hq => exact hsame hq.dequeued
    | popsText _ =>
      obtain ⟨rfl, -⟩ := List.cons.inj hd
      cases hbinary
    | popsBinary hitems _ => simp [World.waitingTexts, hitems]
    | _ => exact hsame rfl

theorem World.init_conserved {config : AppConfig} : (World.init config).Conserved :=
  ⟨AudioBuffer.init_wf (AudioBuffer.init32_eq (by decide)), rfl, rfl⟩

end Xiaozhi
