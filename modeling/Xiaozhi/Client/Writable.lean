-- SUMMARY: No accepted message is left waiting on a live connection with nobody due to send it.
import Xiaozhi.Client.Capacity

/-!
# Requests for a writeable callback

A caller queues a message and then asks libwebsockets for a writeable callback;
the callback sends one message and asks again if more wait. Between the two
halves of each of these the request may be missing, and then the thread that
stands there is due to make it.
-/

namespace Xiaozhi

open Threads Threads.Prog World

namespace World

/-- A text or a packet waits. -/
def Pending (w : World) : Prop := w.client.pendingText.items ≠ [] ∨ w.client.pendingBinary.size > 0

instance (w : World) : Decidable w.Pending := inferInstanceAs (Decidable (_ ∨ _))

/-- A step that neither adds a message nor takes a request back. -/
structure Calm (k : Nat) (w w' : World) : Prop where
  connected : w'.client.connected = w.client.connected
  wsi : w'.client.wsi = w.client.wsi
  closing : w.lws k = .closing → w'.lws k = .closing
  pending : w'.Pending → w.Pending
  writable : w.writable k = true → w'.writable k = true

theorem Calm.refl {k : Nat} (w : World) : Calm k w w := ⟨rfl, rfl, id, id, id⟩

theorem Calm.requestWritable {k : Nat} {w : World} {wsi : Option Nat} :
    Calm k w (w.requestWritable wsi) := by
  cases wsi with
  | none => exact .refl w
  | some j =>
    refine ⟨rfl, rfl, id, id, fun h => ?_⟩
    by_cases hj : k = j
    · subst hj
      exact Function.update_self ..
    · exact (Function.update_of_ne hj ..).trans h

theorem writable_requestWritable {k : Nat} {w : World} :
    (w.requestWritable (some k)).writable k = true := Function.update_self ..

end World

namespace XiaozhiClient

/-! ## Threads that queue packets -/

/-- The end of `xiaozhi_client_queue_binary`, with a packet that is not empty. -/
def pushPacket (payload : Bytes) : Thread Bool := do
  if ← pushBinary payload then
    signalWritable
    return true
  else
    return false

/-- Where a thread that queues packets stands. -/
inductive BinaryPoint where
  | between
  | picks
  | pushes (payload : Bytes)
  | signals
  | requests (wsi : Option Nat)
  | ends

namespace BinaryPoint

/-- What is left of the round. -/
def program : BinaryPoint → Option (Thread Unit)
  | between => none
  | picks => some binaryCaller
  | pushes payload => some do
    let _ ← pushPacket payload
  | signals => some signalWritable
  | requests wsi => some (.modify (·.requestWritable wsi))
  | ends => some (pure ())

/-- The steps of the thread. -/
inductive Moves (w : World) : BinaryPoint → World → BinaryPoint → Prop where
  | enters : Moves w between w picks
  | picks {payload : Bytes} : Moves w picks w (pushes payload)
  | empty : Moves w picks w ends
  | pushes {payload : Bytes} {b : AudioBuffer Nat} : Moves w (pushes payload)
      { w with client.pendingBinary := b, queued := ⟨.binary, payload⟩ :: w.queued } signals
  | full {payload : Bytes} : Moves w (pushes payload) w ends
  | signals : Moves w signals w (requests w.client.wsi)
  | requests {wsi : Option Nat} : Moves w (requests wsi) (w.requestWritable wsi) ends
  | leaves : Moves w ends w between

theorem moves (pt : BinaryPoint) (c : Answer) (w w' : World) (p' : Option (Thread Unit))
    (h : turn binaryCaller c w pt.program = some (w', p')) :
    ∃ pt', p' = pt'.program ∧ Moves w pt w' pt' := by
  -- each point has one next action, which decides the points that can follow
  cases pt with
  | between =>
    obtain ⟨rfl, rfl⟩ := Prod.mk.inj (Option.some.inj h)
    exact ⟨.picks, rfl, .enters⟩
  | picks =>
    obtain ⟨payload, hf, rfl⟩ := turn_act h
    obtain ⟨_, -, heq⟩ := Option.map_eq_some_iff.mp hf
    obtain ⟨-, rfl⟩ := Prod.mk.inj heq
    cases payload with
    | nil => exact ⟨.ends, rfl, .empty⟩
    | cons b payload => exact ⟨.pushes (b :: payload), rfl, .picks⟩
  | pushes payload =>
    obtain ⟨accepted, hf, rfl⟩ := turn_act h
    obtain ⟨rfl, rfl⟩ := Prod.mk.inj (Option.some.inj hf)
    dsimp only
    split
    · exact ⟨.signals, rfl, .pushes⟩
    · exact ⟨.ends, rfl, .full⟩
  | signals =>
    obtain ⟨_, hf, rfl⟩ := turn_act h
    obtain ⟨⟩ := hf
    exact ⟨.requests _, rfl, .signals⟩
  | requests wsi =>
    obtain ⟨_, hf, rfl⟩ := turn_act h
    obtain ⟨⟩ := hf
    exact ⟨.ends, rfl, .requests⟩
  | ends =>
    obtain ⟨rfl, rfl⟩ := Prod.mk.inj (Option.some.inj h)
    exact ⟨.between, rfl, .leaves⟩

end BinaryPoint

/-! ## The network thread -/

/-- The next callback of connection `k`, of those that have to do with sending. -/
def nextSending (k : Nat) : Thread LwsReason := .act (fun c w =>
  match c with
  | .callback .established => (deliver k .established w).map fun w' => (.established, w')
  | .callback .writeable => (deliver k .writeable w).map fun w' => (.writeable, w')
  | _ => none) .ret

/-- The end of a callback: after a failure libwebsockets closes the connection. -/
def finishCallback (k : Nat) (keep : Bool) : Thread Unit :=
  if keep then pure () else closeConnection k

/-- The network thread of connection `k`, as far as it has to do with sending. -/
def sendingThread (k : Nat) : Thread Unit := do
  let reason ← nextSending k
  let keep ← callback k reason
  finishCallback k keep

/-- A writeable callback, once it has copied the message. -/
def writeFrame (k : Nat) (frame : Frame) : Thread Bool := do
  if ← lwsWrite k frame then
    rearm k
    return true
  else
    return false

/-- A writeable callback, once it has taken a message. -/
def sendFrame (k : Nat) (frame : Frame) : Thread Bool := do
  if ← Thread.choose then
    writeFrame k frame
  else
    return false

/-- Where the network thread stands. -/
inductive NetworkPoint where
  | between
  | waits
  | connects
  | notifies
  | signals
  | requests (wsi : Option Nat)
  | pops
  | copies (frame : Frame)
  | writes (frame : Frame)
  | rearms
  | closes
  | ends

namespace NetworkPoint

/-- What is left of the round. -/
def program (k : Nat) : NetworkPoint → Option (Thread Unit)
  | between => none
  | waits => some (sendingThread k)
  | connects => some (callback k .established >>= finishCallback k)
  | notifies => some do
    appClientOnConnected k
    signalWritable
  | signals => some signalWritable
  | requests wsi => some (.modify (·.requestWritable wsi))
  | pops => some (onWriteable k >>= finishCallback k)
  | copies frame => some (sendFrame k frame >>= finishCallback k)
  | writes frame => some (writeFrame k frame >>= finishCallback k)
  | rearms => some ((do rearm k; return true) >>= finishCallback k)
  | closes => some (closeConnection k)
  | ends => some (pure ())

/-- The steps of the network thread. -/
inductive Moves (k : Nat) (w : World) : NetworkPoint → World → NetworkPoint → Prop where
  | enters : Moves k w between w waits
  | establishes {w' : World} : deliver k .established w = some w' → Moves k w waits w' connects
  | invokes {w' : World} : deliver k .writeable w = some w' → Moves k w waits w' pops
  | connects : Moves k w connects
      { w with client := { w.client with wsi := some k, connected := true } } notifies
  | notifies : Moves k w notifies (w.pushEvent (.make .wsConnected none 0 (.service k))) signals
  | signals : Moves k w signals w (requests w.client.wsi)
  | requests {wsi : Option Nat} : Moves k w (requests wsi) (w.requestWritable wsi) ends
  | takes {w' : World} {frame : Frame} : Calm k w w' → Moves k w pops w' (copies frame)
  | finds : Moves k w pops w rearms
  | noMemory {w' : World} : Calm k w w' → Moves k w pops w' closes
  | copies {frame : Frame} : Moves k w (copies frame) w (writes frame)
  | noCopy {frame : Frame} : Moves k w (copies frame) w closes
  | writes {frame : Frame} : Moves k w (writes frame)
      { w with wire := { frame with connection := k } :: w.wire } rearms
  | noWrite {frame : Frame} : Moves k w (writes frame) w closes
  | rearms : Moves k w rearms w (requests (some k))
  | rests : ¬w.Pending → Moves k w rearms w ends
  | closes : Moves k w closes { w with lws := Function.update w.lws k .closing } ends
  | leaves : Moves k w ends w between

theorem moves (k : Nat) (pt : NetworkPoint) (c : Answer) (w w' : World) (p' : Option (Thread Unit))
    (h : turn (sendingThread k) c w (pt.program k) = some (w', p')) :
    ∃ pt', p' = pt'.program k ∧ Moves k w pt w' pt' := by
  cases pt with
  | between =>
    obtain ⟨rfl, rfl⟩ := Prod.mk.inj (Option.some.inj h)
    exact ⟨.waits, rfl, .enters⟩
  | waits =>
    obtain ⟨reason, hf, rfl⟩ := turn_act h
    split at hf
    · obtain ⟨w₁, hdeliver, heq⟩ := Option.map_eq_some_iff.mp hf
      obtain ⟨rfl, rfl⟩ := Prod.mk.inj heq
      exact ⟨.connects, rfl, .establishes hdeliver⟩
    · obtain ⟨w₁, hdeliver, heq⟩ := Option.map_eq_some_iff.mp hf
      obtain ⟨rfl, rfl⟩ := Prod.mk.inj heq
      exact ⟨.pops, rfl, .invokes hdeliver⟩
    · cases hf
  | connects =>
    obtain ⟨_, hf, rfl⟩ := turn_act h
    obtain ⟨⟩ := hf
    exact ⟨.notifies, rfl, .connects⟩
  | notifies =>
    obtain ⟨_, hf, rfl⟩ := turn_act h
    obtain ⟨⟩ := hf
    exact ⟨.signals, rfl, .notifies⟩
  | signals =>
    obtain ⟨_, hf, rfl⟩ := turn_act h
    obtain ⟨⟩ := hf
    exact ⟨.requests _, rfl, .signals⟩
  | requests wsi =>
    obtain ⟨_, hf, rfl⟩ := turn_act h
    obtain ⟨⟩ := hf
    exact ⟨.ends, rfl, .requests⟩
  | pops =>
    obtain ⟨popped, hf, rfl⟩ := turn_act h
    dsimp only at hf
    split at hf
    · next hitems =>
      obtain ⟨⟩ := hf
      exact ⟨.copies _, rfl, .takes ⟨rfl, rfl, id, fun _ => .inl (by simp [hitems]), id⟩⟩
    · split at hf
      · next hpop =>
        have hpos : w.client.pendingBinary.size > 0 := AudioBuffer.size_pos_of_pop hpop
        cases c <;> obtain ⟨⟩ := hf
        · exact ⟨.copies _, rfl, .takes ⟨rfl, rfl, id, fun _ => .inr hpos, id⟩⟩
        · exact ⟨.closes, rfl, .noMemory ⟨rfl, rfl, id, fun _ => .inr hpos, id⟩⟩
      · obtain ⟨⟩ := hf
        exact ⟨.rearms, rfl, .finds⟩
  | copies frame =>
    obtain ⟨copied, hf, rfl⟩ := turn_act h
    obtain ⟨_, -, heq⟩ := Option.map_eq_some_iff.mp hf
    obtain ⟨-, rfl⟩ := Prod.mk.inj heq
    cases copied with
    | true => exact ⟨.writes frame, rfl, .copies⟩
    | false => exact ⟨.closes, rfl, .noCopy⟩
  | writes frame =>
    obtain ⟨written, hf, rfl⟩ := turn_act h
    cases c <;> obtain ⟨⟩ := hf
    · exact ⟨.rearms, rfl, .writes⟩
    · exact ⟨.closes, rfl, .noWrite⟩
  | rearms =>
    obtain ⟨pending, hf, rfl⟩ := turn_act h
    obtain ⟨hpending, rfl⟩ := Prod.mk.inj (Option.some.inj hf)
    cases pending with
    | true => exact ⟨.requests (some k), rfl, .rearms⟩
    | false => exact ⟨.ends, rfl, .rests (of_decide_eq_false hpending)⟩
  | closes =>
    obtain ⟨_, hf, rfl⟩ := turn_act h
    obtain ⟨⟩ := hf
    exact ⟨.ends, rfl, .closes⟩
  | ends =>
    obtain ⟨rfl, rfl⟩ := Prod.mk.inj (Option.some.inj h)
    exact ⟨.between, rfl, .leaves⟩

end NetworkPoint

/-! ## Who is due to send -/

/-- The connection lives, and a message waits. -/
structure Waiting (k : Nat) (w : World) : Prop where
  connected : w.client.connected = true
  live : w.lws k ≠ .closing
  pending : w.Pending

/-- While a message waits on a live connection, a writeable callback is requested. -/
def Requested (k : Nat) (w : World) : Prop := Waiting k w → w.writable k = true

/-- The handle of an established connection is known. -/
def HandleKnown (k : Nat) (w : World) : Prop := w.client.connected = true → w.client.wsi = some k

/-- The caller has queued a text, and has not requested a callback for it yet. -/
def TextPoint.Signalling (k : Nat) : TextPoint → Prop
  | signals => True
  | requests wsi => wsi = some k
  | _ => False

/-- The caller has queued a packet, and has not requested a callback for it yet. -/
def BinaryPoint.Signalling (k : Nat) : BinaryPoint → Prop
  | signals => True
  | requests wsi => wsi = some k
  | _ => False

/-- The network thread is inside the callback of an established connection
    before its request, or inside a writeable callback before it asks again. -/
def NetworkPoint.Sending (k : Nat) : NetworkPoint → Prop
  | notifies | signals => True
  | requests wsi => wsi = some k
  | pops | copies _ | writes _ | rearms => True
  -- the callback has failed, and the connection is about to be closed
  | closes => True
  | between | waits | connects | ends => False

/-- What a step from a point where a thread is due or not (`due`), to one where
    it is due or not (`due'`), does to the requests. -/
structure Serves (k : Nat) (due due' : Prop) (w w' : World) : Prop where
  handle : HandleKnown k w → HandleKnown k w'
  serves : HandleKnown k w → due' ∨ Requested k w' ∨ (¬due ∧ Calm k w w')

namespace Serves

variable {k : Nat} {due due' : Prop} {w w' : World}

theorem calm (hdue : ¬due) (h : Calm k w w') : Serves k due due' w w' :=
  ⟨fun hh hc => h.wsi.trans (hh (h.connected ▸ hc)), fun _ => .inr (.inr ⟨hdue, h⟩)⟩

theorem same (hdue : ¬due) : Serves k due due' w w := .calm hdue (.refl w)

/-- The thread is due afterwards. -/
theorem becomesDue (h : due') (hw : w'.client.connected = w.client.connected)
    (hwsi : w'.client.wsi = w.client.wsi) : Serves k due due' w w' :=
  ⟨fun hh hc => hwsi.trans (hh (hw ▸ hc)), fun _ => .inl h⟩

/-- The thread reads the handle. -/
theorem signals (h : w.client.wsi = some k → due') : Serves k due due' w w := by
  refine ⟨id, fun hh => ?_⟩
  by_cases hc : w.client.connected = true
  · exact .inl (h (hh hc))
  · exact .inr (.inl fun hw => absurd hw.connected hc)

/-- The thread makes its request. -/
theorem requests {wsi : Option Nat} (hdue : due → wsi = some k) :
    Serves k due due' w (w.requestWritable wsi) := by
  by_cases hk : wsi = some k
  · subst hk
    exact ⟨id, fun _ => .inr (.inl fun _ => writable_requestWritable)⟩
  · exact .calm (fun hd => hk (hdue hd)) .requestWritable

end Serves

theorem TextPoint.Moves.serves {k : Nat} {w w' : World} {pt pt' : TextPoint}
    (h : pt.Moves w w' pt') : Serves k (pt.Signalling k) (pt'.Signalling k) w w' := by
  cases h with
  | checks => exact .calm id ⟨rfl, rfl, id, id, id⟩
  | appends => exact .becomesDue trivial rfl rfl
  | signals => exact .signals id
  | requests => exact .requests id
  | _ => exact .same id

theorem BinaryPoint.Moves.serves {k : Nat} {w w' : World} {pt pt' : BinaryPoint}
    (h : pt.Moves w w' pt') : Serves k (pt.Signalling k) (pt'.Signalling k) w w' := by
  cases h with
  | pushes => exact .becomesDue trivial rfl rfl
  | signals => exact .signals id
  | requests => exact .requests id
  | _ => exact .same id

theorem deliver_established_calm {k : Nat} {w w' : World}
    (h : deliver k .established w = some w') : Calm k w w' := by
  obtain ⟨state, hnext, rfl⟩ := Option.map_eq_some_iff.mp h
  obtain ⟨hstate, -⟩ := Option.ite_none_right_eq_some.mp hnext
  refine ⟨rfl, rfl, fun hc => ?_, id, fun hw => ?_⟩
  · cases hstate.symm.trans hc
  · simp [hw]

theorem deliver_client {k : Nat} {w w' : World} {reason : LwsReason}
    (h : deliver k reason w = some w') : w'.client = w.client := by
  obtain ⟨state, -, rfl⟩ := Option.map_eq_some_iff.mp h
  rfl

theorem NetworkPoint.Moves.serves {k : Nat} {w w' : World} {pt pt' : NetworkPoint}
    (h : pt.Moves k w w' pt') : Serves k (pt.Sending k) (pt'.Sending k) w w' := by
  cases h with
  | establishes hd => exact .calm id (deliver_established_calm hd)
  | invokes hd =>
    exact .becomesDue trivial (congrArg XiaozhiClient.connected (deliver_client hd))
      (congrArg XiaozhiClient.wsi (deliver_client hd))
  | connects => exact ⟨fun _ _ => rfl, fun _ => .inl trivial⟩
  | notifies => exact .becomesDue trivial rfl rfl
  | signals => exact .signals id
  | requests => exact .requests id
  | takes hcalm => exact .becomesDue trivial hcalm.connected hcalm.wsi
  | finds => exact .becomesDue trivial rfl rfl
  | noMemory hcalm => exact .becomesDue trivial hcalm.connected hcalm.wsi
  | writes => exact .becomesDue trivial rfl rfl
  | rearms => exact .becomesDue rfl rfl rfl
  | rests hp => exact ⟨id, fun _ => .inr (.inl fun hw => absurd hw.pending hp)⟩
  | closes => exact ⟨id, fun _ => .inr (.inl fun hw => absurd (Function.update_self ..) hw.live)⟩
  | enters => exact .same id
  | leaves => exact .same id
  | _ => exact .becomesDue trivial rfl rfl

end XiaozhiClient

/-! ## The system -/

namespace ClientThread

open XiaozhiClient

variable {ι : Type} {k : Nat}

/-- What the threads repeat, with the callbacks of connection `k` that have to
    do with sending, as libwebsockets delivers them. -/
def sendingBody (k : Nat) : ClientThread ι → Thread Unit
  | .text _ => textCaller
  | .binary _ => binaryCaller
  | .network => sendingThread k

/-- Where the threads can stand. -/
abbrev points (k : Nat) : (i : ClientThread ι) → Points (sendingBody k i)
  | .text _ => TextPoint.points
  | .binary _ => ⟨BinaryPoint, BinaryPoint.program, fun pt w w' pt' => pt.Moves w w' pt',
      BinaryPoint.moves⟩
  | .network => ⟨NetworkPoint, NetworkPoint.program k, fun pt w w' pt' => pt.Moves k w w' pt',
      NetworkPoint.moves k⟩

/-- The thread is due to request a writeable callback, or to look whether one is needed. -/
def Due (k : Nat) : (i : ClientThread ι) → (points k i).Point → Prop
  | .text _ => fun pt => TextPoint.Signalling k pt
  | .binary _ => fun pt => BinaryPoint.Signalling k pt
  | .network => fun pt => NetworkPoint.Sending k pt

/-- A callback is requested if one is needed, or a thread is due to do something about it. -/
structure Served (k : Nat) (loc : (i : ClientThread ι) → (points k i).Point) (w : World) : Prop where
  handle : HandleKnown k w
  served : Requested k w ∨ ∃ i, Due k i (loc i)

variable [DecidableEq ι] {cfg : Config ι}

theorem Served.step {loc : (i : ClientThread ι) → (points k i).Point} {w w' : World}
    {i : ClientThread ι} {pt' : (points k i).Point} (h : Served k loc w)
    (hmove : (points k i).Moves (loc i) w w' pt') : Served k (Function.update loc i pt') w' := by
  have hserves : Serves k (Due k i (loc i)) (Due k i pt') w w' := by
    cases i with
    | text i => exact TextPoint.Moves.serves hmove
    | binary i => exact BinaryPoint.Moves.serves hmove
    | network => exact NetworkPoint.Moves.serves hmove
  have hself : Function.update loc i pt' i = pt' := Function.update_self ..
  refine ⟨hserves.handle h.handle, ?_⟩
  rcases hserves.serves h.handle with hdue | hreq | ⟨hnot, hcalm⟩
  · exact .inr ⟨i, by rw [hself]; exact hdue⟩
  · exact .inl hreq
  · rcases h.served with hreq | ⟨j, hj⟩
    · refine .inl fun hw => hcalm.writable (hreq ⟨?_, fun hc => ?_, hcalm.pending hw.pending⟩)
      · exact hcalm.connected.symm.trans hw.connected
      · exact hw.live (hcalm.closing hc)
    · have hne : j ≠ i := by
        rintro rfl
        exact hnot hj
      exact .inr ⟨j, by rw [Function.update_of_ne hne]; exact hj⟩

/-- Whenever a message waits on a live connection, a writeable callback is
    requested, or a caller stands between its enqueue and the end of
    `xiaozhi_client_signal_writable`, or the network thread is in one of the two
    callbacks before its own request. -/
theorem pending_served {w₀ : World} (h₀ : w₀.client.connected = false)
    (hr : Threads.Reach (sendingBody k) (fun _ _ _ => True) (idle w₀) cfg)
    (hw : Waiting k cfg.shared) :
    cfg.shared.writable k = true ∨
    (∃ i pt, cfg.cur (.text i) = TextPoint.program pt ∧ TextPoint.Signalling k pt) ∨
    (∃ i pt, cfg.cur (.binary i) = BinaryPoint.program pt ∧ BinaryPoint.Signalling k pt) ∨
    ∃ pt, cfg.cur .network = NetworkPoint.program k pt ∧ NetworkPoint.Sending k pt := by
  let init (i : ClientThread ι) : (points k i).Point := match i with
    | .text _ => TextPoint.between
    | .binary _ => BinaryPoint.between
    | .network => NetworkPoint.between
  have hinit : Served k init (idle w₀ : Config ι).shared := by
    refine ⟨fun hc => ?_, .inl fun hw => ?_⟩
    · cases h₀.symm.trans hc
    · cases h₀.symm.trans hw.connected
  have hloc (i : ClientThread ι) :
      (idle w₀ : Config ι).cur i = (points k i).program (init i) := by
    cases i <;> rfl
  obtain ⟨loc, hloc, h⟩ := @Threads.Reach.points _ (ClientThread ι) _ _ _ _ _ _ _ _ _
    Function.injective_id (points k) (Served k) ⟨init, hloc, hinit⟩
    (fun i loc w w' pt' _ hmove h => h.step hmove) (fun i loc w w' hi => absurd rfl (hi i)) hr
  rcases h.served with hreq | ⟨i, hi⟩
  · exact .inl (hreq hw)
  · cases i with
    | text i => exact .inr (.inl ⟨i, loc (.text i), hloc (.text i), hi⟩)
    | binary i => exact .inr (.inr (.inl ⟨i, loc (.binary i), hloc (.binary i), hi⟩))
    | network => exact .inr (.inr (.inr ⟨loc .network, hloc .network, hi⟩))

/-- A text is queued before the connection is established; the network thread
    has set `connected`, and its request is due. -/
theorem pending_served_established : ∃ cfg : Config Unit,
    Threads.Reach (sendingBody 1) (fun _ _ _ => True)
      (start ⟨1, 16000, 0, 0⟩ 1 .connecting) cfg ∧
    Waiting 1 cfg.shared ∧ cfg.shared.writable 1 = false ∧
    (cfg.shared.writable 1 = true ∨
    (∃ i pt, cfg.cur (.text i) = TextPoint.program pt ∧ TextPoint.Signalling 1 pt) ∨
    (∃ i pt, cfg.cur (.binary i) = BinaryPoint.program pt ∧ BinaryPoint.Signalling 1 pt) ∨
    ∃ pt, cfg.cur .network = NetworkPoint.program 1 pt ∧ NetworkPoint.Sending 1 pt) := by
  have h : ((start ⟨1, 16000, 0, 0⟩ 1 .connecting : Config Unit).play (sendingBody 1)
      (fun _ _ _ => true) .spurious [
        (.text (), 8, [.input [97], .ok, .ok]),
        (.network, 3, [.callback .established])]).any (fun cfg =>
      cfg.shared.client.connected && decide (cfg.shared.lws 1 ≠ .closing) &&
      decide cfg.shared.Pending && !cfg.shared.writable 1) = true := by decide +kernel
  obtain ⟨cfg, hplay, hp⟩ := (Option.any_eq_true _ _).mp h
  simp only [Bool.and_eq_true, decide_eq_true_eq, Bool.not_eq_true'] at hp
  obtain ⟨⟨⟨hconnected, hlive⟩, hpending⟩, hwritable⟩ := hp
  have hr : Threads.Reach (sendingBody 1) (fun _ _ _ => True) (start ⟨1, 16000, 0, 0⟩ 1 .connecting)
      cfg := Threads.Reach.of_play (fun _ _ _ _ => trivial) .refl hplay
  have hw : Waiting 1 cfg.shared := ⟨hconnected, hlive, hpending⟩
  exact ⟨cfg, hr, hw, hwritable, pending_served rfl hr hw⟩

end ClientThread

end Xiaozhi
