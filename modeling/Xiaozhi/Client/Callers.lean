-- SUMMARY: The client on its own: any threads that queue messages, with the thread that sends them.
import Xiaozhi.Client.Queues
import Xiaozhi.Threads.Alone
import Xiaozhi.Threads.Points

/-!
# Users of the client

The client under threads that call `xiaozhi_client_queue_text` and
`xiaozhi_client_queue_binary` with any payloads, again and again, next to the
callbacks of one connection. The application is an instance with one thread of
each kind.
-/

namespace Xiaozhi

open Threads Threads.Prog World

/-- The threads of a program that uses one client. -/
inductive ClientThread (ι : Type) where
  | text (i : ι)
  | binary (i : ι)
  | network
  deriving DecidableEq

namespace XiaozhiClient

/-- The caller chooses a payload. -/
def anyPayload : Thread Bytes := .ask fun
  | .input payload => some payload
  | _ => none

/-- A thread that queues texts. -/
def textCaller : Thread Unit := do
  let payload ← anyPayload
  let _ ← queueText payload

/-- A thread that queues packets. -/
def binaryCaller : Thread Unit := do
  let payload ← anyPayload
  let _ ← queueBinary payload

/-! What the calls return tells whether the payload has been accepted. -/

/-- No message is accepted. -/
def SameQueued (w w' : World) : Prop := w'.queued = w.queued

section

variable {ok : Answer → Prop} {payload : Bytes} {accepted : Bool} {w w' : World}

theorem SameQueued.runs {α : Type} {p : Thread α} {a : α} (hp : p.Within SameQueued)
    (h : p.Runs ok w a w') : w'.queued = w.queued :=
  Within.runs (F := SameQueued) (fun _ => rfl) (fun h₁ h₂ => Eq.trans h₂ h₁) hp h

theorem sameQueued_signalWritable : signalWritable.Within SameQueued :=
  .bind (within_read (F := SameQueued) fun _ => rfl) fun wsi => within_modify fun w => by
    cases wsi <;> rfl

/-- A text is accepted exactly if the call says so. -/
theorem runs_queueText (h : (queueText payload).Runs ok w accepted w') :
    w'.queued = (if accepted then [⟨.text, payload⟩] else []) ++ w.queued := by
  have hcapacity : ensureTextCapacity.Within SameQueued := by
    refine within_act fun c w b w' hf => ?_
    dsimp only at hf
    split at hf
    · obtain ⟨⟩ := hf
      rfl
    · split at hf
      · obtain ⟨⟩ := hf
        rfl
      · obtain ⟨⟩ := hf
        rfl
      · cases hf
  obtain ⟨room, w₁, hroom, h⟩ := runs_bind.mp h
  have h₁ := SameQueued.runs hcapacity hroom
  cases room with
  | false =>
    obtain ⟨rfl, rfl⟩ := runs_ret.mp h
    exact h₁
  | true =>
    obtain ⟨copied, w₂, hcopied, h⟩ := runs_bind.mp h
    obtain ⟨-, rfl⟩ := runs_ask.mp hcopied
    cases copied with
    | false =>
      obtain ⟨rfl, rfl⟩ := runs_ret.mp h
      exact h₁
    | true =>
      obtain ⟨_, w₃, happend, h⟩ := runs_bind.mp h
      obtain ⟨_, w₄, hsignal, h⟩ := runs_bind.mp h
      obtain ⟨rfl, rfl⟩ := runs_ret.mp h
      obtain ⟨c, _, _, -, hf, hret⟩ := runs_act.mp happend
      obtain ⟨⟩ := hf
      obtain ⟨-, rfl⟩ := runs_ret.mp hret
      rw [SameQueued.runs sameQueued_signalWritable hsignal]
      exact congrArg (⟨.text, payload⟩ :: ·) h₁

/-- A packet is accepted exactly if the call says so. -/
theorem runs_queueBinary (h : (queueBinary payload).Runs ok w accepted w') :
    w'.queued = (if accepted then [⟨.binary, payload⟩] else []) ++ w.queued := by
  unfold queueBinary at h
  split at h
  · obtain ⟨rfl, rfl⟩ := runs_ret.mp h
    rfl
  · obtain ⟨pushed, w₁, hpush, h⟩ := runs_bind.mp h
    obtain ⟨c, _, _, -, hf, hret⟩ := runs_act.mp hpush
    obtain ⟨rfl, rfl⟩ := runs_ret.mp hret
    cases hb : w.client.pendingBinary.push payload 0 w.started with
    | none =>
      simp only [hb] at hf
      obtain ⟨⟩ := hf
      obtain ⟨rfl, rfl⟩ := runs_ret.mp h
      rfl
    | some binary =>
      simp only [hb] at hf
      obtain ⟨⟩ := hf
      obtain ⟨_, w₂, hsignal, h⟩ := runs_bind.mp h
      obtain ⟨rfl, rfl⟩ := runs_ret.mp h
      exact SameQueued.runs sameQueued_signalWritable hsignal

end

/-- A callback of connection `k` has returned `-1`, and libwebsockets closes the connection. -/
def closeConnection (k : Nat) : Thread Unit :=
  .modify fun w => { w with lws := Function.update w.lws k .closing }

/-- Any callback of an established connection, at any time. -/
def anyCallback (k : Nat) : Thread LwsReason := .act (fun c w =>
  match c with
  | .callback reason => if w.lws k = .established then some (reason, w) else none
  | _ => none) .ret

/-- A thread that runs callbacks of connection `k`. -/
def callbackThread (k : Nat) : Thread Unit := do
  let reason ← anyCallback k
  if ← callback k reason then
    pure ()
  else
    closeConnection k

end XiaozhiClient

namespace ClientThread

open XiaozhiClient

variable {ι : Type} {k : Nat}

/-- The thread of the application that does what a user of the client does. -/
def role (k : Nat) : ClientThread ι → ThreadId
  | .text _ => .main
  | .binary _ => .capture
  | .network => .service k

/-- A configuration of a program that uses one client. -/
abbrev Config (ι : Type) := Threads.Config (ClientThread ι) World Answer

/-- What the threads repeat. -/
def body (k : Nat) : ClientThread ι → Thread Unit
  | .text _ => textCaller
  | .binary _ => binaryCaller
  | .network => callbackThread k

/-- No thread is inside a round. -/
def idle (w : World) : Config ι where
  shared := w
  cur _ := none

/-- A new client, and connection `k` in the given state. -/
def start (config : AppConfig) (k : Nat) (state : LwsState) : Config ι :=
  idle { World.init config with lws := Function.update (World.init config).lws k state }

/-- The configurations that are reached, from an established connection, in runs
    whose steps all meet `ok`. -/
def Reach [DecidableEq ι] (k : Nat) (ok : ClientThread ι → World → World → Prop)
    (config : AppConfig) (cfg : Config ι) : Prop :=
  Threads.Reach (body k) ok (start config k .established) cfg

/-- Let the threads make steps in turn, from a start, all of which pass the test `check`. -/
def play [DecidableEq ι] (k : Nat) (check : ClientThread ι → World → World → Bool)
    (config : AppConfig) (turns : List (ClientThread ι × Nat × List Answer)) : Option (Config ι) :=
  (start config k .established).play (body k) check .spurious turns

/-- What is found after some turns is true of a run. -/
theorem exists_of_play [DecidableEq ι] {check : ClientThread ι → World → World → Bool}
    {ok : ClientThread ι → World → World → Prop} {config : AppConfig}
    {turns : List (ClientThread ι × Nat × List Answer)} {p : Config ι → Bool}
    (hok : ∀ i w w', check i w w' = true → ok i w w')
    (h : (play k check config turns).any p = true) : ∃ cfg, Reach k ok config cfg ∧ p cfg = true := by
  obtain ⟨cfg, hplay, hp⟩ := (Option.any_eq_true p _).mp h
  exact ⟨cfg, Threads.Reach.of_play hok .refl hplay, hp⟩

theorem main_textCaller : textCaller.Main :=
  .bind (within_ask fun _ => .quiet rfl rfl rfl rfl) fun _ =>
    .bind handler_queueText.main fun _ => trivial

theorem capture_binaryCaller : binaryCaller.Capture :=
  .bind (within_ask fun _ => .quiet rfl rfl) fun _ =>
    .bind AudioCapture.upload_queueBinary.capture fun _ => trivial

theorem service_closeConnection : (closeConnection k).Service k :=
  within_modify fun _ => ServiceStep.setLws

theorem service_callbackThread : (callbackThread k).Service k := by
  refine .bind (within_act fun c w b w' h => ?_) fun _ => .bind service_callback fun _ =>
    within_ite trivial service_closeConnection
  split at h
  · obtain ⟨-, h⟩ := Option.ite_none_right_eq_some.mp h
    obtain ⟨⟩ := h
    exact .quiet rfl rfl
  · cases h

theorem within_body : (i : ClientThread ι) → (body k i).Within (Step (i.role k))
  | .text _ => main_textCaller
  | .binary _ => capture_binaryCaller
  | .network => service_callbackThread.mono fun _ _ h => .inl h

theorem role_ne {i : ClientThread ι} (hi : i ≠ .network) : i.role k ≠ .service k := by
  cases i with
  | text _ => exact nofun
  | binary _ => exact nofun
  | network => exact absurd rfl hi

theorem start_inSync {config : AppConfig} {state : LwsState} :
    (start config k state : Config ι).Local .network
      (fun p => p.wp (frameContract k) fun _ w => (w.link k).InSync)
      fun w => (w.link k).InSync := fun _ => rfl

theorem start_conserved {config : AppConfig} {state : LwsState} :
    (start config k state : Config ι).shared.Conserved :=
  have h : (World.init config).Conserved := World.init_conserved
  ⟨h.wf, h.texts, h.packets⟩

variable [DecidableEq ι] {ok : ClientThread ι → World → World → Prop} {config : AppConfig}
  {cfg : Config ι}

/-- A step of a user of the client is a step of a thread of the application. -/
theorem Reach.step_role {cfg' : Config ι} {i : ClientThread ι} {c : Answer}
    (hr : Reach k ok config cfg) (hs : cfg.step (body k) i c = some cfg') :
    Step (i.role k) cfg.shared cfg'.shared :=
  Threads.Reach.step_within (F := fun i => Step (i.role k)) (fun _ _ => Step.refl _ _) within_body
    (fun _ _ h => (Option.some_ne_none _ h.symm).elim) hr hs

/-- Every step is one of the steps of a thread of the application. -/
theorem Reach.steps (hr : Reach k ok config cfg) :
    Reach k (fun i w w' => ok i w w' ∧ Step (i.role k) w w') config cfg :=
  Threads.Reach.strengthen (fun _ _ _ _ hr hs hok => ⟨hok, Reach.step_role hr hs⟩) hr

/-- Nothing that was accepted is lost. -/
theorem Reach.conserved (hr : Reach k ok config cfg) : cfg.shared.Conserved :=
  Threads.Reach.invariant start_conserved (fun _ _ _ h hc => h.2.conserved hc) hr.steps

/-! ## The frames -/

theorem anyCallback_wp {w : World} (h : (w.link k).InSync) :
    (anyCallback k).wp (frameContract k)
      (fun _ w => (w.link k).InSync ∧ (w.link k).state = .established) w := by
  refine wp_act fun w₁ h₁ c reason w₂ hf _ => ?_
  have h : (w₁.link k).InSync := h₁.1 ▸ h
  split at hf
  · obtain ⟨hs, hf⟩ := Option.ite_none_right_eq_some.mp hf
    obtain ⟨⟩ := hf
    refine ⟨World.SameFrames.guar ⟨rfl, rfl⟩, ?_⟩
    exact ret_wp (P := fun link => link.InSync ∧ link.state = .established) ⟨h, hs⟩ fun _ h => h
  · cases hf

theorem callbackThread_wp {w : World} (h : (w.link k).InSync) :
    (callbackThread k).wp (frameContract k) (fun _ w => (w.link k).InSync) w := by
  refine wp.bind ((anyCallback_wp h).mono fun reason w h => ?_)
  refine wp.bind ((callback_wp h.1 fun _ => h.2).mono fun keep w h => ?_)
  cases keep with
  | true => exact ret_wp (h rfl) fun _ h => h
  | false => exact closing_wp

/-- Between two callbacks, the messages taken on a live connection have been written. -/
theorem Reach.inSync (hr : Reach k ok config cfg) :
    cfg.Local .network (fun p => p.wp (frameContract k) fun _ w => (w.link k).InSync)
      fun w => (w.link k).InSync := by
  refine Threads.Reach.thread (C := frameContract k) (i := ClientThread.network)
    (J := fun w => (w.link k).InSync) (fun _ _ _ => trivial) (fun j w w' hj h => ?_)
    (fun w w' h hr => hr.1 ▸ h) (fun _ h => callbackThread_wp h) start_inSync hr.steps
  exact ⟨h.2.link_of_ne (role_ne hj), h.2.exited_of_ne (role_ne hj)⟩

/-- Every run consists of steps that handle messages one after the other. -/
theorem Reach.frames (hr : Reach k ok config cfg) :
    Reach k (fun i w w' => (ok i w w' ∧ Step (i.role k) w w') ∧
      (i.role k = .service k → (frameContract k).guar w w')) config cfg := by
  refine Threads.Reach.strengthen (fun cfg cfg' i c hr hs hok => ⟨hok, fun hi => ?_⟩) hr.steps
  obtain rfl : i = .network := by
    by_contra hne
    exact role_ne hne hi
  have hbody (w : World) (h : (w.link k).InSync) :
      (body k (.network : ClientThread ι)).wp (frameContract k) (fun _ w => (w.link k).InSync) w :=
    callbackThread_wp h
  obtain hg | hsame := Threads.Reach.thread_guar (C := frameContract k)
    (J := fun w => (w.link k).InSync) (fun _ _ _ => trivial) (fun j w w' hj h => ⟨h.2.link_of_ne (role_ne hj), h.2.exited_of_ne (role_ne hj)⟩)
    (fun w w' h hr => hr.1 ▸ h) hbody start_inSync hr hs hok
  · exact hg
  · rw [hsame]
    exact World.SameFrames.guar ⟨rfl, rfl⟩

/-! ## Loss, duplication and order -/

/-- The messages accepted have been written, are in hand, or wait, in this order. -/
structure SentInOrder (w : World) (hand : List Frame) : Prop where
  taken : w.dequeued = hand ++ w.wire
  texts : payloads .text w.accepted =
    payloads .text w.written ++ payloads .text (hand.map Frame.message) ++ w.waitingTexts
  packets : payloads .binary w.accepted =
    payloads .binary w.written ++ payloads .binary (hand.map Frame.message) ++ w.waitingPackets

/-- What is taken beyond what is written is in hand. -/
theorem SentInOrder.of_near {w : World} (hc : w.Conserved) (hn : (w.link k).Near)
    (hdequeued : framesOn k w.dequeued = w.dequeued) (hwire : framesOn k w.wire = w.wire) :
    ∃ hand, hand.length ≤ 1 ∧ SentInOrder w hand ∧ ((w.link k).Level → hand = []) := by
  have hsent {hand : List Frame} (hlen : hand.length ≤ 1) (h : w.dequeued = hand ++ w.wire) :
      SentInOrder w hand := by
    have htaken : w.taken = w.written ++ hand.map Frame.message := by
      rcases hand with _ | ⟨frame, _ | ⟨_, _⟩⟩
      · simp [World.taken, World.written, h]
      · simp [World.taken, World.written, h]
      · simp at hlen
    refine ⟨h, hc.texts.trans ?_, hc.packets.trans ?_⟩
    · rw [htaken, payloads_append]
    · rw [htaken, payloads_append]
  rcases hn with hl | ⟨frame, ha⟩
  · have h : w.dequeued = [] ++ w.wire := hdequeued.symm.trans (hl.trans hwire)
    exact ⟨[], Nat.zero_le _, hsent (Nat.zero_le _) h, fun _ => rfl⟩
  · have ha : framesOn k w.dequeued = frame :: framesOn k w.wire := ha
    rw [hdequeued, hwire] at ha
    refine ⟨[frame], Nat.le_refl _, hsent (Nat.le_refl _) ha, fun hl => ?_⟩
    have hl : framesOn k w.dequeued = framesOn k w.wire := hl
    rw [hdequeued, hwire, ha] at hl
    exact absurd hl (List.cons_ne_self _ _)

/-- What holds in every run of the users of a client. -/
theorem Reach.sent (hr : Reach k ok config cfg) :
    ∃ hand, hand.length ≤ 1 ∧ SentInOrder cfg.shared hand ∧
      ((cfg.shared.link k).Level → hand = []) := by
  have hsteps := hr.frames
  let near (w : World) : Prop := (w.link k).Near
  have hstart : near (start config k .established : Config ι).shared := .inl rfl
  have hn : near cfg.shared :=
    Threads.Reach.invariant hstart (fun _ _ _ h hn => h.1.2.near h.2 hn) hsteps
  let ours (w : World) : Prop := (∀ frame ∈ w.dequeued, frame.connection = k) ∧
    ∀ frame ∈ w.wire, frame.connection = k
  have hk : ours cfg.shared := by
    refine Threads.Reach.invariant ⟨fun _ h => absurd h List.not_mem_nil,
      fun _ h => absurd h List.not_mem_nil⟩ (fun i w w' h ⟨hd, hw⟩ => ?_) hsteps
    have hrole {j : Nat} (hj : i.role k = .service j) : j = k := by
      cases i with
      | network => exact (ThreadId.service.inj hj).symm
      | _ => cases hj
    obtain ⟨hd', hw'⟩ := h.1.2.connection
    exact ⟨fun frame hf => (hd' frame hf).elim (hd frame) hrole,
      fun frame hf => (hw' frame hf).elim (hw frame) hrole⟩
  exact SentInOrder.of_near hr.conserved hn (framesOn_eq_self hk.1) (framesOn_eq_self hk.2)

/-- With one thread that queues texts and one that queues packets, each kind of
    message is written in the order in which it was accepted, with the bytes
    that were accepted, and no packet is taken while a text waits. At most one
    message is in hand, and none between two callbacks of a live connection. -/
theorem sent_in_order {k : Nat} {config : AppConfig} {cfg : Config Unit}
    (hr : Reach k (fun _ _ _ => True) config cfg) :
    (∃ hand, hand.length ≤ 1 ∧ SentInOrder cfg.shared hand ∧
      (cfg.cur .network = none → cfg.shared.lws k = .established → hand = [])) ∧
    ∀ i c cfg' frame, cfg.step (body k) i c = some cfg' →
      cfg'.shared.dequeued = frame :: cfg.shared.dequeued → frame.opcode = .binary →
      cfg.shared.waitingTexts = [] := by
  constructor
  · obtain ⟨hand, hlen, hsent, hlevel⟩ := hr.sent
    refine ⟨hand, hlen, hsent, fun hcur hlive => hlevel ?_⟩
    have hlocal := hr.inSync
    unfold Threads.Config.Local at hlocal
    rw [hcur] at hlocal
    exact hlocal (.inr hlive)
  · intro i c cfg' frame hs hd hbinary
    exact (hr.step_role hs).waitingTexts_of_binary hd hbinary

/-- A text and a packet are queued, and the text is written. -/
theorem sent_in_order_text : ∃ cfg : Config Unit, Reach 1 (fun _ _ _ => True) ⟨1, 16000, 0, 0⟩ cfg ∧
    cfg.cur .network = none ∧ cfg.shared.lws 1 = .established ∧ cfg.shared.written = [⟨.text, [97]⟩] ∧
    cfg.shared.waitingPackets = [[1, 2]] ∧
    ∃ hand, hand.length ≤ 1 ∧ SentInOrder cfg.shared hand ∧
      (cfg.cur .network = none → cfg.shared.lws 1 = .established → hand = []) := by
  have h : (play 1 (fun _ _ _ => true) ⟨1, 16000, 0, 0⟩ [
      (.text (), 8, [.input [97], .ok, .ok]),
      (.binary (), 6, [.input [1, 2]]),
      (.network, 8, [.callback .writeable, .ok, .ok])]).any (fun cfg =>
        decide (cfg.cur .network).isNone && decide (cfg.shared.lws 1 = .established) &&
        decide (cfg.shared.written = [⟨.text, [97]⟩]) &&
        decide (cfg.shared.waitingPackets = [[1, 2]])) = true := by decide +kernel
  obtain ⟨cfg, hr, hp⟩ := exists_of_play (fun _ _ _ _ => trivial) h
  simp only [Bool.and_eq_true, decide_eq_true_eq, Option.isNone_iff_eq_none] at hp
  obtain ⟨⟨⟨hcur, hlive⟩, hwritten⟩, hwaiting⟩ := hp
  exact ⟨cfg, hr, hcur, hlive, hwritten, hwaiting, (sent_in_order hr).1⟩

end ClientThread

end Xiaozhi
