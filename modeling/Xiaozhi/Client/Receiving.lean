-- SUMMARY: The service thread deals with the fragments that it receives one after the other, as the inbox does.
import Xiaozhi.Client.Inbox
import Xiaozhi.Client.Frames

/-!
# Receiving

Every callback that brings a fragment deals with it before the next one, and no
other thread touches the receive buffers while the service thread is alive. So
what has been handed over on a connection is what `Inbox.run` makes of the
fragments received on it, except perhaps for the one in hand.
-/

namespace Xiaozhi

open Threads Threads.Prog World

/-- The fragments received on connection `k`, the first one first. -/
def World.fragmentsOn (w : World) (k : Nat) : List Fragment :=
  (w.received.filter (·.connection = k)).reverse

/-- The messages handed over while connection `k` is current, the first one first. -/
def World.messagesOn (w : World) (k : Nat) : List (Opcode × Bytes) :=
  ((w.delivered.filter (·.connection = k)).map fun d => (d.opcode, d.payload)).reverse

/-- The receive buffers, with what has been handed over on connection `k`. -/
def World.inbox (w : World) (k : Nat) : Inbox where
  buffer op := match op with
    | .text => w.client.recvText
    | .binary => w.client.recvBinary
  messages := w.messagesOn k

/-- The messages of the kind `op` on connection `k`. -/
def World.channel (w : World) (k : Nat) (op : Opcode) : Channel :=
  (w.inbox k).channel (w.fragmentsOn k) op

/-- The fragment whose callback may be running: the latest one, as long as the
    connection lives. -/
def World.inHand (w : World) (k : Nat) : Option Fragment :=
  if w.lws k = .established then (w.fragmentsOn k).getLast? else none

/-- All fragments have been dealt with, but perhaps for the one in hand. -/
def World.UpToDate (w : World) (k : Nat) (b : Opcode → Bytes) : Prop :=
  w.messagesOn k = (Inbox.run b (w.fragmentsOn k)).messages ∨
  ∃ fs f, w.fragmentsOn k = fs ++ [f] ∧ w.inHand k = some f ∧
    w.messagesOn k = (Inbox.run b fs).messages

/-- A condition on the runs, which says something about the fragments of
    connection `k` and about what the buffers hold when the first one comes. The
    buffers are empty when the first connection begins. -/
structure ReceiveCondition (k : Nat) where
  Admits : World → World → Prop
  Holds : (Opcode → Bytes) → List Fragment → Prop
  start : ∀ b, (k = 1 → b = fun _ => []) → Holds b []
  receive : ∀ {w w' : World} {f : Fragment} {b : Opcode → Bytes}, Admits w w' →
    w'.received = f :: w.received → f.connection = k → w.inbox k = Inbox.run b (w.fragmentsOn k) →
    Holds b (w.fragmentsOn k) → Holds b (w.fragmentsOn k ++ [f])

/-! ## What the service thread relies on -/

/-- Nothing has come in or gone out on connection `k`. -/
structure World.SameTraffic (k : Nat) (w w' : World) : Prop where
  lws : w'.lws k = w.lws k
  fragments : w'.fragmentsOn k = w.fragmentsOn k
  messages : w'.messagesOn k = w.messagesOn k

/-- The receive buffers are as before. -/
structure World.SameBuffers (w w' : World) : Prop where
  text : w'.client.recvText = w.client.recvText
  binary : w'.client.recvBinary = w.client.recvBinary

/-- The receive buffers belong to the service thread `k`: it has been created
    and has not ended, or it will be the first one. -/
def World.Owns (w : World) (k : Nat) : Prop :=
  w.exited k = false ∧ (0 < k ∧ k ≤ w.started ∨ k = 1)

variable {k : Nat}

theorem World.Alive.owns {w : World} (h : w.Alive k) : w.Owns k := ⟨h.running, .inl ⟨h.pos, h.created⟩⟩

/-- The other threads leave the connection alone, and the buffers too while they
    belong to the service thread. -/
def receiveContract (D : ReceiveCondition k) : Contract World where
  rely w w' := (serviceContract k).rely w w' ∧ w.SameTraffic k w' ∧ (w.Owns k → w.SameBuffers w')
  assume w w' := D.Admits w w' ∧ w.LifeOk
  guar _ w' := ∃ b, w'.UpToDate k b ∧ D.Holds b (w'.fragmentsOn k)
  rely_refl _ := ⟨⟨rfl, Nat.le_refl _⟩, ⟨rfl, rfl, rfl⟩, fun _ => ⟨rfl, rfl⟩⟩
  rely_trans h₁ h₂ := by
    refine ⟨(serviceContract k).rely_trans h₁.1 h₂.1, ?_, fun ho => ?_⟩
    · exact ⟨h₂.2.1.lws.trans h₁.2.1.lws, h₂.2.1.fragments.trans h₁.2.1.fragments,
        h₂.2.1.messages.trans h₁.2.1.messages⟩
    · have hb₁ := h₁.2.2 ho
      have hb₂ := h₂.2.2 ⟨h₁.1.1.trans ho.1,
        ho.2.imp_left fun h => ⟨h.1, h.2.trans h₁.1.2⟩⟩
      exact ⟨hb₂.text.trans hb₁.text, hb₂.binary.trans hb₁.binary⟩

section

variable {D : ReceiveCondition k} {w w' : World} {f : Fragment} {R : Inbox → Inbox → Prop}

theorem World.SameTraffic.inHand (h : w.SameTraffic k w') : w'.inHand k = w.inHand k := by
  rw [World.inHand, h.lws, h.fragments, World.inHand]

theorem World.SameTraffic.inbox (h : w.SameTraffic k w') (hb : w.SameBuffers w') :
    w'.inbox k = w.inbox k := by
  simp only [World.inbox, h.messages, hb.text, hb.binary]

theorem World.SameTraffic.upToDate {b : Opcode → Bytes} (h : w.SameTraffic k w')
    (hw : w.UpToDate k b) : w'.UpToDate k b := by
  unfold World.UpToDate
  rw [h.fragments, h.messages, h.inHand]
  exact hw

/-- The service thread is between two callbacks: everything has been dealt with. -/
structure Idle (D : ReceiveCondition k) (w : World) : Prop where
  alive : w.Alive k
  dealt : ∃ b, w.inbox k = Inbox.run b (w.fragmentsOn k) ∧ D.Holds b (w.fragmentsOn k)

/-- The callback for the fragment `f` runs, and has led from one inbox to
    another as `R` says. -/
structure Busy (D : ReceiveCondition k) (f : Fragment) (R : Inbox → Inbox → Prop) (w : World) :
    Prop where
  alive : w.Alive k
  inHand : w.inHand k = some f
  dealt : ∃ b fs, w.fragmentsOn k = fs ++ [f] ∧ R (Inbox.run b fs) (w.inbox k) ∧
    D.Holds b (fs ++ [f])

theorem Idle.rely (h : Idle D w) (hr : (receiveContract D).rely w w') : Idle D w' := by
  refine ⟨h.alive.rely hr.1, ?_⟩
  rw [hr.2.1.inbox (hr.2.2 h.alive.owns), hr.2.1.fragments]
  exact h.dealt

theorem Busy.rely (h : Busy D f R w) (hr : (receiveContract D).rely w w') : Busy D f R w' := by
  refine ⟨h.alive.rely hr.1, hr.2.1.inHand.trans h.inHand, ?_⟩
  rw [hr.2.1.inbox (hr.2.2 h.alive.owns), hr.2.1.fragments]
  exact h.dealt

theorem Idle.guar (h : Idle D w') : (receiveContract D).guar w w' := by
  obtain ⟨b, hinbox, hholds⟩ := h.dealt
  exact ⟨b, .inl (congrArg Inbox.messages hinbox), hholds⟩

/-- The messages are those before the fragment, or those after it. -/
def Hands (f : Fragment) (R : Inbox → Inbox → Prop) : Prop :=
  ∀ x y, R x y → y.messages = x.messages ∨ y.messages = (x.step f).messages

theorem Busy.guar (h : Busy D f R w') (hR : Hands f R) : (receiveContract D).guar w w' := by
  obtain ⟨b, fs, hfs, hinbox, hholds⟩ := h.dealt
  refine ⟨b, ?_, hfs ▸ hholds⟩
  rcases hR _ _ hinbox with hbefore | hafter
  · exact .inr ⟨fs, f, hfs, h.inHand, hbefore⟩
  · refine .inl ?_
    rw [hfs, Inbox.run_append_singleton]
    exact hafter

/-- The callback is done. -/
theorem Busy.idle (h : Busy D f R w) (hR : ∀ x y, R x y → y = x.step f) : Idle D w := by
  obtain ⟨b, fs, hfs, hinbox, hholds⟩ := h.dealt
  refine ⟨h.alive, b, ?_, hfs ▸ hholds⟩
  rw [hfs, Inbox.run_append_singleton]
  exact hR _ _ hinbox

/-! ## Footprints -/

/-- The steps of the service thread that receive nothing and hand nothing over. -/
structure DeafStep (k : Nat) (w w' : World) : Prop where
  step : ServiceStep k w w'
  incoming : w'.incoming = w.incoming

theorem NoticeStep.deaf (h : NoticeStep k w w') : DeafStep k w w' := ⟨h.step.step, h.incoming⟩

namespace DeafStep

theorem fragments (h : DeafStep k w w') : w'.fragmentsOn k = w.fragmentsOn k := by
  have hreceived : w'.received = w.received := congrArg Incoming.received h.incoming
  rw [fragmentsOn, hreceived, fragmentsOn]

theorem inbox (h : DeafStep k w w') : w'.inbox k = w.inbox k := by
  have htext : w'.client.recvText = w.client.recvText := congrArg Incoming.recvText h.incoming
  have hbinary : w'.client.recvBinary = w.client.recvBinary :=
    congrArg Incoming.recvBinary h.incoming
  have hdelivered : w'.delivered = w.delivered := congrArg Incoming.delivered h.incoming
  simp only [World.inbox, messagesOn, htext, hbinary, hdelivered]

theorem alive (h : DeafStep k w w') (ha : w.Alive k) : w'.Alive k :=
  ha.rely ⟨by rw [h.step.exited], Step.started_le (i := .service k) (.inl h.step)⟩

theorem idle (hs : DeafStep k w w') (h : Idle D w) : Idle D w' := by
  refine ⟨hs.alive h.alive, ?_⟩
  rw [hs.inbox, hs.fragments]
  exact h.dealt

end DeafStep

theorem NoticeStep.busy (hs : NoticeStep k w w') (h : Busy D f R w) : Busy D f R w' := by
  refine ⟨hs.deaf.alive h.alive, ?_, ?_⟩
  · rw [World.inHand, hs.step.lws, hs.deaf.fragments]
    exact h.inHand
  · rw [hs.deaf.inbox, hs.deaf.fragments]
    exact h.dealt

variable {α : Type}

/-- The footprint of the programs that receive nothing and hand nothing over. -/
abbrev Thread.Deaf (k : Nat) (p : Thread α) : Prop := p.Within (DeafStep k)

theorem Thread.Service.deaf {p : Thread α} (h : p.Service k)
    (h' : p.Within fun w w' => w'.incoming = w.incoming) : p.Deaf k :=
  (h.and h').mono fun _ _ h => ⟨h.1, h.2⟩

theorem Thread.Notice.deaf {p : Thread α} (h : p.Notice k) : p.Deaf k := h.mono fun _ _ h => h.deaf

namespace XiaozhiClient

theorem deaf_popPending : (popPending k).Deaf k := by
  refine service_popPending.deaf (within_act fun c w popped w' h => ?_)
  dsimp only at h
  split at h
  · obtain ⟨⟩ := h
    rfl
  · split at h
    · cases c <;> obtain ⟨⟩ := h
      all_goals rfl
    · obtain ⟨⟩ := h
      rfl

theorem deaf_lwsWrite {frame : Frame} : (lwsWrite k frame).Deaf k := by
  refine service_lwsWrite.deaf (within_act fun c w b w' h => ?_)
  cases c <;> obtain ⟨⟩ := h
  all_goals rfl

theorem deaf_onWriteable : (onWriteable k).Deaf k := by
  refine .bind deaf_popPending fun popped => ?_
  cases popped with
  | message frame =>
    exact .bind notice_choose.deaf fun _ => within_ite
      (.bind deaf_lwsWrite fun _ => within_ite (.bind notice_rearm.deaf fun _ => trivial) trivial)
      trivial
  | nothing => exact .bind notice_rearm.deaf fun _ => trivial
  | failed => trivial

theorem deaf_callback {reason : LwsReason}
    (h : ∀ binary payload final, reason ≠ .receive binary payload final) :
    (callback k reason).Deaf k := by
  by_cases hw : reason = .writeable
  · subst hw
    exact deaf_onWriteable
  · exact (notice_callback hw h).deaf

theorem deaf_lastCallback : (lastCallback k).Deaf k := by
  refine service_lastCallback.deaf (within_act fun c w b w' h => ?_)
  dsimp only at h
  split at h <;> first | (cases h; done) | (obtain ⟨⟩ := h; rfl)

theorem deaf_connectViaInfo : (connectViaInfo k).Deaf k := by
  refine service_connectViaInfo.deaf (within_act fun c w b w' h => ?_)
  dsimp only at h
  split at h <;> obtain ⟨⟩ := h
  all_goals rfl

theorem deaf_closing : Thread.Deaf k
    (.modify fun w => { w with lws := Function.update w.lws k .closing }) :=
  within_modify fun _ => ⟨ServiceStep.setLws, rfl⟩

end XiaozhiClient

/-! ## Receiving a fragment -/

/-- Fill the receive buffer of a kind. -/
def World.setBuffer (w : World) (op : Opcode) (b : Bytes) : World :=
  match op with
  | .text => { w with client.recvText := b }
  | .binary => { w with client.recvBinary := b }

/-- Hand a message over. -/
def World.handOver (w : World) (k : Nat) (op : Opcode) (m : Bytes) : World :=
  { w with delivered := ⟨k, op, m⟩ :: w.delivered }

theorem World.inbox_setBuffer {op : Opcode} {b : Bytes} :
    (w.setBuffer op b).inbox k = (w.inbox k).setBuffer op b := by
  cases op <;> simp only [World.inbox, World.setBuffer, Inbox.setBuffer, Inbox.mk.injEq]
  all_goals
    refine ⟨funext fun op => ?_, rfl⟩
    cases op <;> rfl

theorem World.inbox_handOver {op : Opcode} {m : Bytes} :
    (w.handOver k op m).inbox k = (w.inbox k).handOver op m := by
  simp [World.inbox, World.handOver, Inbox.handOver, messagesOn]

/-- The fragment has just come. -/
def Arrived (x y : Inbox) : Prop := y = x

/-- The fragment `f` fits, and with it the buffer holds the bytes `m`. -/
def Collected (f : Fragment) (m : Bytes) (x y : Inbox) : Prop :=
  m = x.buffer f.opcode ++ f.data ∧ ¬(f.opcode = .binary ∧ f.data = []) ∧
  ¬f.opcode.capacity < m.length ∧ y = x.setBuffer f.opcode m

/-- The message has been handed over, and is still in the buffer. -/
def HandedOver (f : Fragment) (x y : Inbox) : Prop :=
  y.messages = (x.step f).messages ∧ y.setBuffer f.opcode [] = x.step f

theorem hands_arrived : Hands f Arrived := fun _ _ h => .inl (congrArg Inbox.messages h)

theorem hands_collected {m : Bytes} : Hands f (Collected f m) := by
  rintro x y ⟨-, -, -, rfl⟩
  exact .inl rfl

theorem hands_handedOver : Hands f (HandedOver f) := fun _ _ h => .inr h.1

/-- More fragments of the message are to come. -/
theorem Collected.step {x y : Inbox} {m : Bytes} (h : Collected f m x y) (hf : f.final = false) :
    y = x.step f := by
  obtain ⟨rfl, hempty, hlen, rfl⟩ := h
  simp only [Inbox.step, hempty, hlen, hf, if_false, Bool.false_eq_true]

theorem Collected.handedOver {x y : Inbox} {m : Bytes} (h : Collected f m x y)
    (hf : f.final = true) : HandedOver f x (y.handOver f.opcode (f.opcode.handed m)) := by
  obtain ⟨rfl, hempty, hlen, rfl⟩ := h
  have hstep : x.step f = (x.handOver f.opcode
      (f.opcode.handed (x.buffer f.opcode ++ f.data))).setBuffer f.opcode [] := by
    simp only [Inbox.step, hempty, hlen, hf, if_false, if_true]
  refine ⟨?_, ?_⟩
  · rw [hstep]
    rfl
  · rw [hstep]
    simp [Inbox.setBuffer, Inbox.handOver]

namespace Busy

variable {R' : Inbox → Inbox → Prop}

theorem setBuffer {b : Bytes} (h : Busy D f R w)
    (hR : ∀ x, R x (w.inbox k) → R' x ((w.inbox k).setBuffer f.opcode b)) :
    Busy D f R' (w.setBuffer f.opcode b) := by
  obtain ⟨⟨hpos, hcreated, hrunning⟩, hin, c, fs, hfs, hinbox, hholds⟩ := h
  refine ⟨?_, ?_, c, fs, ?_, ?_, hholds⟩
  · cases f.opcode <;> exact ⟨hpos, hcreated, hrunning⟩
  · cases f.opcode <;> exact hin
  · rw [← hfs]
    cases f.opcode <;> rfl
  · rw [inbox_setBuffer]
    exact hR _ hinbox

/-- A message is handed over, and is left in the buffer. -/
theorem handOver {m : Bytes} (h : Busy D f (Collected f m) w) (hf : f.final = true) :
    Busy D f (HandedOver f) (w.handOver k f.opcode (f.opcode.handed m)) := by
  obtain ⟨b, fs, hfs, hinbox, hholds⟩ := h.dealt
  refine ⟨⟨h.alive.pos, h.alive.created, h.alive.running⟩, h.inHand, b, fs, hfs, ?_, hholds⟩
  rw [inbox_handOver]
  exact hinbox.handedOver hf

/-- The message is larger than the buffer. -/
theorem overflow (h : Busy D f Arrived w) (hempty : ¬(f.opcode = .binary ∧ f.data = []))
    (hlen : f.opcode.capacity < ((w.inbox k).buffer f.opcode ++ f.data).length) :
    Idle D (w.setBuffer f.opcode []) := by
  have hstep : Busy D f (fun x y => y = x.step f) (w.setBuffer f.opcode []) := by
    refine h.setBuffer fun x hx => ?_
    obtain rfl : w.inbox k = x := hx
    simp only [Inbox.step, hempty, hlen, if_false, if_true]
  exact hstep.idle fun _ _ h => h

theorem collect (h : Busy D f Arrived w) (hempty : ¬(f.opcode = .binary ∧ f.data = []))
    (hlen : ¬f.opcode.capacity < ((w.inbox k).buffer f.opcode ++ f.data).length) :
    Busy D f (Collected f ((w.inbox k).buffer f.opcode ++ f.data))
      (w.setBuffer f.opcode ((w.inbox k).buffer f.opcode ++ f.data)) := by
  refine h.setBuffer fun x hx => ?_
  obtain rfl : w.inbox k = x := hx
  exact ⟨rfl, hempty, hlen, rfl⟩

/-- The buffer is emptied when the message has been handed over. -/
theorem reset (h : Busy D f (HandedOver f) w) : Idle D (w.setBuffer f.opcode []) := by
  have hstep : Busy D f (fun x y => y = x.step f) (w.setBuffer f.opcode []) :=
    h.setBuffer fun x hx => hx.2
  exact hstep.idle fun _ _ h => h

/-- A fragment comes between two callbacks. -/
theorem of_idle (h : Idle D w) (hadmits : D.Admits w w') (hk : f.connection = k)
    (hlws : w'.lws k = .established) (hreceived : w'.received = f :: w.received)
    (hinbox : w'.inbox k = w.inbox k) (halive : w'.Alive k) : Busy D f Arrived w' := by
  obtain ⟨b, hdealt, hholds⟩ := h.dealt
  have hfragments : w'.fragmentsOn k = w.fragmentsOn k ++ [f] := by
    simp [fragmentsOn, hreceived, hk]
  refine ⟨halive, ?_, b, w.fragmentsOn k, hfragments, hinbox.trans hdealt,
    D.receive hadmits hreceived hk hdealt hholds⟩
  rw [World.inHand, if_pos hlws, hfragments, List.getLast?_append]
  rfl

end Busy

/-! ## The programs of the service thread -/

/-- Between two callbacks. -/
theorem idle_wp {p : Thread α} (hp : p.Deaf k) (h : Idle D w) :
    p.wp (receiveContract D) (fun _ => Idle D) w :=
  Within.wp (C := receiveContract D) hp (fun _ _ hr h => h.rely hr)
    (fun _ _ h hs _ => ⟨(hs.idle h).guar, hs.idle h⟩) h

/-- In a callback that has received a fragment. -/
theorem busy_wp {p : Thread α} (hp : p.Notice k) (hR : Hands f R) (h : Busy D f R w) :
    p.wp (receiveContract D) (fun _ => Busy D f R) w :=
  Within.wp (C := receiveContract D) hp (fun _ _ hr h => h.rely hr)
    (fun _ _ h hs _ => ⟨(hs.busy h).guar hR, hs.busy h⟩) h

namespace XiaozhiClient

variable {payload m : Bytes} {final : Bool}

theorem collectBinary_wp (h : Busy D ⟨k, .binary, payload, final⟩ Arrived w)
    (hne : payload ≠ []) : (collectBinary payload).wp (receiveContract D)
      (fun message w => match message with
        | some m => Busy D ⟨k, .binary, payload, final⟩ (Collected ⟨k, .binary, payload, final⟩ m) w
        | none => Idle D w) w := by
  refine wp_atomic fun w₁ h₁ _ => ?_
  have h := h.rely h₁
  have hempty : ¬(Opcode.binary = .binary ∧ payload = []) := fun h => hne h.2
  by_cases hlen : (w₁.client.recvBinary ++ payload).length > 4096
  · have hidle := h.overflow hempty hlen
    simp only [hlen, if_true]
    exact ⟨hidle.guar, fun w₂ h₂ => hidle.rely h₂⟩
  · have hbusy := h.collect hempty hlen
    simp only [hlen, if_false]
    exact ⟨hbusy.guar hands_collected, fun w₂ h₂ => hbusy.rely h₂⟩

theorem collectText_wp (h : Busy D ⟨k, .text, payload, final⟩ Arrived w) :
    (collectText payload).wp (receiveContract D) (fun message w => match message with
      | some m => Busy D ⟨k, .text, payload, final⟩ (Collected ⟨k, .text, payload, final⟩ m) w
      | none => Idle D w) w := by
  refine wp_atomic fun w₁ h₁ _ => ?_
  have h := h.rely h₁
  have hempty : ¬(Opcode.text = .binary ∧ payload = []) := by simp
  by_cases hlen : (w₁.client.recvText ++ payload).length ≥ 4096
  · have hidle := h.overflow hempty hlen
    simp only [hlen, if_true]
    exact ⟨hidle.guar, fun w₂ h₂ => hidle.rely h₂⟩
  · have hfits : ¬(4095 < (w₁.client.recvText ++ payload).length) := hlen
    have hbusy := h.collect hempty hfits
    simp only [hlen, if_false]
    exact ⟨hbusy.guar hands_collected, fun w₂ h₂ => hbusy.rely h₂⟩

theorem resetBinary_wp (h : Busy D ⟨k, .binary, payload, final⟩
      (HandedOver ⟨k, .binary, payload, final⟩) w) :
    Threads.Prog.wp (χ := Answer) (receiveContract D)
      (.modify fun w => { w with client.recvBinary := [] }) (fun _ => Idle D) w := by
  refine wp_modify fun w₁ h₁ _ => ?_
  have hidle : Idle D (w₁.setBuffer .binary []) := (h.rely h₁).reset
  exact ⟨hidle.guar, fun w₂ h₂ => hidle.rely h₂⟩

theorem resetText_wp (h : Busy D ⟨k, .text, payload, final⟩
      (HandedOver ⟨k, .text, payload, final⟩) w) :
    Threads.Prog.wp (χ := Answer) (receiveContract D)
      (.modify fun w => { w with client.recvText := [] }) (fun _ => Idle D) w := by
  refine wp_modify fun w₁ h₁ _ => ?_
  have hidle : Idle D (w₁.setBuffer .text []) := (h.rely h₁).reset
  exact ⟨hidle.guar, fun w₂ h₂ => hidle.rely h₂⟩

/-- The service thread that is alive is the current one. -/
theorem onBinary_wp (h : Busy D ⟨k, .binary, payload, true⟩
      (Collected ⟨k, .binary, payload, true⟩ m) w) :
    (appClientOnBinary m).wp (receiveContract D) (fun _ =>
      Busy D ⟨k, .binary, payload, true⟩ (HandedOver ⟨k, .binary, payload, true⟩)) w := by
  refine wp.bind (wp_atomic fun w₁ h₁ ha => ?_)
  have h := h.rely h₁
  have hcurrent : (⟨w₁.started, .binary, m⟩ : Delivery) = ⟨k, .binary, m⟩ := by
    rw [World.LifeOk.eq_started ha.2 h.alive]
  have hbusy : Busy D ⟨k, .binary, payload, true⟩ (HandedOver ⟨k, .binary, payload, true⟩)
      { w₁ with delivered := ⟨w₁.started, .binary, m⟩ :: w₁.delivered } := by
    rw [hcurrent]
    exact h.handOver rfl
  refine ⟨hbusy.guar hands_handedOver, fun w₂ h₂ => ?_⟩
  exact busy_wp notice_play hands_handedOver (hbusy.rely h₂)

theorem onText_wp (h : Busy D ⟨k, .text, payload, true⟩
      (Collected ⟨k, .text, payload, true⟩ m) w) :
    (appClientOnText k m).wp (receiveContract D) (fun _ =>
      Busy D ⟨k, .text, payload, true⟩ (HandedOver ⟨k, .text, payload, true⟩)) w := by
  refine wp_modify fun w₁ h₁ _ => ?_
  obtain ⟨⟨hpos, hcreated, hrunning⟩, hin, hdealt⟩ := (h.rely h₁).handOver rfl
  have hbusy : Busy D ⟨k, .text, payload, true⟩ (HandedOver ⟨k, .text, payload, true⟩) ({ w₁ with
      texts := m :: w₁.texts
      delivered := ⟨k, .text, CString.ofBytes m⟩ :: w₁.delivered }.pushEvent
        (.make .wsText (some m) 0 (.service k))) :=
    ⟨⟨hpos, hcreated, hrunning⟩, hin, hdealt⟩
  exact ⟨hbusy.guar hands_handedOver, fun w₂ h₂ => hbusy.rely h₂⟩

theorem feedBinaryFragment_wp (h : Busy D ⟨k, .binary, payload, final⟩ Arrived w) :
    (feedBinaryFragment payload final).wp (receiveContract D) (fun _ => Idle D) w := by
  unfold feedBinaryFragment
  split
  · next hnil =>
    subst hnil
    have hidle : Idle D w := h.idle fun x y hy => hy.trans (by simp [Inbox.step])
    exact wp_ret fun _ hr => hidle.rely hr
  · next hne =>
    refine wp.bind ((collectBinary_wp h hne).mono fun message w h => ?_)
    cases message with
    | none => exact wp_ret fun _ hr => h.rely hr
    | some m =>
      cases final with
      | false =>
        have hidle : Idle D w := h.idle fun _ _ hc => hc.step rfl
        exact wp_ret fun _ hr => hidle.rely hr
      | true =>
        refine wp.bind ((onBinary_wp h).mono fun _ w h => ?_)
        refine wp.bind ((resetBinary_wp h).mono fun _ w h => ?_)
        exact wp_ret fun _ hr => h.rely hr

/-- A fragment is dealt with in its callback. -/
theorem onReceive_wp {binary : Bool}
    (h : Busy D ⟨k, if binary then .binary else .text, payload, final⟩ Arrived w) :
    (onReceive k binary payload final).wp (receiveContract D) (fun _ => Idle D) w := by
  cases binary with
  | true =>
    refine wp.bind ((feedBinaryFragment_wp h).mono fun fed w h => ?_)
    cases fed with
    | true => exact wp_ret fun _ hr => h.rely hr
    | false => exact idle_wp notice_onError.deaf h
  | false =>
    refine wp.bind ((collectText_wp h).mono fun message w h => ?_)
    cases message with
    | none => exact idle_wp notice_onError.deaf h
    | some m =>
      cases final with
      | false =>
        have hidle : Idle D w := h.idle fun _ _ hc => hc.step rfl
        exact wp_ret fun _ hr => hidle.rely hr
      | true => exact wp.bind ((onText_wp h).mono fun _ w h => resetText_wp h)

theorem nextCallback_receive_wp (h : Idle D w) :
    (nextCallback k).wp (receiveContract D) (fun reason w => match reason with
      | some (.receive binary data final) =>
        Busy D ⟨k, if binary then .binary else .text, data, final⟩ Arrived w
      | _ => Idle D w) w := by
  refine wp_act fun w₁ h₁ c reason w₂ hf ha => ?_
  have h := h.rely h₁
  cases c with
  | nothing =>
    obtain ⟨⟩ := hf
    exact ⟨h.guar, wp_ret fun _ hr => h.rely hr⟩
  | callback reason =>
    obtain ⟨w', hw, heq⟩ := Option.map_eq_some_iff.mp hf
    obtain ⟨rfl, rfl⟩ := Prod.mk.inj heq
    obtain ⟨state, hnext, hw'⟩ := Option.map_eq_some_iff.mp hw
    have halive : w'.Alive k := by
      rw [← hw']
      exact ⟨h.alive.pos, h.alive.created, h.alive.running⟩
    have hinbox : w'.inbox k = w₁.inbox k := by rw [← hw']; rfl
    cases reason with
    | receive binary data final =>
      obtain ⟨-, hstate⟩ := Option.ite_none_right_eq_some.mp hnext
      have hlws : w'.lws k = .established := by
        rw [← hw']
        exact (Function.update_self ..).trans (Option.some.inj hstate).symm
      have hreceived : w'.received =
          ⟨k, if binary then .binary else .text, data, final⟩ :: w₁.received := by
        rw [← hw']
        rfl
      have hbusy := Busy.of_idle h ha.1 rfl hlws hreceived hinbox halive
      exact ⟨hbusy.guar hands_arrived, wp_ret fun _ hr => hbusy.rely hr⟩
    | _ =>
      have hfragments : w'.fragmentsOn k = w₁.fragmentsOn k := by rw [← hw']; rfl
      have hidle : Idle D w' := by
        refine ⟨halive, ?_⟩
        rw [hinbox, hfragments]
        exact h.dealt
      exact ⟨hidle.guar, wp_ret fun _ hr => hidle.rely hr⟩
  | _ => cases hf

/-- Every callback deals with what it has received. -/
theorem callback_receive_wp {reason : LwsReason} (h : match (some reason) with
      | some (.receive binary data final) =>
        Busy D ⟨k, if binary then .binary else .text, data, final⟩ Arrived w
      | _ => Idle D w) :
    (callback k reason).wp (receiveContract D) (fun _ => Idle D) w := by
  cases reason with
  | receive binary data final =>
    exact wp.bind ((onReceive_wp h).mono fun _ w h => wp_ret fun _ hr => h.rely hr)
  | _ => exact idle_wp (deaf_callback nofun) h

theorem lwsService_receive_wp (h : Idle D w) :
    (lwsService k).wp (receiveContract D) (fun _ => Idle D) w := by
  refine ⟨fun _ => Idle D, fun _ _ _ h hr => h.rely hr, h, fun _ w h => ?_⟩
  refine wp.bind ((nextCallback_receive_wp h).mono fun reason w h => ?_)
  cases reason with
  | none => exact wp_ret fun _ hr => wp_ret fun _ hr' => (Idle.rely h hr).rely hr'
  | some reason =>
    refine wp.bind ((callback_receive_wp h).mono fun keep w h => ?_)
    cases keep with
    | true => exact wp_ret fun _ hr => h.rely hr
    | false =>
      refine wp.bind ((idle_wp deaf_closing h).mono fun _ w h => ?_)
      exact wp_ret fun _ hr => h.rely hr

/-- The last callback brings no fragment. -/
theorem lastCallback_receive_wp (h : Idle D w) :
    (lastCallback k).wp (receiveContract D) (fun reason w => Idle D w ∧
      ∀ binary payload final, reason ≠ some (.receive binary payload final)) w := by
  refine wp_act fun w₁ h₁ c reason w₂ hf _ => ?_
  have hidle := (Within.act deaf_lastCallback hf).idle (h.rely h₁)
  refine ⟨hidle.guar, wp_ret fun _ hr => ⟨hidle.rely hr, ?_⟩⟩
  dsimp only at hf
  split at hf <;> obtain ⟨⟩ := hf
  all_goals nofun

theorem contextDestroy_receive_wp (h : Idle D w) :
    (contextDestroy k).wp (receiveContract D) (fun _ => Idle D) w := by
  refine wp.bind ((lastCallback_receive_wp h).mono fun reason w h => ?_)
  obtain ⟨h, hr⟩ := h
  cases reason with
  | none => exact idle_wp notice_closeContext.deaf h
  | some reason =>
    have hr : ∀ binary payload final, reason ≠ .receive binary payload final :=
      fun binary payload final heq => hr binary payload final (congrArg some heq)
    exact wp.bind ((idle_wp (deaf_callback hr) h).mono fun _ w h =>
      idle_wp notice_closeContext.deaf h)

theorem connectViaInfo_receive_wp (h : Idle D w) :
    (connectViaInfo k).wp (receiveContract D) (fun result w => Idle D w ∧
      ∀ binary payload final, result.2 ≠ some (.receive binary payload final)) w := by
  refine wp_act fun w₁ h₁ c result w₂ hf _ => ?_
  have hidle := (Within.act deaf_connectViaInfo hf).idle (h.rely h₁)
  refine ⟨hidle.guar, wp_ret fun _ hr => ⟨hidle.rely hr, ?_⟩⟩
  dsimp only at hf
  split at hf <;> obtain ⟨⟩ := hf
  all_goals nofun

theorem serviceLoop_receive_wp (h : Idle D w) :
    (serviceLoop k).wp (receiveContract D) (fun _ => Idle D) w := by
  refine wp.bind ((wp_while (I := Idle D) (Q := fun _ => Idle D) (fun _ _ hr h => h.rely hr)
    (fun _ _ hr h => h.rely hr) h fun w h => ?_).mono fun _ w h => ?_)
  · exact (idle_wp notice_read.deaf h).mono fun _ w h => ⟨fun _ => lwsService_receive_wp h, fun _ => h⟩
  · refine wp.bind ((contextDestroy_receive_wp h).mono fun _ w h => ?_)
    exact idle_wp (within_modify fun _ => NoticeStep.deaf (.quiet rfl rfl)) h

theorem serviceMain_receive_wp (h : Idle D w) :
    (serviceMain k).wp (receiveContract D) (fun _ => Idle D) w := by
  refine wp.bind ((idle_wp notice_createContext.deaf h).mono fun created w h => ?_)
  cases created with
  | true =>
    refine wp.bind ((idle_wp notice_choose.deaf h).mono fun parsed w h => ?_)
    cases parsed with
    | true =>
      refine wp.bind ((connectViaInfo_receive_wp h).mono fun result w h => ?_)
      obtain ⟨h, hr⟩ := h
      split
      · exact serviceLoop_receive_wp h
      · next reason =>
        have hr : ∀ binary payload final, reason ≠ .receive binary payload final :=
          fun binary payload final heq => hr binary payload final (congrArg some heq)
        exact wp.bind ((idle_wp (deaf_callback hr) h).mono fun _ w h =>
          wp.bind ((idle_wp notice_onError.deaf h).mono fun _ w h => contextDestroy_receive_wp h))
      · exact wp.bind ((idle_wp notice_onError.deaf h).mono fun _ w h => contextDestroy_receive_wp h)
    | false =>
      exact wp.bind ((idle_wp notice_onError.deaf h).mono fun _ w h => contextDestroy_receive_wp h)
  | false => exact idle_wp notice_onError.deaf h

/-- Before the service thread `k` runs, nothing has come on its connection; and
    if it is the first one, the buffers are empty. -/
structure ReceiveStart (D : ReceiveCondition k) (w : World) : Prop where
  upToDate : ∃ b, w.UpToDate k b ∧ D.Holds b (w.fragmentsOn k)
  silent : w.exited k = false → w.fragmentsOn k = [] ∧ w.messagesOn k = []
  empty : w.exited k = false → k = 1 → (w.inbox k).buffer = fun _ => []

theorem ReceiveStart.rely (h : ReceiveStart D w) (hr : (receiveContract D).rely w w') :
    ReceiveStart D w' := by
  obtain ⟨b, hw, hholds⟩ := h.upToDate
  refine ⟨⟨b, hr.2.1.upToDate hw, hr.2.1.fragments ▸ hholds⟩, fun he => ?_, fun he hk => ?_⟩
  · rw [hr.2.1.fragments, hr.2.1.messages]
    exact h.silent (hr.1.1.symm.trans he)
  · have he : w.exited k = false := hr.1.1.symm.trans he
    rw [hr.2.1.inbox (hr.2.2 ⟨he, .inr hk⟩)]
    exact h.empty he hk

/-- Nothing has come, so everything has been dealt with. -/
theorem ReceiveStart.idle (h : ReceiveStart D w) (ha : w.Alive k) : Idle D w := by
  obtain ⟨hfragments, hmessages⟩ := h.silent ha.running
  refine ⟨ha, (w.inbox k).buffer, ?_, ?_⟩
  · rw [hfragments, Inbox.run_nil, ← hmessages]
    rfl
  · rw [hfragments]
    exact D.start _ (h.empty ha.running)

theorem serviceThread_receive_wp (h : ReceiveStart D w) :
    (serviceThread k).wp (receiveContract D) (fun _ => ReceiveStart D) w := by
  refine wp.bind (wp_await fun w₁ h₁ hw => ⟨(h.rely h₁).upToDate, fun w₂ h₂ => ?_⟩)
  simp only [Bool.and_eq_true, decide_eq_true_eq, Bool.not_eq_true'] at hw
  have hidle : Idle D w₁ := (h.rely h₁).idle ⟨hw.1.1, hw.1.2, hw.2⟩
  refine wp.bind ((serviceMain_receive_wp (hidle.rely h₂)).mono fun _ w₃ h => ?_)
  refine wp_modify fun w₄ h₄ _ => ?_
  have hexited : ¬Function.update w₄.exited k true k = false := by simp
  have hend : ReceiveStart D { w₄ with exited := Function.update w₄.exited k true } :=
    ⟨(h.rely h₄).guar (w := w₄), fun he => absurd he hexited, fun he => absurd he hexited⟩
  exact ⟨hend.upToDate, fun _ h₅ => hend.rely h₅⟩

end XiaozhiClient

end

/-! ## Runs -/

/-- Only the service threads receive messages and hand them over. -/
theorem Step.incoming {i : ThreadId} {w w' : World} (hi : ∀ k, i ≠ .service k) (h : Step i w w') :
    w'.incoming = w.incoming := by
  cases i with
  | main =>
    cases h with
    | quiet hq _ _ _ => exact hq.incoming
    | _ => rfl
  | service k => exact absurd rfl (hi k)
  | playback =>
    cases h with
    | quiet hq _ => exact hq.incoming
    | records _ hq _ => exact hq.incoming
    | pops _ => rfl
    | finishes hw => subst hw; rfl
  | capture =>
    cases h with
    | quiet hq _ => exact hq.incoming
    | _ => rfl
  | signal =>
    cases h with
    | quiet hq _ => exact hq.incoming
    | _ => rfl

theorem World.fragmentsOn_cons_of_ne {w w' : World} {f : Fragment}
    (hreceived : w'.received = f :: w.received) (hk : f.connection ≠ k) :
    w'.fragmentsOn k = w.fragmentsOn k := by
  simp [fragmentsOn, hreceived, hk]

theorem World.messagesOn_cons_of_ne {w w' : World} {d : Delivery}
    (hdelivered : w'.delivered = d :: w.delivered) (hk : d.connection ≠ k) :
    w'.messagesOn k = w.messagesOn k := by
  simp [messagesOn, hdelivered, hk]

namespace System.Base

variable {i : ThreadId} {w w' : World}

/-- The other threads leave the traffic of connection `k` alone. -/
theorem sameTraffic (hi : i ≠ .service k) (h : Base i w w') : w.SameTraffic k w' := by
  have hlws : w'.lws k = w.lws k := congrArg Link.state (h.step.link_of_ne hi)
  have hsame (hin : w'.incoming = w.incoming) : w.SameTraffic k w' := by
    have hreceived : w'.received = w.received := congrArg Incoming.received hin
    have hdelivered : w'.delivered = w.delivered := congrArg Incoming.delivered hin
    exact ⟨hlws, by rw [fragmentsOn, hreceived, fragmentsOn],
      by rw [messagesOn, hdelivered, messagesOn]⟩
  by_cases hservice : ∃ j, i = .service j
  · obtain ⟨j, rfl⟩ := hservice
    have hj : j ≠ k := fun hj => hi (by rw [hj])
    rcases h.service j rfl with rfl | ⟨-, hcurrent⟩
    · exact hsame rfl
    · obtain hs | rfl := h.step
      · cases hs with
        | quiet hq _ => exact hsame hq.incoming
        | delivers => exact ⟨hlws, rfl, messagesOn_cons_of_ne rfl hj⟩
        | deliversBinary => exact ⟨hlws, rfl, messagesOn_cons_of_ne rfl (hcurrent ▸ hj)⟩
        | collects => exact ⟨hlws, rfl, rfl⟩
        | connection _ hq _ hreceived =>
          have hdelivered : w'.delivered = w.delivered := hq.delivered
          refine ⟨hlws, ?_, by rw [messagesOn, hdelivered, messagesOn]⟩
          rcases hreceived with hreceived | ⟨f, hf, hreceived⟩
          · rw [fragmentsOn, hreceived, fragmentsOn]
          · exact fragmentsOn_cons_of_ne hreceived (hf ▸ hj)
        | _ => exact hsame rfl
      · exact hsame rfl
  · exact hsame (h.step.incoming fun j hj => hservice ⟨j, hj⟩)

/-- The other threads leave the buffers alone while these belong to the service thread `k`. -/
theorem sameBuffers (hi : i ≠ .service k) (h : Base i w w') (hl : w.LifeOk) (ho : w.Owns k) :
    w.SameBuffers w' := by
  by_cases hservice : ∃ j, i = .service j
  · obtain ⟨j, rfl⟩ := hservice
    have hj : j ≠ k := fun hj => hi (by rw [hj])
    rcases h.service j rfl with rfl | ⟨ha, hcurrent⟩
    · exact ⟨rfl, rfl⟩
    · obtain ⟨he, ⟨hpos, hcreated⟩ | hfirst⟩ := ho
      · exact absurd (hcurrent.trans (hl.eq_started ⟨hpos, hcreated, he⟩).symm) hj
      -- the first service thread has not ended, so no later one has been created
      · have hlast : w.started ≤ 1 := by
          by_contra hlt
          have hended := hl.ended k (hl.earlier k (by omega) (by omega))
          rw [he] at hended
          cases hended
        have := ha.pos
        omega
  · have hin := h.step.incoming fun j hj => hservice ⟨j, hj⟩
    exact ⟨congrArg Incoming.recvText hin, congrArg Incoming.recvBinary hin⟩

end System.Base

namespace System

variable {cjsonParse : Bytes → Option Json} {ok : ThreadId → World → World → Prop}
  {config : AppConfig} {cfg : Config}

/-- Every step starts from a state in which only the latest service thread can be alive. -/
theorem Reach.life (hr : Reach cjsonParse ok config cfg) :
    Reach cjsonParse (fun i w w' => ok i w w' ∧ Base i w w' ∧ w.LifeOk) config cfg := by
  refine Threads.Reach.strengthen (fun cfg cfg' i c hr hs hok => ⟨hok.1, hok.2, ?_⟩) hr.base
  exact Threads.Reach.invariant
    ⟨fun k h₁ h₂ => absurd (h₁.trans h₂) (Nat.lt_irrefl 0), fun _ h => absurd h List.not_mem_nil⟩
    (fun _ _ _ h hl => hl.step h.2.step h.2.main) hr

/-- In every run that meets the condition, what has been handed over is what the
    inbox makes of the fragments received. -/
theorem Reach.inbox (D : ReceiveCondition k) (hadmits : ∀ i w w', ok i w w' → D.Admits w w')
    (hr : Reach cjsonParse ok config cfg) :
    ∃ b, cfg.shared.UpToDate k b ∧ D.Holds b (cfg.shared.fragmentsOn k) := by
  have hrely {j : ThreadId} {w w' : World} (hj : j ≠ .service k) (hb : Base j w w')
      (hl : w.LifeOk) : (receiveContract D).rely w w' :=
    ⟨⟨hb.step.exited_of_ne hj, hb.step.started_le⟩, hb.sameTraffic hj, hb.sameBuffers hj hl⟩
  have hbody (w : World) (h : XiaozhiClient.ReceiveStart D w) :
      (body cjsonParse (.service k)).wp (receiveContract D)
        (fun _ => XiaozhiClient.ReceiveStart D) w := XiaozhiClient.serviceThread_receive_wp h
  have hstart : XiaozhiClient.ReceiveStart D (World.init config) := by
    refine ⟨⟨fun _ => [], .inl rfl, D.start _ fun _ => rfl⟩, fun _ => ⟨rfl, rfl⟩, fun _ _ => ?_⟩
    funext op
    cases op <;> rfl
  have hinit : (init config).Local (.service k)
      (fun p => p.wp (receiveContract D) fun _ => XiaozhiClient.ReceiveStart D)
      (XiaozhiClient.ReceiveStart D) := hstart
  -- each step of the service thread `k` keeps its guarantee
  have hguar : Reach cjsonParse (fun i w w' => (ok i w w' ∧ Base i w w' ∧ w.LifeOk) ∧
      (i = .service k → (receiveContract D).guar w w' ∨ w' = w)) config cfg := by
    refine Threads.Reach.strengthen (fun cfg cfg' i c hr hs hok => ⟨hok, ?_⟩) hr.life
    rintro rfl
    exact Threads.Reach.thread_guar (C := receiveContract D) (fun _ _ h => ⟨hadmits _ _ _ h.1, h.2.2⟩)
      (fun _ _ _ hj h => hrely hj h.2.1 h.2.2) (fun _ _ h hr => h.rely hr) hbody hinit hr hs
      hok
  let current (w : World) : Prop := ∃ b, w.UpToDate k b ∧ D.Holds b (w.fragmentsOn k)
  have hcurrent : current cfg.shared := by
    refine Threads.Reach.invariant hstart.upToDate (fun i w w' h hw => ?_) hguar
    by_cases hi : i = .service k
    · rcases h.2 hi with hg | rfl
      · exact hg
      · exact hw
    · have ht := h.1.2.1.sameTraffic hi
      obtain ⟨b, hw, hholds⟩ := hw
      exact ⟨b, ht.upToDate hw, ht.fragments ▸ hholds⟩
  exact hcurrent

end System

end Xiaozhi
