-- SUMMARY: The frames of a connection: they are written in the order in which they are taken from the pending queues.
import Xiaozhi.Client.Lifecycle

/-!
# Frames of a connection

A writeable callback takes one message from the pending queues and writes it,
or ends the connection. So the frames written on a connection are the messages
taken on it, except perhaps for the latest one.
-/

namespace Xiaozhi

open Threads Threads.Prog World

/-- The frames of connection `k`. -/
def framesOn (k : Nat) (frames : List Frame) : List Frame := frames.filter (·.connection = k)

theorem framesOn_cons_self {k : Nat} {frame : Frame} {frames : List Frame}
    (h : frame.connection = k) : framesOn k (frame :: frames) = frame :: framesOn k frames := by
  simp [framesOn, h]

theorem framesOn_cons_of_ne {k : Nat} {frame : Frame} {frames : List Frame}
    (h : frame.connection ≠ k) : framesOn k (frame :: frames) = framesOn k frames := by
  simp [framesOn, h]

/-- Where a connection stands: its state in libwebsockets, the messages taken on
    it, and the frames written. -/
structure Link where
  state : LwsState
  taken : List Frame
  sent : List Frame

namespace Link

/-- Every message taken has been written. -/
def Level (link : Link) : Prop := link.taken = link.sent

/-- Every message taken has been written, but for the latest one. -/
def Ahead (frame : Frame) (link : Link) : Prop := link.taken = frame :: link.sent

/-- Every message taken has been written, but perhaps for the latest one. -/
def Near (link : Link) : Prop := link.Level ∨ ∃ frame, link.Ahead frame

/-- Every message taken has been written, unless the connection ends. -/
def InSync (link : Link) : Prop :=
  link.state = .connecting ∨ link.state = .established → link.Level

end Link

/-- Only the service thread `k` changes it. -/
def World.link (w : World) (k : Nat) : Link where
  state := w.lws k
  taken := framesOn k w.dequeued
  sent := framesOn k w.wire

theorem World.Unsent.link {w w' : World} {k : Nat} (h : w.Unsent w') : w'.link k = w.link k := by
  simp only [World.link, h.lws, h.dequeued, h.wire]

/-- The steps of a service thread leave the other connections alone. -/
theorem ServiceStep.link_of_ne {j k : Nat} {w w' : World} (hj : j ≠ k) (h : ServiceStep j w w') :
    w'.link k = w.link k := by
  have hother {frame : Frame} {frames : List Frame} (hc : frame.connection = j) :
      framesOn k (frame :: frames) = framesOn k frames := framesOn_cons_of_ne (hc ▸ hj)
  cases h with
  | quiet hq _ => exact hq.unsent.link
  | popsText _ => rw [link, hother rfl]; rfl
  | popsBinary _ _ => rw [link, hother rfl]; rfl
  | writes hc => rw [link, hother hc]; rfl
  | connection hothers hq _ =>
    have hdequeued : w'.dequeued = w.dequeued := hq.dequeued
    have hwire : w'.wire = w.wire := hq.wire
    simp only [link, hothers k hj.symm, hdequeued, hwire]
  | _ => rfl

theorem Step.link_of_ne {i : ThreadId} {k : Nat} {w w' : World} (hi : i ≠ .service k)
    (h : Step i w w') : w'.link k = w.link k := by
  cases h.frames with
  | same hu => exact hu.link
  | queuesText _ _ hu => exact hu.link
  | starts _ hu => exact hu.link
  | queuesBinary _ _ hu => exact hu.link
  | service j hj hs => exact hs.link_of_ne fun hk => hi (by rw [hj, hk])

/-- A service thread takes and writes messages on its own connection. -/
theorem Step.connection {i : ThreadId} {w w' : World} (h : Step i w w') :
    (∀ frame ∈ w'.dequeued, frame ∈ w.dequeued ∨ i = .service frame.connection) ∧
      ∀ frame ∈ w'.wire, frame ∈ w.wire ∨ i = .service frame.connection := by
  have hsame (hd : w'.dequeued = w.dequeued) (hw : w'.wire = w.wire) :
      (∀ frame ∈ w'.dequeued, frame ∈ w.dequeued ∨ i = .service frame.connection) ∧
        ∀ frame ∈ w'.wire, frame ∈ w.wire ∨ i = .service frame.connection :=
    ⟨fun _ hf => .inl (hd ▸ hf), fun _ hf => .inl (hw ▸ hf)⟩
  cases h.frames with
  | same hu => exact hsame hu.dequeued hu.wire
  | starts _ hu => exact hsame hu.dequeued hu.wire
  | queuesText _ _ hu => exact hsame hu.dequeued hu.wire
  | queuesBinary _ _ hu => exact hsame hu.dequeued hu.wire
  | service k hi hs =>
    subst hi
    cases hs with
    | quiet hq => exact hsame hq.dequeued hq.wire
    | connection _ hq => exact hsame hq.dequeued hq.wire
    | popsText _ =>
      refine ⟨fun frame hf => ?_, fun _ hf => .inl hf⟩
      obtain rfl | hf := List.mem_cons.mp hf
      · exact .inr rfl
      · exact .inl hf
    | popsBinary _ _ =>
      refine ⟨fun frame hf => ?_, fun _ hf => .inl hf⟩
      obtain rfl | hf := List.mem_cons.mp hf
      · exact .inr rfl
      · exact .inl hf
    | writes hc =>
      refine ⟨fun _ hf => .inl hf, fun frame hf => ?_⟩
      obtain rfl | hf := List.mem_cons.mp hf
      · exact .inr (by rw [hc])
      · exact .inl hf
    | _ => exact hsame rfl rfl

theorem framesOn_eq_self {k : Nat} {frames : List Frame} (h : ∀ frame ∈ frames, frame.connection = k) :
    framesOn k frames = frames :=
  List.filter_eq_self.mpr fun frame hf => decide_eq_true (h frame hf)

/-! ## The service thread -/

/-- The service thread `k` takes messages on an established connection only,
    and writes each before it takes the next one. -/
def frameContract (k : Nat) : Contract World where
  rely w w' := w'.link k = w.link k ∧ w'.exited k = w.exited k
  assume _ _ := True
  guar w w' :=
    (∀ frame, w'.wire = frame :: w.wire → (w.link k).Ahead frame) ∧
    (w'.dequeued ≠ w.dequeued → w.lws k = .established ∧ (w.link k).Level)
  rely_refl _ := ⟨rfl, rfl⟩
  rely_trans h₁ h₂ := ⟨h₂.1.trans h₁.1, h₂.2.trans h₁.2⟩

/-- The step neither takes a message nor writes one. -/
structure World.SameFrames (w w' : World) : Prop where
  dequeued : w'.dequeued = w.dequeued
  wire : w'.wire = w.wire

theorem World.SameFrames.guar {k : Nat} {w w' : World} (h : w.SameFrames w') :
    (frameContract k).guar w w' :=
  ⟨fun _ hw => absurd (h.wire.symm.trans hw).symm (List.cons_ne_self _ _),
    fun hne => absurd h.dequeued hne⟩

namespace XiaozhiClient

variable {k : Nat} {w : World} {α : Type}

/-- Callbacks other than `writeable` leave the connection where it stands. -/
theorem call_wp {p : Thread α} {P : Link → Prop} (hp : p.Call k) (h : P (w.link k)) :
    p.wp (frameContract k) (fun _ w => P (w.link k)) w := by
  refine Within.wp (C := frameContract k) (I := fun w => P (w.link k)) hp
    (fun w w' hr h => ?_) (fun w w' h hs _ => ⟨World.SameFrames.guar ⟨hs.dequeued, hs.wire⟩, ?_⟩) h
  · rw [hr.1]
    exact h
  · rw [link, hs.lws, hs.dequeued, hs.wire]
    exact h

theorem ret_wp {a : α} {Q : α → World → Prop} {P : Link → Prop} (h : P (w.link k))
    (hQ : ∀ w, P (w.link k) → Q a w) : (pure a : Thread α).wp (frameContract k) Q w :=
  wp_ret fun w' h' => hQ w' (h'.1 ▸ h)

theorem popPending_wp (hs : (w.link k).state = .established) (h : (w.link k).Level) :
    (popPending k).wp (frameContract k) (fun popped w => match popped with
      | .message frame => frame.connection = k ∧ (w.link k).Ahead frame
      | .nothing => (w.link k).Level
      | .failed => True) w := by
  refine wp_act fun w₁ h₁ c popped w₂ hf _ => ?_
  have hs : (w₁.link k).state = .established := h₁.1 ▸ hs
  have h : (w₁.link k).Level := h₁.1 ▸ h
  have htaken {w' : World} (hw : w'.wire = w₁.wire) : (frameContract k).guar w₁ w' :=
    ⟨fun f hwire => absurd (hw.symm.trans hwire).symm (List.cons_ne_self _ _), fun _ => ⟨hs, h⟩⟩
  have htakes {w' : World} {frame : Frame} (hc : frame.connection = k)
      (hd : w'.dequeued = frame :: w₁.dequeued) (hw : w'.wire = w₁.wire) :
      (frameContract k).guar w₁ w' ∧ ∀ w₂, (frameContract k).rely w' w₂ →
        frame.connection = k ∧ (w₂.link k).Ahead frame := by
    refine ⟨htaken hw, fun w₂ h₂ => ⟨hc, ?_⟩⟩
    rw [h₂.1]
    show framesOn k w'.dequeued = frame :: framesOn k w'.wire
    rw [hd, hw, framesOn_cons_self hc]
    exact congrArg _ h
  dsimp only at hf
  split at hf
  · obtain ⟨⟩ := hf
    exact htakes rfl rfl rfl
  · split at hf
    · cases c <;> obtain ⟨⟩ := hf
      · exact htakes rfl rfl rfl
      · exact ⟨htaken rfl, fun _ _ => trivial⟩
    · obtain ⟨⟩ := hf
      refine ⟨World.SameFrames.guar ⟨rfl, rfl⟩, fun w₂ h₂ => ?_⟩
      show (w₂.link k).Level
      rw [h₂.1]
      exact h

theorem lwsWrite_wp {frame : Frame} (hc : frame.connection = k) (h : (w.link k).Ahead frame) :
    (lwsWrite k frame).wp (frameContract k) (fun written w => written = true → (w.link k).Level) w := by
  refine wp_act fun w₁ h₁ c written w₂ hf _ => ?_
  have h : (w₁.link k).Ahead frame := h₁.1 ▸ h
  cases c <;> obtain ⟨⟩ := hf
  · subst hc
    refine ⟨⟨fun f hw => ?_, fun hne => absurd rfl hne⟩, fun w₃ h₃ _ => ?_⟩
    · obtain ⟨rfl, -⟩ := List.cons.inj hw
      exact h
    · rw [h₃.1]
      exact h.trans (framesOn_cons_self (k := frame.connection) rfl).symm
  · exact ⟨World.SameFrames.guar ⟨rfl, rfl⟩, fun _ _ => nofun⟩

/-- A writeable callback that keeps the connection writes what it takes. -/
theorem onWriteable_wp (hs : (w.link k).state = .established) (h : (w.link k).Level) :
    (onWriteable k).wp (frameContract k) (fun keep w => keep = true → (w.link k).Level) w := by
  refine wp.bind ((popPending_wp hs h).mono fun popped w h => ?_)
  cases popped with
  | message frame =>
    obtain ⟨hc, h⟩ := h
    refine wp.bind ((call_wp (P := Link.Ahead frame) notice_choose.call h).mono fun copied w h => ?_)
    cases copied with
    | true =>
      refine wp.bind ((lwsWrite_wp hc h).mono fun written w h => ?_)
      cases written with
      | true => exact wp.bind ((call_wp notice_rearm.call (h rfl)).mono fun _ w h =>
          ret_wp h fun _ h _ => h)
      | false => exact wp_ret fun _ _ => nofun
    | false => exact wp_ret fun _ _ => nofun
  | nothing =>
    exact wp.bind ((call_wp notice_rearm.call h).mono fun _ w h => ret_wp h fun _ h _ => h)
  | failed => exact wp_ret fun _ _ => nofun

/-- A connection that has ended stays so. -/
theorem lwsNext_live {state next : LwsState} {writable : Bool} {reason : LwsReason}
    (h : lwsNext state writable reason = some next)
    (hn : next = .connecting ∨ next = .established) :
    state = .connecting ∨ state = .established := by
  cases reason with
  | established => exact .inl (Option.ite_none_right_eq_some.mp h).1
  | receive => exact .inr (Option.ite_none_right_eq_some.mp h).1
  | writeable => exact .inr (Option.ite_none_right_eq_some.mp h).1.1
  | connectionError => obtain ⟨-, ⟨⟩⟩ := Option.ite_none_right_eq_some.mp h; simp at hn
  | closed => obtain ⟨-, ⟨⟩⟩ := Option.ite_none_right_eq_some.mp h; simp at hn

theorem deliver_eq_some {reason : LwsReason} {w' : World} (h : deliver k reason w = some w') :
    ∃ state, lwsNext (w.lws k) (w.writable k) reason = some state ∧
      w'.link k = { w.link k with state } ∧ w.SameFrames w' := by
  obtain ⟨state, hnext, rfl⟩ := Option.map_eq_some_iff.mp h
  exact ⟨state, hnext, by simp [link], ⟨rfl, rfl⟩⟩

theorem nextCallback_wp (h : (w.link k).InSync) :
    (nextCallback k).wp (frameContract k) (fun reason w => (w.link k).InSync ∧
      (reason = some .writeable → (w.link k).state = .established)) w := by
  refine wp_act fun w₁ h₁ c answer w₂ hf _ => ?_
  have h : (w₁.link k).InSync := h₁.1 ▸ h
  cases c with
  | nothing =>
    obtain ⟨⟩ := hf
    exact ⟨World.SameFrames.guar ⟨rfl, rfl⟩, ret_wp h fun _ h => ⟨h, nofun⟩⟩
  | callback reason =>
    obtain ⟨w', hw, heq⟩ := Option.map_eq_some_iff.mp hf
    obtain ⟨rfl, rfl⟩ := Prod.mk.inj heq
    obtain ⟨state, hnext, hlink, hsame⟩ := deliver_eq_some hw
    refine ⟨hsame.guar, ret_wp (P := fun link => link.InSync ∧
      (reason = .writeable → link.state = .established)) ?_
      fun _ h => ⟨h.1, fun hr => h.2 (Option.some.inj hr)⟩⟩
    rw [hlink]
    refine ⟨fun hs => h (lwsNext_live hnext hs), ?_⟩
    rintro rfl
    exact (Option.some.inj (Option.ite_none_right_eq_some.mp hnext).2).symm
  | _ => cases hf

/-- A callback that keeps the connection has written what it has taken. -/
theorem callback_wp {reason : LwsReason} (h : (w.link k).InSync)
    (hs : reason = .writeable → (w.link k).state = .established) :
    (callback k reason).wp (frameContract k) (fun keep w => keep = true → (w.link k).InSync) w := by
  by_cases hr : reason = .writeable
  · subst hr
    exact (onWriteable_wp (hs rfl) (h (.inr (hs rfl)))).mono fun keep w h hk _ => h hk
  · exact (call_wp (call_callback hr) h).mono fun _ _ h _ => h

/-- A connection that closes takes no more messages. -/
theorem closing_wp : Threads.Prog.wp (χ := Answer) (frameContract k)
    (.modify fun w => { w with lws := Function.update w.lws k .closing })
    (fun _ w => (w.link k).InSync) w := by
  refine wp_modify fun w₁ _ _ => ⟨World.SameFrames.guar ⟨rfl, rfl⟩, fun w₂ h₂ => ?_⟩
  show (w₂.link k).InSync
  rw [h₂.1]
  simp [Link.InSync, World.link]

theorem lwsService_wp (h : (w.link k).InSync) :
    (lwsService k).wp (frameContract k) (fun _ w => (w.link k).InSync) w := by
  refine ⟨fun _ w => (w.link k).InSync, fun _ _ w' h hr => ?_, h, fun _ w h => ?_⟩
  · show (w'.link k).InSync
    rw [hr.1]
    exact h
  refine wp.bind ((nextCallback_wp h).mono fun reason w h => ?_)
  cases reason with
  | none => exact ret_wp h.1 fun _ h => wp_ret fun _ h' => h'.1 ▸ h
  | some reason =>
    refine wp.bind ((callback_wp h.1 fun hr => h.2 (congrArg some hr)).mono fun keep w h => ?_)
    cases keep with
    | true => exact ret_wp (h rfl) fun _ h => h
    | false =>
      exact wp.bind (closing_wp.mono fun _ w h => ret_wp h fun _ h => h)

theorem lastCallback_wp : (lastCallback k).wp (frameContract k)
    (fun reason _ => reason ≠ some .writeable) w := by
  refine wp_act fun w₁ _ c reason w₂ hf _ => ?_
  dsimp only at hf
  split at hf <;> obtain ⟨⟩ := hf
  all_goals exact ⟨World.SameFrames.guar ⟨rfl, rfl⟩, fun _ _ => nofun⟩

theorem connectViaInfo_wp (h : (w.link k).Level) : (connectViaInfo k).wp (frameContract k)
    (fun result w => (w.link k).Level ∧ result.2 ≠ some .writeable) w := by
  refine wp_act fun w₁ h₁ c result w₂ hf _ => ?_
  have h : (w₁.link k).Level := h₁.1 ▸ h
  dsimp only at hf
  split at hf <;> obtain ⟨⟩ := hf
  all_goals exact ⟨World.SameFrames.guar ⟨rfl, rfl⟩, ret_wp (P := Link.Level) h fun _ h => ⟨h, nofun⟩⟩

/-- Callbacks other than `writeable` and reports handle no message. -/
theorem any_wp {p : Thread α} (hp : p.Call k) :
    p.wp (frameContract k) (fun _ _ => True) w := call_wp (P := fun _ => True) hp trivial

theorem contextDestroy_wp : (contextDestroy k).wp (frameContract k) (fun _ _ => True) w := by
  refine wp.bind (lastCallback_wp.mono fun reason w h => ?_)
  cases reason with
  | none => exact any_wp notice_closeContext.call
  | some reason =>
    exact any_wp (.bind (call_callback fun hr => h (congrArg some hr)) fun _ => notice_closeContext.call)

theorem serviceLoop_frames (h : (w.link k).InSync) :
    (serviceLoop k).wp (frameContract k) (fun _ _ => True) w := by
  refine wp.bind ((wp_while (I := fun w => (w.link k).InSync) (Q := fun _ _ => True)
    (fun _ _ hr h => hr.1 ▸ h) (fun _ _ _ _ => trivial) h fun w h => ?_).mono fun _ w _ => ?_)
  · exact (call_wp (P := Link.InSync) notice_read.call h).mono fun _ w h =>
      ⟨fun _ => lwsService_wp h, fun _ => trivial⟩
  · exact wp.bind (contextDestroy_wp.mono fun _ w _ => any_wp (within_modify fun _ => .quiet rfl rfl))

theorem serviceMain_frames (h : (w.link k).Level) :
    (serviceMain k).wp (frameContract k) (fun _ _ => True) w := by
  refine wp.bind ((call_wp notice_createContext.call h).mono fun created w h => ?_)
  cases created with
  | true =>
    refine wp.bind ((call_wp notice_choose.call h).mono fun parsed w h => ?_)
    cases parsed with
    | true =>
      refine wp.bind ((connectViaInfo_wp h).mono fun result w h => ?_)
      obtain ⟨h, hr⟩ := h
      split
      · exact serviceLoop_frames fun _ => h
      · next reason =>
        exact wp.bind ((any_wp (call_callback fun heq => hr (congrArg some heq))).mono fun _ w _ =>
          wp.bind ((any_wp notice_onError.call).mono fun _ w _ => contextDestroy_wp))
      · exact wp.bind ((any_wp notice_onError.call).mono fun _ w _ => contextDestroy_wp)
    | false => exact wp.bind ((any_wp notice_onError.call).mono fun _ w _ => contextDestroy_wp)
  | false => exact any_wp notice_onError.call

/-- Before the service thread `k` runs, no message has been taken on its connection. -/
def FrameStart (k : Nat) (w : World) : Prop := w.exited k = false → (w.link k).Level

theorem serviceThread_frames (h : FrameStart k w) :
    (serviceThread k).wp (frameContract k) (fun _ => FrameStart k) w := by
  refine wp.bind (wp_await fun w₁ h₁ hw => ⟨World.SameFrames.guar ⟨rfl, rfl⟩, fun w₂ h₂ => ?_⟩)
  have hlevel : (w₂.link k).Level := by
    rw [h₂.1, h₁.1]
    refine h (h₁.2.symm.trans ?_)
    simp only [Bool.and_eq_true, Bool.not_eq_true'] at hw
    exact hw.2
  refine wp.bind ((serviceMain_frames hlevel).mono fun _ w _ => wp_modify fun w₃ _ _ =>
    ⟨World.SameFrames.guar ⟨rfl, rfl⟩, fun w₄ h₄ he => ?_⟩)
  rw [h₄.2] at he
  simp at he

end XiaozhiClient

/-- At any moment, at most the latest message taken on a connection is not written. -/
theorem Step.near {i : ThreadId} {k : Nat} {w w' : World} (h : Step i w w')
    (hg : i = .service k → (frameContract k).guar w w') (hn : (w.link k).Near) :
    (w'.link k).Near := by
  by_cases hi : i = .service k
  · subst hi
    obtain hs | rfl := h
    · obtain ⟨hwrite, htake⟩ := hg rfl
      have htakes {frame : Frame} (hc : frame.connection = k)
          (hd : w'.dequeued = frame :: w.dequeued) (hw : w'.wire = w.wire) : (w'.link k).Near := by
        have hlevel : (w.link k).Level := (htake (by simp [hd])).2
        refine .inr ⟨frame, ?_⟩
        show framesOn k w'.dequeued = frame :: framesOn k w'.wire
        rw [hd, hw, framesOn_cons_self hc]
        exact congrArg _ hlevel
      cases hs with
      | quiet hq _ => rw [hq.unsent.link]; exact hn
      | connection _ hq _ =>
        have hd : w'.dequeued = w.dequeued := hq.dequeued
        have hw : w'.wire = w.wire := hq.wire
        simp only [Link.Near, Link.Level, Link.Ahead, link, hd, hw]
        exact hn
      | popsText _ => exact htakes rfl rfl rfl
      | popsBinary _ _ => exact htakes rfl rfl rfl
      | writes hc =>
        have ha := hwrite _ rfl
        refine .inl (ha.trans ?_)
        exact (framesOn_cons_self hc).symm
      | _ => exact hn
    · exact hn
  · rw [h.link_of_ne hi]
    exact hn

namespace System

variable {cjsonParse : Bytes → Option Json} {ok : ThreadId → World → World → Prop}
  {config : AppConfig} {cfg : Config}

/-- Every run consists of steps that handle messages one after the other. -/
theorem Reach.frames (hr : Reach cjsonParse ok config cfg) :
    Reach cjsonParse (fun i w w' => ok i w w' ∧ Base i w w' ∧
      ∀ k, i = .service k → (frameContract k).guar w w') config cfg := by
  refine Threads.Reach.strengthen (fun cfg cfg' i c hr hs hok => ⟨hok.1, hok.2, ?_⟩) hr.base
  rintro k rfl
  have hbody (w : World) (h : XiaozhiClient.FrameStart k w) :
      (body cjsonParse (.service k)).wp (frameContract k)
        (fun _ => XiaozhiClient.FrameStart k) w := XiaozhiClient.serviceThread_frames h
  have hinit : (init config).Local (.service k)
      (fun p => p.wp (frameContract k) fun _ => XiaozhiClient.FrameStart k)
      (XiaozhiClient.FrameStart k) := fun _ => rfl
  obtain hg | hsame := Threads.Reach.thread_guar (C := frameContract k) (fun _ _ _ => trivial)
    (fun j w w' hj h => ⟨h.2.step.link_of_ne hj, h.2.step.exited_of_ne hj⟩)
    (fun w w' h hr he => hr.1 ▸ h (hr.2 ▸ he)) hbody hinit hr hs hok
  · exact hg
  · rw [hsame]
    exact World.SameFrames.guar ⟨rfl, rfl⟩

end System

end Xiaozhi
