-- SUMMARY: The audio of an upload turn is written between the listen-start and the listen-stop of the turn, if none of it waits when the listen-stop is queued.
import Xiaozhi.Client.Callers
import Xiaozhi.Data.Lists

/-!
# Upload turns

A turn is what is accepted between a listen-start and a listen-stop. Texts and
packets wait in two queues, and texts go first. So a packet never overtakes the
listen-start, but the listen-stop overtakes every packet that still waits when
it is queued.
-/

namespace Xiaozhi

open Threads World XiaozhiProtocol

/-! ## Numbering -/

/-- How many messages of one kind there are: the number of the next one. -/
def number (op : Opcode) (messages : List Message) : Nat := messages.countP (·.opcode = op)

section Number

variable {op : Opcode} {l l' u v x y : List Message} {p q : Bytes} {n : Nat}

@[simp] theorem number_append : number op (l ++ l') = number op l + number op l' :=
  List.countP_append

@[simp] theorem number_cons {m : Message} :
    number op (m :: l) = number op l + if m.opcode = op then 1 else 0 := by
  simp [number, List.countP_cons]

@[simp] theorem number_nil : number op [] = 0 := rfl

theorem number_eq_length : number op l = (payloads op l).length := by
  simp [number, payloads, List.countP_eq_length_filter]

/-- The messages of a kind are given by their payloads. -/
theorem filter_eq_map : l.filter (·.opcode = op) = (payloads op l).map (⟨op, ·⟩) := by
  rw [payloads, List.map_map]
  refine (List.map_id _).symm.trans (List.map_congr_left fun m hm => ?_)
  obtain rfl : m.opcode = op := by simpa using (List.mem_filter.mp hm).2
  rfl

/-- There is a message of every number below the count. -/
theorem exists_numbered (h : n < number op l) :
    ∃ u p v, l = u ++ ⟨op, p⟩ :: v ∧ number op u = n := by
  obtain ⟨u, ⟨op', p⟩, v, rfl, ha, hn⟩ := Lists.exists_numbered h
  obtain rfl : op' = op := of_decide_eq_true ha
  exact ⟨u, p, v, rfl, hn⟩

/-- Messages of one kind that have the same number are the same, where the one list continues the
    other. -/
theorem payload_eq (hpre : payloads op (u ++ ⟨op, p⟩ :: v) <+: payloads op (x ++ ⟨op, q⟩ :: y))
    (hn : number op u = number op x) : p = q := by
  have hfilter := hpre.map (⟨op, ·⟩ : Bytes → Message)
  rw [← filter_eq_map, ← filter_eq_map] at hfilter
  exact congrArg Message.payload
    (Lists.eq_of_countP_eq hfilter (decide_eq_true rfl) (decide_eq_true rfl) hn)

end Number

/-! ## Turns -/

/-- A listen-start of the client. -/
def Message.IsListenStart (m : Message) : Prop :=
  m.opcode = .text ∧ ∃ id, buildListenStartManual id 256 = some m.payload

/-- A listen-stop of the client. -/
def Message.IsListenStop (m : Message) : Prop :=
  m.opcode = .text ∧ ∃ id, buildListenStopManual id 256 = some m.payload

/-- `turn` follows the latest listen-start. -/
def LatestTurn (messages turn : List Message) : Prop :=
  ∃ before start, messages = before ++ start :: turn ∧ start.IsListenStart ∧
    ∀ m ∈ turn, ¬m.IsListenStart

/-- The packets accepted in `messages` since the latest listen-start, if there are any, and those
    accepted before are among the first `n`. -/
def TurnWithin (messages : List Message) (n : Nat) : Prop :=
  ∀ turn, LatestTurn messages turn → 0 < number .binary turn → number .binary messages ≤ n

/-- How the accepted messages are merged into those that are taken. -/
structure Merged (accepted taken : List Message) : Prop where
  /-- A packet is taken after the texts that were accepted before it. -/
  late {x y u v : List Message} {p q : Bytes} : accepted = x ++ ⟨.binary, p⟩ :: y →
    taken = u ++ ⟨.binary, q⟩ :: v → number .binary u = number .binary x →
    number .text x ≤ number .text u
  /-- The packets of a turn have been taken when its listen-stop is queued, -/
  drained {x y : List Message} {stop : Message} : accepted = x ++ stop :: y → stop.IsListenStop →
    TurnWithin x (number .binary taken)
  /-- and so they come before the listen-stop. -/
  early {x y u v : List Message} {stop : Message} {q : Bytes} : accepted = x ++ stop :: y →
    stop.IsListenStop → taken = u ++ ⟨.text, q⟩ :: v → number .text u = number .text x →
    TurnWithin x (number .binary u)

namespace Merged

variable {accepted taken : List Message} {m : Message} {p : Bytes}

/-- A message is accepted. -/
theorem accepts (h : Merged accepted taken) (hcount : ∀ op, number op taken ≤ number op accepted)
    (hstop : m.IsListenStop → TurnWithin accepted (number .binary taken)) :
    Merged (accepted ++ [m]) taken := by
  refine ⟨fun ha ht hn => ?_, fun ha hs => ?_, fun ha hs ht hn => ?_⟩
  · obtain ⟨rfl, rfl, rfl⟩ | ⟨y', rfl, rfl⟩ := Lists.concat_split ha
    · -- the packet has not been taken yet
      have hlt := hcount .binary
      rw [ht, number_append, number_cons, if_pos rfl, hn] at hlt
      omega
    · exact h.late rfl ht hn
  · obtain ⟨rfl, rfl, rfl⟩ | ⟨y', rfl, rfl⟩ := Lists.concat_split ha
    · exact hstop hs
    · exact h.drained rfl hs
  · obtain ⟨rfl, rfl, rfl⟩ | ⟨y', rfl, rfl⟩ := Lists.concat_split ha
    · -- nor has the listen-stop
      have hlt := hcount .text
      rw [ht, number_append, number_cons, if_pos rfl, hn] at hlt
      omega
    · exact h.early rfl hs ht hn

theorem mono_turnWithin {messages : List Message} {n n' : Nat} (h : TurnWithin messages n) (hn : n ≤ n') :
    TurnWithin messages n' := fun turn ht hp => (h turn ht hp).trans hn

/-- A text is taken. -/
theorem takesText (h : Merged accepted taken) : Merged accepted (taken ++ [⟨.text, p⟩]) := by
  refine ⟨fun ha ht hn => ?_, fun ha hs => ?_, fun ha hs ht hn => ?_⟩
  · obtain ⟨rfl, hm, rfl⟩ | ⟨v', rfl, rfl⟩ := Lists.concat_split ht
    · cases hm
    · exact h.late ha rfl hn
  · refine mono_turnWithin (h.drained ha hs) ?_
    simp
  · obtain ⟨rfl, hm, rfl⟩ | ⟨v', rfl, rfl⟩ := Lists.concat_split ht
    · exact h.drained ha hs
    · exact h.early ha hs rfl hn

/-- A packet is taken, when no text waits. -/
theorem takesPacket (h : Merged accepted taken) (htexts : number .text taken = number .text accepted) :
    Merged accepted (taken ++ [⟨.binary, p⟩]) := by
  refine ⟨fun ha ht hn => ?_, fun ha hs => ?_, fun ha hs ht hn => ?_⟩
  · obtain ⟨rfl, hm, rfl⟩ | ⟨v', rfl, rfl⟩ := Lists.concat_split ht
    · rw [htexts, ha]
      simp
    · exact h.late ha rfl hn
  · refine mono_turnWithin (h.drained ha hs) ?_
    simp
  · obtain ⟨rfl, hm, rfl⟩ | ⟨v', rfl, rfl⟩ := Lists.concat_split ht
    · cases hm
    · exact h.early ha hs rfl hn

end Merged

/-- A listen-stop is only queued when no packet of its turn waits. -/
def StopsDrained (_ : ThreadId) (w w' : World) : Prop :=
  ∀ stop, w'.queued = stop :: w.queued → stop.IsListenStop →
    ∀ turn, LatestTurn w.accepted turn → 0 < number .binary turn → w.waitingPackets = []

namespace World

variable {w w' : World} {op : Opcode}

theorem Conserved.prefix_accepted (h : w.Conserved) :
    payloads op w.taken <+: payloads op w.accepted := by
  cases op with
  | text => exact ⟨_, h.texts.symm⟩
  | binary => exact ⟨_, h.packets.symm⟩

theorem Conserved.number_le (h : w.Conserved) : number op w.taken ≤ number op w.accepted := by
  rw [number_eq_length, number_eq_length]
  exact h.prefix_accepted.length_le

/-- The messages accepted and those taken are merged. -/
def Merges (w : World) : Prop := Merged w.accepted w.taken

theorem Merges.congr (h : w.Merges) (hqueued : w'.queued = w.queued)
    (hdequeued : w'.dequeued = w.dequeued) : w'.Merges := by
  rw [Merges, accepted, taken, hqueued, hdequeued]
  exact h

theorem Merges.accepts {i : ThreadId} {m : Message} (h : w.Merges) (hc : w.Conserved)
    (hok : StopsDrained i w w') (hqueued : w'.queued = m :: w.queued)
    (hdequeued : w'.dequeued = w.dequeued) : w'.Merges := by
  rw [Merges, accepted_cons hqueued, taken, hdequeued]
  refine Merged.accepts h (fun op => hc.number_le) fun hstop turn hturn hpos => ?_
  have hempty := hok m hqueued hstop turn hturn hpos
  have hpackets := congrArg List.length hc.packets
  rw [hempty, List.append_nil] at hpackets
  rw [number_eq_length, number_eq_length]
  exact hpackets.le

theorem Merges.service {k : Nat} (h : w.Merges) (hc : w.Conserved) (hs : ServiceStep k w w') :
    w'.Merges := by
  cases hs with
  | quiet hq => exact h.congr hq.queued hq.dequeued
  | connection _ hq => exact h.congr hq.queued hq.dequeued
  | popsText hitems =>
    rw [Merges, taken, List.map_cons, List.reverse_cons]
    exact Merged.takesText h
  | popsBinary hitems hpop =>
    rw [Merges, taken, List.map_cons, List.reverse_cons]
    refine Merged.takesPacket h ?_
    have htexts := congrArg List.length hc.texts
    rw [waitingTexts, hitems, List.map_nil, List.append_nil] at htexts
    rw [number_eq_length, number_eq_length]
    exact htexts.symm
  | _ => exact h

theorem Merges.step {i : ThreadId} (h : w.Merges) (hc : w.Conserved) (hs : Step i w w')
    (hok : StopsDrained i w w') : w'.Merges := by
  cases hs.frames with
  | same hu => exact h.congr hu.queued hu.dequeued
  | starts _ hu => exact h.congr hu.queued hu.dequeued
  | queuesText _ _ hu => exact h.accepts hc hok hu.queued hu.dequeued
  | queuesBinary _ _ hu => exact h.accepts hc hok hu.queued hu.dequeued
  | service k _ hs => exact h.service hc hs

end World

/-! ## What is written -/

/-- The packet between a listen-start and a listen-stop is written between them, once the
    listen-stop is written. Messages of one kind are told apart by their numbers. -/
structure World.TurnsInOrder (w : World) : Prop where
  /-- No message is lost between the queues and the wire. -/
  sent : ∃ hand, hand.length ≤ 1 ∧ ClientThread.SentInOrder w hand
  between {before turn turn' rest u v : List Message} {start stop : Message} {p q : Bytes} :
    w.accepted = before ++ start :: (turn ++ ⟨.binary, p⟩ :: turn') ++ stop :: rest →
    start.IsListenStart → stop.IsListenStop → (∀ m ∈ turn ++ turn', ¬m.IsListenStart) →
    w.written = u ++ ⟨.text, q⟩ :: v →
    number .text u = number .text (before ++ start :: (turn ++ ⟨.binary, p⟩ :: turn')) →
    ∃ u₁ u₂ u₃, u = u₁ ++ start :: u₂ ++ ⟨.binary, p⟩ :: u₃ ∧
      number .text u₁ = number .text before ∧
      number .binary (u₁ ++ start :: u₂) = number .binary (before ++ start :: turn)

/-- Where the merge has put the packets of a turn. -/
theorem Merged.between {accepted taken before turn turn' rest u v : List Message}
    {start stop : Message} {p q : Bytes} (h : Merged accepted taken)
    (hpre : ∀ op, payloads op taken <+: payloads op accepted)
    (haccepted : accepted = before ++ start :: (turn ++ ⟨.binary, p⟩ :: turn') ++ stop :: rest)
    (hstart : start.IsListenStart) (hstop : stop.IsListenStop)
    (hturn : ∀ m ∈ turn ++ turn', ¬m.IsListenStart) (htaken : taken = u ++ ⟨.text, q⟩ :: v)
    (hnumber : number .text u =
      number .text (before ++ start :: (turn ++ ⟨.binary, p⟩ :: turn'))) :
    ∃ u₁ u₂ u₃, u = u₁ ++ start :: u₂ ++ ⟨.binary, p⟩ :: u₃ ∧
      number .text u₁ = number .text before ∧
      number .binary (u₁ ++ start :: u₂) = number .binary (before ++ start :: turn) := by
  obtain ⟨op, startText⟩ := start
  obtain rfl : op = .text := hstart.1
  -- the packet has been taken before the listen-stop
  have hlatest : LatestTurn (before ++ ⟨.text, startText⟩ :: (turn ++ ⟨.binary, p⟩ :: turn'))
      (turn ++ ⟨.binary, p⟩ :: turn') := by
    refine ⟨before, _, rfl, hstart, fun m hm => ?_⟩
    rcases List.mem_append.mp hm with hm | hm
    · exact hturn m (List.mem_append_left _ hm)
    · obtain rfl | hm := List.mem_cons.mp hm
      · exact fun hs => nomatch hs.1
      · exact hturn m (List.mem_append_right _ hm)
  have hearly := h.early haccepted hstop htaken hnumber _ hlatest (by
    rw [number_append, number_cons, if_pos rfl]
    omega)
  have hlt : number .binary (before ++ ⟨.text, startText⟩ :: turn) < number .binary u := by
    simp at hearly ⊢
    omega
  obtain ⟨u', p', u₃, rfl, hpacket⟩ := exists_numbered hlt
  have haccepted' : accepted = (before ++ ⟨.text, startText⟩ :: turn) ++
      ⟨.binary, p⟩ :: (turn' ++ stop :: rest) := by simp [haccepted]
  have htaken' : taken = u' ++ ⟨.binary, p'⟩ :: (u₃ ++ ⟨.text, q⟩ :: v) := by simp [htaken]
  have hpayload := hpre .binary
  rw [htaken', haccepted'] at hpayload
  obtain rfl := payload_eq hpayload hpacket
  -- and after the listen-start, a text that was accepted before it
  have hlate := h.late haccepted' htaken' hpacket
  have hlt : number .text before < number .text u' := by
    simp at hlate
    omega
  obtain ⟨u₁, t, u₂, rfl, htext⟩ := exists_numbered hlt
  have hpayload := hpre .text
  rw [htaken, haccepted] at hpayload
  simp only [List.append_assoc, List.cons_append] at hpayload
  obtain rfl := payload_eq hpayload htext
  exact ⟨u₁, u₂, u₃, rfl, htext, hpacket⟩

/-- The frames belong to connections that exist. -/
def World.Connected (w : World) : Prop :=
  (∀ frame ∈ w.dequeued, 0 < frame.connection ∧ frame.connection ≤ w.started) ∧
    ∀ frame ∈ w.wire, 0 < frame.connection ∧ frame.connection ≤ w.started

theorem World.Connected.step {i : ThreadId} {w w' : World} (h : w.Connected)
    (hb : System.Base i w w') : w'.Connected := by
  have hle := hb.step.started_le
  have hnew : ∀ k, i = .service k → w' = w ∨ 0 < k ∧ k ≤ w'.started := by
    intro k hi
    exact (hb.service k hi).imp_right fun hk => ⟨hk.1.pos, hk.1.created.trans hle⟩
  obtain ⟨hdequeued, hwire⟩ := hb.step.connection
  refine ⟨fun frame hf => ?_, fun frame hf => ?_⟩
  · obtain hold | hi := hdequeued frame hf
    · exact (h.1 frame hold).imp_right (·.trans hle)
    · obtain rfl | hk := hnew _ hi
      · exact h.1 frame hf
      · exact hk
  · obtain hold | hi := hwire frame hf
    · exact (h.2 frame hold).imp_right (·.trans hle)
    · obtain rfl | hk := hnew _ hi
      · exact h.2 frame hf
      · exact hk

namespace System

variable {cjsonParse : Bytes → Option Json} {config : AppConfig} {cfg : Config}

/-- In every run on one connection in which no packet of a turn waits when the listen-stop of the
    turn is queued: every packet accepted between a listen-start and a listen-stop is written
    between them. -/
theorem turns_in_order (hr : Reach cjsonParse StopsDrained config cfg)
    (hone : cfg.shared.started ≤ 1) : cfg.shared.TurnsInOrder := by
  have hsteps := hr.frames
  have hinit : (World.init config).Merges := by
    refine ⟨fun ha => ?_, fun ha => ?_, fun ha => ?_⟩ <;> simp [World.accepted, World.init] at ha
  let merged (w : World) : Prop := w.Conserved ∧ w.Merges
  have hstart : merged (System.init config).shared := ⟨World.init_conserved, hinit⟩
  have hmerges : merged cfg.shared := Threads.Reach.invariant hstart
    (fun _ _ _ h hm => ⟨h.2.1.step.conserved hm.1, hm.2.step hm.1 h.2.1.step h.1⟩) hsteps
  have hconserved := hmerges.1
  have hnone : (System.init config).shared.Connected :=
    ⟨fun _ h => absurd h List.not_mem_nil, fun _ h => absurd h List.not_mem_nil⟩
  have hconnected : cfg.shared.Connected := Threads.Reach.invariant hnone
    (fun _ _ _ h hc => World.Connected.step hc h.2.1) hsteps
  let near (w : World) : Prop := (w.link 1).Near
  have hlevel : near (System.init config).shared := .inl rfl
  have hnear : near cfg.shared := Threads.Reach.invariant hlevel
    (fun _ _ _ h hn => h.2.1.step.near (h.2.2 1) hn) hsteps
  have hours : ∀ {k n : Nat}, 0 < k ∧ k ≤ n → n ≤ 1 → k = 1 := by
    intro k n hk hn
    omega
  obtain ⟨hand, hlen, hsent, -⟩ := ClientThread.SentInOrder.of_near hconserved hnear
    (framesOn_eq_self fun frame hf => hours (hconnected.1 frame hf) hone)
    (framesOn_eq_self fun frame hf => hours (hconnected.2 frame hf) hone)
  refine ⟨⟨hand, hlen, hsent⟩, fun ha hstart hstop hturn hw hn => ?_⟩
  have htaken : cfg.shared.taken = cfg.shared.written ++ (hand.map Frame.message).reverse := by
    simp [World.taken, World.written, hsent.taken]
  rw [hw, List.append_assoc, List.cons_append] at htaken
  exact hmerges.2.between (fun op => hconserved.prefix_accepted) ha hstart hstop hturn htaken hn

/-- The message that a builder makes for the session `s1`. -/
def sampleListen (build : Bytes → Nat → Option Bytes) : Message :=
  ⟨.text, (build (CString.ofString "s1") 256).getD []⟩

theorem sampleListen_start : (sampleListen buildListenStartManual).IsListenStart :=
  ⟨rfl, CString.ofString "s1", by decide +kernel⟩

theorem sampleListen_stop : (sampleListen buildListenStopManual).IsListenStop :=
  ⟨rfl, CString.ofString "s1", by decide +kernel⟩

/-- A turn with one packet begins; the packet is accepted. -/
def turnBegins : List (ThreadId × Nat × List Answer) :=
  [(.main, 15, [.ok]),
    (.service 1, 23, [.ok, .ok, .ok, .callback .established, receives 0, .nothing]),
    (.main, 57, [.ok, .ok, .nothing, .nothing, .nothing, .input [10], .ok, .ok, .nothing]),
    (.capture, 16, [.count 960, .captured (List.replicate 960 0), .packet [1], .count 3])]

/-- The user ends the turn. -/
def turnEnds : ThreadId × Nat × List Answer := (.main, 26, [.nothing, .input [10], .ok])

/-- The test for `StopsDrained`: nothing is queued but packets, unless no packet waits. -/
def stopsDrained (_ : ThreadId) (w w' : World) : Bool :=
  (added w.queued w'.queued).all fun m => decide (m.opcode = .binary) || w.waitingPackets.isEmpty

theorem stopsDrained_iff (i : ThreadId) (w w' : World) (h : stopsDrained i w w' = true) :
    StopsDrained i w w' := by
  intro stop hqueued hstop turn _ _
  simp only [stopsDrained, hqueued, added_cons, Option.all_some, Bool.or_eq_true,
    decide_eq_true_eq] at h
  rcases h with hbinary | hempty
  · cases hstop.1.symm.trans hbinary
  · exact List.isEmpty_iff.mp hempty

/-- The packet is written before the turn ends. -/
theorem turns_in_order_packet :
    ∃ cfg, Reach sampleParse StopsDrained ⟨1, 16000, 0, 500⟩ cfg ∧ cfg.shared.written.drop 1 =
      [sampleListen buildListenStartManual, ⟨.binary, [1]⟩, sampleListen buildListenStopManual] ∧
      cfg.shared.TurnsInOrder := by
  have h : (play sampleParse stopsDrained ⟨1, 16000, 0, 500⟩ (turnBegins ++ [
      (.service 1, 24, [.callback .writeable, .ok, .ok, .callback .writeable, .ok, .ok,
        .callback .writeable, .ok, .ok, .ok, .nothing]),
      turnEnds, (.service 1, 10, [.callback .writeable, .ok, .ok, .nothing])])).any (fun cfg =>
        decide (cfg.shared.started ≤ 1) && decide (cfg.shared.written.drop 1 =
          [sampleListen buildListenStartManual, ⟨.binary, [1]⟩,
            sampleListen buildListenStopManual])) = true := by decide +kernel
  obtain ⟨cfg, hr, hp⟩ := exists_of_play stopsDrained_iff h
  simp only [Bool.and_eq_true, decide_eq_true_eq] at hp
  exact ⟨cfg, hr, hp.2, turns_in_order hr hp.1⟩

/-- The turn ends while the packet waits: the listen-stop overtakes it. -/
theorem packet_overtaken : ¬∀ cfg, Reach sampleParse anyStep ⟨1, 16000, 0, 500⟩ cfg →
    cfg.shared.started ≤ 1 → cfg.shared.TurnsInOrder := by
  intro hall
  have h : (play sampleParse (fun _ _ _ => true) ⟨1, 16000, 0, 500⟩ (turnBegins ++ [turnEnds,
      (.service 1, 24, [.callback .writeable, .ok, .ok, .callback .writeable, .ok, .ok,
        .callback .writeable, .ok, .ok, .nothing])])).any (fun cfg =>
        decide (cfg.shared.started ≤ 1) &&
        decide (cfg.shared.accepted.drop 1 = [sampleListen buildListenStartManual, ⟨.binary, [1]⟩,
          sampleListen buildListenStopManual]) &&
        decide (cfg.shared.written.drop 1 = [sampleListen buildListenStartManual,
          sampleListen buildListenStopManual]) &&
        decide (cfg.shared.accepted.take 1 = cfg.shared.written.take 1) &&
        cfg.shared.written.all fun m => decide (m.opcode = .text)) = true := by decide +kernel
  obtain ⟨cfg, hr, hp⟩ := exists_of_play (fun _ _ _ _ => trivial) h
  simp only [Bool.and_eq_true, decide_eq_true_eq, List.all_eq_true] at hp
  obtain ⟨⟨⟨⟨hone, haccepted⟩, hwritten⟩, hhead⟩, htexts⟩ := hp
  have ha := (List.take_append_drop 1 cfg.shared.accepted).symm
  have hw := (List.take_append_drop 1 cfg.shared.written).symm
  rw [haccepted, hhead] at ha
  rw [hwritten] at hw
  have ha : cfg.shared.accepted = cfg.shared.written.take 1 ++
      sampleListen buildListenStartManual :: ([] ++ ⟨.binary, [1]⟩ :: []) ++
      sampleListen buildListenStopManual :: [] := ha.trans (by simp)
  have hw : cfg.shared.written = (cfg.shared.written.take 1 ++
      [sampleListen buildListenStartManual]) ++ sampleListen buildListenStopManual :: [] :=
    hw.trans (by simp)
  obtain ⟨u₁, u₂, u₃, hu, -⟩ := (hall cfg hr hone).between ha sampleListen_start sampleListen_stop
    nofun hw (by simp [sampleListen])
  -- the packet would have been written
  have hmem : (⟨.binary, [1]⟩ : Message) ∈ cfg.shared.written := by
    rw [hw, hu]
    simp
  cases htexts _ hmem

end System

end Xiaozhi
