-- SUMMARY: Messages that come in fragments are handed over as they were sent, unless they are too large.
import Xiaozhi.Client.Receiving

/-!
# Fragmented

A message is put together from its fragments. One that fits is handed over as it
was sent, however it has been split and whatever comes between its fragments. Of
one that is too large, what has been collected is dropped when it does not fit
any more; but collecting goes on with the fragments that are left.
-/

namespace Xiaozhi

open Threads World

/-- A message, as it is split into fragments. -/
structure SentMessage where
  opcode : Opcode
  parts : List Bytes
  last : Bytes

namespace SentMessage

variable {m : SentMessage} {k : Nat}

/-- The message in one piece. -/
def payload (m : SentMessage) : Bytes := m.parts.flatten ++ m.last

/-- The fragments of the message on connection `k`. -/
def fragments (m : SentMessage) (k : Nat) : List Fragment :=
  m.parts.map (fun data => ⟨k, m.opcode, data, false⟩) ++ [⟨k, m.opcode, m.last, true⟩]

/-- No fragment is empty, the message fits, and a text has no null byte in it. -/
structure Deliverable (m : SentMessage) : Prop where
  parts : ∀ data ∈ m.parts, data ≠ []
  last : m.last ≠ []
  fits : m.payload.length ≤ m.opcode.capacity
  text : m.opcode = .text → 0 ∉ m.payload

theorem Deliverable.handed (h : m.Deliverable) : m.opcode.handed m.payload = m.payload := by
  cases hop : m.opcode with
  | binary => rfl
  | text => exact CString.ofBytes_eq_self fun b hb hzero => h.text hop (hzero ▸ hb)

end SentMessage

/-! ## One fragment -/

namespace Inbox

variable {x : Inbox} {f : Fragment} {b : Opcode → Bytes} {fs : List Fragment}

/-- A fragment that fits is collected. -/
theorem step_collect (hne : f.data ≠ [])
    (hfits : (x.buffer f.opcode ++ f.data).length ≤ f.opcode.capacity) (hf : f.final = false) :
    x.step f = x.setBuffer f.opcode (x.buffer f.opcode ++ f.data) := by
  simp only [step, hne, and_false, Nat.not_lt.mpr hfits, hf, if_false, Bool.false_eq_true]

/-- With the last fragment the message is handed over. -/
theorem step_complete (hne : f.data ≠ [])
    (hfits : (x.buffer f.opcode ++ f.data).length ≤ f.opcode.capacity) (hf : f.final = true) :
    x.step f = (x.handOver f.opcode
      (f.opcode.handed (x.buffer f.opcode ++ f.data))).setBuffer f.opcode [] := by
  simp only [step, hne, and_false, Nat.not_lt.mpr hfits, hf, if_false, if_true]

/-- A fragment touches the buffer of its kind only. -/
theorem buffer_step {op : Opcode} (hop : f.opcode ≠ op) :
    (x.step f).buffer op = x.buffer op := by
  have hop' : op ≠ f.opcode := fun h => hop h.symm
  unfold step
  dsimp only
  split
  · rfl
  · split
    · simp [setBuffer, hop']
    · split
      · simp [setBuffer, handOver, hop']
      · simp [setBuffer, hop']

/-- The buffer of a kind that has not come is as it was. -/
theorem buffer_run {op : Opcode} (hop : ∀ f ∈ fs, f.opcode ≠ op) :
    (run b fs).buffer op = b op := by
  induction fs using List.reverseRecOn with
  | nil => rfl
  | append_singleton fs f ih =>
    simp only [List.forall_mem_append, List.forall_mem_singleton] at hop
    rw [run_append_singleton, buffer_step hop.2]
    exact ih hop.1

end Inbox

/-! ## Messages that fit -/

/-- The fragments `fs` are those of the messages `ms`, in the order in which
    these end, and of messages of which so far the `parts` have come. Fragments
    of texts may come between those of a binary message, and the reverse. -/
inductive Received (k : Nat) : List Fragment → (Opcode → List Bytes) → List SentMessage → Prop where
  | nil : Received k [] (fun _ => []) []
  | part {fs : List Fragment} {parts : Opcode → List Bytes} {ms : List SentMessage} (op : Opcode)
      (data : Bytes) (hfs : Received k fs parts ms) (hne : data ≠ [])
      (hfits : (parts op ++ [data]).flatten.length ≤ op.capacity) :
      Received k (fs ++ [⟨k, op, data, false⟩]) (Function.update parts op (parts op ++ [data])) ms
  | last {fs : List Fragment} {parts : Opcode → List Bytes} {ms : List SentMessage} {m : SentMessage}
      (hfs : Received k fs parts ms) (hm : m.Deliverable) (hparts : m.parts = parts m.opcode) :
      Received k (fs ++ [⟨k, m.opcode, m.last, true⟩]) (Function.update parts m.opcode [])
        (ms ++ [m])

/-- What is handed over of some messages. -/
def delivery (ms : List SentMessage) : List (Opcode × Bytes) := ms.map fun m => (m.opcode, m.payload)

namespace Received

variable {k : Nat} {fs : List Fragment} {parts : Opcode → List Bytes} {ms : List SentMessage}
  {b : Opcode → Bytes}

/-- A whole message comes, when none of its kind is being collected. -/
theorem message {m : SentMessage} (h : Received k fs parts ms) (hm : m.Deliverable)
    (hparts : parts m.opcode = []) : Received k (fs ++ m.fragments k) parts (ms ++ [m]) := by
  have hsame : Function.update parts m.opcode [] = parts :=
    Function.update_eq_self_iff.mpr hparts.symm
  have hcollect (datas : List Bytes) (hpre : datas <+: m.parts) :
      Received k (fs ++ datas.map fun data => ⟨k, m.opcode, data, false⟩)
        (Function.update parts m.opcode datas) ms := by
    induction datas using List.reverseRecOn with
    | nil => simpa [hsame] using h
    | append_singleton datas data ih =>
      have hmem : data ∈ m.parts := hpre.subset (by simp)
      have hfits : (datas ++ [data]).flatten.length ≤ m.opcode.capacity := by
        refine Nat.le_trans ?_ hm.fits
        obtain ⟨rest, hrest⟩ := hpre
        rw [SentMessage.payload, ← hrest]
        simp only [List.flatten_append, List.length_append]
        omega
      have hnext := (ih ((List.prefix_append _ _).trans hpre)).part m.opcode data
        (hm.parts data hmem) (by simpa using hfits)
      simpa using hnext
  have hlast := (hcollect m.parts (List.prefix_refl _)).last hm (by simp)
  rw [SentMessage.fragments, ← List.append_assoc]
  simpa [hsame] using hlast

/-- Messages that come one after the other. -/
theorem messages {ms : List SentMessage} (hms : ∀ m ∈ ms, m.Deliverable) :
    Received k (ms.flatMap (·.fragments k)) (fun _ => []) ms := by
  induction ms using List.reverseRecOn with
  | nil => exact .nil
  | append_singleton ms m ih =>
    simp only [List.forall_mem_append, List.forall_mem_singleton] at hms
    rw [List.flatMap_append]
    simpa using (ih hms.1).message hms.2 rfl

/-- The buffers hold what has come of the messages that are not complete, and
    the others have been handed over. -/
theorem run (h : Received k fs parts ms) (hb : ∀ f ∈ fs, b f.opcode = []) :
    (Inbox.run b fs).messages = delivery ms ∧
    ∀ op, b op = [] → (Inbox.run b fs).buffer op = (parts op).flatten := by
  induction h with
  | nil => exact ⟨rfl, fun op hop => hop⟩
  | @part fs parts ms op data hfs hne hfits ih =>
    simp only [List.forall_mem_append, List.forall_mem_singleton] at hb
    obtain ⟨hmessages, hbuffer⟩ := ih hb.1
    have hcollect : (Inbox.run b fs).buffer op ++ data = (parts op ++ [data]).flatten := by
      rw [hbuffer op hb.2]
      simp
    rw [Inbox.run_append_singleton,
      Inbox.step_collect hne (by rw [hcollect]; exact hfits) rfl, hcollect]
    refine ⟨hmessages, fun op' hop' => ?_⟩
    by_cases heq : op' = op
    · subst heq
      simp [Inbox.setBuffer]
    · simpa [Inbox.setBuffer, heq] using hbuffer op' hop'
  | @last fs parts ms m hfs hm hparts ih =>
    simp only [List.forall_mem_append, List.forall_mem_singleton] at hb
    obtain ⟨hmessages, hbuffer⟩ := ih hb.1
    have hcollect : (Inbox.run b fs).buffer m.opcode ++ m.last = m.payload := by
      rw [hbuffer _ hb.2, ← hparts]
      rfl
    rw [Inbox.run_append_singleton,
      Inbox.step_complete hm.last (by rw [hcollect]; exact hm.fits) rfl, hcollect, hm.handed]
    refine ⟨?_, fun op' hop' => ?_⟩
    · simp [Inbox.setBuffer, Inbox.handOver, hmessages, delivery]
    · by_cases heq : op' = m.opcode
      · subst heq
        simp [Inbox.setBuffer]
      · simpa [Inbox.setBuffer, Inbox.handOver, heq] using hbuffer op' hop'

end Received

/-! ## Messages that are too large -/

namespace SentMessage

/-- How many bytes are in the buffer when some parts have come, with `n` bytes
    in it at first. -/
def pendingFrom (op : Opcode) (n : Nat) (parts : List Bytes) : Nat :=
  parts.foldl (fun n data => if op.capacity < n + data.length then 0 else n + data.length) n

/-- How many bytes are in the buffer when the last fragment comes. -/
def pending (m : SentMessage) : Nat := pendingFrom m.opcode 0 m.parts

end SentMessage

namespace Inbox

variable {b : Opcode → Bytes} {fs : List Fragment} {op : Opcode}

/-- The messages of a kind come from the fragments of that kind. -/
theorem channel_run : (run b fs).channel fs op =
    (fs.filter (·.opcode = op)).foldl (Channel.step op) ⟨b op, [], []⟩ := by
  induction fs using List.reverseRecOn with
  | nil => rfl
  | append_singleton fs f ih =>
    rw [run_append_singleton, channel_step, ih, List.filter_append, List.foldl_append]
    by_cases hop : f.opcode = op
    · rw [if_pos hop, List.filter_singleton, decide_eq_true hop]
      rfl
    · rw [if_neg hop, List.filter_singleton, decide_eq_false hop]
      rfl

end Inbox

namespace SentMessage

variable {op : Opcode} {n s : Nat} {parts : List Bytes}

end SentMessage

namespace Channel

variable {op : Opcode} {c : Channel} {m : SentMessage} {k : Nat} {f : Fragment}

/-- Fragments that end no message hand nothing over. -/
theorem messages_fold {fs : List Fragment} (hfs : ∀ f ∈ fs, f.final = false) :
    (fs.foldl (step op) c).messages = c.messages := by
  induction fs generalizing c with
  | nil => rfl
  | cons f fs ih =>
    obtain ⟨hf, hfs⟩ := List.forall_mem_cons.mp hfs
    refine (ih hfs).trans ?_
    unfold step
    dsimp only
    split
    · rfl
    · split
      · rfl
      · rw [hf]
        rfl

end Channel

/-! ## Runs -/

/-- Unless the last fragment of a message of the kind is in hand, all of that
    kind have been dealt with. -/
theorem World.UpToDate.channel {w : World} {k : Nat} {b : Opcode → Bytes} {op : Opcode}
    (h : w.UpToDate k b)
    (hdone : ∀ f, w.inHand k = some f → f.opcode = op → f.final = false) :
    (w.channel k op).messages = (((w.fragmentsOn k).filter (·.opcode = op)).foldl
      (Channel.step op) ⟨b op, [], []⟩).messages := by
  rw [← Inbox.channel_run]
  have hcongr (ms : List (Opcode × Bytes)) (hms : w.messagesOn k = ms) :
      (w.channel k op).messages = (ms.filter (·.1 = op)).map (·.2) := by
    rw [← hms]
    rfl
  rcases h with hmessages | ⟨fs, f, hfs, hhand, hmessages⟩
  · exact hcongr _ hmessages
  · rw [hcongr _ hmessages, hfs, Inbox.run_append_singleton]
    show ((Inbox.run b fs).channel fs op).messages = _
    rw [Inbox.channel_step]
    split
    · next hop =>
      have hfold : ∀ g ∈ [f], g.final = false := by simpa using hdone f hhand hop
      exact (Channel.messages_fold (c := (Inbox.run b fs).channel fs op) hfold).symm
    · rfl

/-- The first fragment of a kind on connection `k` finds an empty buffer. That
    is so on the first connection anyway. -/
def StartsEmpty (k : Nat) (_ : ThreadId) (w w' : World) : Prop :=
  ∀ f, w'.received = f :: w.received → f.connection = k → k ≠ 1 →
    (∀ g ∈ w.fragmentsOn k, g.opcode ≠ f.opcode) → (w.inbox k).buffer f.opcode = []

/-- The buffers of the kinds that have come were empty at first. -/
def emptyCondition (k : Nat) : ReceiveCondition k where
  Admits w w' := StartsEmpty k (.service k) w w'
  Holds b fs := (k = 1 → b = fun _ => []) ∧ ∀ f ∈ fs, b f.opcode = []
  start b hb := ⟨hb, fun _ h => absurd h List.not_mem_nil⟩
  receive {w w' f b} hempty hreceived hk hinbox hb := by
    refine ⟨hb.1, ?_⟩
    simp only [List.forall_mem_append, List.forall_mem_singleton]
    refine ⟨hb.2, ?_⟩
    by_cases hfirst : ∀ g ∈ w.fragmentsOn k, g.opcode ≠ f.opcode
    · by_cases hone : k = 1
      · rw [hb.1 hone]
      · rw [← Inbox.buffer_run (b := b) hfirst, ← hinbox]
        exact hempty f hreceived hk hone hfirst
    · push Not at hfirst
      obtain ⟨g, hg, hop⟩ := hfirst
      rw [← hop]
      exact hb.2 g hg

namespace System

variable {cjsonParse : Bytes → Option Json} {config : AppConfig} {cfg : Config} {k : Nat}

/-- In every run in which a connection begins with empty buffers: when messages
    that fit come in on it, each of them is handed over with its last fragment,
    once, in their order and exactly as it was sent. -/
theorem received_as_sent {parts : Opcode → List Bytes} {ms : List SentMessage}
    (hr : Reach cjsonParse (StartsEmpty k) config cfg)
    (hs : Received k (cfg.shared.fragmentsOn k) parts ms) :
    cfg.shared.messagesOn k = delivery ms ∨
    ∃ ms' m, ms = ms' ++ [m] ∧ cfg.shared.inHand k = some ⟨k, m.opcode, m.last, true⟩ ∧
      cfg.shared.messagesOn k = delivery ms' := by
  obtain ⟨b, hw, -, hb⟩ := hr.inbox (emptyCondition k) fun _ _ _ h => h
  rcases hw with hmessages | ⟨fs, f, hfs, hhand, hmessages⟩
  · exact .inl (hmessages.trans (hs.run hb).1)
  · rw [hfs] at hs hb
    simp only [List.forall_mem_append, List.forall_mem_singleton] at hb
    generalize hgs : fs ++ [f] = gs at hs
    cases hs with
    | nil => simp at hgs
    | part op data hs hne hfits =>
      obtain ⟨rfl, -⟩ := List.append_inj' hgs rfl
      exact .inl (hmessages.trans (hs.run hb.1).1)
    | @last _ _ ms' m hs hm hparts =>
      obtain ⟨rfl, hf⟩ := List.append_inj' hgs rfl
      obtain rfl := List.singleton_inj.mp hf
      exact .inr ⟨ms', m, rfl, hhand, hmessages.trans (hs.run hb.1).1⟩

/-- Every step of the first connection meets the condition. -/
theorem startsEmpty_first (i : ThreadId) (w w' : World) (_ : true = true) : StartsEmpty 1 i w w' :=
  fun _ _ _ hone => absurd rfl hone

/-- A text arrives in two fragments, and one of a binary message between them. -/
theorem received_as_sent_text : ∃ cfg,
    Reach sampleParse (StartsEmpty 1) ⟨1, 16000, 1200, 500⟩ cfg ∧ cfg.shared.fragmentsOn 1 =
      [⟨1, .text, [120], false⟩, ⟨1, .binary, [1], false⟩, ⟨1, .text, [121], true⟩] ∧
    cfg.shared.messagesOn 1 = [(.text, [120, 121])] := by
  have h : (play sampleParse (fun _ _ _ => true) ⟨1, 16000, 1200, 500⟩ [
      (.main, 15, [.ok]),
      (.service 1, 25, [.ok, .ok, .ok, .callback .established, .callback (.receive false [120] false),
        .callback (.receive true [1] false), .callback (.receive false [121] true)])]).any (fun cfg =>
        decide (cfg.shared.fragmentsOn 1 = [⟨1, .text, [120], false⟩, ⟨1, .binary, [1], false⟩,
          ⟨1, .text, [121], true⟩]) &&
        decide (cfg.shared.messagesOn 1 ≠ [])) = true := by decide +kernel
  obtain ⟨cfg, hr, hp⟩ := exists_of_play startsEmpty_first h
  simp only [Bool.and_eq_true, decide_eq_true_eq] at hp
  obtain ⟨hfragments, hmessages⟩ := hp
  refine ⟨cfg, hr, hfragments, ?_⟩
  have htext := (Received.nil (k := 1)).part .text [120] (by decide) (by decide)
  have hbinary := htext.part .binary [1] (by decide) (by decide)
  have hlast := hbinary.last (m := ⟨.text, [[120]], [121]⟩)
    ⟨by decide, by decide, by decide, by decide⟩ rfl
  obtain ⟨parts, hs⟩ : ∃ parts,
      Received 1 (cfg.shared.fragmentsOn 1) parts [⟨.text, [[120]], [121]⟩] := by
    rw [hfragments]
    exact ⟨_, hlast⟩
  rcases received_as_sent hr hs with hsent | ⟨ms, m, hms, -, hbefore⟩
  · exact hsent
  · obtain ⟨rfl, -⟩ := List.append_inj' (show [] ++ [_] = ms ++ [m] from hms) rfl
    exact absurd hbefore hmessages

/-- The first connection ends in the middle of a binary message, and what has come
    of it is put before the first binary message of the second one. -/
theorem binary_left_before : ∃ cfg, Reach sampleParse anyStep ⟨1, 16000, 1200, 500⟩ cfg ∧
    Received 2 (cfg.shared.fragmentsOn 2) (fun _ => []) [⟨.binary, [], [2]⟩] ∧
    cfg.shared.messagesOn 2 = [(.binary, [1, 2])] ∧
    ¬(cfg.shared.messagesOn 2 = delivery [⟨.binary, [], [2]⟩] ∨
      ∃ ms' m, [⟨.binary, [], [2]⟩] = ms' ++ [m] ∧
        cfg.shared.inHand 2 = some ⟨2, m.opcode, m.last, true⟩ ∧
        cfg.shared.messagesOn 2 = delivery ms') := by
  have h : (play sampleParse (fun _ _ _ => true) ⟨1, 16000, 1200, 500⟩ [
      (.main, 15, [.ok]),
      (.service 1, 25, [.ok, .ok, .ok, .callback .established, .callback (.receive true [1] false),
        .callback .closed, .nothing]),
      (.main, 30, [.ok, .ok, .nothing]),
      (.service 1, 9, [.nothing, .nothing]),
      (.main, 7, [.ok]),
      (.service 2, 17, [.ok, .ok, .ok, .callback .established,
        .callback (.receive true [2] true)])]).any (fun cfg =>
        decide (cfg.shared.fragmentsOn 2 = [⟨2, .binary, [2], true⟩]) &&
        decide (cfg.shared.messagesOn 2 = [(.binary, [1, 2])])) = true := by decide +kernel
  obtain ⟨cfg, hr, hp⟩ := exists_of_play (fun _ _ _ _ => trivial) h
  simp only [Bool.and_eq_true, decide_eq_true_eq] at hp
  obtain ⟨hfragments, hmessages⟩ := hp
  refine ⟨cfg, hr, ?_, hmessages, ?_⟩
  · rw [hfragments]
    exact (Received.nil (k := 2)).message (m := ⟨.binary, [], [2]⟩)
      ⟨by decide, by decide, by decide, nofun⟩ rfl
  · rw [hmessages]
    rintro (hsent | ⟨ms', m, hms, -, hbefore⟩)
    · cases hsent
    · obtain ⟨rfl, -⟩ := List.append_inj' (show [] ++ [_] = ms' ++ [m] from hms) rfl
      cases hbefore

end System

end Xiaozhi
