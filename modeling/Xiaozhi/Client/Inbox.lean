-- SUMMARY: What a client makes of the fragments that it receives on a connection.
import Xiaozhi.Data.Lists
import Xiaozhi.App.Runtime

/-!
# Inbox

The fragments of a message are collected in a buffer, one for texts and one for
binary messages, until the last one has come. `Inbox.run` says what becomes of
fragments that come one after the other. The buffers belong to the client, not
to the connection, and nothing empties them when a connection ends.
-/

namespace Xiaozhi

/-- The length of the longest message that can be collected. -/
def Opcode.capacity : Opcode → Nat
  | .text => 4095
  | .binary => 4096

/-- What is handed over of a message that has been collected. -/
def Opcode.handed : Opcode → Bytes → Bytes
  | .text => CString.ofBytes
  | .binary => id

/-- The bytes in some fragments. -/
def contents (fs : List Fragment) : Bytes := fs.flatMap (·.data)

@[simp] theorem contents_nil : contents [] = [] := rfl

@[simp] theorem contents_append {fs gs : List Fragment} :
    contents (fs ++ gs) = contents fs ++ contents gs := List.flatMap_append

@[simp] theorem contents_singleton {f : Fragment} : contents [f] = f.data := by
  simp [contents]

/-- The receive buffers, and the messages handed over on a connection, the
    first one first. -/
structure Inbox where
  buffer : Opcode → Bytes
  messages : List (Opcode × Bytes)

namespace Inbox

/-- Fill the buffer of a kind. -/
def setBuffer (x : Inbox) (op : Opcode) (b : Bytes) : Inbox :=
  { x with buffer := Function.update x.buffer op b }

/-- Hand a message over. -/
def handOver (x : Inbox) (op : Opcode) (m : Bytes) : Inbox :=
  { x with messages := x.messages ++ [(op, m)] }

/-- What becomes of one fragment. An empty fragment of a binary message is
    refused, and a message that does not fit is dropped as far as it has come. -/
def step (x : Inbox) (f : Fragment) : Inbox :=
  let m := x.buffer f.opcode ++ f.data
  if f.opcode = .binary ∧ f.data = [] then
    x
  else if f.opcode.capacity < m.length then
    x.setBuffer f.opcode []
  else if f.final then
    (x.handOver f.opcode (f.opcode.handed m)).setBuffer f.opcode []
  else
    x.setBuffer f.opcode m

/-- What becomes of fragments that come one after the other, when the buffers
    hold `b` at first. -/
def run (b : Opcode → Bytes) (fs : List Fragment) : Inbox := fs.foldl step ⟨b, []⟩

@[simp] theorem run_nil {b : Opcode → Bytes} : run b [] = ⟨b, []⟩ := rfl

theorem run_append_singleton {b : Opcode → Bytes} {fs : List Fragment} {f : Fragment} :
    run b (fs ++ [f]) = (run b fs).step f := by
  rw [run, List.foldl_append]
  rfl

end Inbox

/-! ## One kind of message -/

/-- One kind of message on a connection: the receive buffer, the fragments
    received and the messages handed over, the first one first. -/
structure Channel where
  buffer : Bytes
  fragments : List Fragment
  messages : List Bytes

namespace Channel

/-- The first message is not complete. -/
def Open (c : Channel) : Prop := ∀ f ∈ c.fragments, f.final = false

instance (c : Channel) : Decidable c.Open := List.decidableBAll _ c.fragments

/-- The fragment `f` of the first message finds an empty buffer if it is the
    first one. The message fits, a text has no null byte in it, and a binary
    message does not end with an empty fragment. -/
def FirstOk (op : Opcode) (c : Channel) (f : Fragment) : Prop :=
  (c.fragments = [] → c.buffer = []) ∧
  (contents (c.fragments ++ [f])).length ≤ op.capacity ∧
  (op = .text → 0 ∉ f.data) ∧
  (op = .binary → f.final = true → f.data ≠ [])

instance (op : Opcode) (c : Channel) (f : Fragment) : Decidable (FirstOk op c f) :=
  inferInstanceAs (Decidable (_ ∧ _ ∧ _ ∧ _))

/-- Every message consists of fragments that were received one after the other.
    Once the first message is complete, it is handed over exactly as it was
    sent, unless its last fragment is still `inHand`. -/
structure Faithful (op : Opcode) (inHand : Option Fragment) (c : Channel) : Prop where
  parts : ∀ m ∈ c.messages, ∃ fs, fs <:+: c.fragments ∧ m = op.handed (contents fs)
  first : ∀ fs last rest, c.fragments = fs ++ last :: rest → (∀ f ∈ fs, f.final = false) →
    last.final = true → c.messages.head? = some (contents (fs ++ [last])) ∨
      c.messages = [] ∧ inHand = some last

/-- No fragment is in hand, and the buffer holds the latest ones. -/
structure Settled (op : Opcode) (c : Channel) : Prop where
  parts : ∀ m ∈ c.messages, ∃ fs, fs <:+: c.fragments ∧ m = op.handed (contents fs)
  first : ∀ fs last rest, c.fragments = fs ++ last :: rest → (∀ f ∈ fs, f.final = false) →
    last.final = true → c.messages.head? = some (contents (fs ++ [last]))
  collected : c.fragments ≠ [] → ∃ fs, fs <:+ c.fragments ∧ c.buffer = contents fs
  opening : c.Open → c.messages = [] ∧ (c.fragments ≠ [] → c.buffer = contents c.fragments) ∧
    (op = .text → 0 ∉ contents c.fragments)

/-- A fragment comes. -/
def take (c : Channel) (f : Fragment) : Channel := { c with fragments := c.fragments ++ [f] }

/-- What becomes of a fragment of this kind. -/
def step (op : Opcode) (c : Channel) (f : Fragment) : Channel :=
  let m := c.buffer ++ f.data
  if op = .binary ∧ f.data = [] then
    c.take f
  else if op.capacity < m.length then
    { c.take f with buffer := [] }
  else if f.final then
    ⟨[], c.fragments ++ [f], c.messages ++ [op.handed m]⟩
  else
    { c.take f with buffer := m }

variable {op : Opcode} {c c' : Channel} {f : Fragment} {inHand : Option Fragment}

theorem Settled.faithful (h : c.Settled op) : c.Faithful op inHand where
  parts := h.parts
  first fs last rest hfs hopen hlast := .inl (h.first fs last rest hfs hopen hlast)

/-- The buffer does not matter. -/
theorem Faithful.congr (h : c.Faithful op inHand) (hf : c'.fragments = c.fragments)
    (hm : c'.messages = c.messages) : c'.Faithful op inHand := by
  refine ⟨?_, ?_⟩
  · rw [hf, hm]
    exact h.parts
  · rw [hf, hm]
    exact h.first

/-- Before anything has come. -/
theorem Settled.of_nil (hf : c.fragments = []) (hm : c.messages = []) : c.Settled op := by
  refine ⟨?_, ?_, fun hne => absurd hf hne, fun _ => ⟨hm, fun hne => absurd hf hne, fun _ => ?_⟩⟩
  · intro m hmem
    rw [hm] at hmem
    cases hmem
  · intro fs last rest hfs
    rw [hf] at hfs
    simp at hfs
  · simp [hf]

theorem open_take : (c.take f).Open ↔ c.Open ∧ f.final = false := by
  simp only [Open, take, List.forall_mem_append, List.forall_mem_singleton]

/-- While the first message is collected, all of it is in the buffer. -/
theorem Settled.buffer_eq (h : c.Settled op) (ho : c.Open) (hf : c.FirstOk op f) :
    c.buffer = contents c.fragments := by
  by_cases hnil : c.fragments = []
  · rw [hf.1 hnil, hnil]
    rfl
  · exact (h.opening ho).2.1 hnil

/-- With a fragment the fragments received one after the other go on. -/
theorem parts_take (h : ∀ m ∈ c.messages, ∃ fs, fs <:+: c.fragments ∧ m = op.handed (contents fs)) :
    ∀ m ∈ c.messages, ∃ fs, fs <:+: (c.take f).fragments ∧ m = op.handed (contents fs) := by
  intro m hm
  obtain ⟨fs, hfs, hm⟩ := h m hm
  exact ⟨fs, hfs.trans (List.prefix_append _ _).isInfix, hm⟩

/-- The end of the first message is the new fragment, or came before. -/
theorem first_take {P : List Fragment → Fragment → Prop}
    (hnew : c.Open → f.final = true → P c.fragments f)
    (hold : ∀ fs last rest, c.fragments = fs ++ last :: rest → (∀ f ∈ fs, f.final = false) →
      last.final = true → P fs last) :
    ∀ fs last rest, (c.take f).fragments = fs ++ last :: rest → (∀ f ∈ fs, f.final = false) →
      last.final = true → P fs last := by
  intro fs last rest hfs hopen hlast
  have hfs : c.fragments ++ [f] = fs ++ last :: rest := hfs
  obtain ⟨rfl, rfl, -⟩ | ⟨rest', hc, -⟩ := Lists.concat_split hfs
  · exact hnew hopen hlast
  · exact hold fs last rest' hc hopen hlast

/-- A fragment has come, and is in hand. -/
theorem Settled.faithful_take (h : c.Settled op) : (c.take f).Faithful op (some f) where
  parts := parts_take h.parts
  first := first_take (P := fun fs last => c.messages.head? = some (contents (fs ++ [last])) ∨
      c.messages = [] ∧ some f = some last)
    (fun ho _ => .inr ⟨(h.opening ho).1, rfl⟩)
    fun fs last rest hfs hopen hlast => .inl (h.first fs last rest hfs hopen hlast)

/-- A message that is too large is not the first one. -/
theorem Settled.overflow (h : c.Settled op) (hok : c.Open → c.FirstOk op f)
    (hlen : op.capacity < (c.buffer ++ f.data).length) :
    Settled op { c.take f with buffer := [] } := by
  have hclosed : ¬c.Open := by
    intro ho
    have hfits := (hok ho).2.1
    rw [contents_append, contents_singleton, ← h.buffer_eq ho (hok ho)] at hfits
    omega
  refine ⟨parts_take h.parts, ?_, fun _ => ⟨[], List.nil_suffix, rfl⟩, fun ho => ?_⟩
  · exact first_take (P := fun fs last => c.messages.head? = some (contents (fs ++ [last])))
      (fun ho _ => absurd ho hclosed) h.first
  · exact absurd (open_take.mp ho).1 hclosed

/-- A fragment that does not end the first message goes into the buffer. -/
theorem Settled.append (h : c.Settled op) (hok : c.Open → c.FirstOk op f)
    (hfinal : c.Open → f.final = false) :
    Settled op { c.take f with buffer := c.buffer ++ f.data } := by
  refine ⟨parts_take h.parts, ?_, fun _ => ?_, fun ho => ?_⟩
  · refine first_take (P := fun fs last => c.messages.head? = some (contents (fs ++ [last])))
      (fun ho hf => ?_) h.first
    exact absurd (hf.symm.trans (hfinal ho)) (by simp)
  · by_cases hnil : c.fragments = []
    · have ho : c.Open := by
        intro g hg
        rw [hnil] at hg
        cases hg
      refine ⟨[f], ?_, ?_⟩
      · exact List.suffix_append _ _
      · rw [(hok ho).1 hnil, contents_singleton, List.nil_append]
    · obtain ⟨fs, hfs, hbuffer⟩ := h.collected hnil
      refine ⟨fs ++ [f], ?_, ?_⟩
      · obtain ⟨gs, hgs⟩ := hfs
        exact ⟨gs, by simp [take, ← hgs]⟩
      · rw [hbuffer, contents_append, contents_singleton]
  · have ho := (open_take.mp ho).1
    refine ⟨(h.opening ho).1, fun _ => ?_, fun ht => ?_⟩
    · show c.buffer ++ f.data = contents (c.fragments ++ [f])
      rw [contents_append, contents_singleton, h.buffer_eq ho (hok ho)]
    · show 0 ∉ contents (c.fragments ++ [f])
      rw [contents_append, contents_singleton, List.mem_append, not_or]
      exact ⟨(h.opening ho).2.2 ht, (hok ho).2.2.1 ht⟩

/-- The last fragment of a message comes, and the message is handed over. -/
theorem Settled.complete (h : c.Settled op) (hok : c.Open → c.FirstOk op f)
    (hf : f.final = true) :
    Settled op ⟨[], c.fragments ++ [f], c.messages ++ [op.handed (c.buffer ++ f.data)]⟩ := by
  have hclosed : ¬(c.take f).Open := fun ho => by simp [(open_take.mp ho).2] at hf
  refine ⟨?_, ?_, fun _ => ⟨[], List.nil_suffix, rfl⟩, fun ho => absurd ho hclosed⟩
  · intro m hm
    rcases List.mem_append.mp hm with hm | hm
    · exact parts_take h.parts m hm
    · rw [List.mem_singleton.mp hm]
      by_cases hnil : c.fragments = []
      · have ho : c.Open := by
          intro g hg
          rw [hnil] at hg
          cases hg
        refine ⟨[f], ⟨c.fragments, [], by simp⟩, ?_⟩
        rw [(hok ho).1 hnil, contents_singleton, List.nil_append]
      · obtain ⟨fs, ⟨gs, hgs⟩, hbuffer⟩ := h.collected hnil
        refine ⟨fs ++ [f], ⟨gs, [], by simp [← hgs]⟩, ?_⟩
        rw [hbuffer, contents_append, contents_singleton]
  · refine first_take (P := fun fs last =>
        (c.messages ++ [op.handed (c.buffer ++ f.data)]).head? = some (contents (fs ++ [last])))
      (fun ho _ => ?_) fun fs last rest hfs hopen hlast => ?_
    · rw [(h.opening ho).1, h.buffer_eq ho (hok ho), ← contents_singleton (f := f),
        ← contents_append]
      cases op with
      | binary => rfl
      | text =>
        have hnul : 0 ∉ contents (c.fragments ++ [f]) := by
          rw [contents_append, contents_singleton, List.mem_append, not_or]
          exact ⟨(h.opening ho).2.2 rfl, (hok ho).2.2.1 rfl⟩
        exact congrArg some (CString.ofBytes_eq_self fun b hb hzero => hnul (hzero ▸ hb))
    · rw [List.head?_append, h.first fs last rest hfs hopen hlast]
      rfl

/-- An empty fragment of a binary message is passed over. -/
theorem Settled.take (h : c.Settled op) (hok : c.Open → c.FirstOk op f) (hop : op = .binary)
    (hdata : f.data = []) : (c.take f).Settled op := by
  have hfinal : c.Open → f.final = false := by
    intro ho
    by_contra hne
    exact (hok ho).2.2.2 hop (Bool.eq_true_of_not_eq_false hne) hdata
  have happend := h.append hok hfinal
  rwa [hdata, List.append_nil] at happend

/-- A fragment is dealt with, if it is as it should be. -/
theorem Settled.step (h : c.Settled op) (hok : c.Open → c.FirstOk op f) :
    (c.step op f).Settled op := by
  unfold Channel.step
  dsimp only
  split
  · next hempty => exact h.take hok hempty.1 hempty.2
  · split
    · next hlen => exact h.overflow hok hlen
    · split
      · next hf => exact h.complete hok hf
      · next hf => exact h.append hok fun _ => Bool.eq_false_of_not_eq_true hf

end Channel

namespace Inbox

/-- The messages of the kind `op`, when the fragments `fs` have come. -/
def channel (x : Inbox) (fs : List Fragment) (op : Opcode) : Channel where
  buffer := x.buffer op
  fragments := fs.filter (·.opcode = op)
  messages := (x.messages.filter (·.1 = op)).map (·.2)

variable {x : Inbox} {fs : List Fragment} {f : Fragment} {op : Opcode}

/-- A fragment concerns its own kind only. -/
theorem channel_step : (x.step f).channel (fs ++ [f]) op =
    if f.opcode = op then (x.channel fs op).step op f else x.channel fs op := by
  by_cases hop : f.opcode = op
  · subst hop
    rw [if_pos rfl]
    by_cases hempty : f.opcode = .binary ∧ f.data = []
    · simp [Inbox.step, Channel.step, channel, Channel.take, hempty]
    · by_cases hlen : f.opcode.capacity < (x.buffer f.opcode).length + f.data.length
      · simp [Inbox.step, Channel.step, channel, Channel.take, setBuffer, hempty, hlen]
      · by_cases hf : f.final = true
        · simp [Inbox.step, Channel.step, channel, setBuffer, handOver, hempty, hlen, hf]
        · simp [Inbox.step, Channel.step, channel, Channel.take, setBuffer, hempty, hlen, hf]
  · rw [if_neg hop]
    have hop' : op ≠ f.opcode := fun h => hop h.symm
    unfold Inbox.step
    dsimp only
    split
    · simp [channel, hop]
    · split
      · simp [channel, setBuffer, hop, hop']
      · split
        · simp [channel, setBuffer, handOver, hop, hop']
        · simp [channel, setBuffer, hop, hop']

end Inbox

end Xiaozhi
