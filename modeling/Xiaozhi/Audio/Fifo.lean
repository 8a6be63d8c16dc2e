-- SUMMARY: The audio buffer refines a bounded FIFO of records.
import Xiaozhi.Audio.Buffer
import Xiaozhi.Data.Machine

/-!
# Audio FIFO

Two machines take the same calls: the audio buffer, with its slots in one storage
area, and a list of records with a bound on its length. They give the same
answers, where a pop is answered with what is read through the pointer that it
hands out.
-/

namespace Xiaozhi

namespace AudioBuffer

variable {τ : Type}

/-- A call of `audio_buffer_push` or `audio_buffer_pop`. -/
inductive Call (τ : Type) where
  | push (data : Bytes) (sampleRate : Int) (tag : τ)
  | pop

/-- The result of a call. With the block that a pop hands out comes what is read
    through its pointer at that moment. -/
structure Result (τ : Type) where
  code : Int
  record : Option (AudioRecord τ)

/-- The buffer as a machine. -/
def machine : Machine (AudioBuffer τ) (Call τ) (Result τ)
  | b, .push data sampleRate tag =>
    match b.push data sampleRate tag with
    | none => (⟨-1, none⟩, b)
    | some b' => (⟨0, none⟩, b')
  | b, .pop =>
    match b.pop with
    | none => (⟨0, none⟩, b)
    | some (blk, b') => (⟨1, some (b'.record blk)⟩, b')

/-- A FIFO of at most `capacity` records, each of at most `blockCapacity` bytes. -/
def fifo (capacity blockCapacity : Nat) : Machine (List (AudioRecord τ)) (Call τ) (Result τ)
  | q, .push data sampleRate tag =>
    if blockCapacity < data.length ∨ q.length = capacity then
      (⟨-1, none⟩, q)
    else
      (⟨0, none⟩, q ++ [⟨data, sampleRate, tag⟩])
  | [], .pop => (⟨0, none⟩, [])
  | r :: q, .pop => (⟨1, some r⟩, q)

/-- The buffer holds the records `q`. -/
structure Holds (capacity blockCapacity : Nat) (b : AudioBuffer τ) (q : List (AudioRecord τ)) :
    Prop where
  wf : b.WF
  capacity_eq : b.blocks.capacity = capacity
  blockCapacity_eq : b.blockCapacity = blockCapacity
  records_eq : b.records = q

variable {capacity blockCapacity : Nat} {b b' : AudioBuffer τ} {q : List (AudioRecord τ)}

theorem Holds.init [Inhabited τ] (h : AudioBuffer.init capacity blockCapacity = some b) :
    Holds capacity blockCapacity b [] := by
  refine ⟨init_wf h, ?_, ?_, init_records h⟩
  all_goals
    unfold AudioBuffer.init at h
    split at h
    · cases h
    · obtain rfl := Option.some.inj h
      rfl

theorem Holds.length (h : Holds capacity blockCapacity b q) : q.length = b.blocks.count := by
  rw [← h.records_eq, records, List.length_map, RingBuffer.length_toList]

/-- A push is refused by both, or by neither. -/
theorem Holds.push_eq_none (h : Holds capacity blockCapacity b q) (data : Bytes) (rate : Int)
    (tag : τ) :
    b.push data rate tag = none ↔ blockCapacity < data.length ∨ q.length = capacity := by
  rw [AudioBuffer.push_eq_none, h.length, h.capacity_eq, h.blockCapacity_eq]

theorem Holds.push {data : Bytes} {rate : Int} {tag : τ} (h : Holds capacity blockCapacity b q)
    (hp : b.push data rate tag = some b') :
    Holds capacity blockCapacity b' (q ++ [⟨data, rate, tag⟩]) := by
  obtain ⟨-, slot, -, hr, -, hbc⟩ := push_eq_some hp
  obtain ⟨-, hr⟩ := RingBuffer.push_eq_some hr
  refine ⟨push_wf h.wf hp, ?_, hbc.trans h.blockCapacity_eq, ?_⟩
  · rw [hr]
    exact h.capacity_eq
  · rw [push_records h.wf hp, h.records_eq]

theorem Holds.pop {blk : AudioBlock τ} (h : Holds capacity blockCapacity b q)
    (hp : b.pop = some (blk, b')) :
    ∃ q', q = b'.record blk :: q' ∧ Holds capacity blockCapacity b' q' := by
  have hrecords := pop_records h.wf hp
  obtain ⟨hr, -, hbc⟩ := pop_eq_some hp
  obtain ⟨-, -, hr⟩ := RingBuffer.pop_eq_some hr
  refine ⟨b'.records, h.records_eq ▸ hrecords, pop_wf h.wf hp, ?_, hbc.trans h.blockCapacity_eq, rfl⟩
  rw [hr]
  exact h.capacity_eq

/-- Every call gets the same answer from both. -/
theorem simulates_fifo : Machine.Simulates (@machine τ) (fifo capacity blockCapacity)
    (Holds capacity blockCapacity) := by
  intro b q c h
  cases c with
  | push data rate tag =>
    have hnone := h.push_eq_none data rate tag
    cases hp : b.push data rate tag with
    | none =>
      simp only [machine, fifo, hp, if_pos (hnone.mp hp)]
      exact ⟨trivial, h⟩
    | some b' =>
      have hroom : ¬(blockCapacity < data.length ∨ q.length = capacity) := by
        rw [← hnone, hp]
        exact Option.some_ne_none b'
      simp only [machine, fifo, hp, if_neg hroom]
      exact ⟨trivial, h.push hp⟩
  | pop =>
    cases hp : b.pop with
    | none =>
      have hnil : q = [] := h.records_eq ▸ pop_eq_none.mp hp
      subst hnil
      simp only [machine, fifo, hp]
      exact ⟨trivial, h⟩
    | some popped =>
      obtain ⟨q', rfl, h'⟩ := h.pop hp
      simp only [machine, fifo, hp]
      exact ⟨trivial, h'⟩

/-- For every capacity and block capacity and all calls: the answers are those of
    a bounded FIFO, so a pop is answered with the bytes, the length and the rate
    of the oldest accepted push. At any moment a push is refused exactly when the
    block is too long or `capacity` blocks are queued, and then changes nothing;
    an accepted one leaves the bytes of the queued blocks alone. -/
theorem refines_fifo [Inhabited τ] (hcapacity : 0 < capacity) (hblock : 0 < blockCapacity) :
    ∃ b : AudioBuffer τ, AudioBuffer.init capacity blockCapacity = some b ∧
      ∀ calls : List (Call τ),
        (machine.run b calls).1 = ((fifo capacity blockCapacity).run [] calls).1 ∧
        (machine.run b calls).2.records = ((fifo capacity blockCapacity).run [] calls).2 ∧
        ∀ data rate tag, let b' := (machine.run b calls).2
          ((machine b' (.push data rate tag)).1.code = -1 ↔
            blockCapacity < data.length ∨ b'.size = capacity) ∧
          ((machine b' (.push data rate tag)).1.code = -1 →
            (machine b' (.push data rate tag)).2 = b') ∧
          ∀ blk ∈ b'.blocks.toList, (machine b' (.push data rate tag)).2.read blk = b'.read blk := by
  have hinit : ∃ b : AudioBuffer τ, AudioBuffer.init capacity blockCapacity = some b := by
    unfold AudioBuffer.init
    rw [if_neg (by omega)]
    exact ⟨_, rfl⟩
  obtain ⟨b, hinit⟩ := hinit
  refine ⟨b, hinit, fun calls => ?_⟩
  -- the buffer simulates the FIFO; the rest is about one call in a state that it reaches
  obtain ⟨hanswers, hholds⟩ := simulates_fifo.run (Holds.init hinit) calls
  refine ⟨hanswers, hholds.records_eq, fun data rate tag => ?_⟩
  intro b'
  have hnone := hholds.push_eq_none data rate tag
  rw [hholds.length] at hnone
  cases hp : b'.push data rate tag with
  | none =>
    have hcall : machine b' (.push data rate tag) = (⟨-1, none⟩, b') := by simp only [machine, hp]
    rw [hcall]
    exact ⟨iff_of_true rfl (hnone.mp hp), fun _ => rfl, fun _ _ => rfl⟩
  | some pushed =>
    have hcall : machine b' (.push data rate tag) = (⟨0, none⟩, pushed) := by
      simp only [machine, hp]
    have hroom : ¬(blockCapacity < data.length ∨ b'.size = capacity) := by
      intro h
      rw [hnone.mpr h] at hp
      cases hp
    have hcode : ¬((0 : Int) = -1) := by decide
    rw [hcall]
    exact ⟨iff_of_false hcode hroom, fun h => absurd h hcode, fun blk hblk => push_read hholds.wf hp hblk⟩

/-- A FIFO of two records: the third push is refused, and the slot of the first
    record is used again. -/
theorem refines_fifo_two : ∃ b : AudioBuffer Unit, AudioBuffer.init 2 3 = some b ∧
    (machine.run b [.push [1, 2, 3] 16000 (), .push [4] 24000 (), .push [5] 24000 (), .pop,
        .push [6] 24000 (), .pop, .pop]).1.map (fun r => (r.code, r.record.map (·.bytes))) =
      [(0, none), (0, none), (-1, none), (1, some [1, 2, 3]), (0, none), (1, some [4]),
        (1, some [6])] := by
  obtain ⟨b, hinit, h⟩ := @refines_fifo Unit 2 3 _ (by decide) (by decide)
  refine ⟨b, hinit, ?_⟩
  rw [(h _).1]
  rfl

end AudioBuffer

end Xiaozhi
