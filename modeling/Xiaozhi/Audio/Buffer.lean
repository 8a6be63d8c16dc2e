-- SUMMARY: The audio buffer: a ring of slots over one storage area, as a FIFO of blocks.
import Xiaozhi.Data.RingBuffer
import Xiaozhi.Data.Memory

/-!
# Audio buffer

`audio_buffer.c` keeps `capacity` slots of `block_capacity` bytes each in one
storage area. Each entry of the block table points to its slot for good; a push
copies the bytes into the slot at the tail, and a pop hands out the entry at
the head, with the pointer.

A block carries a tag that the source does not have. No function of the source
reads it: it tells blocks apart in statements.
-/

namespace Xiaozhi

/-- `audio_block_t`. The pointer `data` is the offset of the slot in the storage. -/
structure AudioBlock (τ : Type) where
  data : Nat
  len : Nat
  sampleRate : Int
  tag : τ

/-- `audio_buffer_t`. The block table with its indices is a ring. -/
structure AudioBuffer (τ : Type) where
  blocks : RingBuffer (AudioBlock τ)
  storage : Memory
  blockCapacity : Nat

/-- What a push hands over: the bytes, the sample rate, and the tag. -/
structure AudioRecord (τ : Type) where
  bytes : Bytes
  sampleRate : Int
  tag : τ

namespace AudioBuffer

variable {τ : Type}

/-- `audio_buffer_init`, with both allocations succeeding. -/
def init [Inhabited τ] (capacity blockCapacity : Nat) : Option (AudioBuffer τ) :=
  if capacity = 0 ∨ blockCapacity = 0 then
    none
  else
    some {
      blocks := .init capacity fun i =>
        { data := i * blockCapacity, len := 0, sampleRate := 0, tag := default }
      storage := fun _ => 0
      blockCapacity }

/-- `audio_buffer_push`: `none` is the result `-1`. -/
def push (b : AudioBuffer τ) (data : Bytes) (sampleRate : Int) (tag : τ) :
    Option (AudioBuffer τ) :=
  if data.length > b.blockCapacity then
    none
  else
    let slot := b.blocks.items b.blocks.tail
    (b.blocks.push { slot with len := data.length, sampleRate, tag }).map fun blocks =>
      { b with blocks, storage := b.storage.write slot.data data }

/-- `audio_buffer_pop`: `none` is the result `0`. -/
def pop (b : AudioBuffer τ) : Option (AudioBlock τ × AudioBuffer τ) :=
  b.blocks.pop.map fun r => (r.1, { b with blocks := r.2 })

/-- `audio_buffer_size`. -/
def size (b : AudioBuffer τ) : Nat := b.blocks.count

/-- The bytes seen through the pointer of a block that was handed out. -/
def read (b : AudioBuffer τ) (blk : AudioBlock τ) : Bytes := b.storage.read blk.data blk.len

/-- What is stored for a block of the table. -/
def record (b : AudioBuffer τ) (blk : AudioBlock τ) : AudioRecord τ :=
  { bytes := b.read blk, sampleRate := blk.sampleRate, tag := blk.tag }

/-- The queued records, oldest first. -/
def records (b : AudioBuffer τ) : List (AudioRecord τ) := b.blocks.toList.map b.record

/-- The ring is well-formed, and every entry of the block table points to its own slot. -/
structure WF (b : AudioBuffer τ) : Prop where
  ring : b.blocks.WF
  data_eq : ∀ i < b.blocks.capacity, (b.blocks.items i).data = i * b.blockCapacity
  len_le : ∀ i < b.blocks.capacity, (b.blocks.items i).len ≤ b.blockCapacity

variable {b b' : AudioBuffer τ} {data : Bytes} {rate : Int} {tag : τ} {blk : AudioBlock τ}

theorem init_wf [Inhabited τ] {capacity blockCapacity : Nat}
    (h : init capacity blockCapacity = some b) : b.WF := by
  unfold init at h
  split at h
  · cases h
  · next hne =>
    obtain rfl := Option.some.inj h
    exact ⟨RingBuffer.init_wf (by omega), fun _ _ => rfl, fun _ _ => Nat.zero_le _⟩

theorem init_records [Inhabited τ] {capacity blockCapacity : Nat}
    (h : init capacity blockCapacity = some b) : b.records = [] := by
  unfold init at h
  split at h
  · cases h
  · obtain rfl := Option.some.inj h
    rfl

/-! ## Push -/

/-- A push is refused exactly when the block is too long or the buffer is full. -/
theorem push_eq_none :
    b.push data rate tag = none ↔
      b.blockCapacity < data.length ∨ b.blocks.count = b.blocks.capacity := by
  unfold push
  split
  · simp_all
  · simp_all [RingBuffer.push_eq_none]

/-- What an accepted push does. -/
theorem push_eq_some (h : b.push data rate tag = some b') :
    data.length ≤ b.blockCapacity ∧ ∃ slot, slot = b.blocks.items b.blocks.tail ∧
      b.blocks.push { slot with len := data.length, sampleRate := rate, tag } = some b'.blocks ∧
      b'.storage = b.storage.write slot.data data ∧ b'.blockCapacity = b.blockCapacity := by
  unfold push at h
  split at h
  · cases h
  · obtain ⟨r, hr, rfl⟩ := Option.map_eq_some_iff.mp h
    exact ⟨by omega, _, rfl, hr, rfl, rfl⟩

theorem push_size (h : b.push data rate tag = some b') : b'.size = b.size + 1 := by
  obtain ⟨-, slot, -, hr, -⟩ := push_eq_some h
  obtain ⟨-, hr⟩ := RingBuffer.push_eq_some hr
  rw [size, hr, size]

theorem push_wf (hb : b.WF) (h : b.push data rate tag = some b') : b'.WF := by
  obtain ⟨hlen, slot, rfl, hr, -, hbc⟩ := push_eq_some h
  have hwf := RingBuffer.push_wf hb.ring hr
  obtain ⟨-, hr⟩ := RingBuffer.push_eq_some hr
  refine ⟨hwf, fun i hi => ?_, fun i hi => ?_⟩
  · simp only [hr] at hi ⊢
    by_cases heq : i = b.blocks.tail
    · subst heq; simp [hbc, hb.data_eq _ hi]
    · simp [heq, hbc, hb.data_eq _ hi]
  · simp only [hr] at hi ⊢
    by_cases heq : i = b.blocks.tail
    · subst heq; simpa [hbc] using hlen
    · simpa [heq, hbc] using hb.len_le _ hi

theorem tail_lt (hb : b.WF) : b.blocks.tail < b.blocks.capacity := by
  rw [hb.ring.tail_eq]
  exact Nat.mod_lt _ hb.ring.capacity_pos

/-- A push writes within the slot at the tail. -/
theorem push_read_of_ne {i len : Nat} (hb : b.WF) (h : b.push data rate tag = some b')
    (hi : i ≠ b.blocks.tail) (hlen : len ≤ b.blockCapacity) :
    b'.storage.read (i * b.blockCapacity) len = b.storage.read (i * b.blockCapacity) len := by
  obtain ⟨hdata, slot, rfl, -, hstorage, -⟩ := push_eq_some h
  rw [hstorage, hb.data_eq _ (tail_lt hb)]
  refine Memory.read_write_of_disjoint ?_
  -- different slots are whole multiples of `block_capacity` apart
  obtain hlt | hlt := Nat.lt_or_gt_of_ne hi
  · have := Nat.mul_le_mul_right b.blockCapacity (Nat.succ_le_of_lt hlt)
    rw [Nat.succ_mul] at this
    exact .inl (by omega)
  · have := Nat.mul_le_mul_right b.blockCapacity (Nat.succ_le_of_lt hlt)
    rw [Nat.succ_mul] at this
    exact .inr (by omega)

/-- A push leaves the bytes of the queued blocks as they are. -/
theorem push_read (hb : b.WF) (h : b.push data rate tag = some b') (hblk : blk ∈ b.blocks.toList) :
    b'.read blk = b.read blk := by
  obtain ⟨-, slot, -, hr, -, -⟩ := push_eq_some h
  obtain ⟨hne, -⟩ := RingBuffer.push_eq_some hr
  have hle := hb.ring.count_le
  obtain ⟨i, hi, rfl⟩ := List.mem_map.mp hblk
  have hi : i < b.blocks.count := List.mem_range.mp hi
  have hs : b.blocks.slot i < b.blocks.capacity := RingBuffer.slot_lt hb.ring i
  rw [read, read, hb.data_eq _ hs]
  refine push_read_of_ne hb h (fun heq => ?_) (hb.len_le _ hs)
  rw [hb.ring.tail_eq] at heq
  have := RingBuffer.slot_inj (r := b.blocks) (by omega) (by omega) heq
  omega

/-- An accepted push appends its record and leaves the queued ones as they are. -/
theorem push_records (hb : b.WF) (h : b.push data rate tag = some b') :
    b'.records = b.records ++ [⟨data, rate, tag⟩] := by
  obtain ⟨hlen, slot, hslot, hr, hstorage, hbc⟩ := push_eq_some h
  have hlist := RingBuffer.push_toList hb.ring hr
  simp only [records, hlist, List.map_append, List.map_cons, List.map_nil]
  congr 1
  · refine List.map_congr_left fun blk hblk => ?_
    rw [record, record, push_read hb h hblk]
  · simp [record, read, hstorage]

/-! ## Pop -/

theorem pop_eq_none : b.pop = none ↔ b.records = [] := by
  simp [pop, records, RingBuffer.pop_eq_none]

theorem pop_eq_some (h : b.pop = some (blk, b')) :
    b.blocks.pop = some (blk, b'.blocks) ∧ b'.storage = b.storage ∧
      b'.blockCapacity = b.blockCapacity := by
  obtain ⟨r, hr, h⟩ := Option.map_eq_some_iff.mp h
  obtain ⟨rfl, rfl⟩ := Prod.mk.inj h
  exact ⟨hr, rfl, rfl⟩

/-- There was a block to pop. -/
theorem size_pos_of_pop (h : b.pop = some (blk, b')) : 0 < b.size := by
  obtain ⟨hr, -⟩ := pop_eq_some h
  exact Nat.pos_of_ne_zero (RingBuffer.pop_eq_some hr).1

theorem pop_wf (hb : b.WF) (h : b.pop = some (blk, b')) : b'.WF := by
  obtain ⟨hr, -, hbc⟩ := pop_eq_some h
  have hwf := RingBuffer.pop_wf hb.ring hr
  obtain ⟨-, -, hr⟩ := RingBuffer.pop_eq_some hr
  refine ⟨hwf, fun i hi => ?_, fun i hi => ?_⟩
  · simp only [hr, hbc] at hi ⊢
    exact hb.data_eq i hi
  · simp only [hr, hbc] at hi ⊢
    exact hb.len_le i hi

/-- A pop takes the oldest record; the bytes are still in the slot. -/
theorem pop_records (hb : b.WF) (h : b.pop = some (blk, b')) :
    b.records = b'.record blk :: b'.records := by
  obtain ⟨hr, hstorage, -⟩ := pop_eq_some h
  have hrec : b'.record = b.record := by
    funext x
    simp only [record, read, hstorage]
  rw [records, RingBuffer.pop_toList hr hb.ring, List.map_cons, records, hrec]

end AudioBuffer

end Xiaozhi
