-- SUMMARY: A popped audio block is a pointer into the buffer's storage: how long its bytes stay what was pushed.
import Xiaozhi.Audio.Buffer

/-!
# Reading a popped block

`audio_buffer_pop` frees the slot of the block that it returns, and the
playback thread reads the block through the pointer afterwards, while the
network thread keeps pushing. The slot of the popped block is the last free
one, so it is written again by the push that fills the buffer.
-/

namespace Xiaozhi.AudioBuffer

variable {τ : Type}

/-- The buffers that `audio_buffer_push` and `audio_buffer_pop` reach from
    `audio_buffer_init`, with the records that were accepted and not yet popped. -/
inductive Reachable [Inhabited τ] (capacity blockCapacity : Nat) :
    AudioBuffer τ → List (AudioRecord τ) → Prop where
  | init {b} : init capacity blockCapacity = some b → Reachable capacity blockCapacity b []
  | push {b b' q data rate tag} : Reachable capacity blockCapacity b q →
      b.push data rate tag = some b' →
      Reachable capacity blockCapacity b' (q ++ [⟨data, rate, tag⟩])
  | pop {b b' q blk} : Reachable capacity blockCapacity b q → b.pop = some (blk, b') →
      Reachable capacity blockCapacity b' q.tail

theorem Reachable.wf [Inhabited τ] {capacity blockCapacity : Nat} {b : AudioBuffer τ}
    {q : List (AudioRecord τ)} (h : Reachable capacity blockCapacity b q) :
    b.WF ∧ b.records = q := by
  induction h with
  | init h => exact ⟨init_wf h, init_records h⟩
  | push _ h ih => exact ⟨push_wf ih.1 h, by rw [push_records ih.1 h, ih.2]⟩
  | pop _ h ih => exact ⟨pop_wf ih.1 h, by rw [← ih.2, pop_records ih.1 h, List.tail_cons]⟩

/-- A sequence of pushes, each of which may be refused. -/
def pushAll (b : AudioBuffer τ) : List (AudioRecord τ) → AudioBuffer τ
  | [] => b
  | r :: rs => pushAll ((b.push r.bytes r.sampleRate r.tag).getD b) rs

/-- The block lies in the slot that a full buffer would use last. -/
structure Spare (b : AudioBuffer τ) (blk : AudioBlock τ) : Prop where
  wf : b.WF
  data_eq : blk.data = b.blocks.slot (b.blocks.capacity - 1) * b.blockCapacity
  len_le : blk.len ≤ b.blockCapacity

variable {b b' : AudioBuffer τ} {blk : AudioBlock τ} {data : Bytes} {rate : Int} {tag : τ}

theorem pop_spare (hb : b.WF) (h : b.pop = some (blk, b')) : Spare b' blk := by
  have hwf := pop_wf hb h
  obtain ⟨hr, -, hbc⟩ := pop_eq_some h
  have hpos := hb.ring.capacity_pos
  have hslot := RingBuffer.slot_pop hr (b'.blocks.capacity - 1)
  obtain ⟨-, rfl, hr'⟩ := RingBuffer.pop_eq_some hr
  refine ⟨hwf, ?_, hbc ▸ hb.len_le _ hb.ring.head_lt⟩
  rw [hslot, hbc, hb.data_eq _ hb.ring.head_lt, hr']
  simp only [Nat.sub_add_cancel hpos, RingBuffer.slot, Nat.add_mod_right,
    Nat.mod_eq_of_lt hb.ring.head_lt]

theorem Spare.push (hs : Spare b blk) (h : b.push data rate tag = some b') : Spare b' blk := by
  have hwf := push_wf hs.wf h
  obtain ⟨-, slot, -, hr, -, hbc⟩ := push_eq_some h
  obtain ⟨-, hr⟩ := RingBuffer.push_eq_some hr
  refine ⟨hwf, ?_, hbc ▸ hs.len_le⟩
  rw [hs.data_eq, hr, hbc]
  rfl

/-- While the buffer is not one short of full, a push leaves the spare slot alone. -/
theorem Spare.read_push (hs : Spare b blk) (h : b.push data rate tag = some b')
    (hcount : b.blocks.count + 1 < b.blocks.capacity) : b'.read blk = b.read blk := by
  have hpos := hs.wf.ring.capacity_pos
  rw [read, read, hs.data_eq]
  refine push_read_of_ne hs.wf h (fun heq => ?_) hs.len_le
  rw [hs.wf.ring.tail_eq] at heq
  have := RingBuffer.slot_inj (r := b.blocks) (by omega) (by omega) heq
  omega

/-- The push that fills the buffer writes to the spare slot. -/
theorem Spare.read_push_last (hs : Spare b blk) (h : b.push data rate tag = some b')
    (hcount : b.blocks.count + 1 = b.blocks.capacity) :
    b'.storage.read blk.data data.length = data := by
  obtain ⟨-, slot, hslot, -, hstorage, -⟩ := push_eq_some h
  have htail : b.blocks.slot (b.blocks.capacity - 1) = b.blocks.tail := by
    rw [hs.wf.ring.tail_eq, RingBuffer.slot]
    congr 2
    omega
  rw [hstorage, hs.data_eq, htail, ← hs.wf.data_eq _ (tail_lt hs.wf), ← hslot]
  exact Memory.read_write

theorem push_count (h : b.push data rate tag = some b') :
    b'.blocks.count = b.blocks.count + 1 ∧ b'.blocks.capacity = b.blocks.capacity ∧
      b'.blockCapacity = b.blockCapacity := by
  obtain ⟨-, slot, -, hr, -, hbc⟩ := push_eq_some h
  obtain ⟨-, hr⟩ := RingBuffer.push_eq_some hr
  exact ⟨by rw [hr], by rw [hr], hbc⟩

/-- As long as the pushes cannot fill the buffer, the bytes stay. -/
theorem Spare.read_pushAll (hs : Spare b blk) {rs : List (AudioRecord τ)}
    (hcount : b.blocks.count + rs.length < b.blocks.capacity) :
    (b.pushAll rs).read blk = b.read blk := by
  induction rs generalizing b with
  | nil => rfl
  | cons r rs ih =>
    simp only [List.length_cons] at hcount
    cases h : b.push r.bytes r.sampleRate r.tag with
    | none =>
      simp only [pushAll, h, Option.getD_none]
      exact ih hs (by omega)
    | some b' =>
      simp only [pushAll, h, Option.getD_some]
      obtain ⟨hc, hcap, -⟩ := push_count h
      rw [ih (hs.push h) (by omega), hs.read_push h (by omega)]

/-- A full buffer refuses every push. -/
theorem pushAll_of_full {rs : List (AudioRecord τ)} (hfull : b.blocks.count = b.blocks.capacity) :
    b.pushAll rs = b := by
  induction rs with
  | nil => rfl
  | cons r rs ih =>
    have h : b.push r.bytes r.sampleRate r.tag = none := push_eq_none.mpr (.inr hfull)
    rw [pushAll, h, Option.getD_none, ih]

/-- Enough pushes of one byte fill the buffer and overwrite the first byte of the spare slot. -/
theorem Spare.read_pushAll_last (hs : Spare b blk) {n : Nat} {x : UInt8}
    (hbc : 0 < b.blockCapacity) (hlt : b.blocks.count < b.blocks.capacity)
    (hcount : b.blocks.capacity ≤ b.blocks.count + n) :
    (b.pushAll (List.replicate n ⟨[x], rate, tag⟩)).storage blk.data = x := by
  induction n generalizing b with
  | zero => omega
  | succ n ih =>
    have h : b.push [x] rate tag ≠ none := by
      rw [Ne, push_eq_none, not_or]
      exact ⟨by simp only [List.length_cons, List.length_nil]; omega, by omega⟩
    obtain ⟨b', h⟩ := Option.ne_none_iff_exists'.mp h
    obtain ⟨hc, hcap, hbc'⟩ := push_count h
    simp only [List.replicate_succ, pushAll, h, Option.getD_some]
    by_cases hlast : b.blocks.count + 1 = b.blocks.capacity
    · rw [pushAll_of_full (by omega)]
      simpa [Memory.read, List.range_succ] using hs.read_push_last h hlast
    · exact ih (hs.push h) (by omega) (by omega) (by omega)

section Reachable

variable [Inhabited τ] {capacity blockCapacity : Nat} {q : List (AudioRecord τ)}

theorem Reachable.capacity_eq (h : Reachable capacity blockCapacity b q) :
    b.blocks.capacity = capacity ∧ b.blockCapacity = blockCapacity ∧ 0 < blockCapacity := by
  induction h with
  | init h =>
    unfold AudioBuffer.init at h
    split at h
    · cases h
    · obtain rfl := Option.some.inj h
      exact ⟨rfl, rfl, by omega⟩
  | push _ h ih =>
    obtain ⟨-, hcap, hbc⟩ := push_count h
    rwa [hcap, hbc]
  | pop _ h ih =>
    obtain ⟨hr, -, hbc⟩ := pop_eq_some h
    obtain ⟨-, -, hr⟩ := RingBuffer.pop_eq_some hr
    rwa [hr, hbc]

theorem Reachable.pushAll (h : Reachable capacity blockCapacity b q) (rs : List (AudioRecord τ)) :
    Reachable capacity blockCapacity (b.pushAll rs) (b.pushAll rs).records := by
  induction rs generalizing b q with
  | nil => exact h.wf.2 ▸ h
  | cons r rs ih =>
    rw [AudioBuffer.pushAll]
    cases hp : b.push r.bytes r.sampleRate r.tag with
    | none => exact ih h
    | some b' => exact ih (h.push hp)

/-- After a pop of a reachable buffer, the bytes seen through the returned
    block stay those that were pushed for it during the next `n` pushes,
    whatever these are, if and only if `n` pushes cannot fill the buffer (or
    the block is empty). -/
theorem pop_read_stable_iff (h : Reachable capacity blockCapacity b q)
    (hpop : b.pop = some (blk, b')) (n : Nat) :
    (∃ r q', q = r :: q' ∧ ∀ rs : List (AudioRecord τ), rs.length ≤ n →
      (b'.pushAll rs).read blk = r.bytes) ↔
      b'.size + n < capacity ∨ blk.len = 0 := by
  obtain ⟨hwf, hrecords⟩ := h.wf
  obtain ⟨hcap, hbc, hpos⟩ := (h.pop hpop).capacity_eq
  have hspare := pop_spare hwf hpop
  have hq : q = b'.record blk :: b'.records := hrecords ▸ pop_records hwf hpop
  constructor
  · rintro ⟨r, q', -, hstable⟩
    by_contra hcon
    obtain ⟨hfull, hlen⟩ := not_or.mp hcon
    -- fill the buffer with a byte other than the first one of the block
    obtain ⟨x, hx⟩ : ∃ x : UInt8, x ≠ b'.storage blk.data := by
      by_cases h0 : b'.storage blk.data = 0
      · exact ⟨1, by rw [h0]; decide⟩
      · exact ⟨0, fun h => h0 h.symm⟩
    have hhead : ∀ c : AudioBuffer τ, (c.read blk).head? = some (c.storage blk.data) := by
      intro c
      obtain ⟨m, hm⟩ := Nat.exists_eq_succ_of_ne_zero hlen
      simp [read, Memory.read, hm, List.range_succ_eq_map]
    have hlt : b'.blocks.count < b'.blocks.capacity := by
      obtain ⟨hr, -, -⟩ := pop_eq_some hpop
      obtain ⟨hne, -, hr⟩ := RingBuffer.pop_eq_some hr
      have := hwf.ring.count_le
      rw [hr]
      simp only
      omega
    have hlast : (b'.pushAll (List.replicate n ⟨[x], 0, default⟩)).storage blk.data = x :=
      hspare.read_pushAll_last (by omega) hlt (by rw [size] at hfull; omega)
    have h₁ := hstable (List.replicate n ⟨[x], 0, default⟩) (by simp)
    have h₀ := hstable [] (Nat.zero_le _)
    have := congrArg List.head? (h₁.trans h₀.symm)
    rw [hhead, hhead, hlast] at this
    exact hx (Option.some.inj this)
  · intro hcond
    refine ⟨_, _, hq, fun rs hrs => ?_⟩
    obtain hcount | hlen := hcond
    · exact hspare.read_pushAll (by rw [size] at hcount; omega)
    · simp [record, read, hlen, Memory.read]

end Reachable

set_option maxRecDepth 2000 in
/-- With the playback queue's 32 slots of 8192 bytes: 32 blocks queued, one
    popped, and the next block that arrives overwrites it. -/
theorem pop_read_unstable :
    ∃ (b b' : AudioBuffer Unit) (blk : AudioBlock Unit) (r : AudioRecord Unit)
      (q : List (AudioRecord Unit)), Reachable 32 8192 b (r :: q) ∧ b.pop = some (blk, b') ∧
      (b'.pushAll [⟨[2, 0], 24000, ()⟩]).read blk ≠ r.bytes := by
  have hinit : AudioBuffer.init (τ := Unit) 32 8192 = some _ := rfl
  have h := (Reachable.init hinit).pushAll
    (List.replicate 32 ⟨[1, 0], 24000, ()⟩)
  have hpop := pop_records h.wf.1 (show AudioBuffer.pop _ = some (_, _) from rfl)
  rw [hpop] at h
  exact ⟨_, _, _, _, _, h, rfl, by decide⟩

/-- Three blocks queued leave room for 29 pushes while the first one is read. -/
theorem pop_read_stable_three :
    ∃ (b b' : AudioBuffer Unit) (blk : AudioBlock Unit) (q : List (AudioRecord Unit)),
      Reachable 32 8192 b q ∧ b.pop = some (blk, b') ∧
      ∃ r q', q = r :: q' ∧ ∀ rs : List (AudioRecord Unit), rs.length ≤ 29 →
        (b'.pushAll rs).read blk = r.bytes := by
  have hinit : AudioBuffer.init (τ := Unit) 32 8192 = some _ := rfl
  have h := (Reachable.init hinit).pushAll
    (List.replicate 3 ⟨[1, 0], 24000, ()⟩)
  exact ⟨_, _, _, _, h, rfl, (pop_read_stable_iff h rfl 29).mpr (.inl (by decide))⟩

end Xiaozhi.AudioBuffer
