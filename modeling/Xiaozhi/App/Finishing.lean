-- SUMMARY: When the main thread ends a turn only after every block of it has been written.
import Xiaozhi.App.MainLoop
import Xiaozhi.Audio.Aliasing

/-!
# The end of a turn

The main thread ends a turn at the tts stop if the playback queue is empty then,
and at the end of the playback that the playback thread reports after it. A
block that has been popped is no longer in the queue, and it is not written yet:
its bytes are in its slot, which goes to the block that fills the queue.
-/

namespace Xiaozhi

open Threads Threads.Prog World

/-! ## Written blocks -/

/-- The block that was popped last, the latest entry first. -/
def latestPop : List PlaybackEntry → Option Nat
  | [] => none
  | .pops block :: _ => some block
  | _ :: log => latestPop log

/-- The bytes that have been written for the block `t` since it was popped. -/
def bytesWritten (t : Nat) : List PlaybackEntry → Bytes
  | [] => []
  | .pops block :: log => if block = t then [] else bytesWritten t log
  | .writes block pcm :: log =>
    if block = t then bytesWritten t log ++ pcm else bytesWritten t log
  | _ :: log => bytesWritten t log

section

variable {entry : PlaybackEntry} {log : List PlaybackEntry} (h : ∀ t, entry ≠ .pops t)
include h

theorem latestPop_cons : latestPop (entry :: log) = latestPop log := by
  cases entry with
  | pops t => exact absurd rfl (h t)
  | _ => rfl

theorem mem_pops_cons {t : Nat} : .pops t ∈ entry :: log ↔ .pops t ∈ log :=
  List.mem_cons.trans (or_iff_right fun ht => h t ht.symm)

theorem bytesWritten_cons (hw : ∀ t pcm, entry ≠ .writes t pcm) {t : Nat} :
    bytesWritten t (entry :: log) = bytesWritten t log := by
  cases entry with
  | pops t => exact absurd rfl (h t)
  | writes t pcm => exact absurd rfl (hw t pcm)
  | _ => rfl

end

namespace World

/-- The bytes of the block number `t`. -/
def block (w : World) (t : Nat) : Option Bytes := w.playback.accepted.reverse[t]?

/-- The number of bytes in the whole frames of a block. -/
def frameBytes (w : World) (bytes : Bytes) : Nat :=
  bytes.length / (2 * w.playback.channels) * (2 * w.playback.channels)

/-- The playback thread has popped the block number `t`, and as many bytes have
    been written for it as its whole frames have. -/
def Through (w : World) (t : Nat) : Prop :=
  ∃ bytes, w.block t = some bytes ∧ .pops t ∈ w.playback.log ∧
    (bytesWritten t w.playback.log).length = w.frameBytes bytes

/-- All frames of the block number `t` have been written, byte for byte. -/
def Written (w : World) (t : Nat) : Prop :=
  ∃ bytes, w.block t = some bytes ∧ .pops t ∈ w.playback.log ∧
    bytesWritten t w.playback.log = bytes.take (w.frameBytes bytes)

theorem frameBytes_le {w : World} {bytes : Bytes} : w.frameBytes bytes ≤ bytes.length :=
  Nat.div_mul_le_self _ _

theorem Written.through {w : World} {t : Nat} (h : w.Written t) : w.Through t := by
  obtain ⟨bytes, hb, hpops, hwritten⟩ := h
  refine ⟨bytes, hb, hpops, ?_⟩
  rw [hwritten, List.length_take, Nat.min_eq_left frameBytes_le]

end World

/-- The entries with which the main thread finds that the turn may be over: the
    queue is empty at a tts stop, or the end of the playback is taken. -/
def MainEntry.Decides : MainEntry → Prop
  | .finds size => size = 0
  | .takes event => event.type = .playbackFinished
  | _ => False

instance : DecidablePred MainEntry.Decides
  | .finds size => inferInstanceAs (Decidable (size = 0))
  | .takes event => inferInstanceAs (Decidable (event.type = .playbackFinished))
  | .parses _ | .handles _ | .performs _ | .resets _ _ | .pushes _ _ | .queues _
  | .runsAlready | .starts _ | .startFails _ => .isFalse id

/-- The main thread calls `app_reset_to_idle` because of a tts stop or the end of
    the playback. -/
def World.Resetting (w : World) : Prop :=
  w.ttsDone = true ∧ ∃ entry ∈ w.log.head?, entry.Decides

instance (w : World) : Decidable w.Resetting := inferInstanceAs (Decidable (_ ∧ _))

/-! ## The conditions on a turn

The blocks of the turn are those from the number `mark` on. -/

/-- No open and no write fails while a block of the turn is played. -/
def NothingFails (mark : Nat) (_ : ThreadId) (w w' : World) : Prop :=
  ∀ entry, w'.playback.log = entry :: w.playback.log → entry = .opens false ∨ entry = .writeFails →
    ∀ t, latestPop w.playback.log = some t → t < mark

/-- The server has sent all audio of the turn before the tts stop: none arrives
    when the main thread resets. -/
def AudioFirst (mark : Nat) (_ : ThreadId) (w w' : World) : Prop :=
  w.Resetting → mark ≤ w.playback.enqueued → w'.playback.enqueued = w.playback.enqueued

/-- If the turn has a block, then the queue is empty, and the playback thread is
    not between the pop of a block and its last write. -/
def PlayedOut (mark : Nat) (w : World) : Prop := mark < w.playback.enqueued →
  w.playback.queue.size = 0 ∧ ∀ t, latestPop w.playback.log = some t → w.Through t

/-- The main thread finds that the turn is over when it has been played out. -/
def EndsPlayedOut (mark : Nat) (_ : ThreadId) (w w' : World) : Prop :=
  ∀ entry, w'.log = entry :: w.log → entry.Decides → w.ttsDone = true → PlayedOut mark w

/-- No block that arrives while the playback thread is between the pop of a block
    of the turn and its last write fills the queue. -/
def SlotKept (mark : Nat) (_ : ThreadId) (w w' : World) : Prop :=
  ∀ t, latestPop w.playback.log = some t → mark ≤ t → ¬w.Through t →
    w'.playback.enqueued = w.playback.enqueued ∨
      w.playback.queue.size + 1 < w.playback.queue.blocks.capacity

/-! ## What the steps keep -/

/-- The accepted blocks stay what they are. -/
theorem Step.block {i : ThreadId} {w w' : World} (h : Step i w w') {t : Nat} {bytes : Bytes}
    (hb : w.block t = some bytes) : w'.block t = some bytes := by
  have hsame (ha : w'.playback.accepted = w.playback.accepted) : w'.block t = some bytes := by
    rwa [World.block, ha]
  cases h.sound with
  | same _ _ _ _ ha => exact hsame ha
  | records _ _ _ _ _ _ _ ha => exact hsame ha
  | pops _ _ _ _ _ _ ha => exact hsame ha
  | finishes _ _ _ _ _ _ _ ha => exact hsame ha
  | enqueues pcm _ _ _ _ _ ha =>
    obtain ⟨hlt, -⟩ := List.getElem?_eq_some_iff.mp hb
    rw [World.block, ha, List.reverse_cons, List.getElem?_append_left hlt]
    exact hb

/-- No block is popped or written; blocks may arrive. -/
structure Keeps (w w' : World) : Prop where
  channels : w'.playback.channels = w.playback.channels
  block {t : Nat} {bytes : Bytes} : w.block t = some bytes → w'.block t = some bytes
  latest : latestPop w'.playback.log = latestPop w.playback.log
  pops (t : Nat) : .pops t ∈ w'.playback.log ↔ .pops t ∈ w.playback.log
  written (t : Nat) : bytesWritten t w'.playback.log = bytesWritten t w.playback.log

namespace Keeps

variable {w w' w'' : World} {i : ThreadId}

theorem refl (w : World) : Keeps w w := ⟨rfl, id, rfl, fun _ => Iff.rfl, fun _ => rfl⟩

theorem trans (h : Keeps w w') (h' : Keeps w' w'') : Keeps w w'' where
  channels := h'.channels.trans h.channels
  block hb := h'.block (h.block hb)
  latest := h'.latest.trans h.latest
  pops t := (h'.pops t).trans (h.pops t)
  written t := (h'.written t).trans (h.written t)

/-- An entry other than a pop and a write. -/
theorem record (entry : PlaybackEntry) (hpop : ∀ t, entry ≠ .pops t)
    (hwrite : ∀ t pcm, entry ≠ .writes t pcm) (hl : w'.playback.log = entry :: w.playback.log)
    (hch : w'.playback.channels = w.playback.channels)
    (hblock : ∀ t bytes, w.block t = some bytes → w'.block t = some bytes) : Keeps w w' := by
  refine ⟨hch, fun hb => hblock _ _ hb, ?_, fun t => ?_, fun t => ?_⟩
  · rw [hl, latestPop_cons hpop]
  · rw [hl, mem_pops_cons hpop]
  · rw [hl, bytesWritten_cons hpop hwrite]

/-- Steps that neither pop nor write. -/
theorem of_step (h : Step i w w') (hpops : ∀ t, w'.playback.log ≠ .pops t :: w.playback.log)
    (hwrites : ∀ t pcm, w'.playback.log ≠ .writes t pcm :: w.playback.log) : Keeps w w' := by
  have hsame (hl : w'.playback.log = w.playback.log) : Keeps w w' :=
    ⟨h.channels, h.block, by rw [hl], fun _ => by rw [hl], fun _ => by rw [hl]⟩
  have hcons (entry : PlaybackEntry) (hl : w'.playback.log = entry :: w.playback.log) :
      Keeps w w' := by
    refine record entry (fun t ht => ?_) (fun t pcm ht => ?_) hl h.channels fun _ _ => h.block
    · exact hpops t (ht ▸ hl)
    · exact hwrites t pcm (ht ▸ hl)
  cases h.sound with
  | same _ _ _ hl => exact hsame hl
  | enqueues _ _ _ _ _ hl => exact hsame hl
  | records entry _ _ _ _ _ hl => exact hcons entry hl
  | pops block _ _ _ _ hl => exact hcons (.pops block.tag) hl
  | finishes accepted _ _ _ _ hl => exact hcons (.finishes accepted) hl

/-- The steps of the other threads. -/
theorem of_other (hi : i ≠ .playback) (h : Step i w w') : Keeps w w' := by
  have hl := h.playbackLog hi
  exact of_step h (fun _ ht => List.cons_ne_self _ _ (ht.symm.trans hl))
    fun _ _ ht => List.cons_ne_self _ _ (ht.symm.trans hl)

theorem frameBytes (h : Keeps w w') (bytes : Bytes) : w'.frameBytes bytes = w.frameBytes bytes := by
  rw [World.frameBytes, World.frameBytes, h.channels]

theorem through (h : Keeps w w') {t : Nat} (ht : w.Through t) : w'.Through t := by
  obtain ⟨bytes, hb, hpops, hwritten⟩ := ht
  refine ⟨bytes, h.block hb, (h.pops t).mpr hpops, ?_⟩
  rw [h.written, h.frameBytes, hwritten]

/-- Nothing is written, so the playback thread does not get through with a block. -/
theorem through_back (h : Keeps w w') {t : Nat} {bytes : Bytes} (hb : w.block t = some bytes)
    (ht : w'.Through t) : w.Through t := by
  obtain ⟨bytes', hb', hpops, hwritten⟩ := ht
  obtain rfl := Option.some.inj ((h.block hb).symm.trans hb')
  refine ⟨bytes, hb, (h.pops t).mp hpops, ?_⟩
  rw [← h.written, hwritten, h.frameBytes]

end Keeps

/-! ## The slot of the block that is played -/

/-- The playback thread has popped the block and is not through with it, and the
    bytes in its slot are those of the block. -/
structure Held (block : AudioBlock Nat) (w : World) : Prop where
  latest : latestPop w.playback.log = some block.tag
  spare : w.playback.queue.Spare block
  bytes : w.block block.tag = some (w.playback.queue.read block)
  unwritten : ¬w.Through block.tag

/-- Moreover, the slot of a block of the turn keeps its bytes. -/
structure KeepsSlot (mark : Nat) (w w' : World) : Prop extends Keeps w w' where
  held {block : AudioBlock Nat} : mark ≤ block.tag → Held block w → Held block w'

namespace KeepsSlot

variable {mark : Nat} {w w' w'' : World} {i : ThreadId}

theorem refl (w : World) : KeepsSlot mark w w := ⟨.refl w, fun _ h => h⟩

theorem trans (h : KeepsSlot mark w w') (h' : KeepsSlot mark w' w'') : KeepsSlot mark w w'' :=
  ⟨h.toKeeps.trans h'.toKeeps, fun hmark hheld => h'.held hmark (h.held hmark hheld)⟩

/-- Steps that leave the queue alone. -/
theorem of_queue (h : Keeps w w') (hq : w'.playback.queue = w.playback.queue) :
    KeepsSlot mark w w' := by
  refine ⟨h, fun _ hheld => ⟨h.latest.trans hheld.latest, hq ▸ hheld.spare, ?_, fun ht => ?_⟩⟩
  · rw [hq]
    exact h.block hheld.bytes
  · exact hheld.unwritten (h.through_back hheld.bytes ht)

/-- A block that arrives goes to another slot. -/
theorem of_step (h : Keeps w w') (hs : Step i w w') (hslot : SlotKept mark i w w')
    (hpops : ∀ t, w'.playback.log ≠ .pops t :: w.playback.log) : KeepsSlot mark w w' := by
  cases hs.sound with
  | same hq => exact of_queue h hq
  | records _ _ _ hq => exact of_queue h hq
  | finishes _ _ hq => exact of_queue h hq
  | pops block _ _ _ _ hl => exact absurd hl (hpops block.tag)
  | enqueues pcm rate hpush hen =>
    refine ⟨h, fun {block} hmark hheld => ⟨h.latest.trans hheld.latest, hheld.spare.push hpush, ?_,
      fun ht => hheld.unwritten (h.through_back hheld.bytes ht)⟩⟩
    have hroom : w.playback.queue.size + 1 < w.playback.queue.blocks.capacity :=
      (hslot block.tag hheld.latest hmark hheld.unwritten).resolve_left (by omega)
    rw [hheld.spare.read_push hpush hroom]
    exact h.block hheld.bytes

/-- The steps of the other threads. -/
theorem of_other (hi : i ≠ .playback) (hs : Step i w w') (hslot : SlotKept mark i w w') :
    KeepsSlot mark w w' := by
  refine of_step (.of_other hi hs) hs hslot fun t ht => ?_
  exact List.cons_ne_self _ _ (ht.symm.trans (hs.playbackLog hi))

end KeepsSlot

/-! ## The numbers of the blocks -/

/-- The first `k` blocks have been popped, and the others are queued. -/
structure Numbered (k : Nat) (w : World) : Prop where
  wf : w.playback.queue.WF
  accepted : w.playback.accepted.length = w.playback.enqueued
  le : k ≤ w.playback.enqueued
  tags : w.playback.queue.records.map (·.tag) = List.range' k (w.playback.enqueued - k)
  blocks : ∀ r ∈ w.playback.queue.records, w.block r.tag = some r.bytes
  pops : ∀ t, .pops t ∈ w.playback.log ↔ t < k
  latest : ∀ t, latestPop w.playback.log = some t ↔ t + 1 = k

namespace Numbered

variable {k : Nat} {w w' : World} {i : ThreadId}

theorem size (h : Numbered k w) : w.playback.queue.size = w.playback.enqueued - k := by
  have hlength := congrArg List.length h.tags
  simpa [AudioBuffer.records, AudioBuffer.size] using hlength

/-- The block that is popped is the next one. -/
theorem pop (h : Numbered k w) {block : AudioBlock Nat} {queue : AudioBuffer Nat}
    (hpop : w.playback.queue.pop = some (block, queue)) :
    block.tag = k ∧ k < w.playback.enqueued ∧
      queue.records.map (·.tag) = List.range' (k + 1) (w.playback.enqueued - (k + 1)) ∧
      w.block block.tag = some (queue.read block) := by
  have hrec := AudioBuffer.pop_records h.wf hpop
  have htags := h.tags
  rw [hrec, List.map_cons] at htags
  have hlt : k < w.playback.enqueued := by
    by_contra hle
    rw [Nat.sub_eq_zero_of_le (Nat.le_of_not_lt hle)] at htags
    cases htags
  rw [show w.playback.enqueued - k = w.playback.enqueued - (k + 1) + 1 by omega,
    List.range'_succ] at htags
  obtain ⟨htag, hrest⟩ := List.cons.inj htags
  exact ⟨htag, hlt, hrest, h.blocks (queue.record block) (hrec ▸ List.mem_cons_self)⟩

/-- An entry of the playback thread that is no pop. -/
theorem record (h : Numbered k w) (hs : Step i w w') {entry : PlaybackEntry}
    (hl : w'.playback.log = entry :: w.playback.log) (hpop : ∀ t, entry ≠ .pops t)
    (hq : w'.playback.queue = w.playback.queue) (hen : w'.playback.enqueued = w.playback.enqueued)
    (ha : w'.playback.accepted = w.playback.accepted) : Numbered k w' where
  wf := hq ▸ h.wf
  accepted := by rw [ha, hen, h.accepted]
  le := hen ▸ h.le
  tags := by rw [hq, hen, h.tags]
  blocks r hr := hs.block (h.blocks r (hq ▸ hr))
  pops t := by rw [hl, mem_pops_cons hpop, h.pops]
  latest t := by rw [hl, latestPop_cons hpop, h.latest]

theorem step (h : Numbered k w) (hs : Step i w w') : ∃ k', Numbered k' w' := by
  -- a push adds the next number at the end, and a pop takes the number `k` from the front
  cases hs.sound with
  | same hq hen _ hl ha =>
    refine ⟨k, hq ▸ h.wf, by rw [ha, hen, h.accepted], hen ▸ h.le, by rw [hq, hen, h.tags],
      fun r hr => hs.block (h.blocks r (hq ▸ hr)), fun t => ?_, fun t => ?_⟩
    · rw [hl, h.pops]
    · rw [hl, h.latest]
  | enqueues pcm rate hpush hen _ hl ha =>
    have hrec := AudioBuffer.push_records h.wf hpush
    refine ⟨k, AudioBuffer.push_wf h.wf hpush, ?_, ?_, ?_, fun r hr => ?_, fun t => ?_,
      fun t => ?_⟩
    · rw [ha, hen, List.length_cons, h.accepted]
    · rw [hen]
      exact Nat.le_succ_of_le h.le
    · rw [hrec, List.map_append, h.tags, hen, Nat.succ_sub h.le, List.range'_1_concat,
        Nat.add_sub_cancel' h.le]
      rfl
    · rw [hrec] at hr
      obtain hr | hr := List.mem_append.mp hr
      · exact hs.block (h.blocks r hr)
      · obtain rfl := List.mem_singleton.mp hr
        rw [World.block, ha, List.reverse_cons, ← h.accepted, ← List.length_reverse]
        exact List.getElem?_concat_length
    · rw [hl, h.pops]
    · rw [hl, h.latest]
  | records entry _ ho hq hen _ hl ha =>
    refine ⟨k, h.record hs hl (fun t => ?_) hq hen ha⟩
    rintro rfl
    exact ho
  | finishes accepted _ hq hen _ hl _ ha => exact ⟨k, h.record hs hl (fun _ => nofun) hq hen ha⟩
  | pops block _ hpop hen _ hl ha =>
    obtain ⟨htag, hlt, htags, -⟩ := h.pop hpop
    have hrec := AudioBuffer.pop_records h.wf hpop
    refine ⟨k + 1, AudioBuffer.pop_wf h.wf hpop, by rw [ha, hen, h.accepted], ?_, ?_,
      fun r hr => ?_, fun t => ?_, fun t => ?_⟩
    · rw [hen]
      exact hlt
    · rw [hen]
      exact htags
    · exact hs.block (h.blocks r (hrec ▸ List.mem_cons_of_mem _ hr))
    · rw [hl, List.mem_cons, h.pops, PlaybackEntry.pops.injEq, htag]
      omega
    · rw [hl]
      simp only [latestPop, Option.some.injEq, htag]
      omega

end Numbered

/-- The blocks are popped and queued in the order of their numbers. -/
def BlocksNumbered (w : World) : Prop := ∃ k, Numbered k w

/-! ## The playback thread -/

/-- The playback thread pops a block only when it is through with the one before,
    and writes the next bytes of the block, and no more than there are. -/
def finishContract (mark : Nat) : Contract World where
  rely := KeepsSlot mark
  assume w w' := BlocksNumbered w ∧ NothingFails mark .playback w w' ∧ SlotKept mark .playback w w'
  guar w w' :=
    (∀ t, w'.playback.log = .pops t :: w.playback.log →
      ∀ t', mark ≤ t' → .pops t' ∈ w.playback.log → w.Through t') ∧
    (∀ t pcm, w'.playback.log = .writes t pcm :: w.playback.log →
      ∃ bytes, w.block t = some bytes ∧
        (bytesWritten t w.playback.log).length + pcm.length ≤ w.frameBytes bytes ∧
        (mark ≤ t → pcm <+: bytes.drop (bytesWritten t w.playback.log).length))
  rely_refl := KeepsSlot.refl
  rely_trans := KeepsSlot.trans

section

variable {mark : Nat} {w w' : World}

/-- The contract asks nothing of steps that add nothing to the history. -/
theorem guar_same (hl : w'.playback.log = w.playback.log) : (finishContract mark).guar w w' :=
  ⟨fun _ ht => absurd (ht.symm.trans hl) (List.cons_ne_self _ _),
    fun _ _ ht => absurd (ht.symm.trans hl) (List.cons_ne_self _ _)⟩

/-- The contract asks nothing of entries other than pops and writes. -/
theorem guar_record (entry : PlaybackEntry) (hpop : ∀ t, entry ≠ .pops t)
    (hwrite : ∀ t pcm, entry ≠ .writes t pcm) (hl : w'.playback.log = entry :: w.playback.log) :
    (finishContract mark).guar w w' :=
  ⟨fun t ht => absurd (List.cons.inj (hl.symm.trans ht)).1 (hpop t),
    fun t pcm ht => absurd (List.cons.inj (hl.symm.trans ht)).1 (hwrite t pcm)⟩

end

/-- The playback thread is through with every block of the turn that it has popped. -/
def PoppedThrough (mark : Nat) (w : World) : Prop :=
  ∀ t, mark ≤ t → .pops t ∈ w.playback.log → w.Through t

theorem PoppedThrough.keeps {mark : Nat} {w w' : World} (h : PoppedThrough mark w)
    (hk : KeepsSlot mark w w') : PoppedThrough mark w' :=
  fun t ht hpops => hk.through (h t ht ((hk.pops t).mp hpops))

/-- The playback thread plays a block and has written `n` of its bytes. -/
structure Playing (mark : Nat) (block : AudioBlock Nat) (n : Nat) (w : World) : Prop where
  latest : latestPop w.playback.log = some block.tag
  popped : .pops block.tag ∈ w.playback.log
  bytes : ∃ bytes, w.block block.tag = some bytes ∧ bytes.length = block.len
  written : (bytesWritten block.tag w.playback.log).length = n
  held : mark ≤ block.tag → ¬w.Through block.tag → Held block w
  others : ∀ t, mark ≤ t → t ≠ block.tag → .pops t ∈ w.playback.log → w.Through t

namespace Playing

variable {mark n : Nat} {block : AudioBlock Nat} {w w' : World}

theorem keeps (h : Playing mark block n w) (hk : KeepsSlot mark w w') :
    Playing mark block n w' where
  latest := hk.latest.trans h.latest
  popped := (hk.pops _).mpr h.popped
  bytes := by
    obtain ⟨bytes, hb, hlen⟩ := h.bytes
    exact ⟨bytes, hk.block hb, hlen⟩
  written := (congrArg List.length (hk.written _)).trans h.written
  held hmark ht := hk.held hmark (h.held hmark fun hw => ht (hk.through hw))
  others t ht hne hpops := hk.through (h.others t ht hne ((hk.pops t).mp hpops))

/-- The block is not of the turn. -/
theorem skipped (h : Playing mark block n w) (hlt : block.tag < mark) : PoppedThrough mark w := by
  intro t ht hpops
  exact h.others t ht (by omega) hpops

/-- All frames of the block have been written. -/
theorem finished (h : Playing mark block n w)
    (hn : n = block.len / (2 * w.playback.channels) * (2 * w.playback.channels)) :
    PoppedThrough mark w := by
  intro t ht hpops
  by_cases hne : t = block.tag
  · obtain ⟨bytes, hb, hlen⟩ := h.bytes
    subst hne
    refine ⟨bytes, hb, hpops, ?_⟩
    rw [h.written, hn, World.frameBytes, hlen]
  · exact h.others t ht hne hpops

/-- Frames of the block are left. -/
theorem not_through (h : Playing mark block (n * (2 * w.playback.channels)) w)
    (hlt : n < block.len / (2 * w.playback.channels)) : ¬w.Through block.tag := by
  rintro ⟨bytes, hb, -, hwritten⟩
  obtain ⟨bytes', hb', hlen⟩ := h.bytes
  obtain rfl := Option.some.inj (hb.symm.trans hb')
  rw [h.written, World.frameBytes, hlen] at hwritten
  have hpos : 0 < 2 * w.playback.channels := by
    by_contra hzero
    rw [Nat.eq_zero_of_not_pos hzero, Nat.div_zero] at hlt
    exact Nat.not_lt_zero _ hlt
  exact hlt.ne (Nat.eq_of_mul_eq_mul_right hpos hwritten)

/-- A failure is admitted only if the block is not of the turn. -/
theorem fails (h : Playing mark block n w) (hok : NothingFails mark .playback w w')
    {entry : PlaybackEntry} (hl : w'.playback.log = entry :: w.playback.log)
    (he : entry = .opens false ∨ entry = .writeFails) : block.tag < mark :=
  hok entry hl he block.tag h.latest

end Playing

namespace AudioPlayback

variable {mark : Nat} {w : World} {block : AudioBlock Nat}

/-- Nothing is popped or written where no block is played. -/
theorem keeps_wp {α : Type} {p : Thread α} (hp : p.Plays none) :
    p.wp (finishContract mark) (fun _ => KeepsSlot mark w) w := by
  refine Within.wp (C := finishContract mark) hp (fun _ _ hr h => h.trans hr)
    (fun w₁ w₂ h hs hok => ?_) (.refl w)
  have hpops (t : Nat) : w₂.playback.log ≠ .pops t :: w₁.playback.log := by
    intro hl
    obtain hsame | ⟨entry, hplays, hl'⟩ := hs.plays
    · exact List.cons_ne_self _ _ (hl.symm.trans hsame)
    · obtain ⟨rfl, -⟩ := List.cons.inj (hl'.symm.trans hl)
      exact hplays
  have hwrites (t : Nat) (pcm : Bytes) :
      w₂.playback.log ≠ .writes t pcm :: w₁.playback.log := by
    intro hl
    obtain hsame | ⟨entry, hplays, hl'⟩ := hs.plays
    · exact List.cons_ne_self _ _ (hl.symm.trans hsame)
    · obtain ⟨rfl, -⟩ := List.cons.inj (hl'.symm.trans hl)
      cases hplays
  refine ⟨⟨fun t hl => absurd hl (hpops t), fun t pcm hl => absurd hl (hwrites t pcm)⟩, ?_⟩
  have hstep : Step .playback w₁ w₂ := hs.step
  exact h.trans (.of_step (.of_step hstep hpops hwrites) hstep hok.2.2 hpops)

theorem written_keeps_wp {α : Type} {p : Thread α} (hp : p.Plays none)
    (h : PoppedThrough mark w) : p.wp (finishContract mark) (fun _ => PoppedThrough mark) w :=
  (keeps_wp hp).mono fun _ _ hk => h.keeps hk

/-- The device is ready, or the block is not of the turn. -/
theorem readyDevice_playing {sampleRate : Int} (h : Playing mark block 0 w) :
    (readyDevice sampleRate).wp (finishContract mark)
      (fun ready w => Playing mark block 0 w ∧ (ready = false → block.tag < mark)) w := by
  have hopen {w : World} (h : Playing mark block 0 w) :
      (openDevice sampleRate).wp (finishContract mark)
        (fun ready w => Playing mark block 0 w ∧ (ready = false → block.tag < mark)) w := by
    refine wp_act fun w₁ h₁ c ready w₂ hs hok => ?_
    have h : Playing mark block 0 w₁ := h.keeps h₁
    have hl : ∃ success, ready = success ∧ w₂.playback.log = .opens success :: w₁.playback.log ∧
        w₂.playback.channels = w₁.playback.channels ∧
        w₂.playback.accepted = w₁.playback.accepted ∧
        w₂.playback.queue = w₁.playback.queue := by
      cases c <;> obtain ⟨⟩ := hs
      · exact ⟨true, rfl, rfl, rfl, rfl, rfl⟩
      · exact ⟨false, rfl, rfl, rfl, rfl, rfl⟩
    obtain ⟨success, rfl, hl, hch, ha, hq⟩ := hl
    have hk : KeepsSlot mark w₁ w₂ := by
      refine .of_queue (.record (.opens ready) (fun _ => nofun) (fun _ _ => nofun) hl hch
        fun t bytes hb => ?_) hq
      rwa [World.block, ha]
    refine ⟨guar_record (.opens ready) (fun _ => nofun) (fun _ _ => nofun) hl,
      wp_ret fun w₃ h₃ => ⟨(h.keeps hk).keeps h₃, ?_⟩⟩
    rintro rfl
    exact h.fails hok.2.1 hl (.inl rfl)
  refine wp.bind ((keeps_wp plays_read).mono fun device w₁ h₁ => ?_)
  have h : Playing mark block 0 w₁ := h.keeps h₁
  dsimp only
  split
  · exact wp_ret fun w₂ h₂ => ⟨h.keeps h₂, nofun⟩
  · exact wp.bind ((keeps_wp (within_when plays_closeDevice)).mono fun _ _ h₂ => hopen (h.keeps h₂))

/-- `n` of the `frames` frames of the block have been written. -/
def Progress (mark : Nat) (block : AudioBlock Nat) (frames n : Nat) (w : World) : Prop :=
  Playing mark block (n * (2 * w.playback.channels)) w ∧ n ≤ frames ∧
    frames = block.len / (2 * w.playback.channels)

theorem Progress.keeps {frames n : Nat} {w w' : World} (h : Progress mark block frames n w)
    (hk : KeepsSlot mark w w') : Progress mark block frames n w' := by
  obtain ⟨hplaying, hle, hframes⟩ := h
  refine ⟨?_, hle, ?_⟩
  · rw [hk.channels]
    exact hplaying.keeps hk
  · rw [hk.channels]
    exact hframes

/-- The device takes some frames from the slot: no more than are left of the block. -/
theorem Progress.writes {frames n count : Nat} {pcm : Bytes} {w w' : World}
    (h : Progress mark block frames n w)
    (hw : w' = { w with playback := w.playback.record (.writes block.tag pcm) })
    (hpos : count ≠ 0) (hle : count ≤ frames - n)
    (hpcm : pcm = w.playback.queue.storage.read (block.data + n * (2 * w.playback.channels))
      (count * (2 * w.playback.channels))) :
    (finishContract mark).guar w w' ∧ Progress mark block frames (n + count) w' := by
  obtain ⟨hplaying, hn, hframes⟩ := h
  obtain ⟨bytes, hbytes, hblock⟩ := hplaying.bytes
  have hunwritten : ¬w.Through block.tag := hplaying.not_through (by omega)
  have hlen : pcm.length = count * (2 * w.playback.channels) := hpcm ▸ Memory.length_read
  have htotal : n * (2 * w.playback.channels) + pcm.length = (n + count) * (2 * w.playback.channels) := by
    rw [hlen, Nat.add_mul]
  have hfits : n * (2 * w.playback.channels) + pcm.length ≤ w.frameBytes bytes := by
    rw [htotal, World.frameBytes, hblock, ← hframes]
    exact Nat.mul_le_mul_right _ (by omega)
  subst hw
  refine ⟨⟨fun t ht => ?_, fun t pcm' ht => ?_⟩,
    ⟨?_, ?_, ⟨bytes, hbytes, hblock⟩, ?_, fun hmark ht => ?_, ?_⟩, ?_, hframes⟩
  · cases (List.cons.inj ht).1
  · obtain ⟨⟩ := (List.cons.inj ht).1
    rw [hplaying.written]
    refine ⟨bytes, hbytes, hfits, fun hmark => ?_⟩
    -- the slot still has the bytes of the block
    have hheld := hplaying.held hmark hunwritten
    obtain rfl := Option.some.inj (hheld.bytes.symm.trans hbytes)
    rw [hpcm]
    have hle : w.frameBytes (w.playback.queue.read block) ≤ block.len :=
      World.frameBytes_le.trans_eq hblock
    exact Memory.read_prefix_drop (by omega)
  · exact hplaying.latest
  · exact List.mem_cons_of_mem _ hplaying.popped
  · show (bytesWritten block.tag (.writes block.tag pcm :: w.playback.log)).length = _
    rw [bytesWritten, if_pos rfl, List.length_append, hplaying.written]
    exact htotal
  · have hheld := hplaying.held hmark hunwritten
    exact ⟨hheld.latest, hheld.spare, hheld.bytes, ht⟩
  · intro t ht hne hpops
    have hpops : .pops t ∈ w.playback.log := (List.mem_cons.mp hpops).resolve_left nofun
    obtain ⟨bytes, hb, -, hwritten⟩ := hplaying.others t ht hne hpops
    refine ⟨bytes, hb, List.mem_cons_of_mem _ hpops, ?_⟩
    show (bytesWritten t (.writes block.tag pcm :: w.playback.log)).length = w.frameBytes bytes
    rw [bytesWritten, if_neg (Ne.symm hne), hwritten]
  · omega

/-- A write fails: the block is not of the turn. -/
theorem Progress.fails {frames n : Nat} {w w' : World} (h : Progress mark block frames n w)
    (hok : NothingFails mark .playback w w')
    (hw : w' = { w with playback := w.playback.record .writeFails }) :
    (finishContract mark).guar w w' ∧ PoppedThrough mark w' := by
  obtain ⟨hplaying, -⟩ := h
  subst hw
  have hlt := hplaying.fails hok rfl (.inr rfl)
  have hk : KeepsSlot mark w { w with playback := w.playback.record .writeFails } :=
    .of_queue (.record .writeFails (fun _ => nofun) (fun _ _ => nofun) rfl rfl fun _ _ => id) rfl
  exact ⟨guar_record .writeFails (fun _ => nofun) (fun _ _ => nofun) rfl, (hplaying.keeps hk).skipped hlt⟩

/-- All frames of the block are written, or the block is not of the turn. -/
theorem writeAllFrames_written {frames : Nat} (h : Progress mark block frames 0 w) :
    (writeAllFrames block frames).wp (finishContract mark) (fun _ => PoppedThrough mark) w := by
  unfold writeAllFrames
  split
  · refine wp.bind (wp_modify fun w₁ h₁ hok => ?_)
    obtain ⟨hg, hwritten⟩ := (h.keeps h₁).fails hok.2.1 rfl
    exact ⟨hg, fun w₂ h₂ => wp_ret fun w₃ h₃ => (hwritten.keeps h₂).keeps h₃⟩
  · -- the invariant of the loop: the first `n` frames of the block have been written
    refine ⟨Progress mark block frames, fun _ _ _ h hk => h.keeps hk, h, fun n w h => ?_⟩
    refine wp_act fun w₁ h₁ c result w₂ hs hok => ?_
    have h : Progress mark block frames n w₁ := h.keeps h₁
    dsimp only at hs
    split at hs
    · next hlt =>
      split at hs
      · next count =>
        split at hs
        · obtain ⟨⟩ := hs
          obtain ⟨hg, hwritten⟩ := h.fails hok.2.1 rfl
          exact ⟨hg, fun w₃ h₃ w₄ h₄ => (hwritten.keeps h₃).keeps h₄⟩
        · next hpos =>
          -- the device has taken some of the frames
          obtain ⟨hle, hs⟩ := Option.ite_none_right_eq_some.mp hs
          obtain ⟨⟩ := hs
          obtain ⟨hg, hnext⟩ := h.writes rfl hpos hle rfl
          exact ⟨hg, fun w₃ h₃ => hnext.keeps h₃⟩
      · split at hs
        · obtain ⟨⟩ := hs
          exact ⟨guar_same rfl, fun w₃ h₃ => h.keeps h₃⟩
        · obtain ⟨⟩ := hs
          obtain ⟨hg, hwritten⟩ := h.fails hok.2.1 rfl
          exact ⟨hg, fun w₃ h₃ w₄ h₄ => (hwritten.keeps h₃).keeps h₄⟩
      · cases hs
    · next hnlt =>
      obtain ⟨⟩ := hs
      obtain ⟨hplaying, hle, hframes⟩ := h
      have hall : n = frames := by omega
      have hwritten : PoppedThrough mark w₁ := hplaying.finished (by rw [hall, hframes])
      exact ⟨guar_same rfl, fun w₃ h₃ w₄ h₄ => (hwritten.keeps h₃).keeps h₄⟩

/-- A block that has been popped is written before the thread goes on. -/
theorem playBlock_written (h : Playing mark block 0 w) :
    (playBlock block).wp (finishContract mark) (fun _ => PoppedThrough mark) w := by
  refine wp.bind ((readyDevice_playing h).mono fun ready w h => ?_)
  obtain ⟨h, hready⟩ := h
  cases ready with
  | false => exact wp_ret fun w' hk => (h.skipped (hready rfl)).keeps hk
  | true =>
    refine wp.bind (wp_read fun w₁ h₁ => ⟨guar_same rfl, fun w₂ h₂ => ?_⟩)
    have hprogress : Progress mark block (block.len / (2 * w₁.playback.channels)) 0 w₁ := by
      refine ⟨?_, Nat.zero_le _, rfl⟩
      rw [Nat.zero_mul]
      exact h.keeps h₁
    refine wp.bind ((writeAllFrames_written (hprogress.keeps h₂)).mono fun written w h => ?_)
    cases written with
    | false => exact wp_ret fun w' hk => h.keeps hk
    | true =>
      refine wp.bind ((written_keeps_wp plays_read h).mono fun size w h => ?_)
      exact written_keeps_wp (within_when plays_pushPlaybackFinished) h

/-- A round of the playback thread. -/
theorem thread_written (h : PoppedThrough mark w) :
    thread.wp (finishContract mark) (fun _ => PoppedThrough mark) w := by
  refine wp.bind ((written_keeps_wp plays_waitForWork h).mono fun running w h => ?_)
  cases running with
  | false => exact written_keeps_wp plays_closeDevice h
  | true =>
    refine wp.bind ((written_keeps_wp plays_read h).mono fun stop w h => ?_)
    cases stop with
    | true =>
      -- a stop is recorded, and pops nothing
      have hclear : clearStop.wp (finishContract mark) (fun _ => PoppedThrough mark) w := by
        refine wp_modify fun w₁ h₁ _ => ⟨?_, fun w₂ h₂ => PoppedThrough.keeps ?_ h₂⟩
        · exact guar_record (.stops w₁.playback.stopMark) (fun _ => nofun) (fun _ _ => nofun) rfl
        · exact (h.keeps h₁).keeps
            (.of_queue (.record (.stops w₁.playback.stopMark) (fun _ => nofun) (fun _ _ => nofun) rfl
              rfl fun _ _ => id) rfl)
      refine wp.bind (hclear.mono fun _ w h => wp.bind ?_)
      exact (written_keeps_wp plays_closeDevice h).mono fun _ _ h =>
        written_keeps_wp plays_pushPlaybackFinished h
    | false =>
      refine wp.bind (wp_atomic fun w₁ h₁ hok => ?_)
      have h : PoppedThrough mark w₁ := h.keeps h₁
      split
      · next block queue hpop =>
        obtain ⟨⟨k, hnumbered⟩, -⟩ := hok
        obtain ⟨htag, -, -, hblock⟩ := hnumbered.pop hpop
        -- a block is popped only when the thread is through with those before
        refine ⟨⟨fun t _ => h, fun t pcm ht => ?_⟩, fun w₂ h₂ => ?_⟩
        · cases (List.cons.inj ht).1
        · refine playBlock_written (Playing.keeps ⟨rfl, List.mem_cons_self, ?_, ?_, ?_, ?_⟩ h₂)
          · exact ⟨_, hblock, Memory.length_read⟩
          · exact congrArg List.length (if_pos rfl)
          · exact fun _ ht => ⟨rfl, AudioBuffer.pop_spare hnumbered.wf hpop, hblock, ht⟩
          · intro t ht hne hpops
            have hpops : .pops t ∈ w₁.playback.log :=
              (List.mem_cons.mp hpops).resolve_left fun heq => hne (PlaybackEntry.pops.inj heq)
            obtain ⟨bytes, hb, -, hwritten⟩ := h t ht hpops
            refine ⟨bytes, hb, List.mem_cons_of_mem _ hpops, ?_⟩
            show (bytesWritten t (.pops block.tag :: w₁.playback.log)).length = w₁.frameBytes bytes
            rw [bytesWritten, if_neg (Ne.symm hne), hwritten]
      · exact ⟨guar_same rfl, fun w₂ h₂ => wp_ret fun w₃ h₃ => (h.keeps h₂).keeps h₃⟩

end AudioPlayback

/-! ## The main thread -/

/-- The main thread sets `tts_done` only when it handles a message. -/
def doneContract : ViewContract MainView where
  assume _ _ := True
  guar v v' := v'.ttsDone = true → v.ttsDone = true ∨
    v'.log = v.log ∧ ∃ event, v.log.head? = some (.handles event)
  assume_refl _ := trivial
  guar_refl _ := .inl

section

variable {v v' : MainView} {P : Prop}

@[simp] theorem after_done_same (h : v'.ttsDone = v.ttsDone) : doneContract.After v v' P ↔ P :=
  ⟨fun hP => (hP trivial).2, fun hP _ => ⟨fun hd => .inl (h ▸ hd), hP⟩⟩

@[simp] theorem after_done_record {entry : MainEntry} :
    doneContract.After v (v.record entry) P ↔ P := after_done_same rfl

@[simp] theorem after_done_cleared (h : v'.ttsDone = false) : doneContract.After v v' P ↔ P :=
  ⟨fun hP => (hP trivial).2, fun hP _ => ⟨fun hd => by simp [h] at hd, hP⟩⟩

/-- The message may be a tts stop. -/
theorem after_done_handles (event : XiaozhiIncomingEvent) (hl : v'.log = v.log)
    (h : v.log.head? = some (.handles event)) : doneContract.After v v' P ↔ P :=
  ⟨fun hP => (hP trivial).2, fun hP _ => ⟨fun _ => .inr ⟨hl, event, h⟩, hP⟩⟩

end

namespace App

variable {v : MainView}

theorem done_connect : connect.vwp mainView doneContract (fun _ _ => True) v := by
  simp [connect, vwp_ite]

theorem done_resetToIdle : resetToIdle.vwp mainView doneContract (fun _ _ => True) v := by
  simp [resetToIdle, vwp_ite]

theorem done_returnToWake : returnToWake.vwp mainView doneContract (fun _ _ => True) v := by
  simp [returnToWake]

theorem done_abort : abort.vwp mainView doneContract (fun _ _ => True) v := by
  simp [abort, sendAbort, stopUpload, vwp_ite]

theorem done_handleAction {action : SessionAction} :
    (handleAction action).vwp mainView doneContract (fun _ _ => True) v := by
  simp only [handleAction, vwp_bind, vwp_record, after_done_record]
  cases action with
  | connect => exact done_connect
  | sendHello => simp [vwp_ite]
  | startListen => simp [startListen, vwp_ite]
  | stopListen => simp [stopListen, stopUpload, vwp_ite]
  | abort => exact done_abort
  | returnToWake => exact done_returnToWake
  | none => trivial
  | startPlayback => trivial

theorem done_handleSessionEvent {type : AppEventType} :
    (handleSessionEvent type).vwp mainView doneContract (fun _ _ => True) v := by
  simp only [handleSessionEvent, vwp_bind, vwp_sessionHandleEvent]
  exact (after_done_same rfl).mpr done_handleAction

theorem done_handleProtocolEvent {event : XiaozhiIncomingEvent} :
    (handleProtocolEvent event).vwp mainView doneContract (fun _ _ => True) v := by
  simp only [handleProtocolEvent, vwp_bind, vwp_record, after_done_record]
  split
  · simp only [handleHello, vwp_bind, vwp_when, vwp_setSessionId, vwp_updateDecoderFromHello]
    exact ⟨fun _ => (after_done_same rfl).mpr done_handleSessionEvent,
      fun _ => done_handleSessionEvent⟩
  · simp [handleTtsStart]
  · simp only [handleTtsStop, vwp_bind, vwp_setTtsDone, vwp_findQueueSize, vwp_when]
    refine (after_done_handles event ?_ ?_).mpr fun size => after_done_record.mpr ?_
    · rfl
    · rfl
    · exact ⟨fun _ => done_resetToIdle, fun _ => trivial⟩
  · trivial

theorem done_handleEvent {cjsonParse : Bytes → Option Json} {e : AppEvent} :
    (handleEvent cjsonParse e).vwp mainView doneContract (fun _ _ => True) v := by
  unfold handleEvent
  split
  all_goals first
    | exact done_handleSessionEvent
    | exact trivial
    | skip
  · simp only [handleText, vwp_bind, vwp_record, after_done_record]
    split
    · exact done_handleProtocolEvent
    · trivial
  · simp only [handlePlaybackFinished, vwp_bind, vwp_readTtsDone, vwp_when]
    exact ⟨fun _ => done_resetToIdle, fun _ => trivial⟩
  · simp

theorem done_runStart : runStart.vwp mainView doneContract (fun _ _ => True) v := by
  have hconnect {v : MainView} :
      (setState .connecting >>= fun _ => handleAction .connect).vwp mainView doneContract
        (fun _ _ => True) v := by
    simp only [vwp_bind, vwp_setState]
    exact (after_done_same rfl).mpr done_handleAction
  simp only [runStart, vwp_bind]
  refine done_resetToIdle.mono fun _ v _ => ?_
  simp only [vwp_readClientStarted, vwp_when]
  exact ⟨fun _ => hconnect, fun _ => trivial⟩

theorem done_runLoop {cjsonParse : Bytes → Option Json} :
    (runLoop cjsonParse).vwp mainView doneContract (fun _ _ => True) v := by
  refine runLoop_keeps (fun v e accepted _ _ => ?_) (fun v result _ => ?_) (fun v e _ => ?_) v trivial
  · exact after_done_record.mpr trivial
  · exact (after_done_same rfl).mpr trivial
  · exact after_done_record.mpr done_handleEvent

end App

/-! ## Runs -/

/-- All blocks of the turn have been written. -/
def AllWritten (mark : Nat) (w : World) : Prop :=
  ∀ t, mark ≤ t → t < w.playback.enqueued → w.Written t

/-- The playback thread is through with all blocks of the turn that it has popped,
    except perhaps the one that was popped last. -/
def ThroughUpTo (mark : Nat) (w : World) : Prop :=
  ∀ t, mark ≤ t → .pops t ∈ w.playback.log → w.Through t ∨ latestPop w.playback.log = some t

/-- What has been written for a block of the turn are its first bytes. -/
def RightBytes (mark : Nat) (w : World) : Prop :=
  ∀ t bytes, mark ≤ t → w.block t = some bytes → .pops t ∈ w.playback.log →
    bytesWritten t w.playback.log <+: bytes

/-- What is known of the steps of a run in which nothing fails. -/
structure FinishStep (mark : Nat) (i : ThreadId) (w w' : World) : Prop where
  step : Step i w w'
  numbered : BlocksNumbered w
  play : i = .playback → (finishContract mark).guar w w'
  done : i = .main → doneContract.guar w.mainView w'.mainView

section

variable {mark k : Nat} {i : ThreadId} {w w' : World}

/-- Enough bytes, and the right ones. -/
theorem RightBytes.written (h : RightBytes mark w) {t : Nat} (hmark : mark ≤ t)
    (ht : w.Through t) : w.Written t := by
  obtain ⟨bytes, hb, hpops, hwritten⟩ := ht
  refine ⟨bytes, hb, hpops, ?_⟩
  rw [List.prefix_iff_eq_take.mp (h t bytes hmark hb hpops), hwritten]

/-- A turn has been played out exactly when all of its blocks have been written. -/
theorem allWritten_iff (hn : Numbered k w) (h : ThroughUpTo mark w) (hb : RightBytes mark w) :
    AllWritten mark w ↔ PlayedOut mark w := by
  constructor
  · intro hall hlt
    obtain ⟨-, -, hpops, -⟩ := hall (w.playback.enqueued - 1) (by omega) (by omega)
    have hk := (hn.pops _).mp hpops
    refine ⟨by rw [hn.size]; omega, fun t ht => ?_⟩
    have ht := (hn.latest t).mp ht
    have hle := hn.le
    exact (hall t (by omega) (by omega)).through
  · intro hplayed t hmark hlt
    obtain ⟨hsize, hlatest⟩ := hplayed (by omega)
    have hk : w.playback.enqueued - k = 0 := hn.size.symm.trans hsize
    refine hb.written hmark ?_
    obtain hthrough | ht := h t hmark ((hn.pops t).mpr (by omega))
    · exact hthrough
    · exact hlatest t ht

/-- The block that is popped is not one of those popped before. -/
theorem FinishStep.pops_ne (hs : FinishStep mark i w w') {block : AudioBlock Nat}
    {queue : AudioBuffer Nat} (hpop : w.playback.queue.pop = some (block, queue)) {t : Nat}
    (hpops : .pops t ∈ w.playback.log) : block.tag ≠ t := by
  obtain ⟨k, hn⟩ := hs.numbered
  obtain ⟨htag, -⟩ := hn.pop hpop
  have ht := (hn.pops t).mp hpops
  omega

/-- The playback thread stays through with a block. -/
theorem World.Through.step {t : Nat} (h : w.Through t) (hs : FinishStep mark i w w') :
    w'.Through t := by
  obtain ⟨bytes, hb, hpops, hwritten⟩ := h
  have hframes : w'.frameBytes bytes = w.frameBytes bytes := by
    rw [World.frameBytes, World.frameBytes, hs.step.channels]
  have hsame (hl : w'.playback.log = w.playback.log) : w'.Through t :=
    ⟨bytes, hs.step.block hb, hl ▸ hpops, by rw [hl, hframes, hwritten]⟩
  have hcons {entry : PlaybackEntry} (hl : w'.playback.log = entry :: w.playback.log)
      (hw : bytesWritten t (entry :: w.playback.log) = bytesWritten t w.playback.log) :
      w'.Through t :=
    ⟨bytes, hs.step.block hb, hl ▸ List.mem_cons_of_mem _ hpops, by rw [hl, hw, hframes, hwritten]⟩
  cases hs.step.sound with
  | same _ _ _ hl => exact hsame hl
  | enqueues _ _ _ _ _ hl => exact hsame hl
  | finishes accepted _ _ _ _ hl => exact hcons hl rfl
  | pops block _ hpop _ _ hl => exact hcons hl (if_neg (hs.pops_ne hpop hpops))
  | records entry hi ho _ _ _ hl =>
    cases entry with
    | pops _ => exact ho.elim
    | writes t' pcm =>
      refine hcons hl ?_
      by_cases ht : t' = t
      · -- nothing is left of the block
        subst ht
        obtain ⟨bytes', hb', hle, -⟩ := (hs.play hi).2 t' pcm hl
        cases hb.symm.trans hb'
        have hnil : pcm = [] := List.eq_nil_of_length_eq_zero (by omega)
        rw [bytesWritten, if_pos rfl, hnil, List.append_nil]
      · rw [bytesWritten, if_neg ht]
    | _ => exact hcons hl rfl

theorem ThroughUpTo.step (h : ThroughUpTo mark w) (hs : FinishStep mark i w w') :
    ThroughUpTo mark w' := by
  intro t hmark hpops
  have hkept (hpop : .pops t ∈ w.playback.log)
      (hlatest : latestPop w'.playback.log = latestPop w.playback.log) :
      w'.Through t ∨ latestPop w'.playback.log = some t :=
    (h t hmark hpop).imp (fun hw => hw.step hs) fun hl => hlatest.trans hl
  cases hs.step.sound with
  | same _ _ _ hl => exact hkept (hl ▸ hpops) (by rw [hl])
  | enqueues _ _ _ _ _ hl => exact hkept (hl ▸ hpops) (by rw [hl])
  | finishes accepted _ _ _ _ hl =>
    have hpop (t : Nat) : PlaybackEntry.finishes accepted ≠ .pops t := nofun
    rw [hl] at hpops
    exact hkept ((mem_pops_cons hpop).mp hpops) (by rw [hl, latestPop_cons hpop])
  | records entry _ ho _ _ _ hl =>
    have hpop (t : Nat) : entry ≠ .pops t := by
      rintro rfl
      exact ho
    rw [hl] at hpops
    exact hkept ((mem_pops_cons hpop).mp hpops) (by rw [hl, latestPop_cons hpop])
  | pops block hi _ _ _ hl =>
    rw [hl] at hpops
    obtain heq | hpops := List.mem_cons.mp hpops
    · obtain rfl := PlaybackEntry.pops.inj heq
      exact .inr (by rw [hl]; rfl)
    · exact .inl (((hs.play hi).1 _ hl t hmark hpops).step hs)

/-- A block that has been popped was accepted before. -/
theorem FinishStep.block_back (hs : FinishStep mark i w w') {t : Nat} {bytes : Bytes}
    (hpops : .pops t ∈ w.playback.log) (hb : w'.block t = some bytes) : w.block t = some bytes := by
  obtain ⟨k, hn⟩ := hs.numbered
  have hlt : t < w.playback.accepted.reverse.length := by
    have ht := (hn.pops t).mp hpops
    have hle := hn.le
    rw [List.length_reverse, hn.accepted]
    omega
  have hold : w.block t = some w.playback.accepted.reverse[t] := List.getElem?_eq_getElem hlt
  rw [hold, ← hs.step.block hold, hb]

theorem RightBytes.step (h : RightBytes mark w) (hs : FinishStep mark i w w') :
    RightBytes mark w' := by
  intro t bytes hmark hb hpops
  -- only a write to the block, or its pop, changes what has been written for it
  have hkept (hpop : .pops t ∈ w.playback.log)
      (hw : bytesWritten t w'.playback.log = bytesWritten t w.playback.log) :
      bytesWritten t w'.playback.log <+: bytes :=
    hw ▸ h t bytes hmark (hs.block_back hpop hb) hpop
  have hrecord {entry : PlaybackEntry} (hl : w'.playback.log = entry :: w.playback.log)
      (hpop : ∀ t, entry ≠ .pops t) (hwrite : ∀ t pcm, entry ≠ .writes t pcm) :
      bytesWritten t w'.playback.log <+: bytes :=
    hkept ((mem_pops_cons hpop).mp (hl ▸ hpops)) (by rw [hl, bytesWritten_cons hpop hwrite])
  cases hs.step.sound with
  | same _ _ _ hl => exact hkept (hl ▸ hpops) (by rw [hl])
  | enqueues _ _ _ _ _ hl => exact hkept (hl ▸ hpops) (by rw [hl])
  | finishes accepted _ _ _ _ hl =>
    exact hrecord hl (fun _ => nofun) fun _ _ => nofun
  | pops block hi hpop _ _ hl =>
    rw [hl] at hpops
    obtain heq | hpops := List.mem_cons.mp hpops
    · rw [hl, bytesWritten, if_pos (PlaybackEntry.pops.inj heq).symm]
      exact List.nil_prefix
    · exact hkept hpops (by rw [hl, bytesWritten, if_neg (hs.pops_ne hpop hpops)])
  | records entry hi ho _ _ _ hl =>
    cases entry with
    | pops _ => exact ho.elim
    | writes t' pcm =>
      rw [hl] at hpops
      have hpop (t : Nat) : PlaybackEntry.writes t' pcm ≠ .pops t := nofun
      have hpops : .pops t ∈ w.playback.log := (mem_pops_cons hpop).mp hpops
      by_cases ht : t' = t
      · -- the write continues what has been written
        subst ht
        have hold := hs.block_back hpops hb
        obtain ⟨rest, hrest⟩ := h t' bytes hmark hold hpops
        obtain ⟨bytes', hb', -, hnext⟩ := (hs.play hi).2 t' pcm hl
        obtain rfl := Option.some.inj (hold.symm.trans hb')
        have hnext := hnext hmark
        rw [← hrest, List.drop_left] at hnext
        rw [hl, bytesWritten, if_pos rfl, ← hrest]
        exact (List.prefix_append_right_inj _).mpr hnext
      · exact hkept hpops (by rw [hl, bytesWritten, if_neg ht])
    | stops mark => exact hrecord hl (fun _ => nofun) fun _ _ => nofun
    | opens success => exact hrecord hl (fun _ => nofun) fun _ _ => nofun
    | writeFails => exact hrecord hl (fun _ => nofun) fun _ _ => nofun
    | finishes accepted => exact hrecord hl (fun _ => nofun) fun _ _ => nofun

theorem AllWritten.step (h : AllWritten mark w) (hb : RightBytes mark w')
    (hs : FinishStep mark i w w') (hen : w'.playback.enqueued = w.playback.enqueued) :
    AllWritten mark w' :=
  fun t hmark ht => hb.written hmark ((h t hmark (hen ▸ ht)).through.step hs)

theorem MainStep.enqueued (h : MainStep w w') :
    w'.playback.enqueued = w.playback.enqueued := by
  cases h with
  | quiet hq _ _ _ => exact hq.enqueued
  | _ => rfl

theorem Step.enqueued_le (h : Step i w w') :
    w'.playback.enqueued ≤ w.playback.enqueued + 1 := by
  cases h.sound with
  | same _ hen => omega
  | enqueues _ _ _ hen => omega
  | records _ _ _ _ hen => omega
  | pops _ _ _ hen => omega
  | finishes _ _ _ hen => omega

/-- The blocks of the turn are written in time. -/
structure WrittenInTime (mark : Nat) (w : World) : Prop where
  upTo : ThroughUpTo mark w
  bytes : RightBytes mark w
  resetting : w.Resetting → AllWritten mark w

theorem WrittenInTime.step (h : WrittenInTime mark w) (hs : FinishStep mark i w w')
    (haudio : AudioFirst mark i w w') (hends : EndsPlayedOut mark i w w') : WrittenInTime mark w' := by
  have hbytes := h.bytes.step hs
  refine ⟨h.upTo.step hs, hbytes, fun hreset => ?_⟩
  obtain ⟨hdone, entry, hhead, hdecides⟩ := hreset
  obtain hl | ⟨entry', hl⟩ := hs.step.log_cases
  · -- the main thread was resetting before this step
    have hbefore : w.ttsDone = true := by
      by_cases hi : i = .main
      · obtain hd | ⟨-, event, hhandles⟩ := hs.done hi hdone
        · exact hd
        · have heq : some entry = some (.handles event) := by
            rw [← hhandles, ← hhead, hl]
            rfl
          cases heq
          exact hdecides.elim
      · exact (congrArg MainView.ttsDone (hs.step.mainView hi)).symm.trans hdone
    have hreset : w.Resetting := ⟨hbefore, entry, hl ▸ hhead, hdecides⟩
    by_cases hmark : mark ≤ w.playback.enqueued
    · exact (h.resetting hreset).step hbytes hs (haudio hreset hmark)
    · intro t hle hlt
      have := hs.step.enqueued_le
      omega
  · -- the main thread finds in this step that the turn is over
    obtain rfl : i = .main := hs.step.main_of_log hl
    obtain rfl : entry' = entry := by
      rw [hl] at hhead
      exact Option.some.inj hhead
    have hbefore : w.ttsDone = true := by
      obtain hd | ⟨hsame, -⟩ := hs.done rfl hdone
      · exact hd
      · exact absurd (hl.symm.trans hsame) (List.cons_ne_self _ _)
    obtain ⟨k, hn⟩ := hs.numbered
    have hall := (allWritten_iff hn h.upTo h.bytes).mpr (hends entry' hl hdecides hbefore)
    exact hall.step hbytes hs (MainStep.enqueued hs.step)

end

namespace System

variable {cjsonParse : Bytes → Option Json} {ok : ThreadId → World → World → Prop}
  {config : AppConfig} {cfg : Config} {mark : Nat}

/-- The blocks are numbered in every run. -/
theorem Reach.numbered (hr : Reach cjsonParse ok config cfg) : BlocksNumbered cfg.shared := by
  have hinit : BlocksNumbered (init config).shared := by
    refine ⟨0, AudioBuffer.init_wf (AudioBuffer.init32_eq (by decide)), rfl, Nat.le_refl _, rfl,
      fun r hr => ?_, fun t => ?_, fun t => ?_⟩
    · have hempty : (init config).shared.playback.queue.records = [] := rfl
      exact absurd (hempty ▸ hr) List.not_mem_nil
    · exact ⟨fun h => absurd h List.not_mem_nil, fun h => absurd h (Nat.not_lt_zero t)⟩
    · exact ⟨nofun, nofun⟩
  refine Threads.Reach.invariant hinit (fun _ _ _ h hn => ?_) hr.steps
  obtain ⟨k, hn⟩ := hn
  exact hn.step h.2

/-- What is known of the steps of the runs in which nothing fails. -/
theorem Reach.finishSteps
    (hok : ∀ i w w', ok i w w' → NothingFails mark i w w' ∧ SlotKept mark i w w')
    (hr : Reach cjsonParse ok config cfg) :
    Reach cjsonParse (fun i w w' => ok i w w' ∧ FinishStep mark i w w') config cfg := by
  have hmain := Reach.strengthen_main (S := doneContract) (J := fun _ => True)
    (fun _ _ _ => trivial) App.done_runStart (fun _ _ => App.done_runLoop) hr
  have hsteps : Reach cjsonParse (fun i w w' => (ok i w w' ∧ Step i w w' ∧
      (i = .main → doneContract.guar w.mainView w'.mainView)) ∧ BlocksNumbered w) config cfg :=
    Threads.Reach.strengthen (fun _ _ _ _ hr _ h => ⟨h, Reach.numbered hr⟩) hmain
  -- with the numbers of the blocks, the playback thread keeps its contract
  refine Threads.Reach.strengthen (fun cfg cfg' i c hr hs h => ⟨h.1.1, h.1.2.1, h.2, ?_, h.1.2.2⟩) hsteps
  rintro rfl
  have hbody (w : World) (hw : PoppedThrough mark w) : (body cjsonParse .playback).wp
      (finishContract mark) (fun _ => PoppedThrough mark) w := AudioPlayback.thread_written hw
  have hinit : (init config).Local .playback
      (fun p => p.wp (finishContract mark) fun _ => PoppedThrough mark) (PoppedThrough mark) :=
    fun _ _ h => absurd h List.not_mem_nil
  obtain hg | hsame := Threads.Reach.thread_guar (C := finishContract mark)
    (fun _ _ h => ⟨h.2, hok _ _ _ h.1.1⟩)
    (fun _ _ _ hj h => .of_other hj h.1.2.1 (hok _ _ _ h.1.1).2)
    (fun _ _ h hk => h.keeps hk) hbody hinit hr hs h
  · exact hg
  · exact guar_same (by rw [hsame])

/-- The condition is exact: in every run in which nothing fails and no slot is
    taken, all blocks of the turn have been written exactly when it has been
    played out. -/
theorem allWritten_iff_playedOut (hr : Reach cjsonParse
    (fun i w w' => NothingFails mark i w w' ∧ SlotKept mark i w w') config cfg) :
    AllWritten mark cfg.shared ↔ PlayedOut mark cfg.shared := by
  have hsteps := Reach.finishSteps (fun _ _ _ => id) hr
  have hup : ThroughUpTo mark cfg.shared :=
    Threads.Reach.invariant (fun _ _ h => absurd h List.not_mem_nil)
      (fun _ _ _ h hu => ThroughUpTo.step hu h.2) hsteps
  have hbytes : RightBytes mark cfg.shared :=
    Threads.Reach.invariant (fun _ _ _ _ h => absurd h List.not_mem_nil)
      (fun _ _ _ h hb => RightBytes.step hb h.2) hsteps
  obtain ⟨k, hn⟩ := Reach.numbered hr
  exact allWritten_iff hn hup hbytes

/-- In every run in which no open and no write of a block of the turn fails, the
    server sends all audio of the turn before the tts stop, the main thread finds
    that the turn is over only when it has been played out, and no block that
    arrives takes the slot of one that is being played: whenever the main thread
    calls `app_reset_to_idle` because of a tts stop or the end of the playback,
    every block of the turn has been completely written. -/
theorem turn_written (hr : Reach cjsonParse (fun i w w' => (NothingFails mark i w w' ∧
    AudioFirst mark i w w') ∧ EndsPlayedOut mark i w w' ∧ SlotKept mark i w w') config cfg)
    (hreset : cfg.shared.Resetting) :
    ∀ t, mark ≤ t → t < cfg.shared.playback.enqueued → cfg.shared.Written t := by
  have hsteps := Reach.finishSteps (fun _ _ _ h => ⟨h.1.1, h.2.2⟩) hr
  have hinit : WrittenInTime mark (init config).shared := by
    refine ⟨fun _ _ h => absurd h List.not_mem_nil, fun _ _ _ _ h => absurd h List.not_mem_nil,
      fun h => ?_⟩
    exact absurd h.1 Bool.false_ne_true
  have hfinish : WrittenInTime mark cfg.shared := by
    refine Threads.Reach.invariant hinit (fun i w w' h hfinish => ?_) hsteps
    obtain ⟨⟨⟨-, haudio⟩, hends, -⟩, hs⟩ := h
    exact hfinish.step hs haudio hends
  exact hfinish.resetting hreset

/-- The test for the conditions on a turn that starts with the first block. -/
def turnTest (_ : ThreadId) (w w' : World) : Bool :=
  (match added w.playback.log w'.playback.log with
    | some (.opens false) | some .writeFails => decide (latestPop w.playback.log = none)
    | _ => true) &&
  (!decide w.Resetting || decide (w'.playback.enqueued = w.playback.enqueued))

theorem turnTest_iff (i : ThreadId) (w w' : World) (h : turnTest i w w' = true) :
    NothingFails 0 i w w' ∧ AudioFirst 0 i w w' := by
  rw [turnTest, Bool.and_eq_true] at h
  obtain ⟨hfails, haudio⟩ := h
  refine ⟨fun entry hlog he t ht => ?_, fun hreset _ => ?_⟩
  · have hnone : latestPop w.playback.log = none := by
      obtain rfl | rfl := he
      · simpa [hlog] using hfails
      · simpa [hlog] using hfails
    cases ht.symm.trans hnone
  · simpa [hreset] using haudio

/-- The test that the main thread finds the turn over when it has been played out,
    and that no block fills the queue. -/
def endsTest (i : ThreadId) (w w' : World) : Bool :=
  turnTest i w w' &&
  (match added w.log w'.log with
    | some entry => !decide (entry.Decides ∧ w.ttsDone = true) ||
        (decide (w.playback.queue.size = 0) && match latestPop w.playback.log with
          | some t => match w.block t with
            | some bytes => decide (.pops t ∈ w.playback.log ∧
                (bytesWritten t w.playback.log).length = w.frameBytes bytes)
            | none => false
          | none => true)
    | none => true) &&
  decide (w'.playback.enqueued = w.playback.enqueued ∨
    w.playback.queue.size + 1 < w.playback.queue.blocks.capacity)

theorem endsTest_iff (i : ThreadId) (w w' : World) (h : endsTest i w w' = true) :
    (NothingFails 0 i w w' ∧ AudioFirst 0 i w w') ∧ EndsPlayedOut 0 i w w' ∧ SlotKept 0 i w w' := by
  rw [endsTest, Bool.and_eq_true, Bool.and_eq_true, decide_eq_true_eq] at h
  obtain ⟨⟨hturn, hends⟩, hslot⟩ := h
  refine ⟨turnTest_iff i w w' hturn, fun entry hlog hdecides hdone _ => ?_, fun _ _ _ _ => hslot⟩
  simp only [hlog, added_cons, hdecides, hdone, and_self, decide_true, Bool.not_true,
    Bool.false_or, Bool.and_eq_true, decide_eq_true_eq] at hends
  obtain ⟨hsize, hlatest⟩ := hends
  refine ⟨hsize, fun t ht => ?_⟩
  rw [ht] at hlatest
  dsimp only at hlatest
  split at hlatest
  · next bytes hbytes => exact ⟨bytes, hbytes, of_decide_eq_true hlatest⟩
  · cases hlatest

/-- The only block is played before the main thread comes to the tts stop. -/
theorem turn_written_played : ∃ cfg, Reach sampleParse (fun i w w' => (NothingFails 0 i w w' ∧
      AudioFirst 0 i w w') ∧ EndsPlayedOut 0 i w w' ∧ SlotKept 0 i w w')
      ⟨1, 16000, 1200, 500⟩ cfg ∧
    cfg.shared.Resetting ∧ 0 < cfg.shared.playback.enqueued ∧ cfg.shared.Written 0 := by
  have h : (play sampleParse endsTest ⟨1, 16000, 1200, 500⟩ [
      (.main, 15, [.ok]),
      (.service 1, 43, [.ok, .ok, .ok, .callback .established, receives 0, receives 2,
        .callback (.receive true [1] true), .decoded 1 [5, 6], receives 3, .nothing]),
      (.playback, 15, [.ok, .count 1]),
      (.main, 50, [.ok, .ok, .nothing, .nothing, .nothing])]).any (fun cfg =>
        decide cfg.shared.Resetting && decide (0 < cfg.shared.playback.enqueued)) = true := by
    decide +kernel
  obtain ⟨cfg, hr, hp⟩ := exists_of_play endsTest_iff h
  simp only [Bool.and_eq_true, decide_eq_true_eq] at hp
  obtain ⟨hreset, hlt⟩ := hp
  exact ⟨cfg, hr, hreset, hlt, turn_written hr hreset 0 (Nat.le_refl 0) hlt⟩

/-- The playback thread has popped the only block when the main thread comes to
    the tts stop: the queue is empty, and nothing is written yet. -/
theorem turn_unwritten : ∃ cfg, Reach sampleParse (fun i w w' => NothingFails 0 i w w' ∧
      AudioFirst 0 i w w') ⟨1, 16000, 1200, 500⟩ cfg ∧ cfg.shared.session = .playingTts ∧
    cfg.shared.Resetting ∧ 0 < cfg.shared.playback.enqueued ∧ ¬cfg.shared.Written 0 := by
  have h : (play sampleParse turnTest ⟨1, 16000, 1200, 500⟩ [
      (.main, 15, [.ok]),
      (.service 1, 43, [.ok, .ok, .ok, .callback .established, receives 0, receives 2,
        .callback (.receive true [1] true), .decoded 1 [5, 6], receives 3, .nothing]),
      (.playback, 5, []),
      (.main, 50, [.ok, .ok, .nothing, .nothing, .nothing])]).any (fun cfg =>
        decide (cfg.shared.session = .playingTts) && decide cfg.shared.Resetting &&
        decide (cfg.shared.playback.accepted = [[5, 6]]) &&
        decide (cfg.shared.playback.channels = 1) &&
        decide (cfg.shared.playback.enqueued = 1) &&
        decide (cfg.shared.playback.log = [.pops 0])) = true := by
    decide +kernel
  obtain ⟨cfg, hr, hp⟩ := exists_of_play turnTest_iff h
  simp only [Bool.and_eq_true, decide_eq_true_eq] at hp
  obtain ⟨⟨⟨⟨⟨hsession, hreset⟩, haccepted⟩, hchannels⟩, henqueued⟩, hlog⟩ := hp
  refine ⟨cfg, hr, hsession, hreset, by omega, ?_⟩
  rintro ⟨bytes, hbytes, -, hwritten⟩
  have heq : [5, 6] = bytes := by simpa [World.block, haccepted] using hbytes
  subst heq
  simp [hlog, bytesWritten, World.frameBytes, hchannels] at hwritten

end System

end Xiaozhi
