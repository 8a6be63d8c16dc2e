-- SUMMARY: When blocks that were queued before a stop request are never played after it.
import Xiaozhi.App.Footprints

/-!
# Barge-in

A stop request sets a flag, which the playback thread clears in one iteration.
The blocks in the queue stay there.
-/

namespace Xiaozhi

open Threads Threads.Prog World

/-- The block that the playback thread plays, the latest entry first. -/
def currentBlock : List PlaybackEntry → Option Nat
  | [] => none
  | .pops block :: _ => some block
  | .stops _ :: _ => none
  | _ :: log => currentBlock log

/-- After a stop request has been consumed, no block that was accepted before it
    is written. -/
def NoStaleWrite (log : List PlaybackEntry) : Prop :=
  ∀ block pcm l mark, .writes block pcm :: l <:+ log → .stops mark ∈ l → mark ≤ block

/-- When a stop request is consumed, the queue holds no block that was accepted before it. -/
def StopsWhenEmptied (_ : ThreadId) (w w' : World) : Prop :=
  ∀ mark, w'.playback.log = .stops mark :: w.playback.log →
    ∀ r ∈ w.playback.queue.records, mark ≤ r.tag

/-! ## The playback thread -/

/-- The playback thread writes only the block that it has popped last. -/
def writeContract : Contract World where
  rely w w' := w'.playback.log = w.playback.log
  assume _ _ := True
  guar w w' := ∀ block pcm, w'.playback.log = .writes block pcm :: w.playback.log →
    currentBlock w.playback.log = some block
  rely_refl _ := rfl
  rely_trans h₁ h₂ := h₂.trans h₁

namespace AudioPlayback

/-- The block, if any, is the current one. -/
def Current (block : Option Nat) (w : World) : Prop :=
  ∀ t, block = some t → currentBlock w.playback.log = some t

theorem plays_wp {α : Type} {p : Thread α} {block : Option Nat} {w : World} (hp : p.Plays block)
    (h : Current block w) : p.wp writeContract (fun _ => Current block) w := by
  refine Within.wp (C := writeContract) hp (fun w w' hr h t ht => ?_) (fun w w' h hs _ => ?_) h
  · rw [show w'.playback.log = w.playback.log from hr]
    exact h t ht
  · obtain hl | ⟨entry, hplays, hl⟩ := hs.plays
    · refine ⟨fun t pcm hw => ?_, fun t ht => by rw [hl]; exact h t ht⟩
      exact absurd (hl.symm.trans hw).symm (List.cons_ne_self _ _)
    · refine ⟨fun t pcm hw => ?_, fun t ht => ?_⟩
      · obtain ⟨rfl, -⟩ := List.cons.inj (hl.symm.trans hw)
        exact h t hplays
      · rw [hl]
        cases entry with
        | stops _ => exact hplays.elim
        | pops _ => exact hplays.elim
        | _ => exact h t ht

theorem thread_wp (w : World) : thread.wp writeContract (fun _ _ => True) w := by
  have hnone {w : World} : Current none w := fun _ h => nomatch h
  refine wp.bind ((plays_wp plays_waitForWork hnone).mono fun running w _ => ?_)
  cases running with
  | false => exact (plays_wp plays_closeDevice hnone).mono fun _ _ _ => trivial
  | true =>
    refine wp.bind ((plays_wp plays_read hnone).mono fun stop w _ => ?_)
    cases stop with
    | true =>
      refine wp.bind (wp_modify fun w₁ _ _ => ⟨fun t pcm hw => ?_, fun w₂ _ => wp.bind ?_⟩)
      · cases (List.cons.inj hw).1
      · refine (plays_wp plays_closeDevice hnone).mono fun _ w _ => ?_
        exact (plays_wp plays_pushPlaybackFinished hnone).mono fun _ _ _ => trivial
    | false =>
      refine wp.bind (wp_atomic fun w₁ _ _ => ?_)
      split
      · next block queue hpop =>
        refine ⟨fun t pcm hw => ?_, fun w₂ (h₂ : w₂.playback.log = _) => ?_⟩
        · cases (List.cons.inj hw).1
        · refine (plays_wp plays_playBlock fun t ht => ?_).mono fun _ _ _ => trivial
          rw [h₂, ← ht]
          rfl
      · exact ⟨fun t pcm hw => absurd hw.symm (List.cons_ne_self _ _), fun _ _ _ _ => trivial⟩

end AudioPlayback

/-! ## The queue -/

/-- The blocks in the queue and the current one came after every stop request
    that has been consumed. -/
structure StopsOk (w : World) : Prop where
  wf : w.playback.queue.WF
  mark_le : w.playback.stopMark ≤ w.playback.enqueued
  consumed_le : ∀ mark, .stops mark ∈ w.playback.log → mark ≤ w.playback.enqueued
  queued : ∀ mark, .stops mark ∈ w.playback.log → ∀ r ∈ w.playback.queue.records, mark ≤ r.tag
  current : ∀ mark, .stops mark ∈ w.playback.log →
    ∀ t, currentBlock w.playback.log = some t → mark ≤ t
  written : NoStaleWrite w.playback.log

namespace StopsOk

variable {w w' : World} {i : ThreadId}

/-- An entry that is not a stop, with the same queue. -/
theorem record (h : StopsOk w) {entry : PlaybackEntry}
    (hlog : w'.playback.log = entry :: w.playback.log) (hstop : ∀ mark, .stops mark ≠ entry)
    (hqueue : w'.playback.queue.WF ∧
      ∀ r ∈ w'.playback.queue.records, r ∈ w.playback.queue.records)
    (hen : w'.playback.enqueued = w.playback.enqueued)
    (hmark : w'.playback.stopMark = w.playback.stopMark)
    (hcur : ∀ t, currentBlock (entry :: w.playback.log) = some t →
      currentBlock w.playback.log = some t ∨ ∃ r ∈ w.playback.queue.records, r.tag = t)
    (hwrites : ∀ t pcm, entry = .writes t pcm → currentBlock w.playback.log = some t) :
    StopsOk w' := by
  have hmem {mark : Nat} (hm : .stops mark ∈ w'.playback.log) : .stops mark ∈ w.playback.log :=
    (List.mem_cons.mp (hlog ▸ hm)).resolve_left (hstop mark)
  refine ⟨hqueue.1, ?_, fun mark hm => ?_, fun mark hm r hr => ?_, fun mark hm t ht => ?_, ?_⟩
  · rw [hmark, hen]; exact h.mark_le
  · rw [hen]; exact h.consumed_le mark (hmem hm)
  · exact h.queued mark (hmem hm) r (hqueue.2 r hr)
  · rw [hlog] at ht
    obtain ht | ⟨r, hr, rfl⟩ := hcur t ht
    · exact h.current mark (hmem hm) t ht
    · exact h.queued mark (hmem hm) r hr
  · intro t pcm l mark hl hm
    rw [hlog] at hl
    obtain hl | hl := List.suffix_cons_iff.mp hl
    · obtain ⟨rfl, rfl⟩ := List.cons.inj hl
      exact h.current mark hm t (hwrites t pcm rfl)
    · exact h.written t pcm l mark hl hm

theorem step (h : StopsOk w) (hs : Step i w w') (hok : StopsWhenEmptied i w w')
    (hg : i = .playback → writeContract.guar w w' ) : StopsOk w' := by
  -- a mark is at most the number of blocks so far: those that are queued later are behind it
  cases hs.sound with
  | same hq hen hmark hl =>
    refine ⟨hq ▸ h.wf, ?_, ?_, ?_, ?_, by rw [hl]; exact h.written⟩
    · obtain hmark | hmark := hmark <;> rw [hmark, hen]
      exact h.mark_le
    · rw [hl, hen]; exact h.consumed_le
    · rw [hl, hq]; exact h.queued
    · rw [hl]; exact h.current
  | enqueues pcm rate hpush hen hmark hl =>
    refine ⟨AudioBuffer.push_wf h.wf hpush, ?_, ?_, ?_, ?_, by rw [hl]; exact h.written⟩
    · rw [hmark, hen]; exact h.mark_le.trans (Nat.le_succ _)
    · rw [hl, hen]; exact fun mark hm => (h.consumed_le mark hm).trans (Nat.le_succ _)
    · intro mark hm r hr
      rw [hl] at hm
      rw [AudioBuffer.push_records h.wf hpush] at hr
      obtain hr | hr := List.mem_append.mp hr
      · exact h.queued mark hm r hr
      · obtain rfl := List.mem_singleton.mp hr
        exact h.consumed_le mark hm
    · rw [hl]; exact h.current
  | records entry hi ho hq hen hmark hl =>
    have hqueue : w'.playback.queue.WF ∧
        ∀ r ∈ w'.playback.queue.records, r ∈ w.playback.queue.records := by
      rw [hq]; exact ⟨h.wf, fun _ hr => hr⟩
    cases entry with
    | stops mark =>
      obtain rfl : mark = w.playback.stopMark := ho
      refine ⟨hqueue.1, ?_, fun mark hm => ?_, fun mark hm r hr => ?_, fun mark hm t ht => ?_, ?_⟩
      · rw [hmark, hen]; exact h.mark_le
      · rw [hen]
        obtain hm | hm := List.mem_cons.mp (hl ▸ hm)
        · exact PlaybackEntry.stops.inj hm ▸ h.mark_le
        · exact h.consumed_le mark hm
      · obtain hm | hm := List.mem_cons.mp (hl ▸ hm)
        · exact hok mark (by rw [hl, hm]) r (hqueue.2 r hr)
        · exact h.queued mark hm r (hqueue.2 r hr)
      · rw [hl] at ht
        cases ht
      · intro t pcm l mark hsuf hm
        rw [hl] at hsuf
        obtain hsuf | hsuf := List.suffix_cons_iff.mp hsuf
        · cases (List.cons.inj hsuf).1
        · exact h.written t pcm l mark hsuf hm
    | writes t pcm =>
      -- which block is written is said by the contract of the playback thread
      refine h.record hl (fun _ => nofun) hqueue hen hmark (fun t ht => .inl ht) ?_
      rintro _ _ ⟨⟩
      exact hg hi t pcm hl
    | pops _ => exact ho.elim
    | finishes _ => exact ho.elim
    | opens _ => exact h.record hl (fun _ => nofun) hqueue hen hmark (fun t ht => .inl ht) nofun
    | writeFails => exact h.record hl (fun _ => nofun) hqueue hen hmark (fun t ht => .inl ht) nofun
  | pops block hi hpop hen hmark hl =>
    have hrec := AudioBuffer.pop_records h.wf hpop
    refine h.record hl (fun _ => nofun) ⟨AudioBuffer.pop_wf h.wf hpop, fun r hr => ?_⟩ hen hmark
      (fun t ht => .inr ?_) nofun
    · exact hrec ▸ List.mem_cons_of_mem _ hr
    · exact ⟨w'.playback.queue.record block, hrec ▸ List.mem_cons_self, Option.some.inj ht⟩
  | finishes accepted hi hq hen hmark hl _ =>
    refine h.record hl (fun _ => nofun) ?_ hen hmark (fun t ht => .inl ht) nofun
    rw [hq]; exact ⟨h.wf, fun _ hr => hr⟩

end StopsOk

namespace System

variable {cjsonParse : Bytes → Option Json} {config : AppConfig} {cfg : Config}

/-- In every run in which the playback thread consumes each stop request while
    the queue holds no block that was accepted before it, no such block is
    written to the sound device afterwards. -/
theorem no_stale_write (hr : Reach cjsonParse StopsWhenEmptied config cfg) :
    NoStaleWrite cfg.shared.playback.log := by
  have hsteps : Threads.Reach (body cjsonParse) (fun i w w' => (StopsWhenEmptied i w w' ∧
      Step i w w') ∧ (i = .playback → writeContract.guar w w')) (init config) cfg := by
    refine Threads.Reach.strengthen (fun cfg cfg' i c hr hs h => ⟨h, ?_⟩) hr.steps
    rintro rfl
    have hbody (w : World) (_ : True) :
        (body cjsonParse .playback).wp writeContract (fun _ _ => True) w :=
      AudioPlayback.thread_wp w
    have hinit : (init config).Local .playback (fun p => p.wp writeContract fun _ _ => True)
        fun _ => True := trivial
    obtain hg | hsame := Threads.Reach.thread_guar (C := writeContract) (fun _ _ _ => trivial)
      (fun _ _ _ hj h => h.2.playbackLog hj) (fun _ _ _ _ => trivial) hbody hinit hr hs h
    · exact hg
    · exact fun t pcm hw => absurd (hsame ▸ hw).symm (List.cons_ne_self _ _)
  have hinit : StopsOk (World.init config) :=
    ⟨AudioBuffer.init_wf (AudioBuffer.init32_eq (by decide)), Nat.le_refl _,
      fun _ h => absurd h List.not_mem_nil, fun _ h => absurd h List.not_mem_nil,
      fun _ h => absurd h List.not_mem_nil,
      fun _ _ _ _ h => absurd (List.suffix_nil.mp h) (List.cons_ne_nil _ _)⟩
  have hok : StopsOk cfg.shared :=
    Threads.Reach.invariant hinit (fun _ _ _ h hok => hok.step h.1.2 h.1.1 h.2) hsteps
  exact hok.written

/-- The test for `StopsWhenEmptied`. -/
def stopsWhenEmptied (_ : ThreadId) (w w' : World) : Bool :=
  match added w.playback.log w'.playback.log with
  | some (.stops mark) => w.playback.queue.records.all fun r => decide (mark ≤ r.tag)
  | _ => true

theorem stopsWhenEmptied_iff (i : ThreadId) (w w' : World) (h : stopsWhenEmptied i w w' = true) :
    StopsWhenEmptied i w w' := by
  intro mark hlog
  simpa [stopsWhenEmptied, hlog] using h

/-- A block is played, and then Enter interrupts the answer of the server. -/
theorem no_stale_write_played :
    ∃ cfg, Reach sampleParse StopsWhenEmptied ⟨1, 16000, 1200, 500⟩ cfg ∧
      NoStaleWrite cfg.shared.playback.log ∧ .stops 1 ∈ cfg.shared.playback.log ∧
      .writes 0 [0, 0] ∈ cfg.shared.playback.log := by
  have h : (play sampleParse stopsWhenEmptied ⟨1, 16000, 1200, 500⟩ [
      (.main, 15, [.ok]),
      (.service 1, 38, [.ok, .ok, .ok, .callback .established, receives 0, receives 2,
        .callback (.receive true [1] true), .decoded 1 [0, 0], .nothing]),
      (.main, 43, [.ok, .ok, .nothing, .nothing, .input [10]]),
      (.playback, 15, [.ok, .count 1]),
      (.main, 19, [.ok]),
      (.playback, 8, [])]).any (fun cfg => decide (.stops 1 ∈ cfg.shared.playback.log) &&
        decide (.writes 0 [0, 0] ∈ cfg.shared.playback.log)) = true := by decide +kernel
  obtain ⟨cfg, hr, hp⟩ := exists_of_play stopsWhenEmptied_iff h
  simp only [Bool.and_eq_true, decide_eq_true_eq] at hp
  exact ⟨cfg, hr, no_stale_write hr, hp⟩

/-- The first block has just been written after a stop request that came later. -/
def writesStale : List PlaybackEntry → Bool
  | .writes 0 _ :: log => decide (.stops 1 ∈ log)
  | _ => false

/-- Enter interrupts the answer of the server while a block is queued. The
    playback thread consumes the stop request and then writes the block. -/
theorem stale_write : ∃ cfg, Reach sampleParse anyStep ⟨1, 16000, 1200, 500⟩ cfg ∧
    ¬NoStaleWrite cfg.shared.playback.log := by
  have h : (play sampleParse (fun _ _ _ => true) ⟨1, 16000, 1200, 500⟩ [
      (.main, 15, [.ok]),
      (.service 1, 38, [.ok, .ok, .ok, .callback .established, receives 0, receives 2,
        .callback (.receive true [1] true), .decoded 1 [0, 0], .nothing]),
      (.main, 43, [.ok, .ok, .nothing, .nothing, .input [10]]),
      (.main, 19, [.ok]),
      (.playback, 21, [.ok, .count 1])]).any (fun cfg => writesStale cfg.shared.playback.log) =
        true := by decide +kernel
  obtain ⟨cfg, hr, hp⟩ := exists_of_play (fun _ _ _ _ => trivial) h
  refine ⟨cfg, hr, fun hstale => ?_⟩
  unfold writesStale at hp
  split at hp
  · next pcm l hlog =>
    have := hstale 0 pcm l 1 (hlog ▸ List.suffix_refl _) (of_decide_eq_true hp)
    omega
  · cases hp

end System

end Xiaozhi
