-- SUMMARY: From a packet of the server to the frames that the sound device is given: the decoded block is whole exactly for one channel.
import Xiaozhi.App.Decoder

/-!
# Decoded audio

`app_client_on_binary` decodes a packet and queues the samples for playback,
and the playback thread writes the block to the device. The decoder has the
channels that a hello asked for, the playback has one, and the length of the
block is reckoned with the latter.
-/

namespace Xiaozhi

open Threads Threads.Prog

namespace AudioPlayback

/-- As `app_init_runtime_modules` sets the playback up. -/
structure Configured (pb : AudioPlayback) : Prop where
  channels : pb.channels = 1
  queue : pb.queue.WF
  blockCapacity : pb.queue.blockCapacity = 8192

theorem configured_init : init.Configured :=
  ⟨rfl, AudioBuffer.init_wf (AudioBuffer.init32_eq (by decide)), rfl⟩

/-! ## Writing a block -/

/-- What the entries say was written, oldest first. -/
def written (entries : List PlaybackEntry) : List Bytes :=
  entries.reverse.filterMap fun
    | .writes _ pcm => some pcm
    | _ => none

/-- The number of frames that were written. -/
def framesWritten (channels : Nat) (entries : List PlaybackEntry) : Nat :=
  ((written entries).map fun pcm => pcm.length / (2 * channels)).sum

@[simp] theorem written_nil : written [] = [] := rfl

theorem written_append {entries entries' : List PlaybackEntry} :
    written (entries' ++ entries) = written entries ++ written entries' := by
  simp only [written, List.reverse_append, List.filterMap_append]

theorem framesWritten_append {channels : Nat} {entries entries' : List PlaybackEntry} :
    framesWritten channels (entries' ++ entries) =
      framesWritten channels entries + framesWritten channels entries' := by
  simp only [framesWritten, written_append, List.map_append, List.sum_append]

/-- The playback still has the queue and the channels, and has made the entries. -/
structure Wrote (w : World) (entries : List PlaybackEntry) (w' : World) : Prop where
  queue : w'.playback.queue = w.playback.queue
  channels : w'.playback.channels = w.playback.channels
  log : w'.playback.log = entries ++ w.playback.log

theorem Wrote.refl {w : World} : Wrote w [] w := ⟨rfl, rfl, rfl⟩

theorem Wrote.trans {w w' w'' : World} {entries entries' : List PlaybackEntry}
    (h : Wrote w entries w') (h' : Wrote w' entries' w'') : Wrote w (entries' ++ entries) w'' :=
  ⟨h'.queue.trans h.queue, h'.channels.trans h.channels,
    by rw [h'.log, h.log, List.append_assoc]⟩

theorem Wrote.record {w w' : World} {entries : List PlaybackEntry} (h : Wrote w entries w')
    (e : PlaybackEntry) :
    Wrote w ([e] ++ entries) { w' with playback := w'.playback.record e } :=
  h.trans ⟨rfl, rfl, rfl⟩

/-- The entries hand the first `frames` frames of the block to the device. -/
def Hands (w : World) (block : AudioBlock Nat) (frames : Nat) (entries : List PlaybackEntry) :
    Prop :=
  (written entries).flatten =
      w.playback.queue.storage.read block.data (frames * (2 * w.playback.channels)) ∧
    framesWritten w.playback.channels entries = frames

variable {w : World} {block : AudioBlock Nat}

theorem hands_zero : Hands w block 0 [] := by
  rw [Hands, Nat.zero_mul]
  exact ⟨rfl, rfl⟩

/-- Only the writes count. -/
theorem Hands.of_written {frames : Nat} {entries entries' : List PlaybackEntry}
    (h : Hands w block frames entries) (heq : written entries' = written entries) :
    Hands w block frames entries' := by
  rw [Hands, framesWritten, heq]
  exact h

theorem Hands.of_wrote {w' : World} {frames : Nat} {before entries : List PlaybackEntry}
    (h : Hands w' block frames entries) (hwrote : Wrote w before w') :
    Hands w block frames entries := by
  rw [Hands, ← hwrote.queue, ← hwrote.channels]
  exact h

/-- The frames that follow are handed over next. -/
theorem Hands.next {done n : Nat} {entries : List PlaybackEntry} (hpos : 0 < w.playback.channels)
    (h : Hands w block done entries) :
    Hands w block (done + n) ([.writes block.tag (w.playback.queue.storage.read
      (block.data + done * (2 * w.playback.channels)) (n * (2 * w.playback.channels)))] ++
        entries) := by
  obtain ⟨hbytes, hframes⟩ := h
  constructor
  · rw [written_append, List.flatten_append, hbytes, Nat.add_mul, Memory.read_add]
    simp [written]
  · rw [framesWritten_append, hframes]
    simp [framesWritten, written, Nat.mul_div_cancel n (show 0 < 2 * w.playback.channels by omega)]

/-- What a round of the write loop can do. -/
theorem wp_writeFrames {frames done : Nat} {Q : Nat ⊕ Bool → World → Prop}
    (hmore : ∀ n, done + n ≤ frames → Q (.inl (done + n)) { w with
      playback := w.playback.record (.writes block.tag (w.playback.queue.storage.read
        (block.data + done * (2 * w.playback.channels)) (n * (2 * w.playback.channels)))) })
    (hagain : Q (.inl done) w)
    (hfails : Q (.inr false) { w with playback := w.playback.record .writeFails })
    (hend : frames ≤ done → Q (.inr true) w) : (writeFrames block frames done).wp alone Q w := by
  refine wp_alone_act fun c r w₁ hf => wp_alone_ret ?_
  dsimp only at hf
  split at hf
  · split at hf
    · split at hf
      · obtain ⟨rfl, rfl⟩ := Prod.mk.inj (Option.some.inj hf)
        exact hfails
      · obtain ⟨hle, hf⟩ := Option.ite_none_right_eq_some.mp hf
        obtain ⟨rfl, rfl⟩ := Prod.mk.inj (Option.some.inj hf)
        exact hmore _ (by omega)
    · split at hf
      · obtain ⟨rfl, rfl⟩ := Prod.mk.inj (Option.some.inj hf)
        exact hagain
      · obtain ⟨rfl, rfl⟩ := Prod.mk.inj (Option.some.inj hf)
        exact hfails
    · cases hf
  · obtain ⟨rfl, rfl⟩ := Prod.mk.inj (Option.some.inj hf)
    exact hend (by omega)

/-- A write that succeeds has handed over all frames; one that fails says so. -/
theorem wp_writeAllFrames {frames : Nat} (hpos : 0 < w.playback.channels) :
    (writeAllFrames block frames).wp alone (fun success w' => ∃ entries, Wrote w entries w' ∧
      (success = true → Hands w block frames entries) ∧
      (success = false → .writeFails ∈ entries)) w := by
  unfold writeAllFrames
  split_ifs with hzero
  · refine wp_alone_act fun c b w₁ hf => wp_alone_ret ?_
    obtain ⟨-, rfl⟩ := Prod.mk.inj (Option.some.inj hf)
    exact ⟨[.writeFails], ⟨rfl, rfl, rfl⟩, by simp, by simp⟩
  · refine wp_alone_iter (fun done w' => done ≤ frames ∧
      ∃ entries, Wrote w entries w' ∧ Hands w block done entries)
      ⟨Nat.zero_le _, [], .refl, hands_zero⟩ ?_
    rintro done w₁ ⟨hdone, entries, hwrote, hhands⟩
    refine wp_writeFrames ?_ ?_ ?_ ?_
    · intro n hn
      refine ⟨hn, _, hwrote.record _, ?_⟩
      rw [hwrote.queue, hwrote.channels]
      exact hhands.next hpos
    · exact ⟨hdone, entries, hwrote, hhands⟩
    · refine wp_alone_ret ⟨_, hwrote.record _, by simp, ?_⟩
      intro _
      exact List.mem_cons_self
    · intro hle
      obtain rfl := Nat.le_antisymm hdone hle
      exact wp_alone_ret ⟨entries, hwrote, fun _ => hhands, by simp⟩

/-- The device is opened anew if it does not fit, which may fail. -/
theorem wp_readyDevice {rate : Int} :
    (readyDevice rate).wp alone (fun success w' => ∃ entries, Wrote w entries w' ∧
      written entries = [] ∧ (success = false → .opens false ∈ entries)) w := by
  have hopen : ∀ {w₁ : World}, Wrote w [] w₁ → (openDevice rate).wp alone (fun success w' =>
      ∃ entries, Wrote w entries w' ∧ written entries = [] ∧
        (success = false → .opens false ∈ entries)) w₁ := by
    intro w₁ hw₁
    refine wp_alone_act fun c success w₂ hf => wp_alone_ret ?_
    cases c <;> obtain ⟨⟩ := hf
    · exact ⟨_, hw₁.trans (show Wrote w₁ [.opens true] _ from ⟨rfl, rfl, rfl⟩), rfl, by simp⟩
    · exact ⟨_, hw₁.trans (show Wrote w₁ [.opens false] _ from ⟨rfl, rfl, rfl⟩), rfl, by simp⟩
  unfold readyDevice
  refine wp.bind (wp_alone_read ?_)
  dsimp only
  split_ifs with hfits
  · exact wp_alone_ret ⟨[], .refl, rfl, by simp⟩
  · refine wp.bind ?_
    unfold Thread.when
    split_ifs with hpcm
    · exact wp_alone_modify (hopen ⟨rfl, rfl, rfl⟩)
    · exact wp_alone_ret (hopen .refl)

theorem wp_pushPlaybackFinished {w' : World} {entries : List PlaybackEntry}
    (h : Wrote w entries w') :
    pushPlaybackFinished.wp alone (fun _ w'' =>
      ∃ accepted, Wrote w ([.finishes accepted] ++ entries) w'') w' :=
  wp_alone_modify ⟨_, h.trans
    (show Wrote w' [.finishes (¬w'.events.Full)] _ from ⟨rfl, rfl, rfl⟩)⟩

/-- Unless the device fails, the playback thread writes the whole block. -/
theorem wp_playBlock (hpos : 0 < w.playback.channels) :
    (playBlock block).wp alone (fun _ w' => ∃ entries, w'.playback.log = entries ++ w.playback.log ∧
      (.opens false ∉ entries → .writeFails ∉ entries →
        Hands w block (block.len / (2 * w.playback.channels)) entries)) w := by
  unfold playBlock
  refine wp.bind (wp.mono ?_ wp_readyDevice)
  rintro ready w₁ ⟨opened, hopened, hnothing, hfailed⟩
  cases ready with
  | false => exact wp_alone_ret ⟨opened, hopened.log, fun h => absurd (hfailed rfl) h⟩
  | true =>
    refine wp.bind (wp_alone_read (wp.bind (wp.mono ?_ (wp_writeAllFrames ?_))))
    · rintro success w₂ ⟨entries, hwrote, hhands, hfails⟩
      have hall := hopened.trans hwrote
      cases success with
      | false =>
        exact wp_alone_ret ⟨_, hall.log, fun _ h => absurd (List.mem_append_left _ (hfails rfl)) h⟩
      | true =>
        have hblock : Hands w block (block.len / (2 * w.playback.channels)) (entries ++ opened) := by
          have hentries := (hhands rfl).of_wrote hopened
          rw [hopened.channels] at hentries
          exact hentries.of_written (by rw [written_append, hnothing, List.nil_append])
        refine wp.bind (wp_alone_read ?_)
        unfold Thread.when
        split_ifs with hsize
        · refine wp.mono ?_ (wp_pushPlaybackFinished hall)
          rintro u w₃ ⟨accepted, hfinished⟩
          refine ⟨_, hfinished.log, fun _ _ => hblock.of_written ?_⟩
          rw [written_append]
          exact List.append_nil _
        · exact wp_alone_ret ⟨_, hall.log, fun _ _ => hblock⟩
    · rw [hopened.channels]
      exact hpos

end AudioPlayback

/-! ## From the packet to the block -/

section OnBinary

variable {w w' : World} {dec : OpusDecoder} {packet pcm : Bytes} {n : Nat}

/-- A packet comes while audio is played and there is room for its block; it
    decodes to `n` samples for each channel. -/
structure Decodes (w : World) (dec : OpusDecoder) (packet : Bytes) (n : Nat) (pcm : Bytes) :
    Prop where
  decoder : w.decoder = some dec
  upload : w.uploadEnabled = false
  packet : packet ≠ []
  pos : 0 < n
  capacity : n * dec.channels ≤ 4096
  length : (pcm.length : Int) = n * dec.channels * 2
  playback : w.playback.Configured
  room : w.playback.queue.size < w.playback.queue.blocks.capacity

/-- What libopus answers to `opus_decode`. -/
def decodeAnswer (n : Nat) (pcm : Bytes) (c : Answer) : Prop := c = .decoded n pcm

theorem runs_decodeFrame (h : Decodes w dec packet n pcm) (hpos : 0 < dec.channels)
    {r : Int × Bytes} :
    (OpusDecoder.decodeFrame packet 4096).Runs (decodeAnswer n pcm) w r w' ↔
      r = (↑n, pcm) ∧ w' = w := by
  have hok : ∃ c, decodeAnswer n pcm c := ⟨_, rfl⟩
  obtain ⟨c, hc⟩ := Int.eq_ofNat_of_zero_le hpos.le
  have hfits : n ≤ 4096 / c := by
    have hcapacity := h.capacity
    rw [hc] at hcapacity hpos
    exact (Nat.le_div_iff_mul_le (by omega)).mpr (by exact_mod_cast hcapacity)
  have hnot : ¬ (packet = [] ∨ dec.channels ≤ 0 ∨ 4096 / dec.channels.toNat = 0) := by
    have hn := h.pos
    rw [hc, Int.toNat_natCast]
    rintro (hnil | hle | hzero)
    · exact h.packet hnil
    · omega
    · omega
  have hanswer : (n : Int) ≤ ↑(4096 / dec.channels.toNat) ∧
      (pcm.length : Int) = max ↑n 0 * dec.channels * 2 := by
    refine ⟨?_, ?_⟩
    · rw [hc, Int.toNat_natCast]
      exact_mod_cast hfits
    · rw [max_eq_left (Int.natCast_nonneg n)]
      exact h.length
  rw [OpusDecoder.decodeFrame, runs_bind]
  constructor
  · rintro ⟨d, w₁, hread, hrun⟩
    obtain ⟨rfl, rfl⟩ := (runs_read hok).mp hread
    simp only [h.decoder] at hrun
    rw [if_neg hnot, runs_ask] at hrun
    obtain ⟨⟨answer, rfl, hr⟩, rfl⟩ := hrun
    dsimp only at hr
    rw [if_pos hanswer] at hr
    exact ⟨(Option.some.inj hr).symm, rfl⟩
  · rintro ⟨rfl, rfl⟩
    refine ⟨some dec, w', (runs_read hok).mpr ⟨h.decoder.symm, rfl⟩, ?_⟩
    dsimp only
    rw [if_neg hnot, runs_ask]
    exact ⟨⟨_, rfl, if_pos hanswer⟩, rfl⟩

/-- The block that `audio_playback_enqueue` makes of the samples is accepted. -/
theorem exists_push (h : Decodes w dec packet n pcm) (hpos : 0 < dec.channels) :
    ∃ queue, w.playback.queue.push (pcm.take (n * 2 * w.playback.channels)) w.decoderSampleRate
      w.playback.enqueued = some queue := by
  apply Option.ne_none_iff_exists'.mp
  rw [Ne, AudioBuffer.push_eq_none, not_or]
  have hcapacity := h.capacity
  have hn : (n : Int) * 1 ≤ n * dec.channels := Int.mul_le_mul_of_nonneg_left hpos (by omega)
  have hroom := h.room
  rw [AudioBuffer.size] at hroom
  rw [h.playback.channels, h.playback.blockCapacity, List.length_take]
  omega

/-- The state after `app_client_on_binary` has queued a block. -/
def enqueued (packet : Bytes) (pcm : Bytes) (n : Nat) (queue : AudioBuffer Nat) (w : World) : World :=
  { w with
    delivered := ⟨w.started, .binary, packet⟩ :: w.delivered
    playback := { w.playback with
      queue
      waiting := false
      enqueued := w.playback.enqueued + 1
      accepted := pcm.take (n * 2 * w.playback.channels) :: w.playback.accepted } }

/-- What the enqueueing of a block comes to, when there is room. -/
theorem runs_enqueue {ok : Answer → Prop} (hok : ∃ c, ok c) {rate : Int} {b : Bool} (hn : n ≠ 0)
    {queue : AudioBuffer Nat} (hpush : w.playback.queue.push
      (pcm.take (n * 2 * w.playback.channels)) rate w.playback.enqueued = some queue) :
    (AudioPlayback.enqueue pcm n rate).Runs ok w b w' ↔ b = true ∧ w' = { w with
      playback := { w.playback with
        queue
        waiting := false
        enqueued := w.playback.enqueued + 1
        accepted := pcm.take (n * 2 * w.playback.channels) :: w.playback.accepted } } := by
  rw [AudioPlayback.enqueue, if_neg hn, runs_bind]
  have hblock : ∀ {pushed w₁}, (AudioPlayback.pushBlock pcm n rate).Runs ok w pushed w₁ ↔
      pushed = true ∧ w₁ = { w with
        playback := { w.playback with
          queue
          enqueued := w.playback.enqueued + 1
          accepted := pcm.take (n * 2 * w.playback.channels) :: w.playback.accepted } } := by
    intro pushed w₁
    rw [AudioPlayback.pushBlock, runs_atomic hok]
    simp only [hpush, Prod.mk.injEq]
    constructor
    · rintro ⟨rfl, rfl⟩
      exact ⟨rfl, rfl⟩
    · rintro ⟨rfl, rfl⟩
      exact ⟨rfl, rfl⟩
  constructor
  · rintro ⟨pushed, w₁, hrun, hrest⟩
    obtain ⟨rfl, rfl⟩ := hblock.mp hrun
    obtain ⟨u, w₂, hsignal, hret⟩ := runs_bind.mp hrest
    obtain rfl := (runs_modify hok).mp hsignal
    exact runs_ret.mp hret
  · rintro ⟨rfl, rfl⟩
    refine ⟨true, _, hblock.mpr ⟨rfl, rfl⟩, runs_bind.mpr ⟨(), _, (runs_modify hok).mpr rfl, ?_⟩⟩
    exact runs_ret.mpr ⟨rfl, rfl⟩

theorem runs_onBinary (h : Decodes w dec packet n pcm) (hpos : 0 < dec.channels)
    {queue : AudioBuffer Nat} (hpush : w.playback.queue.push
      (pcm.take (n * 2 * w.playback.channels)) w.decoderSampleRate w.playback.enqueued = some queue) :
    (appClientOnBinary packet).Runs (decodeAnswer n pcm) w () w' ↔
      w' = enqueued packet pcm n queue w := by
  have hok : ∃ c, decodeAnswer n pcm c := ⟨_, rfl⟩
  let w₀ : World := { w with delivered := ⟨w.started, .binary, packet⟩ :: w.delivered }
  have hw₀ : Decodes w₀ dec packet n pcm :=
    ⟨h.decoder, h.upload, h.packet, h.pos, h.capacity, h.length, h.playback, h.room⟩
  have htest : ∀ {ignored w₁}, (ignoresBinary packet).Runs (decodeAnswer n pcm) w ignored w₁ ↔
      ignored = false ∧ w₁ = w₀ := by
    intro ignored w₁
    have hfalse : decide (w.uploadEnabled = true ∨ packet = []) = false := by
      simp only [h.upload, h.packet, Bool.false_eq_true, or_self, decide_false]
    rw [ignoresBinary, runs_atomic hok, hfalse, Prod.mk.injEq]
    exact and_congr eq_comm eq_comm
  have hpush₀ : w₀.playback.queue.push (pcm.take (((n : Int).toNat) * 2 * w₀.playback.channels))
      w₀.decoderSampleRate w₀.playback.enqueued = some queue := hpush
  have hn : (n : Int) > 0 := by
    have := h.pos
    omega
  rw [appClientOnBinary, runs_bind]
  constructor
  · rintro ⟨ignored, w₁, htested, hrest⟩
    obtain ⟨rfl, rfl⟩ := htest.mp htested
    obtain ⟨r, w₂, hdecode, hrest⟩ := runs_bind.mp hrest
    obtain ⟨rfl, rfl⟩ := (runs_decodeFrame hw₀ hpos).mp hdecode
    dsimp only at hrest
    rw [if_pos hn] at hrest
    obtain ⟨rate, w₃, hread, hrest⟩ := runs_bind.mp hrest
    obtain ⟨rfl, rfl⟩ := (runs_read hok).mp hread
    obtain ⟨b, w₄, henqueue, hret⟩ := runs_bind.mp hrest
    obtain ⟨rfl, rfl⟩ := (runs_enqueue hok (by omega) hpush₀).mp henqueue
    exact (runs_ret.mp hret).2
  · rintro rfl
    refine ⟨false, w₀, htest.mpr ⟨rfl, rfl⟩, ?_⟩
    refine runs_bind.mpr ⟨(↑n, pcm), w₀, (runs_decodeFrame hw₀ hpos).mpr ⟨rfl, rfl⟩, ?_⟩
    dsimp only
    rw [if_pos hn]
    refine runs_bind.mpr ⟨w₀.decoderSampleRate, w₀, (runs_read hok).mpr ⟨rfl, rfl⟩, ?_⟩
    refine runs_bind.mpr ⟨true, _, (runs_enqueue hok (by omega) hpush₀).mpr ⟨rfl, rfl⟩, ?_⟩
    exact runs_ret.mpr ⟨rfl, rfl⟩

/-! ## The whole way -/

/-- The packet makes a block that holds all samples, and the playback thread,
    unless the device fails, writes that block as exactly `n` frames. -/
def PlaysWhole (packet : Bytes) (n : Nat) (pcm : Bytes) (w : World) : Prop :=
  (∃ w', (appClientOnBinary packet).Runs (decodeAnswer n pcm) w () w') ∧
  ∀ w', (appClientOnBinary packet).Runs (decodeAnswer n pcm) w () w' →
    ∃ r, w'.playback.queue.records = w.playback.queue.records ++ [r] ∧ r.bytes = pcm ∧
      ∀ (ok : Answer → Prop) (block : AudioBlock Nat) (w₁ w₂ : World),
        w₁.playback.Configured → w₁.playback.queue.record block = r →
        (AudioPlayback.playBlock block).Runs ok w₁ () w₂ →
          ∃ entries, w₂.playback.log = entries ++ w₁.playback.log ∧
            (.opens false ∉ entries → .writeFails ∉ entries →
              (AudioPlayback.written entries).flatten = pcm ∧
                AudioPlayback.framesWritten w₁.playback.channels entries = n)

/-- The block holds as many bytes as one channel takes. -/
theorem records_onBinary (h : Decodes w dec packet n pcm) (hpos : 0 < dec.channels)
    (hruns : (appClientOnBinary packet).Runs (decodeAnswer n pcm) w () w') :
    w'.playback.queue.records = w.playback.queue.records ++
      [⟨pcm.take (n * 2), w.decoderSampleRate, w.playback.enqueued⟩] := by
  obtain ⟨queue, hpush⟩ := exists_push h hpos
  obtain rfl := (runs_onBinary h hpos hpush).mp hruns
  rw [h.playback.channels, Nat.mul_one] at hpush
  exact AudioBuffer.push_records h.playback.queue hpush

/-- The samples are queued and played whole exactly when the decoder has one channel. -/
theorem plays_whole_iff {hellos : List XiaozhiIncomingEvent}
    (hrun : App.HandledHellos hellos w) (h : Decodes w dec packet n pcm) :
    PlaysWhole packet n pcm w ↔ dec.channels = 1 := by
  have hpos := (hrun.supported h.decoder).pos.2
  have hlength := h.length
  have hn := h.pos
  obtain ⟨queue, hpush⟩ := exists_push h hpos
  have hruns := (runs_onBinary h hpos hpush).mpr rfl
  constructor
  · rintro ⟨-, hall⟩
    obtain ⟨r, hrecords, hbytes, -⟩ := hall _ hruns
    rw [records_onBinary h hpos hruns, List.append_cancel_left_eq, List.cons.injEq] at hrecords
    have htake : pcm.take (n * 2) = pcm := (congrArg AudioRecord.bytes hrecords.1).trans hbytes
    have hle := congrArg List.length htake
    rw [List.length_take] at hle
    have hchannels : (n : Int) * dec.channels * 2 ≤ n * 1 * 2 := by
      rw [← hlength]
      omega
    have hle' : (n : Int) * dec.channels ≤ n * 1 := Int.le_of_mul_le_mul_right hchannels (by omega)
    have := Int.le_of_mul_le_mul_left hle' (by omega)
    omega
  · intro hone
    rw [hone, mul_one] at hlength
    have htake : pcm.take (n * 2) = pcm := List.take_of_length_le (by omega)
    refine ⟨⟨_, hruns⟩, fun w' hruns' => ?_⟩
    refine ⟨⟨pcm, w.decoderSampleRate, w.playback.enqueued⟩, ?_, rfl, ?_⟩
    · rw [records_onBinary h hpos hruns', htake]
    · intro ok block w₁ w₂ hconfigured hrecord hplay
      have hchannels := hconfigured.channels
      obtain ⟨entries, hlog, hhands⟩ :=
        Runs.of_wp (AudioPlayback.wp_playBlock (by omega)) hplay
      refine ⟨entries, hlog, fun hopens hwrites => ?_⟩
      obtain ⟨hbytes, hframes⟩ := hhands hopens hwrites
      have hread : w₁.playback.queue.storage.read block.data block.len = pcm :=
        congrArg AudioRecord.bytes hrecord
      have hlen : block.len = n * 2 := by
        have := congrArg List.length hread
        rw [Memory.length_read] at this
        omega
      rw [hchannels, hlen, Nat.mul_div_cancel n (by omega)] at hbytes hframes
      rw [hlen] at hread
      exact ⟨hbytes.trans hread, hchannels ▸ hframes⟩

theorem mono_packet_played_whole :
    PlaysWhole [1] 1 [1, 0] (App.handled (App.helloAsking 16000 1) App.freshWorld) ↔
      (1 : Int) = 1 :=
  @plays_whole_iff _ ⟨16000, 1⟩ _ _ _ _ (.hello (.start rfl rfl) (App.handlesHello_iff.mpr rfl))
    ⟨by decide, rfl, by decide, by decide, by decide, rfl, AudioPlayback.configured_init, by decide⟩

/-- A server that asks for two channels is heard with half of the samples. -/
theorem stereo_packet_cut : ¬ ∀ hellos w dec packet n pcm, App.HandledHellos hellos w →
    Decodes w dec packet n pcm → PlaysWhole packet n pcm w := by
  intro hclaim
  have hdecodes : Decodes (App.handled (App.helloAsking 24000 2) App.freshWorld) ⟨24000, 2⟩ [1] 1
      [1, 0, 2, 0] :=
    ⟨by decide, rfl, by decide, by decide, by decide, rfl, AudioPlayback.configured_init, by decide⟩
  obtain ⟨⟨w', hruns⟩, hall⟩ := hclaim [App.helloAsking 24000 2] _ _ _ _ _
    (.hello (.start rfl rfl) (App.handlesHello_iff.mpr rfl)) hdecodes
  obtain ⟨r, hrecords, hbytes, -⟩ := hall w' hruns
  rw [records_onBinary hdecodes (by decide) hruns, List.append_cancel_left_eq,
    List.cons.injEq] at hrecords
  rw [← hrecords.1] at hbytes
  exact absurd hbytes (by decide)

end OnBinary

end Xiaozhi
