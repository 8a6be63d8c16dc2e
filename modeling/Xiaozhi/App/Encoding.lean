-- SUMMARY: Which of the samples that are read for an upload come to the encoder.
import Xiaozhi.App.Footprints

/-!
# Encoding

The capture thread hands the chunks that it reads to the encoder, one by one.
The encoder takes frames of a fixed length only, so what becomes of the samples
is a matter of how long the chunks are.
-/

namespace Xiaozhi

open Threads Threads.Prog World

/-- A chunk that is read while uploads are enabled, and the samples that each
    call of `opus_encode` gets until the next chunk. -/
structure Chunk where
  pcm : List Int16
  encoded : List (List Int16)
  deriving DecidableEq

/-- The chunks in a history, the most recent first. -/
def chunks : List CaptureEntry → List Chunk
  | [] => []
  | .reads pcm :: log => ⟨pcm, []⟩ :: chunks log
  | .encodes pcm :: log =>
    match chunks log with
    | [] => []
    | c :: cs => { c with encoded := c.encoded ++ [pcm] } :: cs

/-- The chunks that are read, in order. -/
def World.chunksRead (w : World) : List Chunk := (chunks w.capture.log).reverse

namespace Chunk

/-- The samples of some chunks, with their positions from `start` on. -/
def samples (start : Nat) : List Chunk → List (Int16 × Nat)
  | [] => []
  | c :: cs => c.pcm.zipIdx start ++ samples (start + c.pcm.length) cs

/-- The samples that `opus_encode` gets, with the positions that they have in
    their chunks. -/
def handed (start : Nat) : List Chunk → List (Int16 × Nat)
  | [] => []
  | c :: cs =>
    (c.encoded.map fun pcm => pcm.zipIdx start).flatten ++ handed (start + c.pcm.length) cs

/-- The number of samples in some chunks. -/
def total (cs : List Chunk) : Nat := (cs.map (·.pcm.length)).sum

@[simp] theorem total_nil : total [] = 0 := rfl

@[simp] theorem total_cons {c : Chunk} {cs : List Chunk} :
    total (c :: cs) = c.pcm.length + total cs := by simp [total]

/-- Every sample is handed to `opus_encode` once and in order, except for a
    final remainder shorter than a frame of `n` samples. -/
structure AllEncoded (n : Int) (start : Nat) (cs : List Chunk) : Prop where
  inOrder : handed start cs <+: samples start cs
  remainder : ((samples start cs).length : Int) < (handed start cs).length + n

/-- Full frames of `n` samples, and then fewer than `n` samples. -/
def FullFrames (n : Int) (cs : List Chunk) : Prop := ∃ full rest, cs = full ++ rest ∧
  (∀ c ∈ full, (c.pcm.length : Int) = n) ∧ (total rest : Int) < n

/-- The encoder gets the chunks of exactly `n` samples, once and whole. -/
def Taken (n : Int) (c : Chunk) : Prop :=
  c.encoded = if (c.pcm.length : Int) = n then [c.pcm] else []

variable {n : Int} {start : Nat} {c : Chunk} {cs : List Chunk}

theorem length_samples : (samples start cs).length = total cs := by
  induction cs generalizing start with
  | nil => rfl
  | cons c cs ih => simp [samples, ih]

theorem le_of_mem_handed {x : Int16 × Nat} (h : x ∈ handed start cs) : start ≤ x.2 := by
  induction cs generalizing start with
  | nil => cases h
  | cons c cs ih =>
    rcases List.mem_append.mp h with h | h
    · obtain ⟨l, hl, hx⟩ := List.mem_flatten.mp h
      obtain ⟨pcm, -, rfl⟩ := List.mem_map.mp hl
      exact List.le_snd_of_mem_zipIdx hx
    · exact (Nat.le_add_right _ _).trans (ih h)

/-- Nothing is handed to the encoder of chunks that are all too short. -/
theorem handed_eq_nil (ht : ∀ c ∈ cs, Taken n c)
    (hlen : (total cs : Int) < n) : handed start cs = [] := by
  induction cs generalizing start with
  | nil => rfl
  | cons c cs ih =>
    rw [total_cons] at hlen
    have hc : c.encoded = [] := by
      rw [ht c List.mem_cons_self, if_neg (by omega)]
    rw [handed, hc, ih (fun c h => ht c (List.mem_cons_of_mem _ h)) (by omega)]
    rfl

/-- A full frame first makes no difference. -/
theorem allEncoded_cons_of_eq (hc : Taken n c) (hlen : (c.pcm.length : Int) = n) :
    AllEncoded n start (c :: cs) ↔ AllEncoded n (start + c.pcm.length) cs := by
  have hone : c.encoded = [c.pcm] := hc.trans (if_pos hlen)
  have hhanded : handed start (c :: cs) =
      c.pcm.zipIdx start ++ handed (start + c.pcm.length) cs := by
    simp [handed, hone]
  constructor
  · rintro ⟨hpre, hrest⟩
    rw [hhanded] at hpre hrest
    refine ⟨(List.prefix_append_right_inj _).mp hpre, ?_⟩
    simp only [samples, List.length_append] at hrest
    omega
  · rintro ⟨hpre, hrest⟩
    refine ⟨?_, ?_⟩
    · rw [hhanded]
      exact (List.prefix_append_right_inj _).mpr hpre
    · rw [hhanded]
      simp only [samples, List.length_append]
      omega

/-- A chunk of another length is lost, so nothing may be handed over after it. -/
theorem allEncoded_cons_of_ne (ht : ∀ d ∈ c :: cs, Taken n d) (hne : c.pcm ≠ [])
    (hlen : (c.pcm.length : Int) ≠ n) :
    AllEncoded n start (c :: cs) ↔ (total (c :: cs) : Int) < n := by
  have hnone : c.encoded = [] := (ht c List.mem_cons_self).trans (if_neg hlen)
  have hhanded : handed start (c :: cs) = handed (start + c.pcm.length) cs := by
    simp [handed, hnone]
  constructor
  · rintro ⟨hpre, hrest⟩
    -- a sample handed over would be the first one, but its position is past the lost chunk
    have hnil : handed start (c :: cs) = [] := by
      rw [hhanded]
      cases hh : handed (start + c.pcm.length) cs with
      | nil => rfl
      | cons x xs =>
        obtain ⟨s, pcm, hpcm⟩ := List.exists_cons_of_ne_nil hne
        have hx := le_of_mem_handed (hh ▸ List.mem_cons_self)
        rw [hhanded, hh, samples, hpcm, List.zipIdx_cons, List.cons_append,
          List.cons_prefix_cons] at hpre
        rw [hpre.1, hpcm, List.length_cons] at hx
        omega
    rw [hnil, length_samples, List.length_nil] at hrest
    omega
  · intro hsum
    have hnil : handed start (c :: cs) = [] := handed_eq_nil ht hsum
    refine ⟨hnil ▸ List.nil_prefix, ?_⟩
    rw [hnil, length_samples, List.length_nil]
    omega

theorem fullFrames_cons_of_eq (hlen : (c.pcm.length : Int) = n) :
    FullFrames n (c :: cs) ↔ FullFrames n cs := by
  constructor
  · rintro ⟨full, rest, hsplit, hfull, hrest⟩
    cases full with
    | nil =>
      obtain rfl : c :: cs = rest := hsplit
      rw [total_cons] at hrest
      omega
    | cons d full =>
      obtain ⟨rfl, rfl⟩ := List.cons.inj hsplit
      exact ⟨full, rest, rfl, fun c h => hfull c (List.mem_cons_of_mem _ h), hrest⟩
  · rintro ⟨full, rest, rfl, hfull, hrest⟩
    exact ⟨c :: full, rest, rfl, List.forall_mem_cons.mpr ⟨hlen, hfull⟩, hrest⟩

theorem fullFrames_cons_of_ne (hlen : (c.pcm.length : Int) ≠ n) :
    FullFrames n (c :: cs) ↔ (total (c :: cs) : Int) < n := by
  constructor
  · rintro ⟨full, rest, hsplit, hfull, hrest⟩
    cases full with
    | nil =>
      obtain rfl : c :: cs = rest := hsplit
      exact hrest
    | cons d full =>
      obtain ⟨rfl, -⟩ := List.cons.inj hsplit
      exact absurd (hfull c List.mem_cons_self) hlen
  · intro hsum
    exact ⟨[], c :: cs, rfl, fun _ h => (List.not_mem_nil h).elim, hsum⟩

/-- With an encoder for frames of `n` samples, the samples come through if they
    are read in full frames. -/
theorem allEncoded_iff (ht : ∀ c ∈ cs, Taken n c) (hne : ∀ c ∈ cs, c.pcm ≠ []) :
    AllEncoded n start cs ↔ FullFrames n cs := by
  induction cs generalizing start with
  | nil =>
    constructor
    · rintro ⟨-, hrest⟩
      exact ⟨[], [], rfl, fun _ h => (List.not_mem_nil h).elim, by simpa [samples, handed] using hrest⟩
    · rintro ⟨full, rest, hsplit, -, hrest⟩
      obtain ⟨rfl, rfl⟩ := List.append_eq_nil_iff.mp hsplit.symm
      exact ⟨List.nil_prefix, by simpa [samples, handed] using hrest⟩
  | cons c cs ih =>
    by_cases hlen : (c.pcm.length : Int) = n
    · rw [allEncoded_cons_of_eq (ht c List.mem_cons_self) hlen, fullFrames_cons_of_eq hlen]
      exact ih (fun c h => ht c (List.mem_cons_of_mem _ h)) fun c h => hne c (List.mem_cons_of_mem _ h)
    · rw [allEncoded_cons_of_ne ht (hne c List.mem_cons_self) hlen, fullFrames_cons_of_ne hlen]

end Chunk

/-! ## The capture thread -/

/-- Every chunk that is read has been handed over or refused, by an encoder for
    frames of `n` samples. -/
structure Dealt (n : Int) (w : World) : Prop where
  encoder : ∃ enc, w.encoder = some enc ∧ enc.samplesPerChannel = n
  taken : ∀ c ∈ chunks w.capture.log, c.Taken n

/-- So has every chunk but the latest. -/
structure Reads (n : Int) (pcm : List Int16) (w : World) : Prop where
  encoder : ∃ enc, w.encoder = some enc ∧ enc.samplesPerChannel = n
  taken : ∃ cs, chunks w.capture.log = ⟨pcm, []⟩ :: cs ∧ ∀ c ∈ cs, c.Taken n

/-- Only the capture thread reads and encodes. -/
def encodeContract : Contract World where
  rely w w' := w'.capture.log = w.capture.log ∧ w'.encoder = w.encoder
  assume _ _ := True
  guar _ _ := True
  rely_refl _ := ⟨rfl, rfl⟩
  rely_trans h₁ h₂ := ⟨h₂.1.trans h₁.1, h₂.2.trans h₁.2⟩

section

variable {n : Int} {pcm : List Int16} {w w' : World}

theorem Dealt.rely (h : Dealt n w) (hr : encodeContract.rely w w') : Dealt n w' := by
  refine ⟨?_, ?_⟩
  · rw [hr.2]
    exact h.encoder
  · rw [hr.1]
    exact h.taken

theorem Reads.rely (h : Reads n pcm w) (hr : encodeContract.rely w w') : Reads n pcm w' := by
  refine ⟨?_, ?_⟩
  · rw [hr.2]
    exact h.encoder
  · rw [hr.1]
    exact h.taken

theorem upload_wp {α : Type} {p : Thread α} (hp : p.Upload) (h : Dealt n w) :
    p.wp encodeContract (fun _ => Dealt n) w :=
  Within.wp (C := encodeContract) hp (fun _ _ hr h => h.rely hr)
    (fun _ _ h hs _ => ⟨trivial, h.rely ⟨hs.log, (show Step .capture _ _ from hs.step).encoder⟩⟩) h

namespace OpusEncoder

/-- The latest chunk is a full frame. -/
theorem encode_wp (h : Reads n pcm w) (hlen : (pcm.length : Int) = n) :
    (encode pcm).wp encodeContract (fun _ => Dealt n) w := by
  refine wp_act fun w₁ h₁ c packet w₂ hs _ => ⟨trivial, wp_ret fun w₃ h₃ => ?_⟩
  have hw : w₂ =
      { w₁ with capture := { w₁.capture with log := .encodes pcm :: w₁.capture.log } } := by
    dsimp only at hs
    split at hs
    · obtain ⟨-, hs⟩ := Option.ite_none_right_eq_some.mp hs
      exact (Prod.mk.inj (Option.some.inj hs)).2.symm
    · exact (Prod.mk.inj (Option.some.inj hs)).2.symm
    · cases hs
  subst hw
  obtain ⟨hencoder, cs, hcs, ht⟩ := h.rely h₁
  have hdealt : Dealt n
      { w₁ with capture := { w₁.capture with log := .encodes pcm :: w₁.capture.log } } := by
    refine ⟨hencoder, ?_⟩
    show ∀ c ∈ chunks (.encodes pcm :: w₁.capture.log), c.Taken n
    rw [chunks, hcs]
    exact List.forall_mem_cons.mpr ⟨(if_pos hlen).symm, ht⟩
  exact hdealt.rely h₃

theorem encodeFrame_wp (h : Reads n pcm w) :
    (encodeFrame pcm).wp encodeContract (fun _ => Dealt n) w := by
  refine wp.bind (wp_read fun w₁ h₁ => ⟨trivial, fun w₂ h₂ => ?_⟩)
  have h₁ := h.rely h₁
  obtain ⟨enc, henc, hn⟩ := h₁.encoder
  rw [henc]
  dsimp only
  split
  · next hlen =>
    rw [hn] at hlen
    obtain ⟨hencoder, cs, hcs, ht⟩ := h₁.rely h₂
    refine wp_ret fun w₃ h₃ => Dealt.rely ⟨hencoder, ?_⟩ h₃
    rw [hcs]
    exact List.forall_mem_cons.mpr ⟨(if_neg hlen).symm, ht⟩
  · next hlen => exact encode_wp (h₁.rely h₂) (hn ▸ not_not.mp hlen)

end OpusEncoder

theorem uploads_wp (h : Dealt n w) : (uploads pcm).wp encodeContract
    (fun enabled w => if enabled then Reads n pcm w else Dealt n w) w := by
  refine wp_atomic fun w₁ h₁ _ => ⟨trivial, fun w₂ h₂ => ?_⟩
  have h := h.rely h₁
  have hlog : w₂.capture.log =
      if w₁.uploadEnabled then .reads pcm :: w₁.capture.log else w₁.capture.log := h₂.1
  cases hu : w₁.uploadEnabled with
  | false =>
    rw [hu] at hlog
    exact h.rely ⟨hlog, h₂.2⟩
  | true =>
    rw [hu] at hlog
    refine ⟨?_, chunks w₁.capture.log, ?_, h.taken⟩
    · rw [h₂.2]
      exact h.encoder
    · rw [hlog]
      rfl

theorem appCaptureOnPcm_wp (h : Dealt n w) :
    (appCaptureOnPcm pcm).wp encodeContract (fun _ => Dealt n) w := by
  refine wp.bind ((uploads_wp h).mono fun enabled w h => ?_)
  cases enabled with
  | false => exact wp_ret fun _ hr => Dealt.rely h hr
  | true =>
    refine wp.bind ((OpusEncoder.encodeFrame_wp h).mono fun packet w h => ?_)
    exact upload_wp (AudioCapture.upload_packet packet) h

namespace AudioCapture

theorem thread_wp (h : Dealt n w) : thread.wp encodeContract (fun _ => Dealt n) w := by
  refine wp.bind ((upload_wp upload_await h).mono fun _ w h => ?_)
  refine wp.bind ((upload_wp upload_read h).mono fun (uploading, running) w h => ?_)
  cases running with
  | false => exact upload_wp upload_stop h
  | true =>
    refine wp.bind ((upload_wp upload_readFrames h).mono fun pcm w h => ?_)
    cases pcm with
    | none => exact wp_ret fun _ hr => h.rely hr
    | some pcm =>
      exact wp.bind ((appCaptureOnPcm_wp h).mono fun _ _ h => upload_wp upload_detectSilence h)

end AudioCapture

end

/-! ## Runs -/

namespace System

/-- In every run, whatever the sample rate and the period: of chunks read one
    after the other, all samples come to the encoder, once and in order except
    for a final remainder, exactly if the chunks are full frames of the encoder
    followed by less than a frame. -/
theorem all_encoded_iff {cjsonParse : Bytes → Option Json} {config : AppConfig} {cfg : Config}
    (hr : Reach cjsonParse anyStep config cfg) (hc : cfg.cur .capture = none) {cs : List Chunk}
    (hcs : cs <:+: cfg.shared.chunksRead) (hne : ∀ c ∈ cs, c.pcm ≠ []) :
    Chunk.AllEncoded (OpusEncoder.init config.inputSampleRate 1 60).samplesPerChannel 0 cs ↔
      Chunk.FullFrames (OpusEncoder.init config.inputSampleRate 1 60).samplesPerChannel cs := by
  let n := (OpusEncoder.init config.inputSampleRate 1 60).samplesPerChannel
  have hopen : AudioCapture.openDevice.wp encodeContract (fun _ => Dealt n) (World.init config) :=
    upload_wp AudioCapture.upload_openDevice ⟨⟨_, rfl, rfl⟩, fun _ h => (List.not_mem_nil h).elim⟩
  have hinit : (init config).Local .capture (fun p => p.wp encodeContract fun _ => Dealt n)
      (Dealt n) := hopen
  have hbody (w : World) (h : Dealt n w) :
      (body cjsonParse .capture).wp encodeContract (fun _ => Dealt n) w := AudioCapture.thread_wp h
  have hlocal := Threads.Reach.thread (fun _ _ h => trivial)
    (fun _ _ _ hj h => And.intro (h.2.captureLog hj) h.2.encoder)
    (fun _ _ h hr => Dealt.rely h hr) hbody hinit hr.steps
  unfold Threads.Config.Local at hlocal
  rw [hc] at hlocal
  refine Chunk.allEncoded_iff (fun c h => ?_) hne
  exact hlocal.taken c (List.mem_reverse.mp (hcs.subset h))

/-- The capture thread reads some chunks while an upload goes on. -/
def readingTurns (steps : Nat) (answers : List Answer) : List (ThreadId × Nat × List Answer) :=
  [(.main, 15, [.ok]),
    (.service 1, 23, [.ok, .ok, .ok, .callback .established, receives 0, .nothing]),
    (.main, 57, [.ok, .ok, .nothing, .nothing, .nothing, .input [10], .ok, .ok, .nothing]),
    (.capture, steps, .count 960 :: answers)]

/-- A period of rising samples. -/
def risingPcm : List Int16 := (List.range 960).map Int16.ofNat

/-- The period, handed to the encoder as often as `calls` says. -/
def risingChunk (calls : Nat) : Chunk := ⟨risingPcm, List.replicate calls risingPcm⟩

theorem length_risingChunk (calls : Nat) : (risingChunk calls).pcm.length = 960 := by
  simp only [risingChunk, risingPcm, List.length_map, List.length_range]

/-- A period at 16 kHz is a full frame. -/
theorem all_encoded_iff_frame : ∃ cfg, Reach sampleParse anyStep ⟨1, 16000, 0, 500⟩ cfg ∧
    cfg.shared.chunksRead = [risingChunk 1] ∧ Chunk.AllEncoded 960 0 [risingChunk 1] := by
  have h : (play sampleParse (fun _ _ _ => true) ⟨1, 16000, 0, 500⟩
      (readingTurns 16 [.captured risingPcm, .packet [1], .count 3])).any (fun cfg =>
        (cfg.cur .capture).isNone &&
        decide (cfg.shared.chunksRead = [risingChunk 1])) = true := by decide +kernel
  obtain ⟨cfg, hr, hp⟩ := exists_of_play (fun _ _ _ _ => trivial) h
  simp only [Bool.and_eq_true, Option.isNone_iff_eq_none, decide_eq_true_eq] at hp
  obtain ⟨hc, hchunks⟩ := hp
  have hcs : [risingChunk 1] <:+: cfg.shared.chunksRead := ⟨[], [], hchunks.symm⟩
  have hne : ∀ c ∈ [risingChunk 1], c.pcm ≠ [] := by
    intro c hmem
    rw [List.mem_singleton.mp hmem]
    exact List.ne_nil_of_length_pos (length_risingChunk 1 ▸ Nat.succ_pos _)
  refine ⟨cfg, hr, hchunks, (all_encoded_iff hr hc hcs hne).mpr ?_⟩
  refine ⟨[risingChunk 1], [], rfl, fun c hmem => ?_, by decide⟩
  obtain rfl := List.mem_singleton.mp hmem
  exact (congrArg (Nat.cast : Nat → Int) (length_risingChunk 1)).trans rfl

/-- At 48 kHz a period is a third of a frame, and none of the samples comes to
    the encoder. -/
theorem samples_lost : ∃ cfg, Reach sampleParse anyStep ⟨1, 48000, 0, 500⟩ cfg ∧
    cfg.cur .capture = none ∧
    cfg.shared.chunksRead = [risingChunk 0, risingChunk 0, risingChunk 0] ∧
    ¬Chunk.AllEncoded (OpusEncoder.init 48000 1 60).samplesPerChannel 0 cfg.shared.chunksRead := by
  have h : (play sampleParse (fun _ _ _ => true) ⟨1, 48000, 0, 500⟩
      (readingTurns 29 (List.replicate 3 (.captured risingPcm)))).any (fun cfg =>
        (cfg.cur .capture).isNone && decide (cfg.shared.chunksRead =
          [risingChunk 0, risingChunk 0, risingChunk 0])) = true := by decide +kernel
  obtain ⟨cfg, hr, hp⟩ := exists_of_play (fun _ _ _ _ => trivial) h
  simp only [Bool.and_eq_true, Option.isNone_iff_eq_none, decide_eq_true_eq] at hp
  obtain ⟨hc, hchunks⟩ := hp
  refine ⟨cfg, hr, hc, hchunks, fun hall => ?_⟩
  have hrest := hall.remainder
  have hnil : Chunk.handed 0 [risingChunk 0, risingChunk 0, risingChunk 0] = [] := rfl
  rw [hchunks, Chunk.length_samples, hnil] at hrest
  simp only [Chunk.total_cons, Chunk.total_nil, length_risingChunk] at hrest
  exact absurd hrest (by decide)

end System

end Xiaozhi
