-- SUMMARY: The silence timeout: when it is pushed, and when rounding delays it.
import Mathlib.Algebra.Order.Field.Basic
import Mathlib.Algebra.Order.Field.Rat
import Xiaozhi.App.System
import Xiaozhi.Audio.Peak
import Xiaozhi.Data.Machine
import Xiaozhi.Threads.Alone

/-!
# Silence

The capture thread adds up the whole milliseconds of each silent chunk in an
`int`. A stopwatch that adds up the exact durations would time out at the same
chunks, unless the fractions that are cut off make a difference, or what a late
chunk of the upload before has left in the `int`.
-/

namespace Xiaozhi

namespace AudioCapture

/-- The settings that the detection depends on. `audio_capture_start` makes the
    rate positive, and both are an `int`. -/
structure Detector where
  rate : Int
  timeout : Int
  rate_pos : 0 < rate
  timeout_pos : 0 < timeout

/-- What counts of a chunk. -/
structure Heard where
  frames : Nat
  silent : Bool
  deriving DecidableEq

namespace Detector

variable (d : Detector)

/-! ## Two clocks -/

/-- The test in `audio_capture_thread`, on a chunk: whether it pushes a timeout,
    and the new value of `silence_accumulator_ms`. -/
def counter : Machine Int Heard Bool := fun acc c =>
  if c.silent then
    let acc' := (acc + chunkMs d.rate c.frames).bmod (2 ^ 32)
    if acc' ≥ d.timeout then (true, 0) else (false, acc')
  else
    (false, 0)

/-- The duration of some chunks, in milliseconds. -/
def duration (cs : List Heard) : Rat := (cs.map fun c => (c.frames * 1000 : Rat) / d.rate).sum

/-- The exact clock keeps the chunks of the uninterrupted silence, and times out
    once their duration has reached the timeout. -/
def stopwatch : Machine (List Heard) Heard Bool := fun cs c =>
  if c.silent then
    if d.timeout ≤ d.duration (cs ++ [c]) then (true, []) else (false, cs ++ [c])
  else
    (false, [])

/-- What a chunk comes to, in units of which `rate` make a millisecond. -/
def ticks (c : Heard) : Int := c.frames * 1000

/-- By how much some chunks exceed the timeout, in ticks. -/
def excess (cs : List Heard) : Int := (cs.map ticks).sum - d.timeout * d.rate

/-- The fractions of a millisecond that are cut off from each of some chunks, in ticks. -/
def lost (cs : List Heard) : Int := (cs.map fun c => ticks c % d.rate).sum

/-- Whether the timeout has been reached does not change when the milliseconds
    `carried` are added and the fractions lost are taken off. Here the excess is
    one up to whole turns of 32 bits, and below 2 ^ 31 with the timeout. -/
def Harmless (carried : Int) (cs : List Heard) : Prop :=
  0 ≤ d.excess cs ↔
    (d.excess cs + carried * d.rate - d.lost cs) % (2 ^ 32 * d.rate) < (2 ^ 31 - d.timeout) * d.rate

instance {carried : Int} {cs : List Heard} : Decidable (d.Harmless carried cs) :=
  inferInstanceAs (Decidable (_ ↔ _))

/-- At every chunk of the uninterrupted silence neither the fractions lost since
    its start nor the milliseconds `carried` into it do harm. Nothing is carried
    over a loud chunk or a timeout. -/
def Punctual : Int → List Heard → List Heard → Prop
  | _, _, [] => True
  | carried, cs, c :: rest =>
    (c.silent → d.Harmless carried (cs ++ [c])) ∧
      Punctual (if (d.stopwatch cs c).2 = [] then 0 else carried) (d.stopwatch cs c).2 rest

variable {d} {cs rest : List Heard} {c : Heard} {acc carried : Int}

/-! ## Rounding -/

/-- The whole milliseconds of each of some chunks. -/
def wholeMs (d : Detector) (cs : List Heard) : Int := (cs.map fun c => (ticks c).tdiv d.rate).sum

theorem wholeMs_append : d.wholeMs (cs ++ [c]) = d.wholeMs cs + (ticks c).tdiv d.rate := by
  simp [wholeMs]

/-- Quotients and remainders, added up. -/
theorem wholeMs_mul_rate : d.wholeMs cs * d.rate = (cs.map ticks).sum - d.lost cs := by
  induction cs with
  | nil => exact Int.zero_mul _
  | cons c cs ih =>
    have hticks : 0 ≤ ticks c := by
      unfold ticks
      omega
    have hdiv := Int.ediv_mul_add_emod (ticks c) d.rate
    rw [wholeMs, lost, List.map_cons, List.map_cons, List.map_cons, List.sum_cons, List.sum_cons,
      List.sum_cons, Int.add_mul, ← wholeMs, ← lost, ih, Int.tdiv_eq_ediv_of_nonneg hticks]
    omega

theorem duration_mul_rate : d.duration cs * d.rate = (cs.map ticks).sum := by
  have hne : (d.rate : Rat) ≠ 0 := (Int.cast_pos.mpr d.rate_pos).ne'
  induction cs with
  | nil => exact zero_mul _
  | cons c cs ih =>
    rw [duration, List.map_cons, List.map_cons, List.sum_cons, List.sum_cons, add_mul, ← duration,
      ih, div_mul_cancel₀ _ hne, ticks]
    push_cast
    rfl

theorem timeout_le_duration_iff : d.timeout ≤ d.duration cs ↔ 0 ≤ d.excess cs := by
  have hpos : (0 : Rat) < d.rate := Int.cast_pos.mpr d.rate_pos
  rw [← mul_le_mul_iff_of_pos_right hpos, duration_mul_rate, ← Int.cast_mul, Int.cast_le, excess,
    Int.sub_nonneg]

/-- Where a sum stands in a turn of the 32 bits. -/
theorem le_bmod_iff {x t : Int} (ht : 0 < t) :
    t ≤ x.bmod (2 ^ 32) ↔ (x - t) % 2 ^ 32 < 2 ^ 31 - t := by
  rw [Int.bmod_eq_emod]
  split <;> omega

/-- The test of the accumulator, without the accumulator. -/
theorem timeout_le_sum_iff : d.timeout ≤ (carried + d.wholeMs cs).bmod (2 ^ 32) ↔
    (d.excess cs + carried * d.rate - d.lost cs) % (2 ^ 32 * d.rate) <
      (2 ^ 31 - d.timeout) * d.rate := by
  have hscale : d.excess cs + carried * d.rate - d.lost cs =
      (carried + d.wholeMs cs - d.timeout) * d.rate := by
    rw [Int.sub_mul, Int.add_mul, wholeMs_mul_rate, excess]
    omega
  rw [hscale, Int.mul_comm _ d.rate, Int.mul_comm _ d.rate, Int.mul_comm _ d.rate,
    Int.mul_emod_mul_of_pos _ _ d.rate_pos, le_bmod_iff d.timeout_pos]
  exact (Int.mul_lt_mul_left d.rate_pos).symm

theorem harmless_iff : d.Harmless carried cs ↔
    (d.timeout ≤ d.duration cs ↔ d.timeout ≤ (carried + d.wholeMs cs).bmod (2 ^ 32)) := by
  rw [Harmless, timeout_le_duration_iff, timeout_le_sum_iff]

/-! ## Comparison -/

/-- The counter has added up the whole milliseconds. -/
theorem counter_silent (hsilent : c.silent = true)
    (hacc : acc.bmod (2 ^ 32) = (carried + d.wholeMs cs).bmod (2 ^ 32)) :
    d.counter acc c =
      if d.timeout ≤ (carried + d.wholeMs (cs ++ [c])).bmod (2 ^ 32) then (true, 0)
      else (false, (carried + d.wholeMs (cs ++ [c])).bmod (2 ^ 32)) := by
  have hadd : (acc + chunkMs d.rate c.frames).bmod (2 ^ 32) =
      (carried + d.wholeMs (cs ++ [c])).bmod (2 ^ 32) := by
    rw [chunkMs, Int.add_bmod_bmod, ← Int.bmod_add_bmod, hacc, Int.bmod_add_bmod, wholeMs_append,
      Int.add_assoc]
    rfl
  rw [← hadd]
  exact if_pos hsilent

theorem stopwatch_silent (hsilent : c.silent = true) : d.stopwatch cs c =
    if d.timeout ≤ d.duration (cs ++ [c]) then (true, []) else (false, cs ++ [c]) :=
  if_pos hsilent

/-- The two clocks time out at the same chunks exactly if nothing does harm. -/
theorem run_counter_eq_iff (hacc : acc.bmod (2 ^ 32) = (carried + d.wholeMs cs).bmod (2 ^ 32)) :
    (d.counter.run acc rest).1 = (d.stopwatch.run cs rest).1 ↔ d.Punctual carried cs rest := by
  induction rest generalizing cs acc carried with
  | nil => exact ⟨fun _ => trivial, fun _ => rfl⟩
  | cons c rest ih =>
    change (d.counter acc c).1 :: (d.counter.run (d.counter acc c).2 rest).1 =
      (d.stopwatch cs c).1 :: (d.stopwatch.run (d.stopwatch cs c).2 rest).1 ↔ _
    -- both clocks start again with nothing carried after a loud chunk or a timeout
    have hreset : (d.counter.run 0 rest).1 = (d.stopwatch.run [] rest).1 ↔
        d.Punctual 0 [] rest := ih rfl
    rw [List.cons.injEq, Punctual]
    cases hsilent : c.silent with
    | false =>
      have hloud : ¬c.silent = true := by rw [hsilent]; exact Bool.false_ne_true
      have hcounter : d.counter acc c = (false, 0) := if_neg hloud
      have hwatch : d.stopwatch cs c = (false, []) := if_neg hloud
      rw [hcounter, hwatch, if_pos rfl]
      exact ⟨fun h => ⟨nofun, hreset.mp h.2⟩, fun h => ⟨rfl, hreset.mpr h.2⟩⟩
    | true =>
      rw [counter_silent hsilent hacc, stopwatch_silent hsilent, harmless_iff]
      -- one test for each clock; where the two agree, so do the rests
      by_cases hreached : d.timeout ≤ d.duration (cs ++ [c])
      · by_cases hsum : d.timeout ≤ (carried + d.wholeMs (cs ++ [c])).bmod (2 ^ 32)
        · rw [if_pos hreached, if_pos hsum, if_pos rfl]
          exact ⟨fun h => ⟨fun _ => iff_of_true hreached hsum, hreset.mp h.2⟩,
            fun h => ⟨rfl, hreset.mpr h.2⟩⟩
        · rw [if_pos hreached, if_neg hsum]
          exact ⟨fun h => absurd h.1 Bool.false_ne_true,
            fun h => absurd ((h.1 rfl).mp hreached) hsum⟩
      · by_cases hsum : d.timeout ≤ (carried + d.wholeMs (cs ++ [c])).bmod (2 ^ 32)
        · rw [if_neg hreached, if_pos hsum]
          exact ⟨fun h => absurd h.1.symm Bool.false_ne_true,
            fun h => absurd ((h.1 rfl).mpr hsum) hreached⟩
        · have hne : cs ++ [c] ≠ [] := List.append_ne_nil_of_right_ne_nil _ (List.cons_ne_nil _ _)
          have hrest : (d.counter.run ((carried + d.wholeMs (cs ++ [c])).bmod (2 ^ 32)) rest).1 =
              (d.stopwatch.run (cs ++ [c]) rest).1 ↔ d.Punctual carried (cs ++ [c]) rest :=
            ih Int.bmod_bmod
          rw [if_neg hreached, if_neg hsum, if_neg hne]
          exact ⟨fun h => ⟨fun _ => iff_of_false hreached hsum, hrest.mp h.2⟩,
            fun h => ⟨rfl, hrest.mpr h.2⟩⟩

end Detector

/-! ## The thread -/

/-- The capture is the same but for its history. -/
def Undisturbed (w w' : World) : Prop := { w'.capture with log := w.capture.log } = w.capture

theorem Undisturbed.refl (w : World) : Undisturbed w w := rfl

theorem Undisturbed.trans {w₁ w₂ w₃ : World} (h₁ : Undisturbed w₁ w₂) (h₂ : Undisturbed w₂ w₃) :
    Undisturbed w₁ w₃ := by
  unfold Undisturbed at *
  rw [← h₁, ← h₂]

theorem undisturbed_encodeFrame {pcm : List Int16} :
    (OpusEncoder.encodeFrame pcm).Within Undisturbed := by
  refine .bind (Threads.Prog.within_read .refl) fun enc => ?_
  cases enc with
  | none => trivial
  | some enc =>
    refine Threads.Prog.within_ite trivial (Threads.Prog.within_act fun c w b w' h => ?_)
    dsimp only at h
    split at h
    · obtain ⟨-, h⟩ := Option.ite_none_right_eq_some.mp h
      obtain ⟨⟩ := h
      rfl
    · obtain ⟨⟩ := h
      rfl
    · cases h

theorem undisturbed_writeOpusPacket {packet : Bytes} :
    (appWriteOpusPacket packet).Within Undisturbed :=
  Threads.Prog.within_act fun c w b w' h => by
    dsimp only at h
    split at h
    · obtain ⟨⟩ := h
      rfl
    · split at h
      · obtain ⟨⟩ := h
        rfl
      · obtain ⟨⟩ := h
        rfl
      · cases h

theorem undisturbed_queueBinary {payload : Bytes} :
    (XiaozhiClient.queueBinary payload).Within Undisturbed := by
  refine Threads.Prog.within_ite trivial (.bind (Threads.Prog.within_atomic fun w => ?_) fun _ =>
    Threads.Prog.within_ite (.bind (.bind (Threads.Prog.within_read .refl) fun wsi =>
      Threads.Prog.within_modify fun w => ?_) fun _ => trivial) trivial)
  · split <;> rfl
  · cases wsi <;> rfl

/-- The callback leaves the silence detection alone. -/
theorem undisturbed_onPcm {pcm : List Int16} : (appCaptureOnPcm pcm).Within Undisturbed := by
  refine .bind (Threads.Prog.within_atomic fun w => rfl) fun _ => Threads.Prog.within_ite
    (.bind undisturbed_encodeFrame fun packet => ?_) trivial
  cases packet with
  | none => trivial
  | some packet =>
    exact Threads.Prog.within_ite trivial (.bind undisturbed_writeOpusPacket fun _ =>
      .bind undisturbed_queueBinary fun _ => trivial)

/-- What the detection sees of a chunk. -/
def heard (cap : AudioCapture) (pcm : List Int16) : Heard :=
  ⟨pcm.length / cap.channels, decide (Silent cap.silenceThreshold pcm)⟩

/-- The capture runs with the settings of the detector. -/
structure Detector.Fits (d : Detector) (cap : AudioCapture) : Prop where
  rate : cap.sampleRate = d.rate
  timeout : cap.silenceTimeoutMs = d.timeout

/-- The state after a chunk. -/
def detected (w : World) (answer : Bool × Int) : World :=
  let w' := if answer.1 then w.pushEvent (.ofType .captureSilenceTimeout .capture) else w
  { w' with capture := { w'.capture with silenceAccumulatorMs := answer.2 } }

section

variable {d : Detector} {w w' : World} {pcm : List Int16}

/-- The silence detection is a step of the counter. -/
theorem runs_detectSilence (hd : d.Fits w.capture) :
    (detectSilence true pcm).Runs (fun _ => True) w () w' ↔
      w' = detected w (d.counter w.capture.silenceAccumulatorMs (heard w.capture pcm)) := by
  have hok : ∃ c : Answer, True := ⟨.ok, trivial⟩
  have htimeout : true = true ∧ d.timeout > 0 := ⟨rfl, d.timeout_pos⟩
  unfold detectSilence
  rw [Threads.Prog.runs_read_bind hok]
  dsimp only
  rw [hd.rate, hd.timeout, if_pos htimeout]
  unfold Detector.counter heard
  by_cases hsilent : (maxAbsSample pcm).toInt ≤ w.capture.silenceThreshold
  · have hdecide : decide (Silent w.capture.silenceThreshold pcm) = true := decide_eq_true hsilent
    dsimp only
    rw [if_pos hsilent, if_pos hdecide, addSilence, Threads.Prog.runs_atomic_bind hok]
    dsimp only
    split
    · rw [pushSilenceTimeout, Threads.Prog.runs_modify_bind hok, setSilence,
        Threads.Prog.runs_modify hok]
      rfl
    · exact Threads.Prog.runs_ret.trans (and_iff_right rfl)
  · have hdecide : ¬decide (Silent w.capture.silenceThreshold pcm) = true :=
      fun h => hsilent (of_decide_eq_true h)
    dsimp only
    rw [if_neg hsilent, if_neg hdecide, setSilence, Threads.Prog.runs_modify hok]
    rfl

/-- Between two states, a silence timeout was pushed. -/
def pushed (w w' : World) : Bool :=
  decide (w'.pushes.map (·.1) = .ofType .captureSilenceTimeout .capture :: w.pushes.map (·.1))

theorem pushed_detected {answer : Bool × Int} : pushed w (detected w answer) = answer.1 := by
  obtain ⟨timeout, ms⟩ := answer
  cases timeout with
  | true => exact decide_eq_true rfl
  | false => exact decide_eq_false fun h => List.cons_ne_self _ _ h.symm

theorem detected_capture (w : World) (answer : Bool × Int) :
    (detected w answer).capture = { w.capture with silenceAccumulatorMs := answer.2 } := by
  obtain ⟨timeout, ms⟩ := answer
  cases timeout <;> rfl

theorem detected_fits {answer : Bool × Int} (hd : d.Fits w.capture) :
    d.Fits (detected w answer).capture := by
  rw [detected_capture]
  exact ⟨hd.rate, hd.timeout⟩

theorem detected_heard {answer : Bool × Int} : heard (detected w answer).capture = heard w.capture := by
  rw [detected_capture]
  rfl

/-- Turns of the loop in `audio_capture_thread` while uploading stays on, with
    the chunks that are read and the answers whether a silence timeout is pushed.
    Before each turn the other threads may do anything that leaves the capture
    alone. -/
inductive Turns : World → List (List Int16) → List Bool → World → Prop where
  | nil {w : World} : Turns w [] [] w
  | cons {w₀ w w₁ w₂ w₃ : World} {pcm : List Int16} {chunks : List (List Int16)}
      {answers : List Bool} : Undisturbed w₀ w → w.capture.uploading = true →
      (appCaptureOnPcm pcm).Runs (fun _ => True) w () w₁ →
      (detectSilence true pcm).Runs (fun _ => True) w₁ () w₂ →
      Turns w₂ chunks answers w₃ → Turns w₀ (pcm :: chunks) (pushed w₁ w₂ :: answers) w₃

theorem Undisturbed.accumulator (h : Undisturbed w w') :
    w'.capture.silenceAccumulatorMs = w.capture.silenceAccumulatorMs :=
  (congrArg AudioCapture.silenceAccumulatorMs h :)

theorem Undisturbed.heard (h : Undisturbed w w') : heard w'.capture = heard w.capture :=
  (congrArg AudioCapture.heard h :)

theorem Undisturbed.uploading (h : Undisturbed w w') : w'.capture.uploading = w.capture.uploading :=
  (congrArg AudioCapture.uploading h :)

theorem Undisturbed.fits (h : Undisturbed w w') (hd : d.Fits w.capture) : d.Fits w'.capture :=
  ⟨(congrArg AudioCapture.sampleRate h).trans hd.rate,
    (congrArg AudioCapture.silenceTimeoutMs h).trans hd.timeout⟩

/-- The turns answer like the counter. -/
theorem Turns.answers_eq {chunks : List (List Int16)} {answers : List Bool}
    (h : Turns w chunks answers w') (hd : d.Fits w.capture) : answers =
      (d.counter.run w.capture.silenceAccumulatorMs (chunks.map (heard w.capture))).1 := by
  induction h with
  | nil => rfl
  | @cons w₀ w w₁ w₂ w₃ pcm chunks answers hbefore _ hpcm hdetect _ ih =>
    have hleft : Undisturbed w₀ w₁ :=
      hbefore.trans (undisturbed_onPcm.runs .refl .trans hpcm)
    obtain rfl := (runs_detectSilence (hleft.fits hd)).mp hdetect
    have hanswers := ih (detected_fits (hleft.fits hd))
    rw [detected_heard, detected_capture] at hanswers
    rw [pushed_detected, hanswers, hleft.heard, hleft.accumulator]
    rfl

/-- While an upload goes on, the thread pushes a silence timeout exactly at the
    chunks where the duration of the uninterrupted silence since its start reaches
    the timeout, if and only if neither the fractions lost nor the milliseconds
    that it starts with do harm. -/
theorem timeouts_exact_iff {chunks : List (List Int16)} {answers : List Bool}
    (hd : d.Fits w.capture) (h : Turns w chunks answers w') :
    answers = (d.stopwatch.run [] (chunks.map (heard w.capture))).1 ↔
      d.Punctual w.capture.silenceAccumulatorMs [] (chunks.map (heard w.capture)) := by
  have hstart : w.capture.silenceAccumulatorMs = w.capture.silenceAccumulatorMs + d.wholeMs [] :=
    (Int.add_zero _).symm
  rw [h.answers_eq hd]
  exact Detector.run_counter_eq_iff (congrArg (Int.bmod · (2 ^ 32)) hstart)

/-- The encoder may fail, so that the callback returns in any case. -/
theorem exists_encodeFrame (pcm : List Int16) (w : World) : ∃ w₁,
    (OpusEncoder.encodeFrame pcm).Runs (fun _ => True) w none w₁ := by
  have hok : ∃ c : Answer, True := ⟨.ok, trivial⟩
  simp only [OpusEncoder.encodeFrame, Threads.Prog.runs_read_bind hok]
  cases w.encoder with
  | none => exact ⟨w, Threads.Prog.runs_ret.mpr ⟨rfl, rfl⟩⟩
  | some enc =>
    dsimp only
    split
    · exact ⟨w, Threads.Prog.runs_ret.mpr ⟨rfl, rfl⟩⟩
    · exact ⟨_, Threads.Prog.runs_act.mpr ⟨.fail, none, _, trivial, rfl, .refl⟩⟩

theorem exists_onPcm (pcm : List Int16) (w : World) :
    ∃ w₁, (appCaptureOnPcm pcm).Runs (fun _ => True) w () w₁ := by
  have hok : ∃ c : Answer, True := ⟨.ok, trivial⟩
  simp only [appCaptureOnPcm, uploads, Threads.Prog.runs_atomic_bind hok]
  cases w.uploadEnabled with
  | false => exact ⟨_, Threads.Prog.runs_ret.mpr ⟨rfl, rfl⟩⟩
  | true =>
    obtain ⟨w₁, hencode⟩ := exists_encodeFrame pcm { w with
      uploadEnabled := true
      capture := { w.capture with log := .reads pcm :: w.capture.log } }
    exact ⟨w₁, Threads.Prog.runs_bind.mpr ⟨none, w₁, hencode, Threads.Prog.runs_ret.mpr ⟨rfl, rfl⟩⟩⟩

/-- Every sequence of chunks can be read. -/
theorem exists_turns (hd : d.Fits w.capture) (huploading : w.capture.uploading = true)
    (chunks : List (List Int16)) : ∃ answers w', Turns w chunks answers w' := by
  induction chunks generalizing w with
  | nil => exact ⟨[], w, .nil⟩
  | cons pcm chunks ih =>
    obtain ⟨w₁, hpcm⟩ := exists_onPcm pcm w
    have hleft : Undisturbed w w₁ := undisturbed_onPcm.runs .refl .trans hpcm
    have hgoes : (detected w₁ (d.counter w₁.capture.silenceAccumulatorMs
        (heard w₁.capture pcm))).capture.uploading = true := by
      rw [detected_capture]
      exact hleft.uploading.trans huploading
    obtain ⟨answers, w', hrest⟩ := ih (detected_fits (hleft.fits hd)) hgoes
    exact ⟨_, w', .cons (.refl w) huploading hpcm ((runs_detectSilence (hleft.fits hd)).mpr rfl)
      hrest⟩

end

/-- The detector at 16 kHz, with a timeout of 1 ms. -/
def sampleDetector : Detector := ⟨16000, 1, by decide, by decide⟩

/-- The start of an upload. -/
def sampleStart : World :=
  let w := World.init ⟨1, 16000, 1, 500⟩
  { w with uploadEnabled := true, capture := { w.capture with uploading := true } }

/-- Half a millisecond of silence. -/
def halfMs : List Int16 := List.replicate 8 0

/-- Sixteen samples in one chunk are a millisecond. -/
theorem timeouts_exact_iff_whole : ∃ answers w',
    Turns sampleStart [halfMs ++ halfMs] answers w' ∧
      answers = (sampleDetector.stopwatch.run []
        ([halfMs ++ halfMs].map (heard sampleStart.capture))).1 := by
  have hfits : sampleDetector.Fits sampleStart.capture := ⟨rfl, rfl⟩
  obtain ⟨answers, w', hturns⟩ := exists_turns hfits rfl [halfMs ++ halfMs]
  refine ⟨answers, w', hturns, (timeouts_exact_iff hfits hturns).mpr ?_⟩
  have hheard : heard sampleStart.capture (halfMs ++ halfMs) = ⟨16, true⟩ := by decide +kernel
  rw [List.map_singleton, hheard]
  have hharmless : sampleDetector.Harmless 0 [⟨16, true⟩] := by decide +kernel
  exact ⟨fun _ => hharmless, trivial⟩

/-- Two chunks of half a millisecond each are rounded down to nothing. -/
theorem timeout_suppressed : ∃ answers w',
    Turns sampleStart [halfMs, halfMs] answers w' ∧
      answers ≠ (sampleDetector.stopwatch.run []
        ([halfMs, halfMs].map (heard sampleStart.capture))).1 := by
  have hfits : sampleDetector.Fits sampleStart.capture := ⟨rfl, rfl⟩
  obtain ⟨answers, w', hturns⟩ := exists_turns hfits rfl [halfMs, halfMs]
  refine ⟨answers, w', hturns, ?_⟩
  rw [hturns.answers_eq hfits]
  decide +kernel

end AudioCapture

end Xiaozhi
