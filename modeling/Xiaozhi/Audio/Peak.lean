-- SUMMARY: The peak of a chunk of samples, and which chunks count as silent.
import Xiaozhi.Audio.Capture

/-!
# Peak

`max_abs_sample` takes the magnitude of each sample and cuts it to 16 bits. The
magnitude of the least sample does not fit, and comes out as that sample itself:
it never raises the peak.
-/

namespace Xiaozhi

namespace AudioCapture

variable {pcm : List Int16} {peak s : Int16} {t : Int}

/-! ## The loop -/

/-- `abs_sample`. -/
def absSample (s : Int16) : Int16 := Int16.ofInt (if s.toInt < 0 then -s.toInt else s.toInt)

/-- The body of the loop in `max_abs_sample`. -/
def raise (peak s : Int16) : Int16 := if absSample s > peak then absSample s else peak

/-- All magnitudes but one fit into 16 bits. -/
theorem toInt_absSample (h : s ≠ Int16.minValue) : (absSample s).toInt = |s.toInt| := by
  have hne : s.toInt ≠ -2 ^ 15 := fun heq => h (Int16.toInt_inj.mp heq)
  have hlow : -2 ^ 15 < s.toInt := lt_of_le_of_ne s.le_toInt (Ne.symm hne)
  have hhigh : s.toInt < 2 ^ 15 := s.toInt_lt
  unfold absSample
  split
  · next hneg =>
    rw [Int16.toInt_ofInt_of_le (by omega) (by omega), abs_of_neg hneg]
  · next hpos =>
    rw [Int16.toInt_ofInt_of_le (by omega) (by omega), abs_of_nonneg (not_lt.mp hpos)]

theorem absSample_minValue : absSample Int16.minValue = Int16.minValue := by decide

/-- One step of the loop, seen from a bound. -/
theorem raise_le_iff : (raise peak s).toInt ≤ t ↔
    peak.toInt ≤ t ∧ (s ≠ Int16.minValue → |s.toInt| ≤ t) := by
  by_cases hmin : s = Int16.minValue
  · have hkeep : raise peak s = peak := by
      refine if_neg fun hgt => ?_
      rw [hmin, absSample_minValue] at hgt
      have hlt := Int16.lt_iff_toInt_lt.mp hgt
      rw [Int16.toInt_minValue] at hlt
      exact absurd hlt (not_lt.mpr peak.le_toInt)
    rw [hkeep]
    exact ⟨fun h => ⟨h, fun hne => absurd hmin hne⟩, And.left⟩
  · have habs := toInt_absSample hmin
    unfold raise
    split
    · next hgt =>
      have hlt := Int16.lt_iff_toInt_lt.mp hgt
      rw [habs] at hlt ⊢
      exact ⟨fun h => ⟨hlt.le.trans h, fun _ => h⟩, fun h => h.2 hmin⟩
    · next hle =>
      have hle := not_lt.mp fun hlt => hle (Int16.lt_iff_toInt_lt.mpr hlt)
      rw [habs] at hle
      exact ⟨fun h => ⟨h, fun _ => hle.trans h⟩, And.left⟩

theorem foldl_raise_le_iff : (pcm.foldl raise peak).toInt ≤ t ↔
    peak.toInt ≤ t ∧ ∀ s ∈ pcm, s ≠ Int16.minValue → |s.toInt| ≤ t := by
  induction pcm generalizing peak with
  | nil => exact ⟨fun h => ⟨h, fun _ h => (List.not_mem_nil h).elim⟩, And.left⟩
  | cons s pcm ih => rw [List.foldl_cons, ih, raise_le_iff, List.forall_mem_cons, and_assoc]

/-- The peak bounds all samples but the least one. -/
theorem maxAbsSample_le_iff (ht : 0 ≤ t) : (maxAbsSample pcm).toInt ≤ t ↔
    ∀ s ∈ pcm, s ≠ Int16.minValue → |s.toInt| ≤ t :=
  foldl_raise_le_iff.trans (and_iff_right ht)

theorem maxAbsSample_nonneg : 0 ≤ (maxAbsSample pcm).toInt :=
  (foldl_raise_le_iff.mp le_rfl).1

/-! ## The largest magnitude -/

/-- The largest absolute value, 0 if there is no sample. -/
def largest : List Int16 → Int
  | [] => 0
  | s :: pcm => max |s.toInt| (largest pcm)

theorem largest_nonneg : 0 ≤ largest pcm := by
  cases pcm with
  | nil => exact le_rfl
  | cons s pcm => exact le_max_of_le_left (abs_nonneg _)

theorem largest_le_iff (ht : 0 ≤ t) : largest pcm ≤ t ↔ ∀ s ∈ pcm, |s.toInt| ≤ t := by
  induction pcm with
  | nil => exact ⟨fun _ _ h => (List.not_mem_nil h).elim, fun _ => ht⟩
  | cons s pcm ih => rw [largest, max_le_iff, ih, List.forall_mem_cons]

/-- The test of `audio_capture_thread`. -/
def Silent (threshold : Int) (pcm : List Int16) : Prop := (maxAbsSample pcm).toInt ≤ threshold

instance {threshold : Int} : Decidable (Silent threshold pcm) :=
  inferInstanceAs (Decidable (_ ≤ _))

/-! ## Calls -/

/-- The arguments of a call of `max_abs_sample`. The buffer is an object in
    memory, so that its size is a `size_t`. -/
structure PeakCall where
  pcm : List Int16
  frames : Nat
  channels : Nat
  enough : frames * channels ≤ pcm.length
  size : 2 * pcm.length < 2 ^ 64

namespace PeakCall

variable (call : PeakCall)

/-- The first frames times channels samples. -/
def samples : List Int16 := call.pcm.take (call.frames * call.channels)

/-- What the loop reads: the product is a `size_t`. -/
def read : List Int16 := call.pcm.take (call.frames * call.channels % 2 ^ 64)

theorem read_eq : call.read = call.samples := by
  have henough := call.enough
  have hsize := call.size
  rw [read, samples, Nat.mod_eq_of_lt (by omega)]

/-- The result is the largest magnitude, and for each threshold a chunk is
    silent just if no sample is above it. `audio_capture_start` replaces a
    negative threshold. -/
def Exact : Prop :=
  (maxAbsSample call.read).toInt = largest call.samples ∧
    ∀ threshold ≥ 0, Silent threshold call.read ↔ ∀ s ∈ call.samples, |s.toInt| ≤ threshold

/-- The peak is right exactly if the least sample does not occur. -/
theorem exact_iff : call.Exact ↔ ∀ s ∈ call.samples, s ≠ Int16.minValue := by
  unfold Exact
  rw [call.read_eq]
  constructor
  · rintro ⟨hpeak, -⟩ s hs rfl
    have hlargest := (largest_le_iff largest_nonneg).mp le_rfl _ hs
    have hlt : (maxAbsSample call.samples).toInt < 2 ^ 15 := Int16.toInt_lt _
    rw [hpeak] at hlt
    exact absurd (hlargest.trans_lt hlt) (by decide)
  · intro hne
    have hle {t : Int} (ht : 0 ≤ t) :
        (maxAbsSample call.samples).toInt ≤ t ↔ ∀ s ∈ call.samples, |s.toInt| ≤ t :=
      (maxAbsSample_le_iff ht).trans (forall₂_congr fun s hs => ⟨fun h => h (hne s hs), fun h _ => h⟩)
    refine ⟨le_antisymm ?_ ?_, fun threshold ht => hle ht⟩
    · exact (hle largest_nonneg).mpr ((largest_le_iff largest_nonneg).mp le_rfl)
    · exact (largest_le_iff maxAbsSample_nonneg).mpr ((hle maxAbsSample_nonneg).mp le_rfl)

/-- A chunk of the least sample alone has the peak 0. -/
theorem least_sample_missed :
    ¬(⟨[Int16.minValue], 1, 1, le_rfl, by decide⟩ : PeakCall).Exact := by
  rintro ⟨hpeak, -⟩
  exact absurd hpeak (by decide)

end PeakCall

end AudioCapture

end Xiaozhi
