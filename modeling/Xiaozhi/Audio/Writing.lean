-- SUMMARY: Writing all frames to a device: which slices it gets, what it accepts, and that the loop ends.
import Mathlib.Algebra.BigOperators.Group.List.Basic
import Mathlib.Algebra.GroupWithZero.Nat
import Mathlib.Algebra.Order.Group.Nat
import Xiaozhi.Data.Lists

/-!
# Writing all frames

`audio_playback_write_all_frames`, for any device. A device may accept a part of
what it is given, and its errors may be recovered.
-/

namespace Xiaozhi

namespace AudioPlayback

/-- `write_frames` and `recover`, with what `ctx` points to as a state. A writer
    gets the offset of the first sample and the number of frames, and never
    accepts more. -/
structure Device (σ : Type) where
  write : σ → Nat → Nat → Int × σ
  recover : Option (σ → Int → Int × σ)
  write_le : ∀ ctx offset frames, (write ctx offset frames).1 ≤ frames

/-- A call of `write_frames`: its arguments, its result, and the result of
    `recover` if that is called next. -/
structure WriteCall where
  offset : Nat
  requested : Nat
  result : Int
  recovery : Option Int

/-- The variables of the loop, and its calls so far (history). -/
structure Writing (σ : Type) where
  ctx : σ
  written : Nat
  calls : List WriteCall

variable {σ : Type}

/-- One round of the loop, and what the function returns if it ends. -/
def writeRound (d : Device σ) (frames channels : Nat) (s : Writing σ) : Writing σ × Option Int :=
  if s.written < frames then
    let offset := s.written * channels
    let requested := frames - s.written
    let (rc, ctx) := d.write s.ctx offset requested
    if rc > 0 then
      (⟨ctx, s.written + rc.toNat, s.calls ++ [⟨offset, requested, rc, none⟩]⟩, none)
    else if rc = 0 then
      (⟨ctx, s.written, s.calls ++ [⟨offset, requested, rc, none⟩]⟩, some (-1))
    else
      match d.recover with
      | none => (⟨ctx, s.written, s.calls ++ [⟨offset, requested, rc, none⟩]⟩, some (-1))
      | some recover =>
        let (recovery, ctx) := recover ctx (rc.bmod (2 ^ 32))
        let s := ⟨ctx, s.written, s.calls ++ [⟨offset, requested, rc, some recovery⟩]⟩
        if recovery ≠ 0 then (s, some (-1)) else (s, none)
  else
    (s, some 0)

/-- At most `n` rounds. -/
def writeRounds (d : Device σ) (frames channels : Nat) : Nat → Writing σ → Writing σ × Option Int
  | 0, s => (s, none)
  | n + 1, s =>
    match writeRound d frames channels s with
    | (s, none) => writeRounds d frames channels n s
    | (s, some rc) => (s, some rc)

/-- `audio_playback_write_all_frames`, as far as it gets in `n` rounds. -/
def writeAll (d : Device σ) (pcm : Option (List Int16)) (frames : Nat) (channels : Int) (n : Nat)
    (ctx : σ) : Writing σ × Option Int :=
  if pcm = none ∨ frames = 0 ∨ channels ≤ 0 then
    (⟨ctx, 0, []⟩, some (-1))
  else
    writeRounds d frames channels.toNat n ⟨ctx, 0, []⟩

/-! ## What is accepted -/

namespace WriteCall

/-- The samples that the device accepted. -/
def slice (pcm : List Int16) (channels : Nat) (call : WriteCall) : List Int16 :=
  (pcm.drop call.offset).take (call.result.toNat * channels)

/-- The accepted frames of some calls. -/
def accepted (calls : List WriteCall) : Nat := (calls.map (·.result.toNat)).sum

/-- An error that was recovered. -/
def Recovered (call : WriteCall) : Prop := call.result < 0 ∧ call.recovery = some 0

instance : DecidablePred Recovered := fun _ => inferInstanceAs (Decidable (_ ∧ _))

/-- The result 0, or an error that was not recovered. -/
def Final (call : WriteCall) : Prop :=
  call.result = 0 ∨ call.result < 0 ∧ call.recovery ≠ some 0

theorem accepted_concat {calls : List WriteCall} {call : WriteCall} :
    accepted (calls ++ [call]) = accepted calls + call.result.toNat := by
  rw [accepted, List.map_append, List.sum_append, List.map_singleton, List.sum_singleton, accepted]

end WriteCall

/-- The calls are as they should be: each gets the frames that are not yet
    accepted, up to the end, and the accepted slices are the frames written. -/
structure Sound (pcm : List Int16) (frames channels : Nat) (s : Writing σ) : Prop where
  le : s.written ≤ frames
  accepted : WriteCall.accepted s.calls = s.written
  slices : (s.calls.map (WriteCall.slice pcm channels)).flatten = pcm.take (s.written * channels)
  handed : ∀ before call after, s.calls = before ++ call :: after →
    call.offset = WriteCall.accepted before * channels ∧
      WriteCall.accepted before + call.requested = frames

section

variable {d : Device σ} {pcm : List Int16} {frames channels n : Nat} {s s' : Writing σ}
  {result : Option Int}

/-- What one round does. -/
inductive RoundStep (d : Device σ) (frames channels : Nat) (s : Writing σ) :
    Writing σ × Option Int → Prop where
  | done : s.written = frames → RoundStep d frames channels s (s, some 0)
  | goes {ctx : σ} {written : Nat} {call : WriteCall} : s.written < frames →
      call.offset = s.written * channels → call.requested = frames - s.written →
      call.result ≤ call.requested → written = s.written + call.result.toNat →
      0 < call.result ∨ call.Recovered →
      RoundStep d frames channels s (⟨ctx, written, s.calls ++ [call]⟩, none)
  | fails {ctx : σ} {call : WriteCall} : s.written < frames → call.offset = s.written * channels →
      call.requested = frames - s.written → call.Final →
      RoundStep d frames channels s (⟨ctx, s.written, s.calls ++ [call]⟩, some (-1))

theorem writeRound_step (h : s.written ≤ frames) :
    RoundStep d frames channels s (writeRound d frames channels s) := by
  by_cases hlt : s.written < frames
  · have hle := d.write_le s.ctx (s.written * channels) (frames - s.written)
    rcases hwrite : d.write s.ctx (s.written * channels) (frames - s.written) with ⟨rc, ctx⟩
    rw [hwrite] at hle
    simp only [writeRound, if_pos hlt, hwrite]
    split
    · next hpos => exact .goes hlt rfl rfl hle rfl (.inl hpos)
    · split
      · next hzero => exact .fails hlt rfl rfl (.inl hzero)
      · have hneg : rc < 0 := by omega
        cases d.recover with
        | none => exact .fails hlt rfl rfl (.inr ⟨hneg, nofun⟩)
        | some recover =>
          rcases hrecover : recover ctx (rc.bmod (2 ^ 32)) with ⟨recovery, ctx'⟩
          simp only [hrecover]
          split
          · next hrecovery =>
            exact .fails hlt rfl rfl (.inr ⟨hneg, fun heq => hrecovery (Option.some.inj heq)⟩)
          · next hrecovery =>
            have hkeep : s.written = s.written + rc.toNat := by omega
            exact .goes hlt rfl rfl hle hkeep
              (.inr ⟨hneg, congrArg some (not_not.mp hrecovery)⟩)
  · rw [writeRound, if_neg hlt]
    exact .done (le_antisymm h (not_lt.mp hlt))

/-- One more call, for what is left. -/
theorem Sound.concat (h : Sound pcm frames channels s) {ctx : σ} {call : WriteCall}
    (hoffset : call.offset = s.written * channels) (hrequested : call.requested = frames - s.written)
    (hle : call.result ≤ call.requested) :
    Sound pcm frames channels ⟨ctx, s.written + call.result.toNat, s.calls ++ [call]⟩ := by
  have hwritten := h.le
  refine ⟨?_, ?_, ?_, fun before call' after hcalls => ?_⟩
  · show s.written + call.result.toNat ≤ frames
    omega
  · rw [WriteCall.accepted_concat, h.accepted]
  · rw [List.map_append, List.flatten_append, h.slices, List.map_singleton, List.flatten_singleton,
      WriteCall.slice, hoffset, Nat.add_mul, List.take_add]
  · rcases Lists.concat_split hcalls with ⟨rfl, rfl, -⟩ | ⟨after', hold, -⟩
    · rw [h.accepted, hrequested]
      exact ⟨hoffset, Nat.add_sub_cancel' hwritten⟩
    · exact h.handed before call' after' hold

/-- A call that ends the loop accepts nothing. -/
theorem WriteCall.Final.result_le {call : WriteCall} (h : call.Final) : call.result ≤ 0 :=
  h.elim le_of_eq fun h => h.1.le

theorem Sound.concat_final (h : Sound pcm frames channels s) {ctx : σ} {call : WriteCall}
    (hoffset : call.offset = s.written * channels) (hrequested : call.requested = frames - s.written)
    (hfinal : call.Final) :
    Sound pcm frames channels ⟨ctx, s.written, s.calls ++ [call]⟩ := by
  have hle := hfinal.result_le
  have hnone : call.result.toNat = 0 := Int.toNat_of_nonpos hle
  have hsound : Sound pcm frames channels
      ⟨ctx, s.written + call.result.toNat, s.calls ++ [call]⟩ :=
    h.concat hoffset hrequested (hle.trans (Int.natCast_nonneg _))
  rwa [hnone] at hsound

/-- The function returns 0 when all frames are written, and -1 after a call that ends the loop. -/
def Returns (frames : Nat) (s : Writing σ) (result : Option Int) : Prop :=
  ∀ rc, result = some rc → rc = 0 ∧ s.written = frames ∨
    rc = -1 ∧ s.written < frames ∧ ∃ before last, s.calls = before ++ [last] ∧ last.Final

theorem writeRounds_sound (h : Sound pcm frames channels s) :
    Sound pcm frames channels (writeRounds d frames channels n s).1 ∧
      Returns frames (writeRounds d frames channels n s).1 (writeRounds d frames channels n s).2 := by
  induction n generalizing s with
  | zero => exact ⟨h, nofun⟩
  | succ n ih =>
    have hstep : RoundStep d frames channels s (writeRound d frames channels s) :=
      writeRound_step h.le
    rw [writeRounds]
    generalize writeRound d frames channels s = round at hstep ⊢
    cases hstep with
    | done hdone => exact ⟨h, fun rc hrc => .inl ⟨(Option.some.inj hrc).symm, hdone⟩⟩
    | goes hlt hoffset hrequested hle hwritten hgoes =>
      subst hwritten
      exact ih (h.concat hoffset hrequested hle)
    | fails hlt hoffset hrequested hfinal =>
      refine ⟨h.concat_final hoffset hrequested hfinal, fun rc hrc => .inr ?_⟩
      exact ⟨(Option.some.inj hrc).symm, hlt, s.calls, _, rfl, hfinal⟩

/-! ## The end of the loop -/

/-- The number of recovered errors. -/
def recoveredErrors (calls : List WriteCall) : Nat :=
  calls.countP fun call => decide call.Recovered

/-- Each round that does not end the loop accepts a frame or recovers an error. -/
theorem writeRounds_progress (hle : s.written ≤ frames)
    (h : (writeRounds d frames channels n s).2 = none) :
    s.written + recoveredErrors s.calls + n ≤
      (writeRounds d frames channels n s).1.written +
        recoveredErrors (writeRounds d frames channels n s).1.calls := by
  induction n generalizing s with
  | zero => exact le_rfl
  | succ n ih =>
    have hstep : RoundStep d frames channels s (writeRound d frames channels s) :=
      writeRound_step hle
    rw [writeRounds] at h ⊢
    generalize writeRound d frames channels s = round at hstep h ⊢
    cases hstep with
    | done hdone => cases h
    | fails hlt hoffset hrequested hfinal => cases h
    | @goes ctx written call hlt hoffset hrequested hresult hwritten hgoes =>
      have hnext : s.written + recoveredErrors s.calls + 1 ≤
          written + recoveredErrors (s.calls ++ [call]) := by
        rw [recoveredErrors, recoveredErrors, List.countP_append]
        rcases hgoes with hpos | hrecovered
        · omega
        · have hone : [call].countP (fun call => decide call.Recovered) = 1 :=
            List.countP_cons_of_pos (decide_eq_true hrecovered)
          omega
      have hrest : written + recoveredErrors (s.calls ++ [call]) + n ≤ _ := ih (by
        show written ≤ frames
        omega) h
      dsimp only at hrest ⊢
      omega

end

/-! ## The function -/

/-- What `audio_playback_write_all_frames` has done after some rounds. -/
structure Delivered (pcm : List Int16) (frames channels : Nat) (s : Writing σ) (result : Option Int) :
    Prop where
  /-- Each call gets the slice from the first frame not yet accepted, within the buffer. -/
  handed : ∀ before call after, s.calls = before ++ call :: after →
    call.offset = WriteCall.accepted before * channels ∧
      call.offset + call.requested * channels ≤ pcm.length
  /-- All of the buffer is accepted, once and in order. -/
  success : result = some 0 →
    (s.calls.map (WriteCall.slice pcm channels)).flatten = pcm.take (frames * channels)
  /-- A proper prefix is accepted. -/
  failure : ∀ rc, result = some rc → rc ≠ 0 → rc = -1 ∧
    (∃ k < frames, (s.calls.map (WriteCall.slice pcm channels)).flatten = pcm.take (k * channels)) ∧
    ∃ before last, s.calls = before ++ [last] ∧ last.Final

variable {d : Device σ} {pcm : List Int16} {frames : Nat} {channels : Int} {ctx : σ}

theorem writeAll_eq (hframes : 0 < frames) (hchannels : 0 < channels) (n : Nat) :
    writeAll d (some pcm) frames channels n ctx =
      writeRounds d frames channels.toNat n ⟨ctx, 0, []⟩ := by
  refine if_neg ?_
  rintro (hnull | hzero | hneg)
  · cases hnull
  · omega
  · omega

/-- For every device: the slices are right, 0 means that all frames are accepted
    and -1 that a proper prefix is, and the loop ends if only finitely many errors
    are recovered. -/
theorem all_frames_delivered (d : Device σ) (ctx : σ) (pcm : List Int16) (frames : Nat)
    (channels : Int) (hframes : 0 < frames)
    (hchannels : 0 < channels) (hpcm : frames * channels.toNat ≤ pcm.length) :
    (∀ n, Delivered pcm frames channels.toNat (writeAll d (some pcm) frames channels n ctx).1
      (writeAll d (some pcm) frames channels n ctx).2) ∧
    ((∃ b, ∀ n, recoveredErrors (writeAll d (some pcm) frames channels n ctx).1.calls ≤ b) →
      ∃ n rc, (writeAll d (some pcm) frames channels n ctx).2 = some rc) := by
  have hstart : Sound pcm frames channels.toNat (⟨ctx, 0, []⟩ : Writing σ) := by
    refine ⟨Nat.zero_le _, rfl, ?_, fun before call after h => ?_⟩
    · rw [Nat.zero_mul]
      rfl
    · cases before <;> cases h
  refine ⟨fun n => ?_, fun ⟨b, hb⟩ => ?_⟩
  · rw [writeAll_eq hframes hchannels]
    obtain ⟨hsound, hreturns⟩ := writeRounds_sound (d := d) (n := n) hstart
    refine ⟨fun before call after hcalls => ?_, fun hresult => ?_, fun rc hrc hne => ?_⟩
    · obtain ⟨hoffset, hrequested⟩ := hsound.handed before call after hcalls
      refine ⟨hoffset, ?_⟩
      rw [hoffset, ← Nat.add_mul, hrequested]
      exact hpcm
    · rcases hreturns 0 hresult with ⟨-, hall⟩ | ⟨hne, -⟩
      · rw [hsound.slices, hall]
      · cases hne
    · rcases hreturns rc hrc with ⟨hzero, -⟩ | ⟨hrc, hlt, hlast⟩
      · exact absurd hzero hne
      · exact ⟨hrc, ⟨_, hlt, hsound.slices⟩, hlast⟩
  · -- a round accepts a frame or recovers an error, so there are not more rounds than these
    by_contra hnever
    have hnone : (writeAll d (some pcm) frames channels (frames + b + 1) ctx).2 = none := by
      rw [Option.eq_none_iff_forall_ne_some]
      exact fun rc hrc => hnever ⟨_, rc, hrc⟩
    have hbound := hb (frames + b + 1)
    rw [writeAll_eq hframes hchannels] at hnone hbound
    have hprogress := writeRounds_progress (Nat.zero_le _) hnone
    have hwritten := (writeRounds_sound (d := d) (n := frames + b + 1) hstart).1.le
    omega

/-- A device that accepts two frames at a time. -/
def twoFrames : Device Unit where
  write _ _ frames := (min 2 frames, ())
  recover := none
  write_le _ _ _ := by omega

/-- Three frames in two calls. -/
theorem all_frames_delivered_three :
    (writeAll twoFrames (some [1, 2, 3]) 3 1 3 ()).2 = some 0 ∧
      Delivered [1, 2, 3] 3 1 (writeAll twoFrames (some [1, 2, 3]) 3 1 3 ()).1
        (writeAll twoFrames (some [1, 2, 3]) 3 1 3 ()).2 :=
  ⟨rfl, (all_frames_delivered twoFrames () [1, 2, 3] 3 1 (by decide) (by decide) le_rfl).1 3⟩

end AudioPlayback

end Xiaozhi
