-- SUMMARY: The decoder over a sequence of server hellos: when it has the format that the latest one asked for.
import Xiaozhi.Data.Lists
import Xiaozhi.Threads.Alone
import Xiaozhi.App.System

/-!
# The decoder and the hellos

`app_update_decoder_from_hello` rebuilds the decoder unless the hello asks for
one channel at the rate in force. It looks at the rate only, so a decoder with
two channels stays when one channel is asked for again at its rate, and so does
the gap that a failed rebuild leaves.
-/

namespace Xiaozhi

open Threads Threads.Prog

deriving instance DecidableEq for OpusDecoder

/-- The formats for which `opus_decoder_create` succeeds. -/
def OpusDecoder.Supported (dec : OpusDecoder) : Prop :=
  dec.sampleRate ∈ [8000, 12000, 16000, 24000, 48000] ∧ (dec.channels = 1 ∨ dec.channels = 2)

instance (dec : OpusDecoder) : Decidable dec.Supported :=
  inferInstanceAs (Decidable (_ ∧ _))

theorem OpusDecoder.Supported.pos {dec : OpusDecoder} (h : dec.Supported) :
    0 < dec.sampleRate ∧ 0 < dec.channels := by
  obtain ⟨hrate, hchannels⟩ := h
  refine ⟨?_, by omega⟩
  simp only [List.mem_cons, List.not_mem_nil, or_false] at hrate
  omega

namespace App

/-! ## What a hello asks for -/

/-- The format that a hello asks for while a rate is in force. -/
def asked (rate : Int) (event : XiaozhiIncomingEvent) : OpusDecoder where
  sampleRate := if event.outputSampleRate > 0 then event.outputSampleRate else rate
  channels := if event.outputChannels > 0 then event.outputChannels else 1

/-- The rate in force after the hellos, at first that of `app_init_runtime_modules`:
    the rate of the latest format asked for that is supported. -/
def inForce (hellos : List XiaozhiIncomingEvent) : Int :=
  hellos.foldl (fun rate event =>
    if (asked rate event).Supported then (asked rate event).sampleRate else rate) 24000

/-- The hello asks for something else than one channel at the rate in force. -/
def Changes (rate : Int) (event : XiaozhiIncomingEvent) : Prop :=
  asked rate event ≠ { sampleRate := rate, channels := 1 }

/-- The latest of the hellos that asked for a change, if there is one, asked for
    one channel at a supported rate. -/
def Settled (hellos : List XiaozhiIncomingEvent) : Prop :=
  ∀ before event after, hellos = before ++ event :: after → Changes (inForce before) event →
    (∀ between later rest, after = between ++ later :: rest →
      ¬ Changes (inForce (before ++ event :: between)) later) →
    (asked (inForce before) event).Supported ∧ (asked (inForce before) event).channels = 1

/-! ## Handling hellos -/

/-- What libopus answers to `opus_decoder_create`. -/
def opusAnswer (dec : OpusDecoder) : Answer := if dec.Supported then .ok else .fail

/-- The main thread handles a hello. -/
def HandlesHello (event : XiaozhiIncomingEvent) (w w' : World) : Prop :=
  (updateDecoderFromHello event).Runs (· = opusAnswer (asked w.decoderSampleRate event)) w () w'

/-- The hellos are handled one after the other, from the decoder that
    `app_init_runtime_modules` makes. Between two hellos everything else may
    change. -/
inductive HandledHellos : List XiaozhiIncomingEvent → World → Prop where
  | start {w : World} : w.decoder = some { sampleRate := 24000, channels := 1 } →
      w.decoderSampleRate = 24000 → HandledHellos [] w
  | other {hellos : List XiaozhiIncomingEvent} {w w' : World} : HandledHellos hellos w →
      w'.decoder = w.decoder → w'.decoderSampleRate = w.decoderSampleRate → HandledHellos hellos w'
  | hello {hellos : List XiaozhiIncomingEvent} {event : XiaozhiIncomingEvent} {w w' : World} :
      HandledHellos hellos w → HandlesHello event w w' → HandledHellos (hellos ++ [event]) w'

/-- What handling a hello makes of the state. -/
def handled (event : XiaozhiIncomingEvent) (w : World) : World :=
  let dec := asked w.decoderSampleRate event
  if dec = { sampleRate := w.decoderSampleRate, channels := 1 } then w
  else if dec.Supported then { w with decoder := some dec, decoderSampleRate := dec.sampleRate }
  else { w with decoder := none }

section Runs

variable {ok : Answer → Prop} {event : XiaozhiIncomingEvent} {w w' : World}

theorem handled_of_not_changes (h : ¬ Changes w.decoderSampleRate event) : handled event w = w :=
  if_pos (not_not.mp h)

theorem handled_of_supported (hchange : Changes w.decoderSampleRate event)
    (hsupported : (asked w.decoderSampleRate event).Supported) :
    handled event w = { w with
      decoder := some (asked w.decoderSampleRate event)
      decoderSampleRate := (asked w.decoderSampleRate event).sampleRate } :=
  (if_neg hchange).trans (if_pos hsupported)

/-- The old decoder is destroyed before a new one is known to exist. -/
theorem handled_of_unsupported (hchange : Changes w.decoderSampleRate event)
    (hsupported : ¬ (asked w.decoderSampleRate event).Supported) :
    handled event w = { w with decoder := none } :=
  (if_neg hchange).trans (if_neg hsupported)

theorem runs_choose {b : Bool} :
    Thread.choose.Runs ok w b w' ↔ ok (if b then .ok else .fail) ∧ w' = w := by
  rw [Thread.choose, runs_ask]
  constructor
  · rintro ⟨⟨c, hc, hb⟩, rfl⟩
    refine ⟨?_, rfl⟩
    cases c <;> cases hb
    · exact hc
    · exact hc
  · rintro ⟨hc, rfl⟩
    refine ⟨⟨_, hc, ?_⟩, rfl⟩
    cases b <;> rfl

/-- `opus_decoder_wrapper_init` on a decoder that was destroyed. -/
theorem runs_initDecoder {dec : OpusDecoder} (hw : w.decoder = none) :
    (initDecoder dec.sampleRate dec.channels).Runs (· = opusAnswer dec) w () w' ↔
      w' = if dec.Supported then { w with decoder := some dec, decoderSampleRate := dec.sampleRate }
        else w := by
  have hok : ∃ c, c = opusAnswer dec := ⟨_, rfl⟩
  unfold initDecoder
  split_ifs with hpos hsupported hsupported
  · have := hsupported.pos
    omega
  · simp only [pure_eq, runs_ret, true_and]
  · have hans : opusAnswer dec = .ok := if_pos hsupported
    simp only [runs_bind, runs_choose]
    constructor
    · rintro ⟨b, w₁, ⟨hb, rfl⟩, hrun⟩
      cases b with
      | false => exact absurd (hb.trans hans) (by decide)
      | true =>
        obtain ⟨u, w₂, h₁, h₂⟩ := runs_bind.mp hrun
        obtain rfl := (runs_modify hok).mp h₁
        exact (runs_modify hok).mp h₂
    · rintro rfl
      refine ⟨true, w, ⟨hans.symm, rfl⟩, ?_⟩
      exact runs_bind.mpr ⟨(), { w with decoder := some dec }, (runs_modify hok).mpr rfl,
        (runs_modify hok).mpr rfl⟩
  · have hans : opusAnswer dec = .fail := if_neg hsupported
    simp only [runs_bind, runs_choose]
    constructor
    · rintro ⟨b, w₁, ⟨hb, rfl⟩, hrun⟩
      cases b with
      | true => exact absurd (hb.trans hans) (by decide)
      | false => exact (runs_ret.mp hrun).2
    · rintro rfl
      exact ⟨false, w', ⟨hans.symm, rfl⟩, runs_ret.mpr ⟨rfl, rfl⟩⟩

/-- Handling a hello never blocks, and ends in one way. -/
theorem handlesHello_iff :
    HandlesHello event w w' ↔ w' = handled event w := by
  let dec := asked w.decoderSampleRate event
  have hok : ∃ c, c = opusAnswer dec := ⟨_, rfl⟩
  have hrest : (if dec.sampleRate = w.decoderSampleRate ∧ dec.channels = 1 then pure () else do
      .modify fun w => { w with decoder := none }
      initDecoder dec.sampleRate dec.channels : Thread Unit).Runs (· = opusAnswer dec) w () w' ↔
      w' = handled event w := by
    have hsame : dec = { sampleRate := w.decoderSampleRate, channels := 1 } ↔
        dec.sampleRate = w.decoderSampleRate ∧ dec.channels = 1 := by
      rw [← OpusDecoder.mk.injEq]
    by_cases hkeep : dec.sampleRate = w.decoderSampleRate ∧ dec.channels = 1
    · rw [if_pos hkeep, handled, if_pos (hsame.mpr hkeep)]
      simp only [pure_eq, runs_ret, true_and]
    · rw [if_neg hkeep, handled, if_neg fun h => hkeep (hsame.mp h), runs_bind]
      constructor
      · rintro ⟨u, w₁, hdestroy, hinit⟩
        obtain rfl := (runs_modify hok).mp hdestroy
        exact (runs_initDecoder rfl).mp hinit
      · intro h
        exact ⟨(), _, (runs_modify hok).mpr rfl, (runs_initDecoder rfl).mpr h⟩
  unfold HandlesHello updateDecoderFromHello
  rw [runs_bind]
  constructor
  · rintro ⟨rate, w₁, hread, hrun⟩
    obtain ⟨rfl, rfl⟩ := (runs_read hok).mp hread
    exact hrest.mp hrun
  · intro h
    exact ⟨w.decoderSampleRate, w, (runs_read hok).mpr ⟨rfl, rfl⟩, hrest.mpr h⟩

end Runs

/-! ## Sequences of hellos -/

section Hellos

variable {hellos : List XiaozhiIncomingEvent} {event : XiaozhiIncomingEvent} {w : World}

theorem inForce_concat : inForce (hellos ++ [event]) =
    if (asked (inForce hellos) event).Supported then (asked (inForce hellos) event).sampleRate
    else inForce hellos := by
  rw [inForce, List.foldl_append]
  rfl

/-- One channel at the rate in force is always supported. -/
theorem supported_inForce (hellos : List XiaozhiIncomingEvent) :
    OpusDecoder.Supported { sampleRate := inForce hellos, channels := 1 } := by
  induction hellos using List.reverseRecOn with
  | nil => decide
  | append_singleton hellos event ih =>
    rw [inForce_concat]
    split_ifs with h
    · exact ⟨h.1, .inl rfl⟩
    · exact ih

theorem inForce_of_not_changes (h : ¬ Changes (inForce hellos) event) :
    inForce (hellos ++ [event]) = inForce hellos := by
  have hasked := not_not.mp h
  rw [inForce_concat, hasked, if_pos (supported_inForce hellos)]

theorem settled_concat : Settled (hellos ++ [event]) ↔
    (Changes (inForce hellos) event → (asked (inForce hellos) event).Supported ∧
      (asked (inForce hellos) event).channels = 1) ∧
    (¬ Changes (inForce hellos) event → Settled hellos) := by
  constructor
  · intro h
    refine ⟨fun hchange => h hellos event [] rfl hchange (by simp), fun hkeep => ?_⟩
    rintro before first after rfl hfirst hlater
    refine h before first (after ++ [event]) (by simp) hfirst ?_
    intro between later rest heq
    obtain ⟨rfl, rfl, -⟩ | ⟨rest', hafter, -⟩ := Lists.concat_split heq
    · exact hkeep
    · exact hlater between later rest' hafter
  · rintro ⟨hchanges, hkeeps⟩ before first after heq hfirst hlater
    obtain ⟨rfl, rfl, -⟩ | ⟨after', rfl, rfl⟩ := Lists.concat_split heq
    · exact hchanges hfirst
    · refine hkeeps (hlater after' event [] (by simp)) before first after' rfl hfirst ?_
      intro between later rest hafter
      exact hlater between later (rest ++ [event]) (by simp [hafter])

/-- After the hellos, the rate is the one in force, and the decoder has one
    channel at that rate exactly when the hellos have settled. -/
theorem HandledHellos.inv (h : HandledHellos hellos w) : w.decoderSampleRate = inForce hellos ∧
    (w.decoder = some { sampleRate := inForce hellos, channels := 1 } ↔ Settled hellos) := by
  induction h with
  | @start w hdecoder hrate =>
    refine ⟨hrate, iff_of_true hdecoder ?_⟩
    intro before first after heq
    simp at heq
  | other _ hdecoder hrate ih => rwa [hdecoder, hrate]
  | @hello hellos event w w' _ hhandles ih =>
    obtain ⟨hrate, hdecoder⟩ := ih
    obtain rfl := handlesHello_iff.mp hhandles
    rw [settled_concat]
    rw [← hrate] at hdecoder ⊢
    by_cases hchange : Changes w.decoderSampleRate event
    · simp only [hchange, not_true_eq_false, false_implies, and_true, true_implies]
      rw [inForce_concat, ← hrate]
      by_cases hsupported : (asked w.decoderSampleRate event).Supported
      · rw [handled_of_supported hchange hsupported, if_pos hsupported]
        refine ⟨rfl, ?_⟩
        constructor
        · intro heq
          exact ⟨hsupported, congrArg OpusDecoder.channels (Option.some.inj heq)⟩
        · rintro ⟨-, hchannels⟩
          rw [← hchannels]
      · rw [handled_of_unsupported hchange hsupported, if_neg hsupported]
        exact ⟨rfl, iff_of_false nofun fun h => hsupported h.1⟩
    · rw [handled_of_not_changes hchange, inForce_of_not_changes (hrate ▸ hchange), ← hrate]
      simp only [hchange, false_implies, not_false_eq_true, true_implies, true_and]
      exact hdecoder

/-- Whatever the hellos asked for, a decoder has a supported format. -/
theorem HandledHellos.supported {dec : OpusDecoder} (h : HandledHellos hellos w)
    (hdec : w.decoder = some dec) : dec.Supported := by
  induction h with
  | start hdecoder _ =>
    obtain rfl := Option.some.inj (hdecoder.symm.trans hdec)
    decide
  | other _ hdecoder _ ih => exact ih (hdecoder ▸ hdec)
  | @hello hellos event w w' _ hhandles ih =>
    obtain rfl := handlesHello_iff.mp hhandles
    by_cases hchange : Changes w.decoderSampleRate event
    · by_cases hsupported : (asked w.decoderSampleRate event).Supported
      · rw [handled_of_supported hchange hsupported] at hdec
        obtain rfl := Option.some.inj hdec
        exact hsupported
      · rw [handled_of_unsupported hchange hsupported] at hdec
        cases hdec
    · rw [handled_of_not_changes hchange] at hdec
      exact ih hdec

/-- After a hello that asks for a supported format, the decoder has that format
    exactly when the hello asks for a change, or the hellos before it have
    settled. -/
theorem decoder_as_asked_iff (hrun : HandledHellos hellos w)
    (hsupported : (asked (inForce hellos) event).Supported) :
    (∃ w', HandlesHello event w w') ∧
    ((∀ w', HandlesHello event w w' → w'.decoder = some (asked (inForce hellos) event)) ↔
      Changes (inForce hellos) event ∨ Settled hellos) := by
  obtain ⟨hrate, hdecoder⟩ := hrun.inv
  refine ⟨⟨_, handlesHello_iff.mpr rfl⟩, ?_⟩
  simp only [handlesHello_iff, forall_eq]
  rw [← hrate] at hdecoder hsupported ⊢
  by_cases hchange : Changes w.decoderSampleRate event
  · rw [handled_of_supported hchange hsupported]
    exact iff_of_true rfl (.inl hchange)
  · rw [handled_of_not_changes hchange, not_not.mp hchange, hdecoder]
    exact ⟨.inr, fun h => h.resolve_left hchange⟩

/-- A hello that asks for a rate and a number of channels. -/
def helloAsking (rate channels : Int) : XiaozhiIncomingEvent where
  type := .hello
  sessionId := []
  text := []
  emotion := []
  outputSampleRate := rate
  outputChannels := channels

/-- A state that a successful `app_init` can leave behind. -/
def freshWorld : World := .init {
  protocolVersion := 1
  inputSampleRate := 16000
  silenceTimeoutMs := 1200
  silenceThreshold := 500 }

theorem decoder_after_stereo_hello :
    (∃ w', HandlesHello (helloAsking 16000 1) (handled (helloAsking 48000 2) freshWorld) w') ∧
    ((∀ w', HandlesHello (helloAsking 16000 1) (handled (helloAsking 48000 2) freshWorld) w' →
        w'.decoder = some (asked (inForce [helloAsking 48000 2]) (helloAsking 16000 1))) ↔
      Changes (inForce [helloAsking 48000 2]) (helloAsking 16000 1) ∨
        Settled [helloAsking 48000 2]) :=
  decoder_as_asked_iff (.hello (.start rfl rfl) (handlesHello_iff.mpr rfl)) (by decide)

/-- A decoder with two channels outlives a hello that asks for one at its rate. -/
theorem two_channels_kept : ¬ ∀ hellos event w w', HandledHellos hellos w →
    (asked (inForce hellos) event).Supported → HandlesHello event w w' →
      w'.decoder = some (asked (inForce hellos) event) := by
  intro h
  have hrun : HandledHellos [helloAsking 24000 2] (handled (helloAsking 24000 2) freshWorld) :=
    .hello (.start rfl rfl) (handlesHello_iff.mpr rfl)
  have hdecoder := h _ (helloAsking 24000 1) _ _ hrun (by decide) (handlesHello_iff.mpr rfl)
  exact absurd hdecoder (by decide)

end Hellos

end App

end Xiaozhi
