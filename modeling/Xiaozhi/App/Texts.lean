-- SUMMARY: When the texts of the server reach the parser unchanged, in order and without a gap.
import Xiaozhi.App.MainLoop

/-!
# Texts

A text goes from the service thread through `app_push_event`, which copies it
into 1024 bytes, and through the event queue, which may be full, to the parser
in the main loop.
-/

namespace Xiaozhi

open Threads Threads.Prog World App

/-- The texts given to the parser, the latest first. -/
def parsed : List MainEntry → List Bytes
  | [] => []
  | .parses text :: log => text :: parsed log
  | _ :: log => parsed log

/-- The texts of the events taken from the queue, the latest first. -/
def takenTexts : List MainEntry → List Bytes
  | [] => []
  | .takes event :: log => if event.type = .wsText then event.text :: takenTexts log else takenTexts log
  | _ :: log => takenTexts log

/-- The texts in a list of events. -/
def textsOf (events : List AppEvent) : List Bytes :=
  (events.filter (·.type = .wsText)).map (·.text)

/-- A text that is handed to `on_text` has no NUL, fits into an event, and finds
    room in the event queue. -/
def TextFits (_ : ThreadId) (w w' : World) : Prop :=
  ∀ text, w'.texts = text :: w.texts →
    (∀ b ∈ text, b ≠ 0) ∧ text.length < 1024 ∧ ¬w.events.Full

/-! ## From the queue to the parser -/

/-- What has been parsed has been taken before. -/
def textContract : ViewContract MainView where
  assume _ _ := True
  guar v v' := parsed v.log <:+ takenTexts v.log → parsed v'.log <:+ takenTexts v'.log
  assume_refl _ := trivial
  guar_refl _ := id

/-- The texts taken from the queue have been parsed. -/
def TextsParsed (v : MainView) : Prop := parsed v.log = takenTexts v.log

namespace TextsParsed

variable {v : MainView}

theorem suffix (h : TextsParsed v) : parsed v.log <:+ takenTexts v.log := ⟨[], h⟩

/-- The handlers neither take a text nor parse one. -/
theorem keeps {α : Type} {p : Thread α} (hp : p.Handler) (h : TextsParsed v) :
    p.vwp mainView textContract (fun _ => TextsParsed) v := by
  refine Within.vwp hp (fun w w' hs h _ => ?_) h
  have hsame : parsed w'.log = parsed w.log ∧ takenTexts w'.log = takenTexts w.log := by
    obtain hl | ⟨entry, hi, hl⟩ := hs.inner
    · rw [hl]; exact ⟨rfl, rfl⟩
    · rw [hl]
      cases entry with
      | takes _ => exact hi.elim
      | parses _ => exact hi.elim
      | _ => exact ⟨rfl, rfl⟩
  obtain ⟨h₁, h₂⟩ := hsame
  refine ⟨fun h => ?_, ?_⟩
  · show parsed w'.log <:+ takenTexts w'.log
    rw [h₁, h₂]
    exact h
  · show parsed w'.log = takenTexts w'.log
    rw [h₁, h₂]
    exact h

theorem handleEvent {cjsonParse : Bytes → Option Json} {e : AppEvent} (h : TextsParsed v) :
    (App.handleEvent cjsonParse e).vwp mainView textContract (fun _ => TextsParsed)
      (v.record (.takes e)) := by
  have hother (ht : e.type ≠ .wsText) : TextsParsed (v.record (.takes e)) := by
    simpa [TextsParsed, takenTexts, parsed, ht] using h
  unfold App.handleEvent
  split
  all_goals first
    | exact (hother (by simp_all)).keeps handler_handleSessionEvent
    | exact (hother (by simp_all)).keeps handler_handlePlaybackFinished
    | exact hother (by simp_all)
    | simpa using hother (by simp_all)
    | skip
  · next ht =>
    have hparsed : TextsParsed ((v.record (.takes e)).record (.parses e.text)) := by
      simpa [TextsParsed, takenTexts, parsed, ht] using h
    simp only [handleText, vwp_bind, vwp_record]
    refine fun _ => ⟨fun _ => hparsed.suffix, ?_⟩
    split
    · exact hparsed.keeps handler_handleProtocolEvent
    · exact hparsed

end TextsParsed

/-! ## From the server to the queue -/

/-- The texts handed to `on_text` are the taken ones and then the queued ones. -/
def TextsKept (w : World) : Prop :=
  w.texts = (textsOf w.events.toList).reverse ++ takenTexts w.log

theorem TextsKept.step {i : ThreadId} {w w' : World} (h : TextsKept w) (hs : Step i w w')
    (hfits : TextFits i w w') : TextsKept w' := by
  unfold TextsKept at h ⊢
  cases hs.history with
  | same hl he _ ht => rw [ht, he, hl, h]
  | records entry hplain hl he _ ht =>
    rw [ht, he, hl, h]
    cases entry with
    | takes _ => exact hplain.elim
    | pushes _ _ => exact hplain.elim
    | _ => rfl
  | takes event hl he _ ht =>
    rw [ht, h, he, hl]
    by_cases htype : event.type = .wsText <;> simp [textsOf, takenTexts, htype]
  | pushes event accepted _ hroom hl he _ ht =>
    have hlog : takenTexts w'.log = takenTexts w.log := by
      rw [hl]; split <;> rfl
    rw [he, hlog]
    obtain ⟨htype, ht⟩ | ⟨text, rfl, ht⟩ := ht
    · rw [ht, h]
      split <;> simp [textsOf, htype]
    · obtain ⟨hnul, hlen, hfull⟩ := hfits text ht
      rw [if_pos (hroom.mpr hfull), ht, h]
      simp [textsOf, AppEvent.make, CString.copy_eq_self hnul hlen]

/-- What is known of the texts in every run. -/
structure TextsOk (w : World) : Prop where
  kept : TextsKept w
  parsed : parsed w.log <:+ takenTexts w.log

namespace System

variable {cjsonParse : Bytes → Option Json} {config : AppConfig} {cfg : Config}

theorem Reach.textsOk (hr : Reach cjsonParse TextFits config cfg) : TextsOk cfg.shared := by
  have hstart : App.runStart.vwp mainView textContract (fun _ => TextsParsed)
      (World.init config).mainView := TextsParsed.keeps handler_runStart rfl
  have htakes {v : MainView} {e : AppEvent} (h : parsed v.log <:+ takenTexts v.log) :
      parsed (.takes e :: v.log) <:+ takenTexts (.takes e :: v.log) := by
    simp only [parsed, takenTexts]
    split
    · exact h.trans (List.suffix_cons _ _)
    · exact h
  have hloop (v : MainView) (hv : TextsParsed v) : (App.runLoop cjsonParse).vwp mainView
      textContract (fun _ => TextsParsed) v :=
    runLoop_keeps (fun v e _ _ h _ => ⟨id, h⟩) (fun v _ h _ => ⟨id, h⟩)
      (fun v e h _ => ⟨htakes, h.handleEvent⟩) v hv
  have hsteps := hr.strengthen_main (S := textContract) (fun _ _ _ => trivial) hstart hloop
  have hinit : TextsOk (World.init config) := ⟨rfl, List.suffix_refl _⟩
  refine Threads.Reach.invariant hinit (fun i w w' ⟨hfits, hs, hg⟩ h => ?_) hsteps
  refine ⟨h.kept.step hs hfits, ?_⟩
  by_cases hi : i = .main
  · exact hg hi h.parsed
  · rw [hs.log_of_ne hi]
    exact h.parsed

/-- In every run in which each text fits into an event and finds room in the
    event queue, the texts given to the parser are at every moment the first of
    those handed to `on_text`, byte for byte. -/
theorem parsed_prefix (hr : Reach cjsonParse TextFits config cfg) :
    (parsed cfg.shared.log).reverse <+: cfg.shared.texts.reverse := by
  obtain ⟨hkept, hparsed⟩ := hr.textsOk
  rw [List.reverse_prefix, hkept]
  exact hparsed.trans (List.suffix_append _ _)

/-- The test for `TextFits`. -/
def textFits (_ : ThreadId) (w w' : World) : Bool :=
  (added w.texts w'.texts).all fun text =>
    text.all (· ≠ 0) && decide (text.length < 1024) && decide (¬w.events.Full)

theorem textFits_iff (i : ThreadId) (w w' : World) (h : textFits i w w' = true) :
    TextFits i w w' := by
  intro text htext
  simpa [textFits, htext, and_assoc] using h

/-- The server says hello, and both its texts so far have been parsed. -/
theorem parsed_prefix_hello : ∃ cfg, Reach sampleParse TextFits ⟨1, 16000, 1200, 500⟩ cfg ∧
    (parsed cfg.shared.log).reverse <+: cfg.shared.texts.reverse ∧
    (parsed cfg.shared.log).length = 2 := by
  have h : (play sampleParse textFits ⟨1, 16000, 1200, 500⟩ [
      (.main, 15, [.ok]),
      (.service 1, 28, [.ok, .ok, .ok, .callback .established, receives 0, receives 2, .nothing]),
      (.main, 43, [.ok, .ok, .nothing, .nothing, .input [10]])]).any (fun cfg =>
        decide ((parsed cfg.shared.log).length = 2)) = true := by decide +kernel
  obtain ⟨cfg, hr, hp⟩ := exists_of_play textFits_iff h
  exact ⟨cfg, hr, parsed_prefix hr, of_decide_eq_true hp⟩

/-- A text of 1100 bytes arrives, and 1023 bytes are parsed. -/
theorem parsed_shortened : ∃ cfg,
    Reach (fun _ => none) anyStep ⟨1, 16000, 1200, 500⟩ cfg ∧
    (∀ text ∈ cfg.shared.texts, text.length ≤ 4095 ∧ ∀ b ∈ text, b ≠ 0) ∧
    ¬(parsed cfg.shared.log).reverse <+: cfg.shared.texts.reverse := by
  have h : (play (fun _ => none) (fun _ _ _ => true) ⟨1, 16000, 1200, 500⟩ [
      (.main, 15, [.ok]),
      (.service 1, 23, [.ok, .ok, .ok, .callback .established,
        .callback (.receive false (List.replicate 1100 32) true), .nothing]),
      (.main, 23, [.ok, .ok, .nothing, .nothing])]).any (fun cfg =>
        (cfg.shared.texts.all fun text => decide (text.length ≤ 4095) && text.all (· ≠ 0)) &&
        decide (¬(parsed cfg.shared.log).reverse <+: cfg.shared.texts.reverse)) = true := by
    decide +kernel
  obtain ⟨cfg, hr, hp⟩ := exists_of_play (fun _ _ _ _ => trivial) h
  obtain ⟨htexts, hparsed⟩ := Bool.and_eq_true_iff.mp hp
  exact ⟨cfg, hr, by simpa using htexts, of_decide_eq_true hparsed⟩

end System

end Xiaozhi
