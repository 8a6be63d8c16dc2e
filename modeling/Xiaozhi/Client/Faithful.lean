-- SUMMARY: The messages handed over consist of fragments received on the same connection, as long as no connection leaves the start of a message behind.
import Xiaozhi.Client.Receiving

/-!
# Faithful

The receive buffers outlive the connection. So what is left of a message whose
connection ends is put before the first message of the next connection, and the
messages of a connection are its own only if this never happens.
-/

namespace Xiaozhi

open Threads World

/-- A fragment of the first message of its kind on a connection is as it should be. -/
def FirstsOk (_ : ThreadId) (w w' : World) : Prop :=
  ∀ f, w'.received = f :: w.received → (w.channel f.connection f.opcode).Open →
    (w.channel f.connection f.opcode).FirstOk f.opcode f

variable {k : Nat} {w : World} {op : Opcode}

/-- The messages of connection `k` are settled after every fragment. -/
def settledCondition (k : Nat) : ReceiveCondition k where
  Admits w w' := FirstsOk (.service k) w w'
  Holds b fs := ∀ gs, gs <+: fs → ∀ op, ((Inbox.run b gs).channel gs op).Settled op
  start b _ gs hgs op := by
    rw [List.prefix_nil.mp hgs]
    exact .of_nil rfl rfl
  receive {w w' f b} hfirst hreceived hk hinbox hsettled gs hgs op := by
    rcases List.prefix_concat_iff.mp hgs with rfl | hgs
    · have hbefore := hsettled _ (List.prefix_refl _) op
      rw [Inbox.run_append_singleton, Inbox.channel_step]
      split
      · next hop =>
        refine hbefore.step fun ho => ?_
        have hok := hfirst f hreceived
        rw [channel, hk, hinbox, hop] at hok
        exact hok ho
      · exact hbefore
    · exact hsettled gs hgs op

/-- What has been settled is faithful, with the fragment in hand too. -/
theorem World.UpToDate.faithful {b : Opcode → Bytes} (h : w.UpToDate k b)
    (hsettled : (settledCondition k).Holds b (w.fragmentsOn k)) :
    (w.channel k op).Faithful op (w.inHand k) := by
  rcases h with hmessages | ⟨fs, f, hfs, hhand, hmessages⟩
  · refine (hsettled _ (List.prefix_refl _) op).faithful.congr rfl ?_
    show ((w.messagesOn k).filter _).map _ = _
    rw [hmessages]
    rfl
  · have hold := hsettled fs (hfs ▸ List.prefix_append _ _) op
    have hdelivered : (w.channel k op).messages = ((Inbox.run b fs).channel fs op).messages := by
      show ((w.messagesOn k).filter _).map _ = _
      rw [hmessages]
      rfl
    rw [hhand]
    by_cases hop : f.opcode = op
    · refine hold.faithful_take.congr ?_ hdelivered
      show (w.fragmentsOn k).filter _ = _
      rw [hfs, List.filter_append, List.filter_singleton, decide_eq_true hop]
      rfl
    · refine hold.faithful.congr ?_ hdelivered
      show (w.fragmentsOn k).filter _ = _
      rw [hfs, List.filter_append, List.filter_singleton, decide_eq_false hop]
      exact List.append_nil _

namespace System

variable {cjsonParse : Bytes → Option Json} {config : AppConfig} {cfg : Config}

/-- In every run in which the first message of each kind on a connection finds
    an empty buffer and fits it: the messages handed over consist of fragments
    received on the connection, and the first one of each kind is handed over
    exactly as it was sent. -/
theorem received_faithfully (hr : Reach cjsonParse FirstsOk config cfg) (k : Nat) (op : Opcode) :
    (cfg.shared.channel k op).Faithful op (cfg.shared.inHand k) := by
  obtain ⟨b, hw, hsettled⟩ := hr.inbox (settledCondition k) fun _ _ _ h => h
  exact hw.faithful hsettled

/-- The test for `FirstsOk`. -/
def firstsOk (_ : ThreadId) (w w' : World) : Bool :=
  (added w.received w'.received).all fun f =>
    decide ((w.channel f.connection f.opcode).Open →
      (w.channel f.connection f.opcode).FirstOk f.opcode f)

theorem firstsOk_iff (i : ThreadId) (w w' : World) (h : firstsOk i w w' = true) :
    FirstsOk i w w' := by
  intro f hreceived
  simp only [firstsOk, hreceived, added_cons, Option.all_some, decide_eq_true_eq] at h
  exact h

/-- A text arrives in two fragments. -/
theorem received_faithfully_text : ∃ cfg, Reach sampleParse FirstsOk ⟨1, 16000, 1200, 500⟩ cfg ∧
    (cfg.shared.channel 1 .text).fragments = [⟨1, .text, [120], false⟩, ⟨1, .text, [121], true⟩] ∧
    (cfg.shared.channel 1 .text).messages.head? = some [120, 121] := by
  have h : (play sampleParse firstsOk ⟨1, 16000, 1200, 500⟩ [
      (.main, 15, [.ok]),
      (.service 1, 22, [.ok, .ok, .ok, .callback .established, .callback (.receive false [120] false),
        .callback (.receive false [121] true)])]).any (fun cfg =>
        decide ((cfg.shared.channel 1 .text).fragments =
          [⟨1, .text, [120], false⟩, ⟨1, .text, [121], true⟩]) &&
        decide ((cfg.shared.channel 1 .text).messages ≠ [])) = true := by decide +kernel
  obtain ⟨cfg, hr, hp⟩ := exists_of_play firstsOk_iff h
  simp only [Bool.and_eq_true, decide_eq_true_eq] at hp
  obtain ⟨hfragments, hmessages⟩ := hp
  refine ⟨cfg, hr, hfragments, ?_⟩
  have hfirst := (received_faithfully hr 1 .text).first [⟨1, .text, [120], false⟩] _ [] hfragments
    (by simp) rfl
  exact hfirst.resolve_right fun hnone => hmessages hnone.1

/-- The start of a text is left behind by the first connection, and is put
    before the first text of the second one. -/
theorem stale_text_handed_over : ∃ cfg, Reach sampleParse anyStep ⟨1, 16000, 1200, 500⟩ cfg ∧
    (cfg.shared.channel 2 .text).fragments = [⟨2, .text, [121], true⟩] ∧
    (cfg.shared.channel 2 .text).messages = [[120, 121]] ∧
    ¬(cfg.shared.channel 2 .text).Faithful .text (cfg.shared.inHand 2) := by
  have h : (play sampleParse (fun _ _ _ => true) ⟨1, 16000, 1200, 500⟩ [
      (.main, 15, [.ok]),
      (.service 1, 26, [.ok, .ok, .ok, .callback .established, .callback (.receive false [120] false),
        .callback .closed, .nothing]),
      (.main, 30, [.ok, .ok, .nothing]),
      (.service 1, 9, [.nothing, .nothing]),
      (.main, 7, [.ok]),
      (.service 2, 19, [.ok, .ok, .ok, .callback .established,
        .callback (.receive false [121] true)])]).any (fun cfg =>
        decide ((cfg.shared.channel 2 .text).fragments = [⟨2, .text, [121], true⟩]) &&
        decide ((cfg.shared.channel 2 .text).messages = [[120, 121]])) = true := by decide +kernel
  obtain ⟨cfg, hr, hp⟩ := exists_of_play (fun _ _ _ _ => trivial) h
  simp only [Bool.and_eq_true, decide_eq_true_eq] at hp
  obtain ⟨hfragments, hmessages⟩ := hp
  refine ⟨cfg, hr, hfragments, hmessages, fun hfaithful => ?_⟩
  rcases hfaithful.first [] _ [] hfragments (fun _ h => (List.not_mem_nil h).elim) rfl with hhead | hnone
  · rw [hmessages] at hhead
    simp [contents] at hhead
  · rw [hmessages] at hnone
    simp at hnone

end System

end Xiaozhi
