-- SUMMARY: When an error of a connection that has been replaced can tear down its successor.
import Xiaozhi.Client.Lifecycle

/-!
# Errors of replaced connections

A deliberate stop of a connection makes libwebsockets report that it was
closed. The error event that this pushes carries no connection, and it is
handled after the next connection has been started.
-/

namespace Xiaozhi

open Threads World

/-- The event is an error that connection `k` has reported. -/
def AppEvent.IsErrorOf (e : AppEvent) (k : Nat) : Prop := e.type = .error ∧ e.origin = .service k

instance (e : AppEvent) (k : Nat) : Decidable (e.IsErrorOf k) := inferInstanceAs (Decidable (_ ∧ _))

/-- No error of a connection makes the main loop return to wake after the next
    connection has been started. -/
def NoStaleTeardown (log : List MainEntry) : Prop :=
  ∀ e k l, .performs .returnToWake :: .takes e :: l <:+ log → e.IsErrorOf k → .starts (k + 1) ∉ l

/-- When a service thread is created, no error of an earlier connection waits in
    the event queue. -/
def StartsWithoutError (_ : ThreadId) (w w' : World) : Prop :=
  ∀ k, w'.log = .starts k :: w.log → ∀ e ∈ w.events.toList, ∀ j, ¬e.IsErrorOf j

/-- The errors in the queue and those taken from it are of the connection that
    is the latest one then. -/
structure ErrorsCurrent (w : World) : Prop where
  queued : ∀ e ∈ w.events.toList, ∀ k, e.IsErrorOf k → w.started ≤ k
  starts : ∀ k, .starts k ∈ w.log → k ≤ w.started
  taken : ∀ e k l, .takes e :: l <:+ w.log → e.IsErrorOf k → .starts (k + 1) ∉ l

namespace ErrorsCurrent

variable {w w' : World}

/-- The log, the queue and the number of connections are the same. -/
theorem congr (h : ErrorsCurrent w) (hlog : w'.log = w.log) (hev : w'.events = w.events)
    (hst : w'.started = w.started) : ErrorsCurrent w' :=
  ⟨by rw [hev, hst]; exact h.queued, by rw [hlog, hst]; exact h.starts, by rw [hlog]; exact h.taken⟩

/-- An entry that neither takes an event nor starts a connection. -/
theorem record (h : ErrorsCurrent w) {entry : MainEntry} (hs : ∀ k, entry ≠ .starts k)
    (ht : ∀ e, entry ≠ .takes e) (hlog : w'.log = entry :: w.log)
    (hev : ∀ e ∈ w'.events.toList, ∀ k, e.IsErrorOf k → e ∈ w.events.toList)
    (hst : w'.started = w.started) : ErrorsCurrent w' := by
  refine ⟨fun e he k hk => hst ▸ h.queued e (hev e he k hk) k hk, fun k hk => ?_,
    fun e k l hl => ?_⟩
  · rw [hlog] at hk
    obtain hk | hk := List.mem_cons.mp hk
    · exact absurd hk.symm (hs k)
    · exact hst ▸ h.starts k hk
  · rw [hlog] at hl
    obtain hl | hl := List.suffix_cons_iff.mp hl
    · exact absurd (List.cons.inj hl).1.symm (ht e)
    · exact h.taken e k l hl

theorem step {i : ThreadId} (h : ErrorsCurrent w) (hok : StartsWithoutError i w w')
    (hb : System.Base i w w') : ErrorsCurrent w' := by
  -- only the main thread starts connections and takes events; the others push them
  by_cases hi : i = .main
  · subst hi
    cases hb.step with
    | quiet hq hl hst _ => exact h.congr hl hq.events hst
    | reserves _ => exact h.congr rfl rfl rfl
    | stops => exact h.congr rfl rfl rfl
    | joins _ => exact h.congr rfl rfl rfl
    | records ho =>
      exact h.record (fun k hk => by rw [hk] at ho; exact ho)
        (fun e he => by rw [he] at ho; exact ho) rfl (fun _ he _ _ => he) rfl
    | queues _ => exact h.record (by simp) (by simp) rfl (fun _ he _ _ => he) rfl
    | @pushes event ho =>
      refine h.record ?_ ?_ (World.pushEvent_log ho) (fun e he k hk => ?_) rfl
      · exact fun _ => nofun
      · exact fun _ => nofun
      · obtain he | rfl := EventQueue.mem_push he
        · exact he
        · exact absurd (ho.symm.trans hk.2) (by simp)
    | @takes event events hpop =>
      have hlist : w.events.toList = event :: events.toList := RingBuffer.Queue.pop_toList hpop
      refine ⟨fun e he k hk => h.queued e (hlist ▸ List.mem_cons_of_mem _ he) k hk,
        fun k hk => ?_, fun e k l hl hk => ?_⟩
      · exact h.starts k ((List.mem_cons.mp hk).resolve_left (by simp))
      · obtain hl | hl := List.suffix_cons_iff.mp hl
        · -- the event that is taken is of the latest connection
          obtain ⟨he, rfl⟩ := List.cons.inj hl
          obtain rfl := MainEntry.takes.inj he
          have hle := h.queued e (hlist ▸ List.mem_cons_self) k hk
          exact fun hst => absurd (h.starts _ hst) (by omega)
        · exact h.taken e k l hl hk
    | starts =>
      -- here the condition is used: no error is queued when the next connection starts
      refine ⟨fun e he k hk => absurd hk (hok _ rfl e he k), fun k hk => ?_, fun e k l hl => ?_⟩
      · obtain hk | hk := List.mem_cons.mp hk
        · exact (MainEntry.starts.inj hk).le
        · exact (h.starts k hk).trans (Nat.le_succ _)
      · obtain hl | hl := List.suffix_cons_iff.mp hl
        · simp at hl
        · exact h.taken e k l hl
  · by_cases hsame : w' = w
    · exact hsame ▸ h
    have hv := hb.step.mainView hi
    have hlog : w'.log = w.log := congrArg MainView.log hv
    have hst : w'.started = w.started := congrArg MainView.started hv
    obtain ⟨hev, -⟩ | ⟨e₀, ho, hev, -⟩ := hb.step.events_of_ne hi
    · exact h.congr hlog hev hst
    · refine ⟨fun e he k hk => ?_, by rw [hlog, hst]; exact h.starts, by rw [hlog]; exact h.taken⟩
      rw [hev] at he
      rw [hst]
      obtain he | rfl := EventQueue.mem_push he
      · exact h.queued e he k hk
      · -- the thread that pushes is the one of the latest connection
        exact ((hb.service k (ho.symm.trans hk.2)).resolve_left hsame).2.ge

end ErrorsCurrent

namespace System

/-- In every run in which each service thread is created while no error of an
    earlier connection is queued, no error of a connection tears down the
    connection that replaces it. -/
theorem no_stale_teardown {cjsonParse : Bytes → Option Json} {config : AppConfig} {cfg : Config}
    (hr : Reach cjsonParse StartsWithoutError config cfg) : NoStaleTeardown cfg.shared.log := by
  have hinit : ErrorsCurrent (World.init config) :=
    ⟨fun e he => absurd he List.not_mem_nil, fun k hk => absurd hk List.not_mem_nil,
      fun e k l hl => absurd (List.suffix_nil.mp hl) (by simp)⟩
  have h : ErrorsCurrent cfg.shared :=
    Threads.Reach.invariant hinit (fun _ _ _ hok h => h.step hok.1 hok.2) hr.base
  intro e k l hl
  exact h.taken e k l ((List.suffix_cons _ _).trans hl)

/-- The test for `StartsWithoutError`. -/
def startsWithoutError (_ : ThreadId) (w w' : World) : Bool :=
  match added w.log w'.log with
  | some (.starts _) => w.events.toList.all fun e => match e.type, e.origin with
    | .error, .service _ => false
    | _, _ => true
  | _ => true

theorem startsWithoutError_iff {i : ThreadId} {w w' : World}
    (h : startsWithoutError i w w' = true) : StartsWithoutError i w w' := by
  intro k hlog e he j hj
  simp only [startsWithoutError, hlog, added_cons, List.all_eq_true] at h
  have := h e he
  rw [hj.1, hj.2] at this
  cases this

/-- The second connection has just been started because of an error of the first one. -/
def restartedOnError : List MainEntry → Bool
  | .starts 2 :: .performs .returnToWake :: .takes e :: _ => decide (e.IsErrorOf 1)
  | _ => false

/-- The first connection fails, and its error leads to the second one. -/
theorem no_stale_teardown_once :
    ∃ cfg, Reach (fun _ => none) StartsWithoutError ⟨1, 16000, 1200, 500⟩ cfg ∧
      NoStaleTeardown cfg.shared.log ∧
      ∃ e l, cfg.shared.log = .starts 2 :: .performs .returnToWake :: .takes e :: l ∧
        e.IsErrorOf 1 := by
  have h : (play (fun _ => none) startsWithoutError ⟨1, 16000, 1200, 500⟩ [
      (.main, 15, [.ok]),
      (.service 1, 16, [.ok, .ok, .ok, .callback (.connectionError none), .nothing]),
      (.main, 15, []),
      (.service 1, 9, [.nothing, .nothing]),
      (.main, 7, [.ok])]).any (fun cfg => restartedOnError cfg.shared.log) = true := by
    decide +kernel
  obtain ⟨cfg, hr, hp⟩ := exists_of_play (fun _ _ _ => startsWithoutError_iff) h
  unfold restartedOnError at hp
  split at hp
  · next e l hlog => exact ⟨cfg, hr, no_stale_teardown hr, e, l, hlog, of_decide_eq_true hp⟩
  · cases hp

/-- An error of the first connection has just been handled after the second one was started. -/
def handledStale : List MainEntry → Bool
  | .performs .returnToWake :: .takes e :: log => decide (e.IsErrorOf 1 ∧ .starts 2 ∈ log)
  | _ => false

/-- The first connection is established and reports an error. The main loop
    stops it, which reports another error, starts the second connection, and
    then handles the second error. -/
theorem stale_teardown : ∃ cfg,
    Reach (fun _ => none) anyStep ⟨1, 16000, 1200, 500⟩ cfg ∧ ¬NoStaleTeardown cfg.shared.log := by
  have h : (play (fun _ => none) (fun _ _ _ => true) ⟨1, 16000, 1200, 500⟩ [
      (.main, 15, [.ok]),
      (.service 1, 21, [.ok, .ok, .ok, .callback .established,
        .callback (.receive true [] true), .nothing]),
      (.main, 30, [.ok, .ok, .nothing]),
      (.service 1, 12, [.nothing]),
      (.main, 24, [.ok, .nothing])]).any (fun cfg => handledStale cfg.shared.log) = true := by
    decide +kernel
  obtain ⟨cfg, hr, hp⟩ := exists_of_play (fun _ _ _ _ => trivial) h
  refine ⟨cfg, hr, fun hstale => ?_⟩
  unfold handledStale at hp
  split at hp
  · next e l hlog =>
    obtain ⟨he, hl⟩ := of_decide_eq_true hp
    exact hstale e 1 l (hlog ▸ List.suffix_refl _) he hl
  · cases hp

end System

end Xiaozhi
