-- SUMMARY: When several threads queue texts, the capacity that one has checked may be used up by another.
import Mathlib.Data.Finset.Card
import Xiaozhi.Client.Callers

/-!
# The capacity of the text queue

`xiaozhi_client_queue_text` makes sure of room for one more text in one critical
section and appends in another. A caller in between counts on a place that
nobody keeps for it.
-/

namespace Xiaozhi

open Threads Threads.Prog World

namespace XiaozhiClient

/-- The end of `xiaozhi_client_queue_text`, once there is room. -/
def copyText (payload : Bytes) : Thread Bool := do
  if ← Thread.choose then
    appendText payload
    signalWritable
    return true
  else
    return false

/-- Where a thread that queues texts stands. -/
inductive TextPoint where
  | between
  | picks
  | checks (payload : Bytes)
  | copies (payload : Bytes)
  | appends (payload : Bytes)
  | signals
  | requests (wsi : Option Nat)
  | ends

namespace TextPoint

/-- What is left of the round. -/
def program : TextPoint → Option (Thread Unit)
  | between => none
  | picks => some textCaller
  | checks payload => some do
    let _ ← queueText payload
  | copies payload => some do
    let _ ← copyText payload
  | appends payload => some do
    appendText payload
    signalWritable
  | signals => some signalWritable
  | requests wsi => some (.modify (·.requestWritable wsi))
  | ends => some (pure ())

/-- The caller has made sure of room and has not appended yet. -/
def InFlight : TextPoint → Prop
  | copies _ | appends _ => True
  | _ => False

/-- The steps of the thread. -/
inductive Moves (w : World) : TextPoint → World → TextPoint → Prop where
  | enters : Moves w between w picks
  | picks {payload : Bytes} : Moves w picks w (checks payload)
  | checks {payload : Bytes} {capacity : Nat} : Moves w (checks payload)
      { w with checks := w.checks + 1, client.pendingText.capacity := capacity } (copies payload)
  | noCapacity {payload : Bytes} : Moves w (checks payload) w ends
  | copies {payload : Bytes} : Moves w (copies payload) w (appends payload)
  | noCopy {payload : Bytes} : Moves w (copies payload) w ends
  | appends {payload : Bytes} : Moves w (appends payload)
      (World.record { w with
        client.pendingText.items := w.client.pendingText.items ++ [⟨payload, w.started⟩]
        queued := ⟨.text, payload⟩ :: w.queued } (.queues payload)) signals
  | signals : Moves w signals w (requests w.client.wsi)
  | requests {wsi : Option Nat} : Moves w (requests wsi) (w.requestWritable wsi) ends
  | leaves : Moves w ends w between

theorem moves (pt : TextPoint) (c : Answer) (w w' : World) (p' : Option (Thread Unit))
    (h : turn textCaller c w pt.program = some (w', p')) :
    ∃ pt', p' = pt'.program ∧ Moves w pt w' pt' := by
  -- each point has one next action, which decides the points that can follow
  cases pt with
  | between =>
    obtain ⟨rfl, rfl⟩ := Prod.mk.inj (Option.some.inj h)
    exact ⟨.picks, rfl, .enters⟩
  | picks =>
    obtain ⟨payload, hf, rfl⟩ := turn_act h
    obtain ⟨_, -, heq⟩ := Option.map_eq_some_iff.mp hf
    obtain ⟨-, rfl⟩ := Prod.mk.inj heq
    exact ⟨.checks payload, rfl, .picks⟩
  | checks payload =>
    obtain ⟨room, hf, rfl⟩ := turn_act h
    dsimp only at hf
    split at hf
    · obtain ⟨⟩ := hf
      exact ⟨.copies payload, rfl, .checks⟩
    · cases c <;> obtain ⟨⟩ := hf
      · exact ⟨.copies payload, rfl, .checks⟩
      · exact ⟨.ends, rfl, .noCapacity⟩
  | copies payload =>
    obtain ⟨copied, hf, rfl⟩ := turn_act h
    obtain ⟨_, -, heq⟩ := Option.map_eq_some_iff.mp hf
    obtain ⟨-, rfl⟩ := Prod.mk.inj heq
    cases copied with
    | true => exact ⟨.appends payload, rfl, .copies⟩
    | false => exact ⟨.ends, rfl, .noCopy⟩
  | appends payload =>
    obtain ⟨_, hf, rfl⟩ := turn_act h
    obtain ⟨⟩ := hf
    exact ⟨.signals, rfl, .appends⟩
  | signals =>
    obtain ⟨_, hf, rfl⟩ := turn_act h
    obtain ⟨⟩ := hf
    exact ⟨.requests _, rfl, .signals⟩
  | requests wsi =>
    obtain ⟨_, hf, rfl⟩ := turn_act h
    obtain ⟨⟩ := hf
    exact ⟨.ends, rfl, .requests⟩
  | ends =>
    obtain ⟨rfl, rfl⟩ := Prod.mk.inj (Option.some.inj h)
    exact ⟨.between, rfl, .leaves⟩

/-- The points of a thread that queues texts. -/
abbrev points : Points textCaller where
  Point := TextPoint
  program := program
  Moves := fun pt w w' pt' => pt.Moves w w' pt'
  moves := moves

end TextPoint

end XiaozhiClient

namespace World

/-- The number of texts accepted. -/
def appended (w : World) : Nat := (payloads .text w.accepted).length

/-- The number of callers that have made sure of room and have not appended yet. -/
def inFlight (w : World) : Nat := w.checks - w.appended

end World

/-- The other threads neither check the capacity nor append texts. -/
theorem Step.appended_of_ne {i : ThreadId} {w w' : World} (hi : i ≠ .main) (h : Step i w w') :
    w'.checks = w.checks ∧ w'.appended = w.appended ∧
      w'.client.pendingText.capacity = w.client.pendingText.capacity ∧
      w'.client.pendingText.items.length ≤ w.client.pendingText.items.length := by
  have happended {m : Message} (hm : m.opcode = .binary) :
      (payloads .text (m :: w.queued).reverse).length = (payloads .text w.queued.reverse).length := by
    simp [payloads, hm]
  have hquiet {w w' : World} (hq : w.Quiet w') : w'.checks = w.checks ∧ w'.appended = w.appended ∧
      w'.client.pendingText.capacity = w.client.pendingText.capacity ∧
      w'.client.pendingText.items.length ≤ w.client.pendingText.items.length :=
    ⟨hq.checks, by simp only [appended, accepted, hq.queued], hq.capacity,
      Nat.le_of_eq (congrArg _ hq.pendingText)⟩
  -- only binary messages are queued by the other threads
  cases i with
  | main => exact absurd rfl hi
  | service k =>
    obtain h | rfl := h
    · cases h with
      | quiet hq _ => exact hquiet hq
      | connection _ hq _ =>
        have hsame := hquiet hq
        exact hsame
      | popsText hitems => exact ⟨rfl, rfl, rfl, by simp [hitems]⟩
      | _ => exact ⟨rfl, rfl, rfl, Nat.le_refl _⟩
    · exact ⟨rfl, rfl, rfl, Nat.le_refl _⟩
  | playback =>
    cases h with
    | quiet hq _ => exact hquiet hq
    | records _ hq _ =>
      have hsame := hquiet hq
      exact hsame
    | pops _ => exact ⟨rfl, rfl, rfl, Nat.le_refl _⟩
    | finishes hw => subst hw; exact ⟨rfl, rfl, rfl, Nat.le_refl _⟩
  | capture =>
    cases h with
    | quiet hq _ => exact hquiet hq
    | pushesBinary _ => exact ⟨rfl, happended rfl, rfl, Nat.le_refl _⟩
    | _ => exact ⟨rfl, rfl, rfl, Nat.le_refl _⟩
  | signal =>
    cases h with
    | quiet hq _ => exact hquiet hq
    | pushes _ _ => exact ⟨rfl, rfl, rfl, Nat.le_refl _⟩

namespace ClientThread

open XiaozhiClient

variable {ι : Type}

/-- A caller that makes sure of room finds a place for itself and for every
    caller that has made sure of room before it and has not appended yet. -/
def Reserves (_ : ClientThread ι) (w w' : World) : Prop :=
  w'.checks = w.checks + 1 →
    w'.client.pendingText.items.length + w'.inFlight ≤ w'.client.pendingText.capacity

instance (i : ClientThread ι) (w w' : World) : Decidable (Reserves i w w') :=
  inferInstanceAs (Decidable (_ → _))

/-- There is a place for every caller in flight, where `callers` are in flight. -/
structure Reserved (loc : ι → TextPoint) (w : World) : Prop where
  room : w.client.pendingText.items.length + w.inFlight ≤ w.client.pendingText.capacity
  counted : ∃ callers : Finset ι, (∀ i, (loc i).InFlight → i ∈ callers) ∧
    callers.card + w.appended ≤ w.checks

namespace Reserved

variable {loc : ι → TextPoint} {w w' : World}

/-- A caller that is about to append has a place. -/
theorem index_lt (h : Reserved loc w) {i : ι} (hi : (loc i).InFlight) :
    w.client.pendingText.items.length < w.client.pendingText.capacity := by
  obtain ⟨callers, hmem, hcard⟩ := h.counted
  have hpos : 0 < callers.card := Finset.card_pos.mpr ⟨i, hmem i hi⟩
  have hroom := h.room
  unfold inFlight at hroom
  omega

/-- Nothing is checked and nothing appended. -/
theorem congr (h : Reserved loc w) (hchecks : w'.checks = w.checks)
    (happended : w'.appended = w.appended)
    (hcapacity : w'.client.pendingText.capacity = w.client.pendingText.capacity)
    (hlen : w'.client.pendingText.items.length ≤ w.client.pendingText.items.length) :
    Reserved loc w' := by
  refine ⟨?_, ?_⟩
  · have hroom := h.room
    unfold inFlight at hroom ⊢
    omega
  · rw [happended, hchecks]
    exact h.counted

variable [DecidableEq ι] {i : ι} {pt' : TextPoint}

/-- A caller goes on without a new reservation. -/
theorem move (h : Reserved loc w) (hpt : pt'.InFlight → (loc i).InFlight) :
    Reserved (Function.update loc i pt') w := by
  obtain ⟨callers, hmem, hcard⟩ := h.counted
  refine ⟨h.room, callers, fun j hj => ?_, hcard⟩
  by_cases hji : j = i
  · subst hji
    rw [Function.update_self] at hj
    exact hmem j (hpt hj)
  · rw [Function.update_of_ne hji] at hj
    exact hmem j hj

theorem step (h : Reserved loc w) (hok : Reserves (.text i) w w')
    (hmove : (loc i).Moves w w' pt') : Reserved (Function.update loc i pt') w' := by
  generalize hpt : loc i = pt at hmove
  cases hmove with
  | enters => exact h.move fun hf => nomatch hf
  | picks => exact h.move fun hf => nomatch hf
  | noCapacity => exact h.move fun hf => nomatch hf
  | copies => exact h.move fun _ => by rw [hpt]; trivial
  | noCopy => exact h.move fun hf => nomatch hf
  | signals => exact h.move fun hf => nomatch hf
  | leaves => exact h.move fun hf => nomatch hf
  | @requests wsi =>
    have hmoved : Reserved (Function.update loc i .ends) w := h.move fun hf => nomatch hf
    cases wsi <;> exact hmoved.congr rfl rfl rfl (Nat.le_refl _)
  | checks =>
    -- the caller is one more in flight
    obtain ⟨callers, hmem, hcard⟩ := h.counted
    refine ⟨hok rfl, insert i callers, fun j hj => ?_, ?_⟩
    · by_cases hji : j = i
      · exact hji ▸ Finset.mem_insert_self _ _
      · rw [Function.update_of_ne hji] at hj
        exact Finset.mem_insert_of_mem (hmem j hj)
    · have hle := Finset.card_insert_le i callers
      show (insert i callers).card + w.appended ≤ w.checks + 1
      omega
  | @appends payload =>
    -- the caller was one of those in flight, and its place is taken now
    have hflight : (loc i).InFlight := by rw [hpt]; trivial
    have happended : World.appended (World.record { w with
        client.pendingText.items := w.client.pendingText.items ++ [⟨payload, w.started⟩]
        queued := ⟨.text, payload⟩ :: w.queued } (.queues payload)) = w.appended + 1 := by
      simp [appended, accepted, payloads, World.record]
    obtain ⟨callers, hmem, hcard⟩ := h.counted
    have hi := hmem i hflight
    have hpos : 0 < callers.card := Finset.card_pos.mpr ⟨i, hi⟩
    refine ⟨?_, callers.erase i, fun j hj => ?_, ?_⟩
    · have hroom := h.room
      unfold inFlight at hroom ⊢
      rw [happended]
      have hlen (m : TextMessage) : (w.client.pendingText.items ++ [m]).length =
          w.client.pendingText.items.length + 1 := List.length_append
      show (w.client.pendingText.items ++ [(_ : TextMessage)]).length +
        (w.checks - (w.appended + 1)) ≤ w.client.pendingText.capacity
      rw [hlen]
      omega
    · by_cases hji : j = i
      · subst hji
        rw [Function.update_self] at hj
        exact hj.elim
      · rw [Function.update_of_ne hji] at hj
        exact Finset.mem_erase.mpr ⟨hji, hmem j hj⟩
    · rw [happended, Finset.card_erase_of_mem hi]
      show callers.card - 1 + (w.appended + 1) ≤ w.checks
      omega

end Reserved

variable [DecidableEq ι] {k : Nat} {config : AppConfig} {cfg : Config ι}

/-- In a run whose checks all find room for the callers in flight, each caller
    in flight has a place. -/
theorem Reach.reserved (hr : Reach k Reserves config cfg) :
    ∃ loc : ι → TextPoint, (∀ i, cfg.cur (.text i) = (loc i).program) ∧ Reserved loc cfg.shared := by
  have hinj : Function.Injective (ClientThread.text (ι := ι)) := fun _ _ h => ClientThread.text.inj h
  have hinit : Reserved (fun _ : ι => TextPoint.between) (start config k .established : Config ι).shared :=
    ⟨Nat.le_refl _, ∅, fun _ h => h.elim, Nat.le_refl _⟩
  refine @Threads.Reach.points _ ι _ _ _ _ _ _ _ _ _ hinj (fun _ => TextPoint.points)
    (fun loc w => Reserved loc w) ⟨fun _ => TextPoint.between, fun _ => rfl, hinit⟩
    (fun i loc w w' pt' hok hmove h => h.step hok.1 hmove) (fun i loc w w' hi hok h => ?_) hr.steps
  have hne : i.role k ≠ .main := by
    cases i with
    | text j => exact absurd rfl (hi j)
    | _ => exact nofun
  obtain ⟨hchecks, happended, hcapacity, hlen⟩ := hok.2.appended_of_ne hne
  exact h.congr hchecks happended hcapacity hlen

/-- Any number of threads queue texts: an append stores within the capacity, and
    the accepted texts have been taken, in order, or wait, if each caller that
    makes sure of room finds a place for the callers in flight too. -/
theorem append_within_capacity (hr : Reach k Reserves config cfg) :
    (∀ i c cfg' payload, cfg.step (body k) i c = some cfg' →
      cfg'.shared.queued = ⟨.text, payload⟩ :: cfg.shared.queued →
      cfg.shared.client.pendingText.items.length < cfg.shared.client.pendingText.capacity) ∧
    payloads .text cfg.shared.accepted =
      payloads .text cfg.shared.taken ++ cfg.shared.waitingTexts := by
  constructor
  · intro i c cfg' payload hs hqueued
    have hstep : Step (i.role k) cfg.shared cfg'.shared := hr.step_role hs
    obtain ⟨loc, hloc, h⟩ := hr.reserved
    have happended : cfg'.shared.appended = cfg.shared.appended + 1 := by
      simp [appended, accepted, hqueued, payloads]
    cases i with
    | text i =>
      obtain ⟨hturn, -⟩ := Config.step_turn hs
      rw [hloc i] at hturn
      obtain ⟨pt', -, hmove⟩ := TextPoint.moves (loc i) c _ _ _ hturn
      refine h.index_lt (i := i) ?_
      generalize loc i = pt, cfg'.shared = w' at hmove happended
      cases hmove with
      | copies => trivial
      | appends => trivial
      | noCopy => trivial
      | @requests wsi =>
        cases wsi <;> exact absurd happended (Nat.ne_of_lt (Nat.lt_succ_self _))
      | _ => exact absurd happended (Nat.ne_of_lt (Nat.lt_succ_self _))
    | binary i =>
      have hsame := (Step.appended_of_ne (i := .capture) (by simp) hstep).2.1
      omega
    | network =>
      have hsame := (Step.appended_of_ne (i := .service k) (by simp) hstep).2.1
      omega
  · exact hr.conserved.texts

/-- Two callers in flight at once, with places for both. -/
theorem append_within_capacity_two : ∃ cfg : Config Bool,
    Reach 1 Reserves ⟨1, 16000, 0, 0⟩ cfg ∧ cfg.shared.inFlight = 2 ∧
    (∀ i c cfg' payload, cfg.step (body 1) i c = some cfg' →
      cfg'.shared.queued = ⟨.text, payload⟩ :: cfg.shared.queued →
      cfg.shared.client.pendingText.items.length < cfg.shared.client.pendingText.capacity) ∧
    payloads .text cfg.shared.accepted =
      payloads .text cfg.shared.taken ++ cfg.shared.waitingTexts := by
  have h : (play 1 (fun i w w' => decide (Reserves i w w')) ⟨1, 16000, 0, 0⟩ [
      (.text false, 4, [.input [97], .ok, .ok]),
      (.text true, 4, [.input [98], .ok])]).any (fun cfg => decide (cfg.shared.inFlight = 2)) =
        true := by decide +kernel
  obtain ⟨cfg, hr, hp⟩ := exists_of_play (fun _ _ _ => of_decide_eq_true) h
  exact ⟨cfg, hr, of_decide_eq_true hp, append_within_capacity hr⟩

/-- With three texts pending, two callers find room for one more text, and both
    append: the second one stores behind the end of the array. -/
theorem append_overflow : ∃ cfg : Config Bool, Reach 1 (fun _ _ _ => True) ⟨1, 16000, 0, 0⟩ cfg ∧
    ∃ i c cfg' payload, cfg.step (body 1) i c = some cfg' ∧
      cfg'.shared.queued = ⟨.text, payload⟩ :: cfg.shared.queued ∧
      ¬cfg.shared.client.pendingText.items.length < cfg.shared.client.pendingText.capacity := by
  have h : (play 1 (fun _ _ _ => true) ⟨1, 16000, 0, 0⟩ [
      (.text false, 8, [.input [97], .ok, .ok]),
      (.text false, 8, [.input [97], .ok]),
      (.text false, 8, [.input [97], .ok]),
      (.text false, 4, [.input [97], .ok]),
      (.text true, 4, [.input [98], .ok]),
      (.text false, 1, [])]).any (fun cfg =>
        decide (¬cfg.shared.client.pendingText.items.length < cfg.shared.client.pendingText.capacity) &&
        (cfg.step (body 1) (.text true) .spurious).any fun cfg' =>
          decide (cfg'.shared.queued = ⟨.text, [98]⟩ :: cfg.shared.queued)) = true := by
    decide +kernel
  obtain ⟨cfg, hr, hp⟩ := exists_of_play (fun _ _ _ _ => trivial) h
  obtain ⟨hfull, hstep⟩ := Bool.and_eq_true_iff.mp hp
  obtain ⟨cfg', hs, hqueued⟩ := (Option.any_eq_true _ _).mp hstep
  exact ⟨cfg, hr, .text true, .spurious, cfg', [98], hs, of_decide_eq_true hqueued,
    of_decide_eq_true hfull⟩

end ClientThread

end Xiaozhi
