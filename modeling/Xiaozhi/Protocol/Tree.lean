-- SUMMARY: The values of cJSON in memory: items, the blocks that they own, and cJSON_Delete.
import Xiaozhi.Data.Separation
import Xiaozhi.Protocol.Json

/-!
# Items

The structures of `cJSON.h`, on a heap whose blocks are items and texts.
`holds` says what an item owns when it holds a value: its texts, and the list of
its children, which is linked both ways and whose first item has the last one
for its `prev`. `valuedouble` is left out. A recursive function is a least fixed
point.
-/

namespace Xiaozhi

namespace CJson

open CString Separation Separation.Assertion

/-- `cJSON *`: an item with what is below it, or a list of items, or `NULL`. -/
abbrev Tree : Type := Option Nat

/-- `cJSON`, without its links. -/
structure ItemData where
  child : Tree
  type : Nat
  valuestring : Option Nat
  valueint : Int
  string : Option Nat

/-- `cJSON`. -/
structure Item extends ItemData where
  next : Tree
  prev : Tree

/-- The item that `memset` leaves. -/
def Item.zero : Item := ⟨⟨none, 0, none, 0, none⟩, none, none⟩

/-- A block that was allocated. -/
inductive Block where
  | item (item : Item)
  | text (text : Bytes)

namespace Tree

/-! ## Types -/

/-- `cJSON_False`, and so on. -/
def typeFalse : Nat := 1
def typeTrue : Nat := 2
def typeNull : Nat := 4
def typeNumber : Nat := 8
def typeString : Nat := 16
def typeArray : Nat := 32
def typeObject : Nat := 64

/-- `cJSON_IsReference`. -/
def isReference : Nat := 256

/-- `cJSON_StringIsConst`. -/
def stringIsConst : Nat := 512

variable {ρ α : Type}

/-! ## Access -/

/-- A read of the item at `p`. -/
def loadItem (p : Nat) : Program Block ρ Item := do
  match ← load p with
  | .item i => return i
  | .text _ => Checked.undefined

/-- An assignment to fields of the item at `p`. -/
def setItem (p : Nat) (f : Item → Item) : Program Block ρ Unit := do
  let i ← loadItem p
  store p (.item (f i))

/-- A read of the text at `q`. -/
def loadText (q : Nat) : Program Block ρ Bytes := do
  match ← load q with
  | .text s => return s
  | .item _ => Checked.undefined

/-- `deallocate`, if there is a text. -/
def freeText (s : Option Nat) : Program Block ρ Unit :=
  match s with
  | some q => free q
  | none => return

mutual

/-- `cJSON_Delete`. -/
def delete (item : Tree) : Program Block ρ Unit :=
  match item with
  | none => return
  | some _ => do
    let next ← item |>.deleteItem
    next |>.delete
partial_fixpoint

/-- A round of the loop of `cJSON_Delete`. -/
def deleteItem (item : Tree) : Program Block ρ Tree :=
  match item with
  | none => Checked.undefined
  | some p => do
    let item ← loadItem p
    let next := item.next
    (if item.type &&& isReference = 0 ∧ item.child ≠ none then item.child |>.delete else return)
    let item ← loadItem p
    (if item.type &&& isReference = 0 then freeText item.valuestring else return)
    setItem p fun i => { i with valuestring := none }
    let item ← loadItem p
    (if item.type &&& stringIsConst = 0 then freeText item.string else return)
    setItem p fun i => { i with string := none }
    free p
    return next
partial_fixpoint

end

/-! ## What items own -/

/-- The item at `p`. -/
def itemAt (p : Nat) (i : Item) : Assertion Block := cell p (.item i)

/-- A block at `q` that holds the C string `s`. -/
def stringAt (q : Nat) (s : Bytes) : Assertion Block :=
  ⨆ text, given (ofBytes text = s) (cell q (.text text))

/-- The text that a pointer may have. -/
def textOf : Option Nat → Assertion Block
  | some q => ⨆ text, cell q (.text text)
  | none => 1

/-- What an item owns besides itself. -/
abbrev Payload : Type := ItemData → Assertion Block

/-- Linked items from `first` on; the first has `prev` before it, the last one is
    `last`, and `next` follows. -/
def Seg : List Payload → Tree → Tree → Tree → Tree → Assertion Block
  | [], first, prev, last, next => given (first = next ∧ last = prev) 1
  | payload :: payloads, first, prev, last, next =>
    ⨆ p : Nat, ⨆ i : Item, given (first = some p ∧ i.prev = prev)
      (itemAt p i * payload i.toItemData * Seg payloads i.next (some p) last next)

/-- The children of an item. -/
def children (payloads : List Payload) (child : Tree) : Assertion Block :=
  ⨆ last, Seg payloads child last last none

/-- An item without a name. -/
def unnamed (payload : Payload) : Payload := fun i => given (i.string = none) (payload i)

/-- An item with a name. -/
def named (name : Bytes) (payload : Payload) : Payload := fun i =>
  ⨆ q, given (i.string = some q) (stringAt q name * payload i)

mutual

/-- What an item owns that holds a value, without its name. -/
def holds : Json → Payload
  | .null => fun i =>
    given (i.type = typeNull ∧ i.child = none ∧ i.valuestring = none) 1
  | .bool b => fun i =>
    given (i.type = (if b then typeTrue else typeFalse) ∧ i.child = none ∧ i.valuestring = none) 1
  | .number n => fun i =>
    given (i.type = typeNumber ∧ i.valueint = n ∧ i.child = none ∧ i.valuestring = none) 1
  | .string s => fun i =>
    ⨆ q, given (i.type = typeString ∧ i.child = none ∧ i.valuestring = some q) (stringAt q s)
  | .array items => fun i =>
    given (i.type = typeArray ∧ i.valuestring = none) (children (itemPayloads items) i.child)
  | .object members => fun i =>
    given (i.type = typeObject ∧ i.valuestring = none) (children (memberPayloads members) i.child)

/-- The items of an array. -/
def itemPayloads : List Json → List Payload
  | [] => []
  | v :: vs => unnamed (holds v) :: itemPayloads vs

/-- The members of an object. -/
def memberPayloads : List (Bytes × Json) → List Payload
  | [] => []
  | (k, v) :: ms => named k (holds v) :: memberPayloads ms

end

theorem itemPayloads_eq (items : List Json) :
    itemPayloads items = items.map fun v => unnamed (holds v) := by
  induction items with
  | nil => rfl
  | cons v vs ih => rw [itemPayloads, ih, List.map_cons]

theorem memberPayloads_eq (members : List (Bytes × Json)) :
    memberPayloads members = members.map fun m => named m.1 (holds m.2) := by
  induction members with
  | nil => rfl
  | cons m ms ih => rw [memberPayloads, ih, List.map_cons]

/-- The value is in memory, with its root at `p`. -/
def tree (v : Json) (p : Nat) : Assertion Block :=
  ⨆ i : Item, given (i.next = none ∧ i.prev = none ∧ i.string = none) (itemAt p i * holds v i.toItemData)

/-! ## Rules -/

section Rules

variable {P R : Assertion Block} {e : Env ρ} {Q : α → Env ρ → Assertion Block} {p : Nat} {i : Item}

theorem spec_loadItem {f : Item → Program Block ρ α} (hP : P = itemAt p i * R)
    (hf : Spec P e (f i) Q) : Spec P e (loadItem p >>= f) Q := by
  rw [loadItem, bind_assoc]
  refine Spec.load hP ?_
  rwa [pure_bind]

theorem spec_setItem {f : Unit → Program Block ρ α} {g : Item → Item} (hP : P = itemAt p i * R)
    (hf : Spec (itemAt p (g i) * R) e (f ⟨⟩) Q) : Spec P e (setItem p g >>= f) Q := by
  rw [setItem, bind_assoc]
  exact spec_loadItem hP (Spec.store hP hf)

end Rules

theorem releases_freeText (s : Option Nat) :
    Releases (textOf s) (freeText s : Program Block ρ Unit) := by
  cases s with
  | none => exact Releases.pure
  | some q => exact Releases.iSup fun text => Releases.free

/-! ## Lists -/

section Lists

variable {c : Payload} {payloads : List Payload} {first prev last next : Tree} {p : Nat}
  {i : Item}

theorem seg_cons_le {P : Assertion Block}
    (h : ∀ p i, first = some p → i.prev = prev →
      itemAt p i * c i.toItemData * Seg payloads i.next (some p) last next ≤ P) :
    Seg (c :: payloads) first prev last next ≤ P :=
  iSup_le fun p => iSup_le fun i => given_le fun hi => h p i hi.1 hi.2

theorem le_seg_cons (hfirst : first = some p) (hprev : i.prev = prev) :
    itemAt p i * c i.toItemData * Seg payloads i.next (some p) last next ≤
      Seg (c :: payloads) first prev last next :=
  le_iSup_of_le p (le_iSup_of_le i (le_given ⟨hfirst, hprev⟩ le_rfl))

/-- A list of one item. -/
theorem le_children_singleton (hprev : i.prev = some p) (hnext : i.next = none) :
    itemAt p i * c i.toItemData ≤ children [c] (some p) := by
  refine le_iSup_of_le (some p) (le_trans ?_ (le_seg_cons rfl hprev))
  rw [Seg, given_of ⟨hnext, rfl⟩, mul_one]

/-- An item behind the last one. -/
theorem le_seg_concat :
    Seg payloads first prev i.prev (some p) * (itemAt p i * c i.toItemData) ≤
      Seg (payloads ++ [c]) first prev (some p) i.next := by
  induction payloads generalizing first prev with
  | nil =>
    rw [Seg, given_mul, one_mul]
    refine given_le fun hnil => ?_
    refine le_trans ?_ (le_seg_cons hnil.1 hnil.2)
    rw [Seg, given_of ⟨rfl, rfl⟩, mul_one]
  | cons d payloads ih =>
    rw [Seg, Quantale.iSup_mul_distrib]
    refine iSup_le fun q => ?_
    rw [Quantale.iSup_mul_distrib]
    refine iSup_le fun j => ?_
    rw [given_mul, mul_assoc]
    refine given_le fun hj => ?_
    exact (mul_le_mul_right ih _).trans (le_seg_cons hj.1 hj.2)

/-- The last item. -/
theorem seg_concat_le {P : Assertion Block}
    (h : ∀ p i, last = some p → i.next = next →
      Seg payloads first prev i.prev (some p) * (itemAt p i * c i.toItemData) ≤ P) :
    Seg (payloads ++ [c]) first prev last next ≤ P := by
  induction payloads generalizing first prev P with
  | nil =>
    refine seg_cons_le fun p i hfirst hprev => ?_
    rw [Seg, mul_given, mul_one]
    refine given_le fun hlast => ?_
    refine le_trans ?_ (h p i hlast.2 hlast.1)
    rw [Seg, given_of ⟨hfirst, hprev⟩, one_mul]
  | cons d payloads ih =>
    refine seg_cons_le fun q j hfirst hprev => ?_
    rw [← Quantale.rightMulResiduation_le_iff_mul_le]
    refine ih fun p i hlast hnext => ?_
    rw [Quantale.rightMulResiduation_le_iff_mul_le, ← mul_assoc]
    exact (mul_le_mul_left (le_seg_cons hfirst hprev) _).trans (h p i hlast hnext)

/-- An item follows, so there is a first one. -/
theorem seg_le_isSome : Seg payloads first prev last (some p) ≤
    given (first.isSome = true) (Seg payloads first prev last (some p)) := by
  cases payloads with
  | nil =>
    refine given_le fun hnil => le_given ?_ (le_given hnil le_rfl)
    rw [hnil.1, Option.isSome_some]
  | cons c payloads =>
    refine seg_cons_le fun q i hfirst hprev => le_given ?_ (le_seg_cons hfirst hprev)
    rw [hfirst, Option.isSome_some]

end Lists

/-! ## Deleting -/

/-- The type of an item that owns what it points to. -/
def Owning (type : Nat) : Prop := type &&& isReference = 0 ∧ type &&& stringIsConst = 0

instance : DecidablePred Owning := fun _ => inferInstanceAs (Decidable (_ ∧ _))

variable (ρ) in
/-- A round of `cJSON_Delete` frees the item and what it owns. -/
def Deletable (payload : Payload) : Prop :=
  ∀ (p : Nat) (i : Item) (e : Env ρ), Spec (itemAt p i * payload i.toItemData) e (deleteItem (some p))
    fun next e' => given (e' = e ∧ next = i.next) 1

/-- What an item owns is the part of its children and its texts. -/
theorem deletable_of {payload : Payload} (h : ∀ i, ∃ C,
    payload i ≤ given (Owning i.type) (C * textOf i.valuestring * textOf i.string) ∧
      Releases C (delete i.child : Program Block ρ Unit)) : Deletable ρ payload := by
  intro p i e
  obtain ⟨C, hle, hC⟩ := h i.toItemData
  refine Spec.mono (P := itemAt p i * given (Owning i.type)
    (C * textOf i.valuestring * textOf i.string)) ?_ (mul_le_mul_right hle _) fun _ _ => le_rfl
  rw [mul_given]
  refine Spec.given fun howning => ?_
  rw [deleteItem]
  refine spec_loadItem rfl ?_
  have hchild : Releases C (if i.type &&& isReference = 0 ∧ i.child ≠ none then
      delete i.child else return : Program Block ρ Unit) := by
    cases hnone : i.child with
    | none =>
      rw [hnone, delete] at hC
      simpa using hC
    | some d =>
      rw [if_pos ⟨howning.1, Option.some_ne_none d⟩, ← hnone]
      exact hC
  refine hchild.call (R := itemAt p i * (textOf i.valuestring * textOf i.string)) (by ac_rfl) ?_
  refine spec_loadItem rfl ?_
  rw [if_pos howning.1]
  refine (releases_freeText _).call (R := itemAt p i * textOf i.string) (by ac_rfl) ?_
  refine spec_setItem rfl (spec_loadItem rfl ?_)
  rw [if_pos howning.2]
  refine (releases_freeText _).call (mul_comm _ _) ?_
  refine spec_setItem (mul_one _).symm (Spec.free rfl (Spec.pure ?_))
  exact le_given ⟨rfl, rfl⟩ le_rfl

theorem releases_seg {payloads : List Payload} (h : ∀ c ∈ payloads, Deletable ρ c)
    (first prev last : Tree) :
    Releases (Seg payloads first prev last none) (delete first : Program Block ρ Unit) := by
  induction payloads generalizing first prev with
  | nil =>
    intro e
    refine Spec.given fun hnil => ?_
    rw [hnil.1, delete]
    exact Releases.pure e
  | cons c payloads ih =>
    refine Releases.iSup fun p => Releases.iSup fun i => fun e => Spec.given fun hfirst => ?_
    rw [hfirst.1, delete]
    refine Spec.call (h c List.mem_cons_self p i e) rfl fun next e' => ?_
    rw [given_mul, one_mul]
    refine Spec.given fun hnext => ?_
    rw [hnext.1, hnext.2]
    exact ih (fun c hc => h c (List.mem_cons_of_mem _ hc)) _ _ e

/-- What an item owns besides its name is the part of its children and a text. -/
def Owned (ρ : Type) (payload : Payload) : Prop :=
  ∀ i, ∃ C, payload i ≤ given (Owning i.type) (C * textOf i.valuestring) ∧
    Releases C (delete i.child : Program Block ρ Unit)

theorem stringAt_le {q : Nat} {s : Bytes} : stringAt q s ≤ textOf (some q) :=
  iSup_mono fun _ => given_le fun _ => le_rfl

theorem Owned.unnamed {payload : Payload} (h : Owned ρ payload) :
    Deletable ρ (unnamed payload) := by
  refine deletable_of fun i => ?_
  obtain ⟨C, hle, hC⟩ := h i
  refine ⟨C, given_le fun hstring => ?_, hC⟩
  rwa [hstring, textOf, mul_one]

theorem Owned.named {payload : Payload} (h : Owned ρ payload) (name : Bytes) :
    Deletable ρ (named name payload) := by
  refine deletable_of fun i => ?_
  obtain ⟨C, hle, hC⟩ := h i
  refine ⟨C, iSup_le fun q => given_le fun hstring => ?_, hC⟩
  rw [hstring, mul_comm, ← given_mul]
  exact mul_le_mul' hle stringAt_le

/-- An item without children, with at most a text. -/
theorem owned_leaf {payload : Payload}
    (h : ∀ i, payload i ≤ given (Owning i.type ∧ i.child = none) (textOf i.valuestring)) :
    Owned ρ payload := by
  intro i
  by_cases hchild : i.child = none
  · refine ⟨1, (h i).trans (given_le fun ⟨howning, _⟩ => le_given howning ?_), ?_⟩
    · rw [one_mul]
    · rw [hchild, delete]
      exact Releases.pure
  · refine ⟨⊥, (h i).trans (given_le fun ⟨_, hnone⟩ => absurd hnone hchild), ?_⟩
    intro e F s _ hs
    rw [Quantale.bot_mul] at hs
    exact False.elim hs

theorem releases_children {payloads : List Payload} (h : ∀ c ∈ payloads, Deletable ρ c)
    (child : Tree) :
    Releases (children payloads child) (delete child : Program Block ρ Unit) :=
  Releases.iSup fun _ => releases_seg h _ _ _

theorem owned_children {payload : Payload} {payloads : List Payload} {type : Nat}
    (htype : Owning type) (hpayload : payload = fun i =>
      given (i.type = type ∧ i.valuestring = none) (children payloads i.child))
    (h : ∀ c ∈ payloads, Deletable ρ c) : Owned ρ payload := by
  intro i
  refine ⟨children payloads i.child, ?_, releases_children h _⟩
  rw [hpayload]
  refine given_le fun hi => le_given (hi.1 ▸ htype) ?_
  rw [hi.2, textOf, mul_one]

mutual

theorem owned_holds (v : Json) : Owned ρ (holds v) := by
  cases v with
  | null =>
    refine owned_leaf fun i => given_le fun hi => le_given ⟨hi.1 ▸ by decide, hi.2.1⟩ ?_
    rw [hi.2.2, textOf]
  | bool b =>
    refine owned_leaf fun i => given_le fun hi => le_given ⟨?_, hi.2.1⟩ ?_
    · cases b <;> exact hi.1 ▸ by decide
    · rw [hi.2.2, textOf]
  | number n =>
    refine owned_leaf fun i => given_le fun hi => le_given ⟨hi.1 ▸ by decide, hi.2.2.1⟩ ?_
    rw [hi.2.2.2, textOf]
  | string s =>
    refine owned_leaf fun i => iSup_le fun q => given_le fun hi =>
      le_given ⟨hi.1 ▸ by decide, hi.2.1⟩ ?_
    rw [hi.2.2]
    exact stringAt_le
  | array items =>
    have howning : Owning typeArray := by decide
    exact owned_children howning (by rw [holds]) (deletable_items items)
  | object members =>
    have howning : Owning typeObject := by decide
    exact owned_children howning (by rw [holds]) (deletable_members members)

theorem deletable_items (items : List Json) : ∀ c ∈ itemPayloads items, Deletable ρ c := by
  cases items with
  | nil => exact fun c hc => absurd hc List.not_mem_nil
  | cons v vs =>
    rw [itemPayloads, List.forall_mem_cons]
    exact ⟨(owned_holds v).unnamed, deletable_items vs⟩

theorem deletable_members (members : List (Bytes × Json)) :
    ∀ c ∈ memberPayloads members, Deletable ρ c := by
  cases members with
  | nil => exact fun c hc => absurd hc List.not_mem_nil
  | cons m ms =>
    rw [memberPayloads, List.forall_mem_cons]
    exact ⟨(owned_holds m.2).named m.1, deletable_members ms⟩

end

/-- An item that is not in a list. -/
theorem releases_root {payload : Payload} (h : Deletable ρ payload) {p : Nat} {i : Item}
    (hnext : i.next = none) :
    Releases (itemAt p i * payload i.toItemData) (delete (some p) : Program Block ρ Unit) := by
  intro e
  rw [delete]
  refine (h p i e).bind fun next e' => Spec.given fun he => ?_
  rw [he.1, he.2, hnext, delete]
  exact Spec.pure (le_given rfl le_rfl)

/-- `cJSON_Delete` frees exactly the blocks of the value. -/
theorem releases_tree (v : Json) (p : Nat) :
    Releases (tree v p) (delete (some p) : Program Block ρ Unit) := by
  refine Releases.iSup fun i => fun e => Spec.given fun hi => ?_
  have hroot := releases_root (owned_holds (ρ := ρ) v).unnamed (p := p) hi.1 e
  rwa [unnamed, given_of hi.2.2] at hroot

end Tree

end CJson

end Xiaozhi
