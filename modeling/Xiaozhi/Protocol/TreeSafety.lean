-- SUMMARY: The parser on the heap refines the parser of values: no access out of bounds, no leak, no double free.
import Xiaozhi.Protocol.TreeParsing

/-!
# The parser on the heap

Each function of the parser is specified by the part of the heap that it works
on: the item that it fills, or the list that it extends. Where it succeeds, the
part holds what the parser of values returns; where it fails, the part is that
item again, or a list that `cJSON_Delete` frees.
-/

namespace Xiaozhi

namespace CJson

namespace Tree

open CString Separation Separation.Assertion ParseBuffer

variable {α : Type} {allocator : Allocator Block} {content text rest : Bytes} {e : Env ParseBuffer}
variable {p new : Nat} {i : Item} {head current : Tree} {done payloads : List Payload}

/-! ## Lists that grow -/

/-- An item that no value was parsed into. -/
def Fresh (d : ItemData) : Prop := d.child = none ∧ d.valuestring = none ∧ Owning d.type

/-- What such an item owns besides its name. -/
def fresh : Payload := fun d => given (Fresh d) 1

theorem owned_fresh {ρ : Type} : Owned ρ fresh := by
  refine owned_leaf fun d => given_le fun hd => le_given ⟨hd.2.2, hd.1⟩ ?_
  rw [hd.2.1, textOf]

theorem fresh_zero : Fresh Item.zero.toItemData := ⟨rfl, rfl, by decide⟩

/-- The links of the items, and their names, are the same. -/
structure SameLinks (i j : Item) : Prop where
  next : j.next = i.next
  prev : j.prev = i.prev
  string : j.string = i.string

theorem spec_attach : Spec (Seg done head none current none * itemAt new Item.zero) e
    (attach head current new) fun head' e' => given (e' = e)
      (Seg done head' none current (some new) * itemAt new { Item.zero with prev := current }) := by
  obtain rfl | ⟨payloads, c, rfl⟩ := List.eq_nil_or_concat' done
  · rw [Seg, given_mul, one_mul]
    refine Spec.given fun hnil => ?_
    rw [hnil.1, hnil.2, attach]
    refine Spec.pure (le_given rfl ?_)
    rw [Seg, given_of ⟨rfl, rfl⟩, one_mul]
    rfl
  · have hlast : Seg (payloads ++ [c]) head none current none ≤
        ⨆ q : Nat, ⨆ j : Item, given (head.isSome = true ∧ current = some q ∧ j.next = none)
          (Seg payloads head none j.prev (some q) * (itemAt q j * c j.toItemData)) := by
      refine seg_concat_le fun q j hlast hnext => ?_
      refine le_trans (mul_le_mul_left seg_le_isSome _) ?_
      rw [given_mul]
      refine given_le fun hhead => le_iSup_of_le q (le_iSup_of_le j ?_)
      exact le_given ⟨hhead, hlast, hnext⟩ le_rfl
    refine Spec.mono ?_ (mul_le_mul_left hlast _) fun _ _ => le_rfl
    simp only [Quantale.iSup_mul_distrib, given_mul]
    refine Spec.iSup fun q => Spec.iSup fun j => Spec.given fun hlast => ?_
    obtain ⟨hhead, hcurrent, hnext⟩ := hlast
    obtain ⟨first, rfl⟩ := Option.isSome_iff_exists.mp hhead
    rw [hcurrent, attach]
    refine spec_setItem (i := j) (R := Seg payloads (some first) none j.prev (some q) *
      c j.toItemData * itemAt new Item.zero) (by ac_rfl) ?_
    refine spec_setItem (i := Item.zero) (R := itemAt q { j with next := some new } *
      (Seg payloads (some first) none j.prev (some q) * c j.toItemData)) (by ac_rfl) ?_
    refine Spec.pure (le_given rfl ?_)
    have hlinked : Seg payloads (some first) none j.prev (some q) *
        (itemAt q { j with next := some new } * c j.toItemData) ≤
          Seg (payloads ++ [c]) (some first) none (some q) (some new) :=
      le_seg_concat (i := { j with next := some new })
    refine le_trans (le_of_eq ?_) (mul_le_mul_left hlinked _)
    ac_rfl

theorem spec_closeList : Spec (Seg done head none current none) e (closeList head current)
    fun _ e' => given (e' = e) (children done head) := by
  cases done with
  | nil =>
    refine Spec.given fun hnil => ?_
    rw [hnil.1, closeList]
    refine Spec.pure (le_given rfl (le_iSup_of_le none ?_))
    exact le_given ⟨rfl, rfl⟩ le_rfl
  | cons c payloads =>
    refine Spec.iSup fun q => Spec.iSup fun j => Spec.given fun hj => ?_
    rw [hj.1, closeList, ← bind_pure (setItem q _)]
    rw [mul_assoc]
    refine spec_setItem rfl (Spec.pure (le_given rfl (le_iSup_of_le current ?_)))
    rw [← mul_assoc]
    exact le_seg_cons rfl rfl

theorem spec_finish {type : Nat} : Spec (itemAt p i * Seg done head none current none) e
    (finish p type head current) fun ok e' => given (ok = true ∧
        e' = { e with vars := ⟨e.vars.offset + 1, e.vars.depth - 1⟩ })
      (itemAt p { i with type := type, child := head } * children done head) := by
  rw [finish]
  refine Spec.onVars_modify ?_
  refine Spec.call spec_closeList (mul_comm _ _) fun _ e' => ?_
  rw [given_mul]
  refine Spec.given fun he => spec_setItem (mul_comm _ _) ?_
  subst he
  refine Spec.onVars_modify (Spec.pure (le_given ⟨rfl, rfl⟩ le_rfl))

/-! ## Strings and numbers -/

/-- What a function leaves that fills the item at `p`. -/
def Parsed (content : Bytes) (p : Nat) (i : Item) (depth : Nat) (result : Option (Json × Bytes)) :
    Bool → Env ParseBuffer → Assertion Block
  | true, e => ⨆ j : Item, ⨆ r : Json × Bytes,
    given (result = some r ∧ Ahead content e.vars.offset r.2 ∧ e.vars.depth = depth ∧
      SameLinks i j) (itemAt p j * holds r.1 j.toItemData)
  | false, e => ⨆ j : Item,
    given ((result = none ∨ e.refused = true) ∧ Fresh j.toItemData ∧ SameLinks i j) (itemAt p j)

theorem le_parsed_true {depth : Nat} {result : Option (Json × Bytes)} {v : Json} {j : Item}
    (hresult : result = some (v, rest)) (hrest : Ahead content e.vars.offset rest)
    (hdepth : e.vars.depth = depth) (hlinks : SameLinks i j) :
    itemAt p j * holds v j.toItemData ≤ Parsed content p i depth result true e :=
  le_iSup_of_le j (le_iSup_of_le (v, rest) (le_given ⟨hresult, hrest, hdepth, hlinks⟩ le_rfl))

theorem le_parsed_false {depth : Nat} {result : Option (Json × Bytes)} {j : Item}
    (hwhy : result = none ∨ e.refused = true) (hfresh : Fresh j.toItemData)
    (hlinks : SameLinks i j) : itemAt p j ≤ Parsed content p i depth result false e :=
  le_iSup_of_le j (le_given ⟨hwhy, hfresh, hlinks⟩ le_rfl)

theorem fill_length {tail input output : Bytes} {skipped : Nat}
    (hscan : CJson.scanString tail = some (input, skipped, rest))
    (hdecode : decode input = some output) : output.length + 1 ≤ allocationLength input skipped := by
  obtain ⟨pointer, hdone, -⟩ := Decoding.start.finish hdecode
  rw [List.nil_append] at hdone
  have hlength : input.length = units input + skipped := (scanned_of_scanString hscan).length_eq
  obtain ⟨hfits, -⟩ := hdone.fits
  rw [allocationLength]
  omega

theorem parseString_spec (hahead : Ahead content e.vars.offset text) (hi : Fresh i.toItemData) :
    Spec (itemAt p i) e (parseString allocator content p) (Parsed content p i e.vars.depth
      ((CJson.parseString text).map fun r => (.string r.1, r.2))) := by
  have hlinks : SameLinks i i := ⟨rfl, rfl, rfl⟩
  rw [parseString]
  refine Spec.onVars_get ?_
  cases text with
  | nil =>
    have hread : (readAt content 0).wp (fun c v => c = 0 ∧ v = e.vars) e.vars :=
      readAt_wp hahead rfl ⟨rfl, rfl⟩
    refine Spec.onVars hread fun c v hv => ?_
    rw [hv.1, hv.2, if_pos (by decide)]
    exact Spec.pure (le_parsed_false (.inl rfl) hi hlinks)
  | cons c tail =>
    have hread : (readAt content 0).wp (fun d v => d = c ∧ v = e.vars) e.vars :=
      readAt_wp hahead rfl ⟨rfl, rfl⟩
    refine Spec.onVars hread fun d v hv => ?_
    rw [hv.1, hv.2]
    split
    · next hquote =>
      refine Spec.pure (le_parsed_false (.inl ?_) hi hlinks)
      rw [CJson.parseString, if_pos hquote]
      rfl
    · next hquote =>
      rw [not_not] at hquote
      subst hquote
      rw [parseString_quote]
      refine Spec.onVars (scanString_wp hahead.tail) fun r v hr => ?_
      rw [hr.1, hr.2]
      cases hscan : CJson.scanString tail with
      | none => exact Spec.pure (le_parsed_false (.inl rfl) hi hlinks)
      | some s =>
        obtain ⟨input, skipped, rest⟩ := s
        dsimp only [Option.map_some]
        -- the first pass has found the closing quote
        have htail : tail = input ++ byte '"' :: rest := (scanned_of_scanString hscan).eq_append
        have hinput : Ahead content (e.vars.offset + 1) (input ++ byte '"' :: rest) :=
          htail ▸ hahead.tail
        refine Spec.alloc (Spec.pure (le_parsed_false (.inr rfl) hi hlinks)) fun output => ?_
        have hrange : (readRange content (e.vars.offset + 1)
            (e.vars.offset + 1 + input.length)).wp (fun s v => s = input ∧ v = e.vars) e.vars :=
          readRange_wp hinput ⟨rfl, rfl⟩
        refine Spec.onVars hrange fun s v hs => ?_
        rw [hs.1, hs.2, Option.bind_some]
        cases hdecode : decode input with
        | none =>
          rw [decode] at hdecode
          rw [hdecode]
          refine Spec.free rfl (Spec.pure (le_parsed_false (.inl rfl) hi hlinks))
        | some bytes =>
          have hfits := fill_length hscan hdecode
          rw [decode] at hdecode
          rw [hdecode]
          -- what the second pass writes fits into the block
          have hsize : bytes.length + 1 ≤
              e.vars.offset + 1 + input.length - e.vars.offset - (0 + skipped) + 1 := by
            rw [allocationLength] at hfits
            omega
          dsimp only
          rw [fill, if_pos hsize]
          refine Spec.store rfl (spec_setItem (mul_comm _ _) (Spec.onVars_set (Spec.pure ?_)))
          refine le_trans (mul_le_mul_right ?_ _) (le_parsed_true rfl hinput.append.tail rfl
            ⟨rfl, rfl, rfl⟩)
          refine le_iSup_of_le output (le_given ⟨rfl, hi.1, rfl⟩ ?_)
          exact le_iSup_of_le bytes (le_given rfl le_rfl)

theorem parseNumber_spec (hahead : Ahead content e.vars.offset text) (hi : Fresh i.toItemData) :
    Spec (itemAt p i) e (parseNumber allocator content p) (Parsed content p i e.vars.depth
      ((CJson.parseNumber text).map fun r => (.number r.1, r.2))) := by
  have hlinks : SameLinks i i := ⟨rfl, rfl, rfl⟩
  rw [parseNumber]
  refine Spec.onVars_get (Spec.onVars (numberLength_wp hahead) fun n v hn => ?_)
  rw [hn.1, hn.2, Nat.zero_add]
  refine Spec.alloc (Spec.pure (le_parsed_false (.inr rfl) hi hlinks)) fun numberCString => ?_
  dsimp only
  rw [CJson.parseNumber]
  generalize hnumber : text.takeWhile isNumberChar = number
  have htext : text = number ++ text.dropWhile isNumberChar :=
    hnumber ▸ List.takeWhile_append_dropWhile.symm
  have hrange : (readRange content e.vars.offset (e.vars.offset + number.length)).wp
      (fun s v => s = number ∧ v = e.vars) e.vars := readRange_wp (htext ▸ hahead) ⟨rfl, rfl⟩
  refine Spec.onVars hrange fun s v hs => ?_
  rw [hs.1, hs.2, fill, if_pos le_rfl]
  refine Spec.store rfl ?_
  cases Numeral.strtod number with
  | none => exact Spec.free rfl (Spec.pure (le_parsed_false (.inl rfl) hi hlinks))
  | some r =>
    have hlength : number.length - r.2.length ≤ text.length := by
      rw [htext, List.length_append]
      omega
    refine spec_setItem (mul_comm _ _) (Spec.onVars_modify (Spec.free (mul_comm _ _) ?_))
    refine Spec.pure (le_trans (le_of_eq ?_) (le_parsed_true
      (j := { i with valueint := Numeral.toInt r.1, type := typeNumber })
      rfl (hahead.drop hlength) rfl ⟨rfl, rfl, rfl⟩))
    rw [holds]
    dsimp only
    rw [given_of ⟨rfl, rfl, hi.1, hi.2.1⟩, mul_one]

/-! ## Lists of values -/

/-- What a loop leaves that started with the items `done`. -/
def Listed (content : Bytes) (close : UInt8) (f : α → Payload) (done : List Payload) (depth : Nat)
    (result : Option (List α × Bytes)) :
    Bool × Tree × Tree → Env ParseBuffer → Assertion Block
  | (true, head, current), e => ⨆ r : List α × Bytes,
    given (result = some r ∧ Ahead content e.vars.offset (close :: r.2) ∧ e.vars.depth = depth)
      (Seg (done ++ r.1.map f) head none current none)
  | (false, head, current), e => ⨆ payloads : List Payload,
    given ((result = none ∨ e.refused = true) ∧ ∀ c ∈ payloads, Deletable ParseBuffer c)
      (Seg payloads head none current none)

section Loops

variable {close : UInt8} {f : α → Payload} {a : α} {depth : Nat}
  {loop : Parser (Bool × Tree × Tree)}

theorem le_listed_true {result : Option (List α × Bytes)} {l : List α}
    (hresult : result = some (l, rest)) (hclose : Ahead content e.vars.offset (close :: rest))
    (hdepth : e.vars.depth = depth) : Seg (done ++ l.map f) head none current none ≤
      Listed content close f done depth result (true, head, current) e :=
  le_iSup_of_le (l, rest) (le_given ⟨hresult, hclose, hdepth⟩ le_rfl)

theorem le_listed_false {result : Option (List α × Bytes)}
    (hwhy : result = none ∨ e.refused = true) (h : ∀ c ∈ payloads, Deletable ParseBuffer c) :
    Seg payloads head none current none ≤
      Listed content close f done depth result (false, head, current) e :=
  le_iSup_of_le payloads (le_given ⟨hwhy, h⟩ le_rfl)

/-- What the loop leaves is what it leaves with the item `a` before it. -/
theorem listed_le_cons {result : Option (List α × Bytes)} (r : Bool × Tree × Tree) :
    Listed content close f (done ++ [f a]) depth result r e ≤
      Listed content close f done depth (result.map fun r => (a :: r.1, r.2)) r e := by
  obtain ⟨_ | _, head, current⟩ := r
  · refine iSup_le fun payloads => given_le fun h => le_listed_false ?_ h.2
    exact h.1.imp_left fun hnone => by rw [hnone]; rfl
  · refine iSup_le fun r => given_le fun h => ?_
    refine le_trans (le_of_eq ?_) (le_listed_true (by rw [h.1]; rfl) h.2.1 h.2.2)
    rw [List.append_assoc]
    rfl

/-- The end of a round, behind the item `a`. -/
theorem spec_continue {next : Bytes → Option (List α × Bytes)} (hclose : close ≠ 0)
    (hdone : ∀ c ∈ done ++ [f a], Deletable ParseBuffer c)
    (hahead : Ahead content e.vars.offset rest) (hdepth : e.vars.depth = depth)
    (hloop : ∀ e' tail, CJson.skipWhitespace rest = byte ',' :: tail →
      Ahead content e'.vars.offset (byte ',' :: tail) → e'.vars.depth = depth →
      Spec (Seg (done ++ [f a]) head none (some new) none) e' loop
        (Listed content close f (done ++ [f a]) depth (next (CJson.skipWhitespace tail)))) :
    Spec (Seg (done ++ [f a]) head none (some new) none) e
      (do
        onVars (ParseBuffer.skipWhitespace content)
        if ← onVars (isAt content (byte ',')) then
          loop
        else
          let closed ← onVars (isAt content close)
          return (closed, head, some new))
      (Listed content close f done depth (continueWith close a next rest)) := by
  refine Spec.onVars (skipWhitespace_wp hahead) fun _ v hv => ?_
  obtain ⟨hkept, hskipped⟩ := hv
  have hcomma : (isAt content (byte ',')).wp
      (fun b v' => b = decide ((CJson.skipWhitespace rest).head? = some (byte ',')) ∧ v' = v) v :=
    isAt_wp hskipped (by decide) ⟨rfl, rfl⟩
  refine Spec.onVars hcomma fun b v' hb => ?_
  obtain ⟨rfl, rfl⟩ := hb
  have hclosed : (isAt content close).wp
      (fun b v => b = decide ((CJson.skipWhitespace rest).head? = some close) ∧ v = v') v' :=
    isAt_wp hskipped hclose ⟨rfl, rfl⟩
  rw [continueWith]
  -- a comma goes on with the loop, the closing bracket ends it, and nothing else is allowed
  cases hskip : CJson.skipWhitespace rest with
  | nil =>
    rw [hskip] at hclosed
    rw [if_neg (by simp)]
    refine Spec.onVars hclosed fun b v hb => ?_
    rw [hb.1]
    exact Spec.pure (le_listed_false (.inl rfl) hdone)
  | cons c tail =>
    rw [hskip] at hclosed hskipped
    simp only [List.head?_cons, Option.some.injEq, decide_eq_true_eq] at hclosed ⊢
    split
    · next hc =>
      subst hc
      refine (hloop _ tail hskip hskipped (hkept.trans hdepth)).mono le_rfl fun r e' => ?_
      exact listed_le_cons r
    · refine Spec.onVars hclosed fun b v hb => ?_
      obtain ⟨rfl, rfl⟩ := hb
      split
      · next hc =>
        rw [decide_eq_true hc]
        have hend : Ahead content v.offset (close :: tail) := hc ▸ hskipped
        exact Spec.pure (le_listed_true (l := [a]) rfl hend (hkept.trans hdepth))
      · next hc =>
        rw [decide_eq_false hc]
        exact Spec.pure (le_listed_false (.inl rfl) hdone)

/-- The end of an array or an object. -/
theorem spec_finish_make {level type : Nat} {make : List α → Json} {l : List α}
    {result : Option (Json × Bytes)} (hi : Fresh i.toItemData)
    (hmake : ∀ l d, holds (make l) d =
      given (d.type = type ∧ d.valuestring = none) (children (l.map f) d.child))
    (hresult : result = some (make l, rest))
    (hahead : Ahead content e.vars.offset (close :: rest)) (hdepth : e.vars.depth = level + 1) :
    Spec (itemAt p i * Seg (l.map f) head none current none) e (finish p type head current)
      (Parsed content p i level result) := by
  refine spec_finish.mono le_rfl fun ok e' => given_le fun h => ?_
  obtain ⟨rfl, rfl⟩ := h
  refine le_trans (le_of_eq ?_) (le_parsed_true (j := { i with type := type, child := head })
    hresult hahead.tail ?_ ⟨rfl, rfl, rfl⟩)
  · rw [hmake]
    dsimp only
    rw [given_of ⟨rfl, hi.2.1⟩]
  · dsimp only
    rw [hdepth, Nat.add_sub_cancel]

/-- An array or an object, from the opening bracket on. -/
theorem spec_open {c : UInt8} {level type : Nat} {make : List α → Json}
    {items : Option (List α × Bytes)} (hclose : close ≠ 0)
    (hahead : Ahead content e.vars.offset (c :: text)) (hdepth : e.vars.depth = level + 1)
    (hi : Fresh i.toItemData)
    (hmake : ∀ l d, holds (make l) d =
      given (d.type = type ∧ d.valuestring = none) (children (l.map f) d.child))
    (hloop : ∀ e' d, Ahead content e'.vars.offset (d :: CJson.skipWhitespace text) →
      e'.vars.depth = level + 1 → Spec 1 e' loop
        (Listed content close f [] (level + 1) items)) :
    Spec (itemAt p i) e
      (do
        onVars (advance 1)
        onVars (ParseBuffer.skipWhitespace content)
        if ← onVars (isAt content close) then
          finish p type none none
        else
          let more ← onVars (canAccessAtIndex content 0)
          onVars stepBack
          if more then
            let (parsed, head, current) ← loop
            if parsed then
              finish p type head current
            else
              delete head
              return false
          else
            return false)
      (Parsed content p i level
        (if (CJson.skipWhitespace text).head? = some close then
          some (make [], (CJson.skipWhitespace text).tail)
        else items.map fun r => (make r.1, r.2))) := by
  refine Spec.onVars_modify ?_
  refine Spec.onVars (skipWhitespace_wp hahead.tail) fun _ v hv => ?_
  obtain ⟨hkept, hskipped⟩ := hv
  have hclosed : (isAt content close).wp
      (fun b v' => b = decide ((CJson.skipWhitespace text).head? = some close) ∧ v' = v) v :=
    isAt_wp hskipped hclose ⟨rfl, rfl⟩
  refine Spec.onVars hclosed fun b v' hb => ?_
  obtain ⟨rfl, rfl⟩ := hb
  simp only [decide_eq_true_eq]
  -- an array without items has the empty list below it
  have hempty : itemAt p i = itemAt p i * Seg [] none none none none := by
    rw [Seg, given_of ⟨rfl, rfl⟩, mul_one]
  split
  · next hhead =>
    have hend : Ahead content v'.offset (close :: (CJson.skipWhitespace text).tail) := by
      rwa [List.cons_head?_tail hhead]
    rw [hempty]
    exact spec_finish_make (l := []) hi hmake rfl hend (hkept.trans hdepth)
  · have hpos : 0 < v'.offset := by
      have hstart := hahead.tail.length_eq
      have hlength := length_skipWhitespace_le text
      rw [hskipped.length_eq] at hstart
      omega
    -- the loop begins one character before the first item
    obtain ⟨d, hprevious⟩ := hskipped.exists_cons hpos
    have hmore : (canAccessAtIndex content 0).wp (fun b v => b = true ∧ v = v') v' :=
      canAccessAtIndex_wp hskipped ⟨decide_eq_true (Nat.zero_le _), rfl⟩
    refine Spec.onVars hmore fun b v hb => ?_
    obtain ⟨rfl, rfl⟩ := hb
    have hback : stepBack.wp (fun _ v' => v' = ⟨v.offset - 1, v.depth⟩) v := stepBack_wp hpos rfl
    refine Spec.onVars hback fun _ v' hv' => ?_
    subst hv'
    rw [if_pos rfl]
    refine Spec.call (hloop _ d hprevious (hkept.trans hdepth)) (one_mul _).symm fun r e' => ?_
    obtain ⟨_ | _, head, current⟩ := r
    · rw [Listed, Quantale.iSup_mul_distrib]
      -- after a failure the list that was made so far is deleted
      refine Spec.iSup fun payloads => ?_
      rw [given_mul]
      refine Spec.given fun h => (releases_seg h.2 _ _ _).call rfl ?_
      refine Spec.pure (le_parsed_false (h.1.imp_left fun hnone => ?_) hi ⟨rfl, rfl, rfl⟩)
      rw [hnone]
      rfl
    · rw [Listed, Quantale.iSup_mul_distrib]
      refine Spec.iSup fun r => ?_
      rw [given_mul, mul_comm, List.nil_append]
      refine Spec.given fun h => ?_
      exact spec_finish_make hi hmake (by rw [h.1]; rfl) h.2.1 h.2.2

end Loops

/-! ## Values -/

/-- The functions do what those on texts do that have enough fuel. -/
structure Refines (allocator : Allocator Block) (content : Bytes) (n : Nat) : Prop where
  value : ∀ {p : Nat} {i : Item} {e : Env ParseBuffer} {text : Bytes},
    Ahead content e.vars.offset text → Fresh i.toItemData → 2 * text.length + 1 ≤ n →
    Spec (itemAt p i) e (parseValue allocator content (some p))
      (Parsed content p i e.vars.depth (CJson.parseValue n e.vars.depth text))
  elements : ∀ {done : List Payload} {head current : Tree} {e : Env ParseBuffer} {c : UInt8}
    {text : Bytes}, (∀ d ∈ done, Deletable ParseBuffer d) →
    Ahead content e.vars.offset (c :: text) → 2 * (CJson.skipWhitespace text).length + 2 ≤ n →
    Spec (Seg done head none current none) e (parseElements allocator content head current)
      (Listed content (byte ']') (fun v => unnamed (holds v)) done e.vars.depth
        (CJson.parseItems n e.vars.depth (CJson.skipWhitespace text)))
  fields : ∀ {done : List Payload} {head current : Tree} {e : Env ParseBuffer} {c : UInt8}
    {text : Bytes}, (∀ d ∈ done, Deletable ParseBuffer d) →
    Ahead content e.vars.offset (c :: text) → 2 * (CJson.skipWhitespace text).length + 2 ≤ n →
    Spec (Seg done head none current none) e (parseFields allocator content head current)
      (Listed content (byte '\x7d') (fun m => named m.1 (holds m.2)) done e.vars.depth
        (CJson.parseMembers n e.vars.depth (CJson.skipWhitespace text)))

section Values

variable {n : Nat} {c : UInt8} {word : Bytes} {depth : Nat}

theorem spec_literal {g : Item → Item} {v : Json} {m : Nat}
    (hahead : Ahead content e.vars.offset text) (hword : word <+: text) (hm : word.length = m)
    (hv : holds v (g i).toItemData = 1) (hlinks : SameLinks i (g i)) :
    Spec (itemAt p i) e
      (do
        setItem p g
        onVars (advance m)
        return true)
      (Parsed content p i e.vars.depth (some (v, text.drop m))) := by
  subst hm
  refine spec_setItem (mul_one _).symm (Spec.onVars_modify (Spec.pure ?_))
  rw [mul_one]
  refine le_trans (le_of_eq ?_) (le_parsed_true rfl (hahead.drop hword.length_le) rfl hlinks)
  rw [hv, mul_one]

theorem Refines.parseArray (h : Refines allocator content n)
    (hahead : Ahead content e.vars.offset (byte '[' :: text)) (hi : Fresh i.toItemData)
    (hn : 2 * text.length + 2 ≤ n) :
    Spec (itemAt p i) e (parseArray allocator content (some p)) (Parsed content p i e.vars.depth
      (openWith (byte ']') .array e.vars.depth (CJson.parseItems n (e.vars.depth + 1)) text)) := by
  rw [Tree.parseArray, openWith]
  refine Spec.onVars_get ?_
  split
  · exact Spec.pure (le_parsed_false (.inl rfl) hi ⟨rfl, rfl, rfl⟩)
  · refine Spec.onVars_set ?_
    have hread : (readAt content 0).wp (fun c v => c = byte '[' ∧
        v = ⟨e.vars.offset, e.vars.depth + 1⟩) ⟨e.vars.offset, e.vars.depth + 1⟩ :=
      readAt_wp hahead rfl ⟨rfl, rfl⟩
    refine Spec.onVars hread fun c v hv => ?_
    obtain ⟨rfl, rfl⟩ := hv
    rw [if_neg (not_not.mpr rfl)]
    refine spec_open (f := fun v => unnamed (holds v)) (by decide) hahead rfl hi (fun l d => ?_)
      fun e' d hd hdepth => ?_
    · rw [holds, itemPayloads_eq]
    · have hlength : 2 * (CJson.skipWhitespace (CJson.skipWhitespace text)).length + 2 ≤ n := by
        have hle := length_skipWhitespace_le text
        rw [skipWhitespace_skipWhitespace]
        omega
      have hloop : Spec (Seg [] none none none none) e' (parseElements allocator content none none)
        _ := h.elements (fun _ hc => absurd hc List.not_mem_nil) hd hlength
      rw [hdepth, skipWhitespace_skipWhitespace] at hloop
      exact hloop.mono (le_given ⟨rfl, rfl⟩ le_rfl) fun _ _ => le_rfl

theorem Refines.parseObject (h : Refines allocator content n)
    (hahead : Ahead content e.vars.offset (byte '\x7b' :: text)) (hi : Fresh i.toItemData)
    (hn : 2 * text.length + 2 ≤ n) :
    Spec (itemAt p i) e (parseObject allocator content (some p)) (Parsed content p i e.vars.depth
      (openWith (byte '\x7d') .object e.vars.depth (CJson.parseMembers n (e.vars.depth + 1))
        text)) := by
  rw [Tree.parseObject, openWith]
  refine Spec.onVars_get ?_
  split
  · exact Spec.pure (le_parsed_false (.inl rfl) hi ⟨rfl, rfl, rfl⟩)
  · refine Spec.onVars_set ?_
    have hread : (isAt content (byte '\x7b')).wp (fun b v => b = true ∧
        v = ⟨e.vars.offset, e.vars.depth + 1⟩) ⟨e.vars.offset, e.vars.depth + 1⟩ :=
      isAt_wp hahead (by decide) ⟨decide_eq_true rfl, rfl⟩
    refine Spec.onVars hread fun b v hv => ?_
    obtain ⟨rfl, rfl⟩ := hv
    rw [if_pos rfl]
    refine spec_open (f := fun m => named m.1 (holds m.2)) (by decide) hahead rfl hi
      (fun l d => ?_) fun e' d hd hdepth => ?_
    · rw [holds, memberPayloads_eq]
    · have hlength : 2 * (CJson.skipWhitespace (CJson.skipWhitespace text)).length + 2 ≤ n := by
        have hle := length_skipWhitespace_le text
        rw [skipWhitespace_skipWhitespace]
        omega
      have hloop : Spec (Seg [] none none none none) e' (parseFields allocator content none none)
        _ := h.fields (fun _ hc => absurd hc List.not_mem_nil) hd hlength
      rw [hdepth, skipWhitespace_skipWhitespace] at hloop
      exact hloop.mono (le_given ⟨rfl, rfl⟩ le_rfl) fun _ _ => le_rfl

section Reading

variable {β : Type} {P : Assertion Block} {Q : β → Env ParseBuffer → Assertion Block}
  {f : Bool → Parser β}

theorem spec_startsWith (hahead : Ahead content e.vars.offset text) (hword : 0 ∉ word)
    (hf : Spec P e (f (word <+: text)) Q) : Spec P e (onVars (startsWith content word) >>= f) Q := by
  have hread : (startsWith content word).wp (fun b v => b = decide (word <+: text) ∧ v = e.vars)
      e.vars := startsWith_wp hahead hword ⟨rfl, rfl⟩
  refine Spec.onVars hread fun b v hb => ?_
  obtain ⟨rfl, rfl⟩ := hb
  exact hf

theorem spec_isAt (hahead : Ahead content e.vars.offset text) (hc : c ≠ 0)
    (hf : Spec P e (f (text.head? = some c)) Q) : Spec P e (onVars (isAt content c) >>= f) Q := by
  have hread : (isAt content c).wp (fun b v => b = decide (text.head? = some c) ∧ v = e.vars)
      e.vars := isAt_wp hahead hc ⟨rfl, rfl⟩
  refine Spec.onVars hread fun b v hb => ?_
  obtain ⟨rfl, rfl⟩ := hb
  exact hf

theorem spec_isAtNumber (hahead : Ahead content e.vars.offset text)
    (hf : Spec P e (f (text.head?.any fun c => c = byte '-' ∨ isDigit c)) Q) :
    Spec P e (onVars (isAtNumber content) >>= f) Q := by
  have hread : (isAtNumber content).wp (fun b v =>
      b = (text.head?.any fun c => c = byte '-' ∨ isDigit c) ∧ v = e.vars) e.vars :=
    isAtNumber_wp hahead ⟨rfl, rfl⟩
  refine Spec.onVars hread fun b v hb => ?_
  obtain ⟨rfl, rfl⟩ := hb
  exact hf

end Reading

theorem Refines.value_succ (h : Refines allocator content n)
    (hahead : Ahead content e.vars.offset text) (hi : Fresh i.toItemData)
    (hn : 2 * text.length + 1 ≤ n + 1) :
    Spec (itemAt p i) e (parseValue allocator content (some p))
      (Parsed content p i e.vars.depth (CJson.parseValue (n + 1) e.vars.depth text)) := by
  rw [Tree.parseValue]
  refine spec_startsWith hahead (by decide) ?_
  by_cases hnull : ofString "null" <+: text
  · have hvalue : CJson.parseValue (n + 1) e.vars.depth text = some (.null, text.drop 4) := by
      rw [CJson.parseValue.eq_def]
      exact if_pos hnull
    rw [decide_eq_true hnull, if_pos rfl, hvalue]
    refine spec_literal hahead hnull (by decide) ?_ ⟨rfl, rfl, rfl⟩
    rw [holds]
    exact given_of ⟨rfl, hi.1, hi.2.1⟩
  rw [decide_eq_false hnull, if_neg Bool.false_ne_true]
  refine spec_startsWith hahead (by decide) ?_
  by_cases hfalse : ofString "false" <+: text
  · have hvalue : CJson.parseValue (n + 1) e.vars.depth text = some (.bool false, text.drop 5) := by
      rw [CJson.parseValue.eq_def]
      exact (if_neg hnull).trans (if_pos hfalse)
    rw [decide_eq_true hfalse, if_pos rfl, hvalue]
    refine spec_literal hahead hfalse (by decide) ?_ ⟨rfl, rfl, rfl⟩
    rw [holds]
    exact given_of ⟨rfl, hi.1, hi.2.1⟩
  rw [decide_eq_false hfalse, if_neg Bool.false_ne_true]
  refine spec_startsWith hahead (by decide) ?_
  by_cases htrue : ofString "true" <+: text
  · have hvalue : CJson.parseValue (n + 1) e.vars.depth text = some (.bool true, text.drop 4) := by
      rw [CJson.parseValue.eq_def]
      exact (if_neg hnull).trans ((if_neg hfalse).trans (if_pos htrue))
    rw [decide_eq_true htrue, if_pos rfl, hvalue]
    refine spec_literal hahead htrue (by decide) ?_ ⟨rfl, rfl, rfl⟩
    rw [holds]
    exact given_of ⟨rfl, hi.1, hi.2.1⟩
  rw [decide_eq_false htrue, if_neg Bool.false_ne_true]
  refine spec_isAt hahead (by decide) ?_
  cases text with
  | nil =>
    -- the NUL is none of the characters
    refine spec_isAtNumber hahead (spec_isAt hahead (by decide) (spec_isAt hahead (by decide) ?_))
    refine Spec.pure (le_parsed_false (.inl ?_) hi ⟨rfl, rfl, rfl⟩)
    rw [CJson.parseValue.eq_def]
    exact (if_neg hnull).trans ((if_neg hfalse).trans (if_neg htrue))
  | cons c rest =>
    rw [parseValue_cons ⟨hnull, hfalse, htrue⟩]
    simp only [List.head?_cons, Option.some.injEq, decide_eq_true_eq]
    split
    · exact parseString_spec hahead hi
    refine spec_isAtNumber hahead ?_
    simp only [List.head?_cons, Option.any_some, decide_eq_true_eq]
    split
    · exact parseNumber_spec hahead hi
    refine spec_isAt hahead (by decide) ?_
    simp only [List.head?_cons, Option.some.injEq, decide_eq_true_eq]
    rw [List.length_cons] at hn
    split
    · next hc =>
      subst hc
      exact h.parseArray hahead hi (by omega)
    refine spec_isAt hahead (by decide) ?_
    simp only [List.head?_cons, Option.some.injEq, decide_eq_true_eq]
    split
    · next hc =>
      subst hc
      exact h.parseObject hahead hi (by omega)
    · exact Spec.pure (le_parsed_false (.inl rfl) hi ⟨rfl, rfl, rfl⟩)

/-- The item that was parsed into is the last one of the list. -/
theorem le_seg_new {d : Payload} {j : Item} {A : Assertion Block} (hprev : j.prev = current)
    (hnext : j.next = none) (hA : A ≤ d j.toItemData) :
    itemAt new j * A * Seg done head none current (some new) ≤
      Seg (done ++ [d]) head none (some new) none := by
  have hlast : Seg done head none j.prev (some new) * (itemAt new j * d j.toItemData) ≤
      Seg (done ++ [d]) head none (some new) j.next := le_seg_concat
  rw [hprev, hnext] at hlast
  refine le_trans ?_ hlast
  rw [mul_comm]
  exact mul_le_mul_right (mul_le_mul_right hA _) _

theorem length_lt_of_parseValue {v : Json} (h : CJson.parseValue n depth text = some (v, rest)) :
    rest.length < text.length := ((sound n).value h).length_lt

theorem deletable_concat {d : Payload} (hdone : ∀ c ∈ done, Deletable ParseBuffer c)
    (hd : Deletable ParseBuffer d) : ∀ c ∈ done ++ [d], Deletable ParseBuffer c := by
  intro c hc
  obtain hc | hc := List.mem_append.mp hc
  · exact hdone c hc
  · exact List.mem_singleton.mp hc ▸ hd

theorem Refines.elements_succ (h : Refines allocator content n)
    (hdone : ∀ d ∈ done, Deletable ParseBuffer d) (hahead : Ahead content e.vars.offset (c :: text))
    (hn : 2 * (CJson.skipWhitespace text).length + 2 ≤ n + 1) :
    Spec (Seg done head none current none) e (parseElements allocator content head current)
      (Listed content (byte ']') (fun v => unnamed (holds v)) done e.vars.depth
        (CJson.parseItems (n + 1) e.vars.depth (CJson.skipWhitespace text))) := by
  rw [parseElements, newItem]
  refine Spec.alloc (Spec.pure (le_listed_false (.inr rfl) hdone)) fun new => ?_
  refine Spec.bind (spec_attach.mono (mul_comm _ _).le fun _ _ => le_rfl) fun head e' => ?_
  refine Spec.given fun he => ?_
  subst he
  refine Spec.onVars_modify (Spec.onVars (skipWhitespace_wp hahead.tail) fun _ v hv => ?_)
  obtain ⟨hkept, hskipped⟩ := hv
  have hdepth : v.depth = e'.vars.depth := hkept
  rw [← hdepth, parseItems_succ]
  refine Spec.call (h.value (i := { Item.zero with prev := current }) hskipped fresh_zero
    (by omega)) (mul_comm _ _) fun ok e' => ?_
  cases ok with
  | false =>
    rw [Parsed, Quantale.iSup_mul_distrib, if_neg Bool.false_ne_true]
    refine Spec.iSup fun j => ?_
    rw [given_mul]
    refine Spec.given fun hj => Spec.pure ?_
    have hdeletable := deletable_concat hdone owned_fresh.unnamed
    refine le_trans ?_ (le_listed_false (hj.1.imp_left fun hnone => by rw [hnone]; rfl) hdeletable)
    rw [← mul_one (itemAt new j)]
    refine le_seg_new hj.2.2.prev hj.2.2.next (le_given ?_ (le_given hj.2.1 le_rfl))
    exact hj.2.2.string
  | true =>
    rw [Parsed, Quantale.iSup_mul_distrib, if_pos rfl]
    refine Spec.iSup fun j => ?_
    rw [Quantale.iSup_mul_distrib]
    refine Spec.iSup fun r => ?_
    rw [given_mul]
    refine Spec.given fun hr => ?_
    obtain ⟨hvalue, hrest, hdepth', hlinks⟩ := hr
    rw [hvalue, Option.bind_some]
    have hitem : holds r.1 j.toItemData ≤ unnamed (holds r.1) j.toItemData :=
      le_given hlinks.string le_rfl
    refine Spec.mono ?_ (le_seg_new hlinks.prev hlinks.next hitem) fun _ _ => le_rfl
    have hclose : byte ']' ≠ 0 := by decide
    refine spec_continue (f := fun v => unnamed (holds v)) (a := r.1) hclose
      (deletable_concat hdone (owned_holds r.1).unnamed) hrest hdepth'
      fun e'' tail hskip htail hdepth'' => ?_
    have hless := length_lt_of_parseValue hvalue
    have hless' := length_of_skipWhitespace hskip
    have hle := length_skipWhitespace_le tail
    rw [← hdepth'']
    exact h.elements (deletable_concat hdone (owned_holds r.1).unnamed) htail (by omega)

/-- The name was parsed, and the item has no value yet. -/
theorem named_fresh_le {name : Bytes} {q : Nat} {d : ItemData} (hq : d.string = some q)
    (hd : Fresh d) : stringAt q name ≤ named name fresh d := by
  refine le_iSup_of_le q (le_given hq ?_)
  rw [fresh, given_of hd, mul_one]

/-- A member, behind its name. -/
theorem Refines.field (h : Refines allocator content n) {name : Bytes} {q : Nat} {k : Item}
    (hdone : ∀ d ∈ done, Deletable ParseBuffer d) (hahead : Ahead content e.vars.offset text)
    (hk : Fresh k.toItemData) (hstring : k.string = some q) (hprev : k.prev = current)
    (hnext : k.next = none) (hn : 2 * text.length + 1 ≤ n) :
    Spec (itemAt new k * (stringAt q name * Seg done head none current (some new))) e
      (do
        if ← onVars (isAt content (byte ':')) then
          onVars (advance 1)
          onVars (ParseBuffer.skipWhitespace content)
          if ← parseValue allocator content (some new) then
            onVars (ParseBuffer.skipWhitespace content)
            if ← onVars (isAt content (byte ',')) then
              parseFields allocator content head (some new)
            else
              let closed ← onVars (isAt content (byte '\x7d'))
              return (closed, head, some new)
          else
            return (false, head, some new)
        else
          return (false, head, some new))
      (Listed content (byte '\x7d') (fun m => named m.1 (holds m.2)) done e.vars.depth
        (match text with
        | [] => none
        | c :: rest => if c ≠ byte ':' then none else
          (CJson.parseValue n e.vars.depth (CJson.skipWhitespace rest)).bind fun r =>
            continueWith (byte '\x7d') (name, r.1) (parseMembers n e.vars.depth) r.2)) := by
  have hdeletable := deletable_concat hdone (owned_fresh.named name)
  -- where the value is missing, the item is left with its name
  have hmissing : ∀ {j : Item}, Fresh j.toItemData → SameLinks k j →
      itemAt new j * (stringAt q name * Seg done head none current (some new)) ≤
        Seg (done ++ [named name fresh]) head none (some new) none := by
    intro j hj hlinks
    rw [← mul_assoc]
    exact le_seg_new (hlinks.prev.trans hprev) (hlinks.next.trans hnext)
      (named_fresh_le (hlinks.string.trans hstring) hj)
  refine spec_isAt hahead (by decide) ?_
  cases text with
  | nil =>
    exact Spec.pure ((hmissing hk ⟨rfl, rfl, rfl⟩).trans (le_listed_false (.inl rfl) hdeletable))
  | cons c rest =>
    simp only [List.head?_cons, Option.some.injEq, decide_eq_true_eq, ne_eq]
    split
    · next hcolon =>
      subst hcolon
      rw [List.length_cons] at hn
      have hle := length_skipWhitespace_le rest
      refine Spec.onVars_modify (Spec.onVars (skipWhitespace_wp hahead.tail) fun _ v hv => ?_)
      obtain ⟨hkept, hskipped⟩ := hv
      have hdepth : v.depth = e.vars.depth := hkept
      rw [← hdepth]
      refine Spec.call (h.value hskipped hk (by omega)) rfl fun ok e' => ?_
      cases ok with
      | false =>
        rw [Parsed, Quantale.iSup_mul_distrib, if_neg Bool.false_ne_true]
        refine Spec.iSup fun j => ?_
        rw [given_mul]
        refine Spec.given fun hj => Spec.pure ?_
        refine (hmissing hj.2.1 hj.2.2).trans (le_listed_false ?_ hdeletable)
        exact hj.1.imp_left fun hnone => by rw [hnone]; rfl
      | true =>
        rw [Parsed, Quantale.iSup_mul_distrib, if_pos rfl]
        refine Spec.iSup fun j => ?_
        rw [Quantale.iSup_mul_distrib]
        refine Spec.iSup fun r => ?_
        rw [given_mul]
        refine Spec.given fun hr => ?_
        obtain ⟨hvalue, hrest, hdepth', hlinks⟩ := hr
        rw [hvalue, Option.bind_some]
        have hitem : stringAt q name * holds r.1 j.toItemData ≤
            named name (holds r.1) j.toItemData :=
          le_iSup_of_le q (le_given (hlinks.string.trans hstring) le_rfl)
        have hlist : itemAt new j * holds r.1 j.toItemData *
            (stringAt q name * Seg done head none current (some new)) ≤
              Seg (done ++ [named name (holds r.1)]) head none (some new) none := by
          refine le_trans (le_of_eq ?_) (le_seg_new (hlinks.prev.trans hprev)
            (hlinks.next.trans hnext) hitem)
          ac_rfl
        refine Spec.mono ?_ hlist fun _ _ => le_rfl
        have hdeletable' := deletable_concat hdone ((owned_holds (ρ := ParseBuffer) r.1).named name)
        have hclose : byte '\x7d' ≠ 0 := by decide
        refine spec_continue (f := fun m : Bytes × Json => named m.1 (holds m.2)) (a := (name, r.1))
          hclose hdeletable' hrest hdepth' fun e'' tail hskip htail hdepth'' => ?_
        have hless := length_lt_of_parseValue hvalue
        have hless' := length_of_skipWhitespace hskip
        have hle' := length_skipWhitespace_le tail
        rw [← hdepth'']
        exact h.fields hdeletable' htail (by omega)
    · next hcolon =>
      exact Spec.pure ((hmissing hk ⟨rfl, rfl, rfl⟩).trans (le_listed_false (.inl rfl) hdeletable))

theorem Refines.fields_succ (h : Refines allocator content n)
    (hdone : ∀ d ∈ done, Deletable ParseBuffer d) (hahead : Ahead content e.vars.offset (c :: text))
    (hn : 2 * (CJson.skipWhitespace text).length + 2 ≤ n + 1) :
    Spec (Seg done head none current none) e (parseFields allocator content head current)
      (Listed content (byte '\x7d') (fun m => named m.1 (holds m.2)) done e.vars.depth
        (CJson.parseMembers (n + 1) e.vars.depth (CJson.skipWhitespace text))) := by
  rw [parseFields, newItem]
  refine Spec.alloc (Spec.pure (le_listed_false (.inr rfl) hdone)) fun new => ?_
  refine Spec.bind (spec_attach.mono (mul_comm _ _).le fun _ _ => le_rfl) fun head e' => ?_
  refine Spec.given fun he => ?_
  subst he
  have hmore : (canAccessAtIndex content 1).wp (fun b v => b = true ∧ v = e'.vars) e'.vars :=
    canAccessAtIndex_wp hahead ⟨decide_eq_true (Nat.succ_le_succ (Nat.zero_le _)), rfl⟩
  refine Spec.onVars hmore fun b v hb => ?_
  obtain ⟨rfl, rfl⟩ := hb
  rw [if_pos rfl]
  refine Spec.onVars_modify (Spec.onVars (skipWhitespace_wp hahead.tail) fun _ v hv => ?_)
  obtain ⟨hkept, hskipped⟩ := hv
  have hdepth : v.depth = e'.vars.depth := hkept
  rw [← hdepth, parseMembers_succ]
  refine Spec.call (parseString_spec (i := { Item.zero with prev := current }) hskipped fresh_zero)
    (mul_comm _ _) fun ok e' => ?_
  cases ok with
  | false =>
    rw [Parsed, Quantale.iSup_mul_distrib, if_neg Bool.false_ne_true]
    refine Spec.iSup fun j => ?_
    rw [given_mul]
    refine Spec.given fun hj => Spec.pure ?_
    have hdeletable := deletable_concat hdone owned_fresh.unnamed
    refine le_trans ?_ (le_listed_false (hj.1.imp_left fun hnone => ?_) hdeletable)
    · rw [← mul_one (itemAt new j)]
      refine le_seg_new hj.2.2.prev hj.2.2.next (le_given ?_ (le_given hj.2.1 le_rfl))
      exact hj.2.2.string
    · rw [Option.map_eq_none_iff.mp hnone]
      rfl
  | true =>
    rw [Parsed, Quantale.iSup_mul_distrib, if_pos rfl]
    refine Spec.iSup fun j => ?_
    rw [Quantale.iSup_mul_distrib]
    refine Spec.iSup fun r => ?_
    rw [given_mul]
    refine Spec.given fun hr => ?_
    obtain ⟨hname, hrest, hdepth', hlinks⟩ := hr
    obtain ⟨⟨name, rest⟩, hstring, rfl⟩ := Option.map_eq_some_iff.mp hname
    dsimp only at hrest
    rw [hstring, Option.bind_some]
    have hless := length_of_parseString hstring
    refine Spec.onVars (skipWhitespace_wp hrest) fun _ v' hv' => ?_
    obtain ⟨hkept', hskipped'⟩ := hv'
    rw [holds, Quantale.mul_iSup_distrib, Quantale.iSup_mul_distrib]
    refine Spec.iSup fun q => ?_
    rw [mul_given, given_mul]
    refine Spec.given fun hq => ?_
    refine spec_setItem (i := j) (mul_assoc _ _ _) ?_
    have hkdepth : v'.depth = v.depth := hkept'.trans hdepth'
    rw [← hkdepth]
    have hlength : 2 * (CJson.skipWhitespace rest).length + 1 ≤ n := by
      have hle := length_skipWhitespace_le rest
      omega
    exact h.field hdone hskipped' ⟨hq.2.1, rfl, hq.1 ▸ by decide⟩ hq.2.2 hlinks.prev hlinks.next
      hlength

theorem refines (n : Nat) : Refines allocator content n := by
  induction n with
  | zero =>
    exact ⟨fun _ _ hn => absurd hn (by omega), fun _ _ hn => absurd hn (by omega),
      fun _ _ hn => absurd hn (by omega)⟩
  | succ n ih => exact ⟨ih.value_succ, ih.elements_succ, ih.fields_succ⟩

end Values

/-! ## The parser -/

/-- What `cJSON_Parse` leaves. -/
def Outcome (value : Bytes) : Tree → Env ParseBuffer → Assertion Block
  | some p, _ => ⨆ v : Json, given (cjsonParse value = some v) (tree v p)
  | none, e => given (cjsonParse value = none ∨ e.refused = true) 1

theorem parse_spec (value : Bytes) (he : e.vars = ⟨0, 0⟩) :
    Spec 1 e (parse allocator (ofBytes value ++ [0])) (Outcome value) := by
  rw [parse, newItem]
  refine Spec.alloc (Spec.pure (le_given (.inr rfl) le_rfl)) fun item => ?_
  rw [mul_one]
  have hstart : Ahead (ofBytes value ++ [0]) 0 (ofBytes value) := rfl
  refine Spec.onVars (skipUtf8Bom_wp hstart (congrArg ParseBuffer.offset he)) fun _ v hv => ?_
  obtain ⟨hdepth, hahead⟩ := hv
  refine Spec.onVars (skipWhitespace_wp hahead) fun _ v' hv' => ?_
  obtain ⟨hdepth', hskipped⟩ := hv'
  have hzero : v'.depth = 0 := hdepth'.trans (hdepth.trans (congrArg ParseBuffer.depth he))
  have hcjson : cjsonParse value = (CJson.parseValue
      (enough (CJson.skipWhitespace (CJson.skipUtf8Bom (ofBytes value)))) v'.depth
      (CJson.skipWhitespace (CJson.skipUtf8Bom (ofBytes value)))).map (·.1) := by
    rw [hzero]
    rfl
  generalize CJson.skipWhitespace (CJson.skipUtf8Bom (ofBytes value)) = text at hskipped hcjson
  have hvalue : Spec (itemAt item Item.zero) { e with vars := v' }
      (parseValue allocator (ofBytes value ++ [0]) (some item)) _ :=
    (refines (enough text)).value hskipped fresh_zero (Nat.le_succ _)
  refine Spec.bind hvalue fun ok e' => ?_
  cases ok with
  | false =>
    rw [Parsed, if_neg Bool.false_ne_true]
    refine Spec.iSup fun j => Spec.given fun hj => ?_
    have hroot : Releases (itemAt item j * unnamed fresh j.toItemData)
        (delete (some item) : Parser Unit) := releases_root owned_fresh.unnamed hj.2.2.next
    have hstring : j.string = none := hj.2.2.string
    rw [unnamed, given_of hstring, fresh, given_of hj.2.1] at hroot
    refine hroot.call (by rw [mul_one, mul_one]) (Spec.pure (le_given ?_ le_rfl))
    exact hj.1.imp_left fun hnone => by rw [hcjson, hnone]; rfl
  | true =>
    rw [Parsed, if_pos rfl]
    refine Spec.iSup fun j => Spec.iSup fun r => Spec.given fun hr => Spec.pure ?_
    obtain ⟨hr, -, -, hlinks⟩ := hr
    refine le_iSup_of_le r.1 (le_given (by rw [hcjson, hr]; rfl) (le_iSup_of_le j ?_))
    exact le_given ⟨hlinks.next, hlinks.prev, hlinks.string⟩ le_rfl

end Tree

end CJson

end Xiaozhi
