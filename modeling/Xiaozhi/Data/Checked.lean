-- SUMMARY: Programs that may run into undefined behaviour, their weakest preconditions, and checked access to a block of memory.
import Mathlib.Data.List.Basic
import Xiaozhi.Data.CString

/-!
# Checked programs

A program changes a state and may have undefined behaviour: an access outside of
a block, a second `free`. `p.wp Q s` says that `p` has none when it starts in
`s`, and that `Q` holds of its result and of the state in which it ends.

A block of memory is the list of its bytes. `Holds out block` says that the block
starts with `out`, which is what a program that fills it has written so far.
-/

/-- A program on the states `σ`; `none` is undefined behaviour. -/
abbrev Checked (σ α : Type) : Type := StateT σ Option α

namespace Checked

variable {σ α β : Type} {s : σ}

/-- Undefined behaviour. -/
def undefined : Checked σ α := StateT.lift none

/-- The program is defined, and ends with `Q`. -/
def wp (p : Checked σ α) (Q : α → σ → Prop) (s : σ) : Prop :=
  ∃ a s', p.run s = some (a, s') ∧ Q a s'

variable {p : Checked σ α} {Q Q' : α → σ → Prop}

@[simp] theorem wp_pure {a : α} : (pure a : Checked σ α).wp Q s ↔ Q a s :=
  ⟨fun ⟨_, _, h, hq⟩ => by cases h; exact hq, fun hq => ⟨a, s, rfl, hq⟩⟩

@[simp] theorem wp_bind {f : α → Checked σ β} {Q : β → σ → Prop} :
    (p >>= f).wp Q s ↔ p.wp (fun a => (f a).wp Q) s := by
  constructor
  · rintro ⟨b, s₂, hrun, hq⟩
    obtain ⟨⟨a, s₁⟩, hp, hf⟩ := Option.bind_eq_some_iff.mp hrun
    exact ⟨a, s₁, hp, b, s₂, hf, hq⟩
  · rintro ⟨a, s₁, hp, b, s₂, hf, hq⟩
    exact ⟨b, s₂, Option.bind_eq_some_iff.mpr ⟨(a, s₁), hp, hf⟩, hq⟩

@[simp] theorem wp_get {Q : σ → σ → Prop} : (get : Checked σ σ).wp Q s ↔ Q s s :=
  ⟨fun ⟨_, _, h, hq⟩ => by cases h; exact hq, fun hq => ⟨s, s, rfl, hq⟩⟩

@[simp] theorem wp_set {s' : σ} {Q : PUnit → σ → Prop} :
    (set s' : Checked σ PUnit).wp Q s ↔ Q ⟨⟩ s' :=
  ⟨fun ⟨_, _, h, hq⟩ => by cases h; exact hq, fun hq => ⟨⟨⟩, s', rfl, hq⟩⟩

@[simp] theorem wp_modify {f : σ → σ} {Q : PUnit → σ → Prop} :
    (modify f : Checked σ PUnit).wp Q s ↔ Q ⟨⟩ (f s) :=
  ⟨fun ⟨_, _, h, hq⟩ => by cases h; exact hq, fun hq => ⟨⟨⟩, f s, rfl, hq⟩⟩

theorem wp_ite {c : Prop} [Decidable c] {p q : Checked σ α} :
    (if c then p else q).wp Q s ↔ (c → p.wp Q s) ∧ (¬c → q.wp Q s) := by
  by_cases hc : c
  · simp [hc]
  · simp [hc]

theorem wp.mono (h : p.wp Q s) (hq : ∀ a s', Q a s' → Q' a s') : p.wp Q' s := by
  obtain ⟨a, s', hrun, hQ⟩ := h
  exact ⟨a, s', hrun, hq a s' hQ⟩

/-- The rule for a sequence. -/
theorem wp.bind {f : α → Checked σ β} {Q' : β → σ → Prop} (h : p.wp Q s)
    (hf : ∀ a s', Q a s' → (f a).wp Q' s') : (p >>= f).wp Q' s :=
  wp_bind.mpr (h.mono hf)

/-- The program is defined, changes nothing, and `V` holds of its result. -/
def reads (p : Checked σ α) (V : α → Prop) (s : σ) : Prop :=
  p.wp (fun a s' => s' = s ∧ V a) s

variable {V V' : α → Prop}

@[simp] theorem reads_pure {a : α} : (pure a : Checked σ α).reads V s ↔ V a :=
  wp_pure.trans (and_iff_right rfl)

theorem reads.mono (h : p.reads V s) (hV : ∀ a, V a → V' a) : p.reads V' s :=
  wp.mono h fun a _ ha => ⟨ha.1, hV a ha.2⟩

theorem reads.bind {f : α → Checked σ β} {V' : β → Prop} (h : p.reads V s)
    (hf : ∀ a, V a → (f a).reads V' s) : (p >>= f).reads V' s := by
  refine wp.bind h fun a s' ha => ?_
  obtain ⟨rfl, ha⟩ := ha
  exact hf a ha

end Checked

/-! ## Blocks -/

namespace Block

variable {block data out : Bytes} {pos : Nat}

/-- A write of `data` from `pos` on. -/
def write (block : Bytes) (pos : Nat) (data : Bytes) : Option Bytes :=
  if pos + data.length ≤ block.length then
    some (block.take pos ++ data ++ block.drop (pos + data.length))
  else
    none

/-- `strlen(block + pos)`; there must be a NUL. -/
def strlen (block : Bytes) (pos : Nat) : Option Nat :=
  if 0 ∈ block.drop pos then some ((block.drop pos).takeWhile (· ≠ 0)).length else none

/-- What is written behind `out` continues it. -/
theorem write_eq_some (h : out <+: block) (hpos : pos = out.length)
    (hfits : pos + data.length ≤ block.length) :
    ∃ block', write block pos data = some block' ∧ block'.length = block.length ∧
      out ++ data <+: block' := by
  obtain ⟨rest, rfl⟩ := h
  subst hpos
  refine ⟨_, if_pos hfits, ?_, ?_⟩
  · simp only [List.length_append, List.length_take, List.length_drop] at hfits ⊢
    omega
  · rw [List.take_left]
    exact List.prefix_append _ _

/-- `strlen` finds the NUL that ends what was written. -/
theorem strlen_eq_some (h : out ++ [0] <+: block) (hpos : pos ≤ out.length)
    (hout : ∀ b ∈ out, b ≠ 0) : strlen block pos = some (out.length - pos) := by
  obtain ⟨rest, rfl⟩ := h
  have hdrop : (out ++ [0] ++ rest).drop pos = out.drop pos ++ 0 :: rest := by
    rw [List.append_assoc, List.drop_append_of_le_length hpos, List.singleton_append]
  have htail : ∀ b ∈ out.drop pos, decide (b ≠ 0) = true :=
    fun b hb => decide_eq_true (hout b (List.mem_of_mem_drop hb))
  rw [strlen, hdrop, if_pos (List.mem_append_right _ List.mem_cons_self),
    List.takeWhile_append_of_pos htail, List.takeWhile_cons_of_neg (by simp), List.append_nil,
    List.length_drop]

end Block
