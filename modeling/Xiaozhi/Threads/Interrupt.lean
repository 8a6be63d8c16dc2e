-- SUMMARY: Programs that an interrupt handler may break into at any point, and the rule that treats the handler as interference.
import Xiaozhi.Threads.Wp

/-!
# Interrupts

A handler that runs on a thread's own stack comes between any two actions of
the thread. `interruptible h p` is `p` with the program `h` before each of its
actions and each round of its loops; `h` decides whether and how often the
handler runs there.

To the program that it interrupts, a handler is one more source of
interference: `wp_interruptible` proves a weakest precondition of the
interrupted program under a rely that includes what a complete run of `h` does.
-/

namespace Threads

namespace Prog

variable {σ χ α β γ : Type}

/-- The program, with `h` wherever it can be interrupted. -/
def interruptible (h : Prog σ χ Unit) : {α : Type} → Prog σ χ α → Prog σ χ α
  | _, .ret a => .ret a
  | _, .act f k => h >>= fun _ => .act f fun b => interruptible h (k b)
  | _, .iter b x k => .iter (fun y => h >>= fun _ => interruptible h (b y)) x fun z =>
      interruptible h (k z)

theorem within_interruptible {F : σ → σ → Prop} {h : Prog σ χ Unit} (hh : h.Within F)
    {p : Prog σ χ α} (hp : p.Within F) : (interruptible h p).Within F := by
  induction p with
  | ret a => trivial
  | act f k ih => exact hh.bind fun _ => ⟨hp.1, fun b => ih b (hp.2 b)⟩
  | iter b x k ihb ihk => exact ⟨fun y => hh.bind fun _ => ihb y (hp.1 y), fun z => ihk z (hp.2 z)⟩

/-- An interrupted program is verified as if the handler were another thread.
    `K` holds wherever the handler may start. -/
theorem wp_interruptible {C C' : Contract σ} {h : Prog σ χ Unit} {K : σ → Prop}
    (hrely : ∀ s s', C.rely s s' → C'.rely s s')
    (hassume : ∀ s s', C.assume s s' → C'.assume s s')
    (hguar : ∀ s s', C'.guar s s' → C.guar s s')
    (hK : ∀ s s', K s → C'.rely s s' → K s')
    (hKguar : ∀ s s', K s → C'.guar s s' → K s')
    (hh : ∀ s, K s → h.wp C (fun _ s' => C'.rely s s') s)
    {p : Prog σ χ α} {Q : α → σ → Prop} {s : σ} (hs : K s) (hp : p.wp C' Q s) :
    (interruptible h p).wp C (fun a s => Q a s ∧ K s) s := by
  induction p generalizing s with
  | ret a =>
    intro s' hs'
    exact ⟨hp s' (hrely s s' hs'), hK s s' hs (hrely s s' hs')⟩
  | act f k ih =>
    refine wp.bind (wp.mono ?_ (hh s hs))
    intro _ s₁ h₁ s₂ h₂ c b s₃ hf ha
    have h₁₂ := C'.rely_trans h₁ (hrely s₁ s₂ h₂)
    obtain ⟨hg, hk⟩ := hp s₂ h₁₂ c b s₃ hf (hassume s₂ s₃ ha)
    exact ⟨hguar s₂ s₃ hg, ih b (hKguar s₂ s₃ (hK s s₂ hs h₁₂) hg) hk⟩
  | iter b x k ihb ihk =>
    obtain ⟨I, hI, hx, hb⟩ := hp
    refine ⟨fun y s => I y s ∧ K s, ?_, ⟨hx, hs⟩, ?_⟩
    · rintro y s s' ⟨hy, hKs⟩ hs'
      exact ⟨hI y s s' hy (hrely s s' hs'), hK s s' hKs (hrely s s' hs')⟩
    · rintro y s ⟨hy, hKs⟩
      refine wp.bind (wp.mono ?_ (hh s hKs))
      intro _ s₁ h₁
      refine (ihb y (hK s s₁ hKs h₁) (hb y s₁ (hI y s s₁ hy h₁))).mono ?_
      rintro (y' | z) s₂ ⟨hr, hKs₂⟩
      · exact ⟨hr, hKs₂⟩
      · exact ihk z hKs₂ hr

end Prog

end Threads
