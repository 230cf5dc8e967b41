import Mathlib.Order.WellFounded

namespace Bionic.Lib

variable {σ : Type*} {R : σ → σ → Prop} {P : σ → Prop}

/-- Every run of `R` comes to a state with `P`: none stops before it, and none goes on for ever without. -/
inductive Inevitably (R : σ → σ → Prop) (P : σ → Prop) : σ → Prop
  | here {s} (h : P s) : Inevitably R P s
  | later {s} (hlive : ∃ s', R s s') (h : ∀ s', R s s' → Inevitably R P s') : Inevitably R P s

/-- A run that keeps an invariant, makes a measure smaller with every step and can only stop at `P` comes to it. -/
theorem Inevitably.of_measure {α : Type*} [Preorder α] [WellFoundedLT α] {I : σ → Prop} (measure : σ → α)
    (hstep : ∀ s s', I s → R s s' → I s' ∧ measure s' < measure s) (hlive : ∀ s, I s → P s ∨ ∃ s', R s s')
    {s : σ} (h : I s) : Inevitably R P s := by
  induction hm : measure s using WellFoundedLT.induction generalizing s with
  | ind m ih =>
    subst hm
    rcases hlive s h with hp | hl
    · exact .here hp
    · refine .later hl fun s' hs => ?_
      obtain ⟨hi, hlt⟩ := hstep s s' h hs
      exact ih _ hlt hi rfl

end Bionic.Lib
