import Mathlib.Logic.Relation

namespace Bionic.Lib

/-- A state machine: its initial states and one step, whoever takes it. -/
structure System (σ : Type*) where
  Init : σ → Prop
  Step : σ → σ → Prop

namespace System

variable {σ : Type*} {S : System σ} {s : σ}

def Reachable (S : System σ) (s : σ) : Prop :=
  ∃ s₀, S.Init s₀ ∧ Relation.ReflTransGen S.Step s₀ s

theorem Reachable.of_init (h : S.Init s) : S.Reachable s := ⟨s, h, .refl⟩

theorem Reachable.step {s' : σ} (h : S.Reachable s) (hs : S.Step s s') : S.Reachable s' := by
  obtain ⟨s₀, h₀, hr⟩ := h
  exact ⟨s₀, h₀, hr.tail hs⟩

theorem Reachable.mono {S' : System σ} (hi : ∀ s, S.Init s → S'.Init s) (hs : ∀ s s', S.Step s s' → S'.Step s s')
    (h : S.Reachable s) : S'.Reachable s := by
  obtain ⟨s₀, h₀, hr⟩ := h
  exact ⟨s₀, hi s₀ h₀, Relation.ReflTransGen.mono hs _ _ hr⟩

structure Invariant (S : System σ) (I : σ → Prop) : Prop where
  init : ∀ s, S.Init s → I s
  step : ∀ s s', I s → S.Step s s' → I s'

theorem Invariant.reachable {I : σ → Prop} (h : S.Invariant I) (hs : S.Reachable s) : I s := by
  obtain ⟨s₀, h₀, hr⟩ := hs
  induction hr with
  | refl => exact h.init s₀ h₀
  | tail _ hst ih => exact h.step _ _ ih hst

end System

end Bionic.Lib
