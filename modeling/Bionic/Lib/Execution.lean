import Bionic.Lib.System

namespace Bionic.Lib

variable {σ : Type*} {S : System σ}

/-- An unending run. Time may pass without a step, so a run that stops is one that stutters. -/
structure Execution (S : System σ) where
  state : Nat → σ
  init : S.Init (state 0)
  step : ∀ n, state (n + 1) = state n ∨ S.Step (state n) (state (n + 1))

namespace Execution

variable (x : Execution S)

theorem reachable (n : Nat) : S.Reachable (x.state n) := by
  induction n with
  | zero => exact .of_init x.init
  | succ n ih =>
    obtain h | h := x.step n
    · rw [h]
      exact ih
    · exact ih.step h

theorem stable {P : σ → Prop} (hP : ∀ s s', S.Reachable s → P s → S.Step s s' → P s') {n m : Nat}
    (hn : P (x.state n)) (hnm : n ≤ m) : P (x.state m) := by
  induction hnm with
  | refl => exact hn
  | step _ ih =>
    obtain h | h := x.step _
    · rw [h]
      exact ih
    · exact hP _ _ (x.reachable _) ih h

/-- While the goal is not reached no step raises the rank, `act` lowers it, and `act` comes again and
again. Then the goal is reached. -/
theorem eventually {goal : σ → Prop} (rank : σ → Nat) {act : σ → σ → Prop} (n : Nat)
    (hle : ∀ m, n ≤ m → ¬ goal (x.state m) → goal (x.state (m + 1)) ∨ rank (x.state (m + 1)) ≤ rank (x.state m))
    (hlt : ∀ m, n ≤ m → ¬ goal (x.state m) → act (x.state m) (x.state (m + 1)) →
      goal (x.state (m + 1)) ∨ rank (x.state (m + 1)) < rank (x.state m))
    (hact : ∀ m, n ≤ m → ¬ goal (x.state m) → ∃ k, m ≤ k ∧ act (x.state k) (x.state (k + 1))) :
    ∃ m, n ≤ m ∧ goal (x.state m) := by
  apply Classical.byContradiction
  intro hnot
  have hgo : ∀ m, n ≤ m → ¬ goal (x.state m) := fun m hm hg => hnot ⟨m, hm, hg⟩
  have hmo : ∀ k m, n ≤ m → rank (x.state (m + k)) ≤ rank (x.state m) := by
    intro k m hm
    induction k with
    | zero => exact Nat.le_refl _
    | succ k ih =>
      have h := (hle (m + k) (by omega) (hgo _ (by omega))).resolve_left (hgo _ (by omega))
      exact Nat.le_trans h ih
  have hd : ∀ r m, n ≤ m → rank (x.state m) = r → False := by
    intro r
    induction r using Nat.strongRecOn with
    | ind r ih =>
      intro m hm hr
      obtain ⟨k, hk, ha⟩ := hact m hm (hgo m hm)
      have h₁ := (hlt k (by omega) (hgo k (by omega)) ha).resolve_left (hgo _ (by omega))
      have h₂ := hmo (k - m) m hm
      rw [Nat.add_sub_cancel' hk] at h₂
      exact ih _ (by omega) (k + 1) (by omega) rfl
  exact hd _ n (Nat.le_refl n) rfl

end Execution

end Bionic.Lib
