import Bionic.Pthread.JoinExit

namespace Bionic.Thread

open Lib CallPc

variable {C V N : Type}
variable {thread : N} {mmapSize : Nat} {s : State C V N} {c : C}

theorem CallPc.removed_of_released {p : CallPc V} (h : p.released) : p.removed := .inr h

section

variable (h : Inv thread mmapSize s)
include h

theorem Inv.finds_iff [DecidableEq N] : s.list.Finds thread ↔ s.removals = [] := by
  obtain ⟨l, hl, hmem⟩ := h.list
  rw [hl.finds_iff, hmem]

/-- The join that succeeds has the value of pthread_exit, and all other calls fail. -/
theorem Inv.success {o : Origin} {v : Option V} (hc : s.call c = .done o (.success v)) :
    (∃ w, s.given = some w ∧ v = if o.wantsValue then some w else none) ∧
    ∀ d o' r, d ≠ c → s.call d = .done o' r → r = .einval := by
  have hf := h.fits c
  rw [hc] at hf
  have hg := h.given_of_tid hf.1
  have hwon : (s.call c).won := by simp [role, hc]
  refine ⟨⟨s.returnValue, hg, hg ▸ hf.2⟩, fun d o' r hne hd => ?_⟩
  cases r with
  | success w => exact absurd (h.sole.unique d c (by simp [role, hd]) hwon) hne
  | detached =>
    have hf := h.fits d
    rw [hd] at hf
    cases (h.joined_of_won hwon).symm.trans hf
  | einval => rfl

end

section

variable (h : Inv thread mmapSize s) {old : JoinState}
include h

end

end Bionic.Thread
