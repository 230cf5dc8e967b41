import Mathlib.Algebra.BigOperators.Group.Finset.Piecewise
import Mathlib.Algebra.Order.BigOperators.Group.Finset

namespace Bionic.Lib

open Function Finset

variable {T P : Type*}

section Total

variable [Fintype T] [DecidableEq T]

variable (w : P → Nat) {pc : T → P}

def total (pc : T → P) : Nat := ∑ t, w (pc t)

theorem total_update (pc : T → P) (t : T) (p : P) : total w (update pc t p) + w (pc t) = total w pc + w p := by
  have hw : (fun u => w (update pc t p u)) = update (fun u => w (pc u)) t (w p) := by
    funext u
    by_cases hu : u = t
    · subst hu
      simp
    · simp [hu]
  have hr := add_sum_erase univ (fun u => w (pc u)) (mem_univ t)
  rw [total, total, hw, sum_update_of_mem (mem_univ t), ← erase_eq]
  omega

omit [DecidableEq T] in
theorem total_eq_zero_iff {w : P → Nat} : total w pc = 0 ↔ ∀ t, w (pc t) = 0 := by
  simp [total]

omit [DecidableEq T] in
theorem total_eq_card_iff {w : P → Nat} (hw : ∀ p, w p ≤ 1) : total w pc = Fintype.card T ↔ ∀ t, w (pc t) = 1 := by
  have h := sum_eq_sum_iff_of_le (s := univ) (f := fun t => w (pc t)) (g := fun _ : T => 1)
    fun t _ => hw (pc t)
  simpa [total] using h

theorem le_total (pc : T → P) (t : T) : w (pc t) ≤ total w pc := by
  have hr := add_sum_erase univ (fun u => w (pc u)) (mem_univ t)
  rw [total]
  omega

end Total

section Covered

variable [DecidableEq T] {asleep rescuer : P → Prop} {waiting waiting' : Prop} {pc : T → P}

/-- While a thread is asleep the futex word says that threads wait, or some thread is on its way to wake them. -/
def Covered (asleep rescuer : P → Prop) (waiting : Prop) (pc : T → P) : Prop :=
  ∀ t, asleep (pc t) → waiting ∨ ∃ u, rescuer (pc u)

/-- One thread moves and the word changes. What covered the sleepers does so still, or nobody else is asleep. -/
theorem Covered.update (h : Covered asleep rescuer waiting pc) (t : T) (p : P) (hp : asleep p → waiting')
    (hk : waiting ∨ rescuer (pc t) →
      waiting' ∨ rescuer p ∨ (∃ u, u ≠ t ∧ rescuer (pc u)) ∨ ∀ u, u ≠ t → ¬ asleep (pc u)) :
    Covered asleep rescuer waiting' (Function.update pc t p) := by
  have ho (u : T) (hu : u ≠ t) (hr : rescuer (pc u)) : ∃ v, rescuer (Function.update pc t p v) := by
    refine ⟨u, ?_⟩
    rwa [Function.update_of_ne hu]
  intro v hv
  by_cases hvt : v = t
  · subst hvt
    rw [update_self] at hv
    exact .inl (hp hv)
  rw [update_of_ne hvt] at hv
  have hc : (∃ u, u ≠ t ∧ rescuer (pc u)) ∨ (waiting ∨ rescuer (pc t)) := by
    rcases h v hv with hw | ⟨u, hu⟩
    · exact .inr (.inl hw)
    · by_cases hut : u = t
      · exact .inr (.inr (hut ▸ hu))
      · exact .inl ⟨u, hut, hu⟩
  rcases hc with ⟨u, hut, hu⟩ | hold
  · exact .inr (ho u hut hu)
  rcases hk hold with hw | hr | ⟨u, hut, hu⟩ | hn
  · exact .inl hw
  · refine .inr ⟨t, ?_⟩
    rwa [update_self]
  · exact .inr (ho u hut hu)
  · exact absurd hv (hn v hvt)

omit [DecidableEq T] in
theorem Covered.of_awake (h : ∀ t, ¬asleep (pc t)) : Covered asleep rescuer waiting pc := fun t ht => absurd ht (h t)

end Covered

section Sole

variable {inside : P → Prop} {taken taken' : Prop} {pc pc' : T → P}

structure Sole (inside : P → Prop) (taken : Prop) (pc : T → P) : Prop where
  taken_iff : taken ↔ ∃ t, inside (pc t)
  unique : ∀ t u, inside (pc t) → inside (pc u) → t = u

theorem Sole.congr (h : Sole inside taken pc) (hta : taken' ↔ taken) (hpc : ∀ u, inside (pc' u) ↔ inside (pc u)) :
    Sole inside taken' pc' := by
  refine ⟨?_, fun t u ht hu => h.unique t u ((hpc t).mp ht) ((hpc u).mp hu)⟩
  rw [hta, h.taken_iff]
  exact exists_congr fun u => (hpc u).symm

variable [DecidableEq T] {t : T} {p : P}

theorem Sole.move (h : Sole inside taken pc) (ht : taken' ↔ taken) (hp : inside p ↔ inside (pc t)) :
    Sole inside taken' (update pc t p) := by
  refine h.congr ht fun u => ?_
  rw [update_apply]
  split_ifs with hu
  · rwa [hu]
  · rfl

theorem Sole.enter (h : Sole inside taken pc) (hf : ¬taken) (hp : inside p) (ht : taken') :
    Sole inside taken' (update pc t p) := by
  have hn : ∀ u, ¬inside (pc u) := fun u hu => hf (h.taken_iff.mpr ⟨u, hu⟩)
  have ho : ∀ u, inside (update pc t p u) → u = t := by
    intro u hu
    by_contra hne
    rw [update_of_ne hne] at hu
    exact hn u hu
  refine ⟨iff_of_true ht ⟨t, by rwa [update_self]⟩, fun u v hu hv => ?_⟩
  rw [ho u hu, ho v hv]

theorem Sole.leave (h : Sole inside taken pc) (ht : inside (pc t)) (hp : ¬inside p) (hf : ¬taken') :
    Sole inside taken' (update pc t p) := by
  have hn : ∀ u, ¬inside (update pc t p u) := by
    intro u hu
    rw [update_apply] at hu
    split_ifs at hu with hut
    · exact hp hu
    · exact hut (h.unique u t hu ht)
  exact ⟨iff_of_false hf fun hex => hex.elim hn, fun u v hu => absurd hu (hn u)⟩

end Sole

section Ledger

variable {A : Type*} {did did' : A → Prop} {log : List A}

structure Ledger (did : A → Prop) (log : List A) : Prop where
  mem_iff : ∀ a, a ∈ log ↔ did a
  length_le : log.length ≤ 1

section

variable (h : Ledger did log)

include h

theorem Ledger.congr (hdid : ∀ a, did' a ↔ did a) : Ledger did' log :=
  ⟨fun a => (h.mem_iff a).trans (hdid a).symm, h.length_le⟩

theorem Ledger.eq_nil (hn : ∀ a, ¬did a) : log = [] :=
  List.eq_nil_iff_forall_not_mem.mpr fun a ha => hn a ((h.mem_iff a).mp ha)

theorem Ledger.length_eq {a : A} (ha : did a) : log.length = 1 :=
  le_antisymm h.length_le (List.length_pos_of_mem ((h.mem_iff a).mpr ha))

theorem Ledger.record (hn : ∀ a, ¬did a) {a : A} (hdid : ∀ b, did' b ↔ b = a) : Ledger did' (log ++ [a]) := by
  rw [h.eq_nil hn]
  refine ⟨fun b => ?_, le_refl _⟩
  rw [hdid b]
  exact List.mem_singleton

end

end Ledger

end Bionic.Lib
