import Mathlib.Algebra.Order.Group.Nat

namespace Bionic.Lib

open List Nat

def roundUp (x a : Nat) : Nat := (x + (a - 1)) / a * a

theorem dvd_roundUp (x a : Nat) : a ∣ roundUp x a := Nat.dvd_mul_left a _

theorem le_roundUp (x : Nat) {a : Nat} (ha : 0 < a) : x ≤ roundUp x a := by
  have hdiv := div_add_mod (x + (a - 1)) a
  have hmod := mod_lt (x + (a - 1)) ha
  rw [mul_comm] at hdiv
  rw [roundUp]
  omega

theorem roundUp_lt (x : Nat) {a : Nat} (ha : 0 < a) : roundUp x a < x + a := by
  have hdiv := div_mul_le_self (x + (a - 1)) a
  rw [roundUp]
  omega

theorem roundUp_of_dvd {x a : Nat} (ha : 0 < a) (h : a ∣ x) : roundUp x a = x := by
  obtain ⟨c, rfl⟩ := h
  have hlt : a - 1 < a := by omega
  rw [roundUp, mul_add_div ha, div_eq_of_lt hlt, add_zero, mul_comm]

theorem roundUp_of_le {x a : Nat} (hx : 0 < x) (h : x ≤ a) : roundUp x a = a := by
  have hdvd := dvd_roundUp x a
  have hle := le_roundUp x (by omega : 0 < a)
  have hlt := roundUp_lt x (by omega : 0 < a)
  obtain ⟨c, hc⟩ := hdvd
  rw [hc] at hle hlt ⊢
  have hone : c = 1 := by
    rcases c with - | - | c
    · omega
    · rfl
    · rw [Nat.mul_add, Nat.mul_add] at hlt
      omega
  rw [hone, mul_one]

structure Region where
  start : Nat
  size : Nat
  align : Nat
  deriving DecidableEq

def Region.stop (r : Region) : Nat := r.start + r.size

def Region.Apart (r s : Region) : Prop := r.stop ≤ s.start ∨ s.stop ≤ r.start

instance (r s : Region) : Decidable (r.Apart s) := inferInstanceAs (Decidable (_ ∨ _))

structure Packed (rs : List Region) (limit : Nat) : Prop where
  apart : rs.Pairwise Region.Apart
  inside : ∀ r ∈ rs, r.stop ≤ limit
  aligned : ∀ r ∈ rs, r.align ∣ r.start

theorem Packed.nil (limit : Nat) : Packed [] limit := ⟨.nil, by simp, by simp⟩

theorem Packed.pair {r s : Region} {limit : Nat} (ha : r.Apart s) (hr : r.stop ≤ limit) (hs : s.stop ≤ limit)
    (har : r.align ∣ r.start) (has : s.align ∣ s.start) : Packed [r, s] limit := by
  refine ⟨?_, ?_, ?_⟩
  · simpa using ha
  · simp [hr, hs]
  · simp [har, has]

theorem Packed.mono {rs : List Region} {m n : Nat} (h : Packed rs m) (hmn : m ≤ n) : Packed rs n :=
  ⟨h.apart, fun r hr => (h.inside r hr).trans hmn, h.aligned⟩

theorem Packed.push {rs : List Region} {limit : Nat} (h : Packed rs limit) {r : Region} (hst : limit ≤ r.start)
    (ha : r.align ∣ r.start) : Packed (rs ++ [r]) r.stop := by
  refine ⟨?_, ?_, ?_⟩
  · rw [pairwise_append]
    refine ⟨h.apart, pairwise_singleton _ _, ?_⟩
    intro s hs s' hs'
    rw [mem_singleton.1 hs']
    exact .inl ((h.inside s hs).trans hst)
  · refine forall_mem_append.2 ⟨fun s hs => ?_, forall_mem_singleton.2 le_rfl⟩
    exact (h.inside s hs).trans (hst.trans (le_add_right _ _))
  · exact forall_mem_append.2 ⟨h.aligned, forall_mem_singleton.2 ha⟩

end Bionic.Lib
