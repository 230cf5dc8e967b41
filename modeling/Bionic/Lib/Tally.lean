import Mathlib.Algebra.Order.BigOperators.Group.List
import Mathlib.Algebra.Order.Monoid.Prod

namespace Bionic.Lib

open List

variable {α κ M : Type*} [DecidableEq κ]

def tally [AddCommMonoid M] (key : α → Option κ) (w : α → M) (l : List α) (k : κ) : M :=
  (l.map fun a => if key a = some k then w a else 0).sum

section Monoid

variable [AddCommMonoid M] (key : α → Option κ) (w : α → M)

theorem tally_cons (a : α) (l : List α) (k : κ) :
    tally key w (a :: l) k = (if key a = some k then w a else 0) + tally key w l k := by
  rw [tally, map_cons, sum_cons, tally]

theorem tally_append (l₁ l₂ : List α) (k : κ) : tally key w (l₁ ++ l₂) k = tally key w l₁ k + tally key w l₂ k := by
  rw [tally, map_append, sum_append, tally, tally]

theorem tally_middle (l₁ l₂ : List α) (a : α) (k : κ) :
    tally key w (l₁ ++ a :: l₂) k = (if key a = some k then w a else 0) + tally key w (l₁ ++ l₂) k := by
  rw [tally_append, tally_cons, tally_append, add_left_comm]

end Monoid

section Group

variable [AddCommGroup M] (key : α → Option κ) (w : α → M)

variable (l₁ l₂ : List α)

theorem tally_remove (a : α) (k : κ) :
    tally key w (l₁ ++ l₂) k = (if key a = some k then -w a else 0) + tally key w (l₁ ++ a :: l₂) k := by
  rw [tally_middle]
  split
  · rw [neg_add_cancel_left]
  · rw [zero_add, zero_add]

theorem tally_replace {a b : α} (h : key b = key a) (k : κ) :
    tally key w (l₁ ++ b :: l₂) k = (if key a = some k then w b - w a else 0) + tally key w (l₁ ++ a :: l₂) k := by
  rw [tally_middle, tally_middle, h]
  split
  · rw [← add_assoc, sub_add_cancel]
  · rw [zero_add, zero_add]

theorem tally_merge (l₃ : List α) {a b c : α} (ha : key a = key c) (hb : key b = key c) (k : κ) :
    tally key w (l₁ ++ b :: (l₂ ++ l₃)) k =
      (if key c = some k then w b - (w a + w c) else 0) + tally key w (l₁ ++ a :: (l₂ ++ c :: l₃)) k := by
  have hs : tally key w (l₁ ++ (l₂ ++ c :: l₃)) k =
      (if key c = some k then w c else 0) + tally key w (l₁ ++ (l₂ ++ l₃)) k := by
    rw [← append_assoc, tally_middle, append_assoc]
  rw [tally_middle, tally_middle, hs, ha, hb]
  split
  · rw [← add_assoc (w a), ← add_assoc, sub_add_cancel]
  · simp only [zero_add]

end Group

section Ordered

variable [AddCommMonoid M] [PartialOrder M] [IsOrderedAddMonoid M] {key : α → Option κ} {w : α → M}

theorem tally_nonneg (hw : ∀ a, 0 ≤ w a) (l : List α) (k : κ) : 0 ≤ tally key w l k := by
  apply sum_nonneg
  intro x hx
  obtain ⟨a, -, rfl⟩ := mem_map.mp hx
  split
  · exact hw a
  · exact le_rfl

theorem le_tally (hw : ∀ a, 0 ≤ w a) {l : List α} {a : α} (ha : a ∈ l) {k : κ} (hk : key a = some k) :
    w a ≤ tally key w l k := by
  obtain ⟨l₁, l₂, rfl⟩ := append_of_mem ha
  rw [tally_middle, if_pos hk]
  exact le_add_of_nonneg_right (tally_nonneg hw _ _)

end Ordered

end Bionic.Lib
