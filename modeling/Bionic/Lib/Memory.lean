import Mathlib.Order.Basic

namespace Bionic.Lib

open List

variable {α : Type*} {m m' : ℕ → α} {p n i : ℕ} {xs : List α}

def load (m : ℕ → α) (p n : ℕ) : List α := (range n).map fun i => m (p + i)

def store (m : ℕ → α) (p : ℕ) (xs : List α) : ℕ → α :=
  fun i => if p ≤ i then xs[i - p]?.getD (m i) else m i

@[simp]
theorem length_load (m : ℕ → α) (p n : ℕ) : (load m p n).length = n := by
  rw [load, length_map, length_range]

theorem store_of_lt (h : i < p) : store m p xs i = m i := if_neg (by omega)

theorem store_of_le (h : p + xs.length ≤ i) : store m p xs i = m i := by
  rw [store, if_pos (by omega), getElem?_eq_none (by omega), Option.getD_none]

theorem store_inside (h : i < xs.length) : store m p xs (p + i) = xs[i] := by
  rw [store, if_pos (by omega), Nat.add_sub_cancel_left, getElem?_eq_getElem h, Option.getD_some]

theorem store_singleton (m : ℕ → α) (p : ℕ) (x : α) : store m p [x] p = x := by
  rw [store, if_pos (Nat.le_refl p), Nat.sub_self]
  rfl

theorem store_singleton_of_ne {x : α} (h : i ≠ p) : store m p [x] i = m i := by
  obtain hlt | hlt := Nat.lt_or_gt_of_ne h
  · exact store_of_lt hlt
  · exact store_of_le hlt

theorem load_store (m : ℕ → α) (p : ℕ) (xs : List α) : load (store m p xs) p xs.length = xs := by
  apply ext_getElem
  · rw [length_load]
  · intro i hi hi'
    simp only [load, getElem_map, getElem_range]
    exact store_inside hi'

theorem load_congr (h : ∀ i, p ≤ i → i < p + n → m i = m' i) : load m p n = load m' p n := by
  apply map_congr_left
  intro i hi
  have hlt := mem_range.mp hi
  exact h (p + i) (by omega) (by omega)

def Holds (m : ℕ → α) : ℕ → List α → Prop
  | _, [] => True
  | p, x :: xs => m p = x ∧ Holds m (p + 1) xs

theorem holds_append {ys : List α} : Holds m p (xs ++ ys) ↔ Holds m p xs ∧ Holds m (p + xs.length) ys := by
  induction xs generalizing p with
  | nil => exact ⟨fun h => ⟨trivial, h⟩, fun h => h.2⟩
  | cons x xs ih => rw [cons_append, Holds, Holds, ih, length_cons, and_assoc, Nat.add_right_comm, Nat.add_assoc]

theorem Holds.congr (h : Holds m p xs) (heq : ∀ i, p ≤ i → i < p + xs.length → m' i = m i) : Holds m' p xs := by
  induction xs generalizing p with
  | nil => trivial
  | cons x xs ih =>
    rw [length_cons] at heq
    exact ⟨(heq p (Nat.le_refl p) (by omega)).trans h.1, ih h.2 fun i hi hi' => heq i (by omega) (by omega)⟩

theorem Holds.get (h : Holds m p xs) (hi : i < xs.length) : m (p + i) = xs[i] := by
  induction xs generalizing p i with
  | nil => cases hi
  | cons x xs ih =>
    cases i with
    | zero => exact h.1
    | succ i =>
      rw [← Nat.add_assoc, Nat.add_right_comm]
      exact ih h.2 (Nat.lt_of_succ_lt_succ hi)

theorem holds_store (m : ℕ → α) (p : ℕ) (xs : List α) : Holds (store m p xs) p xs := by
  induction xs generalizing m p with
  | nil => trivial
  | cons x xs ih =>
    refine ⟨?_, (ih m (p + 1)).congr fun i hi hi' => ?_⟩
    · rw [store, if_pos (Nat.le_refl p), Nat.sub_self]
      rfl
    · obtain ⟨j, rfl⟩ := Nat.exists_eq_add_of_le hi
      rw [store_inside (by omega), Nat.add_assoc, store_inside (by rw [length_cons]; omega)]
      simp only [Nat.add_comm 1 j, getElem_cons_succ]

theorem Holds.load_eq (h : Holds m p xs) : load m p xs.length = xs := by
  apply ext_getElem
  · rw [length_load]
  · intro i hi hi'
    simp only [load, getElem_map, getElem_range]
    exact h.get hi'

end Bionic.Lib
