import Mathlib.Data.List.DropRight
import Mathlib.Data.List.Rotate

namespace Bionic.Lib

open Function List Nat

variable {α : Type*} {max count next : Nat} {cells : Nat → α} {h : List α}

/-- A ring of `max` cells after the values of `h` went into it in this order: `next` is the cell the following value
goes to, `count` the number of cells in use. -/
structure RingOf (max : Nat) (cells : Nat → α) (count next : Nat) (h : List α) : Prop where
  count_eq : count = min h.length max
  next_eq : next = if max = 0 then 0 else h.length % max
  cells_eq : ∀ j (hj : j < h.length), h.length ≤ j + max → cells (j % max) = h[j]

namespace RingOf

theorem empty (max : Nat) (cells : Nat → α) : RingOf max cells 0 0 [] where
  count_eq := by simp
  next_eq := by simp
  cells_eq j hj := absurd hj (not_lt_zero j)

theorem next_of_count (hr : RingOf max cells count next h) (h0 : count = 0) : next = 0 := by
  rw [hr.next_eq]
  split
  · rfl
  · have hlen : h.length = 0 := by
      have := hr.count_eq
      omega
    rw [hlen, zero_mod]

theorem next_lt (hr : RingOf max cells count next h) (hmax : 0 < max) : next < max := by
  rw [hr.next_eq, if_neg hmax.ne']
  exact mod_lt _ hmax

theorem push_of_zero (hr : RingOf 0 cells count next h) (x : α) : RingOf 0 cells count next (h ++ [x]) where
  count_eq := by simp [hr.count_eq]
  next_eq := hr.next_eq
  cells_eq j hj hle := absurd hj (by omega)

theorem succ_mod (n : Nat) (hmax : 0 < max) : (n + 1) % max = if max ≤ n % max + 1 then 0 else n % max + 1 := by
  have hlt := mod_lt n hmax
  rw [← mod_add_mod]
  split
  · rw [show n % max + 1 = max by omega, mod_self]
  · exact mod_eq_of_lt (by omega)

section

variable (hr : RingOf max cells count next h)
include hr

theorem push (hmax : 0 < max) (x : α) :
    RingOf max (update cells next x) (if count < max then count + 1 else count)
      (if max ≤ next + 1 then 0 else next + 1) (h ++ [x]) := by
  have hn : next = h.length % max := by rw [hr.next_eq, if_neg hmax.ne']
  refine ⟨?_, ?_, ?_⟩
  · have := hr.count_eq
    rw [length_append, length_singleton]
    split <;> omega
  · rw [if_neg hmax.ne', length_append, length_singleton, succ_mod _ hmax, hn]
  · intro j hj hle
    rw [length_append, length_singleton] at hj hle
    by_cases hl : j = h.length
    · subst hl
      rw [← hn, update_self]
      simp
    · -- the cells of the last values differ from each other: they lie less than one turn apart
      have hne : j % max ≠ next := by
        intro heq
        rw [hn] at heq
        have hz := sub_mod_eq_zero_of_mod_eq heq.symm
        rw [mod_eq_of_lt (by omega)] at hz
        omega
      rw [update_of_ne hne, getElem_append_left (by omega)]
      exact hr.cells_eq j (by omega) (by omega)

/-- The cells in use, read from the oldest value on, hold the last `max` values. -/
theorem rotate_held : ((range count).map cells).rotate next = h.rtake max := by
  have hco := hr.count_eq
  apply ext_getElem
  · rw [length_rotate, length_map, length_range, rtake, length_drop]
    omega
  · intro k hk hk'
    rw [length_rotate, length_map, length_range] at hk
    have hmax : max ≠ 0 := by omega
    have hn : next = h.length % max := by rw [hr.next_eq, if_neg hmax]
    have hc : (k + next) % count = (h.length - count + k) % max := by
      by_cases hf : max ≤ h.length
      · have heq : count = max := by omega
        rw [heq, hn, Nat.add_mod_mod, show k + h.length = h.length - max + k + max by omega, Nat.add_mod_right]
      · have heq : count = h.length := by omega
        have hp : h.length % max = h.length := Nat.mod_eq_of_lt (by omega)
        rw [hn, hp, heq, Nat.add_mod_right, Nat.mod_eq_of_lt (by omega), Nat.sub_self, Nat.zero_add,
          Nat.mod_eq_of_lt (by omega)]
    have hget := hr.cells_eq (h.length - count + k) (by omega) (by omega)
    simp only [getElem_rotate, getElem_map, getElem_range, length_map, length_range, rtake,
      getElem_drop]
    rw [hc, hget]
    congr 1
    omega

theorem held_perm : ((range count).map cells).Perm (h.rtake max) := by
  rw [← hr.rotate_held]
  exact (rotate_perm _ _).symm

theorem newest (hco : 0 < count) :
    (h.rtake max).getLast? = some (if 0 < next then cells (next - 1) else cells (count - 1)) := by
  have hc := hr.count_eq
  have hmax : 0 < max := by omega
  have hn : next = h.length % max := by rw [hr.next_eq, if_neg hmax.ne']
  have ht := succ_mod (h.length - 1) hmax
  rw [Nat.sub_add_cancel (by omega), ← hn] at ht
  have hl : (h.rtake max).getLast? = some (cells ((h.length - 1) % max)) := by
    rw [hr.cells_eq (h.length - 1) (by omega) (by omega), rtake, getLast?_drop, if_neg (by omega),
      getLast?_eq_getElem?, getElem?_eq_getElem]
  rw [hl]
  have hlt := mod_lt (h.length - 1) hmax
  by_cases hw : max ≤ (h.length - 1) % max + 1
  · rw [if_pos hw] at ht
    have hf : max ≤ h.length := by
      by_contra hnot
      rw [mod_eq_of_lt (by omega)] at hn
      omega
    rw [if_neg (by omega), show (h.length - 1) % max = count - 1 by omega]
  · rw [if_neg hw] at ht
    rw [if_pos (by omega), ht, Nat.add_sub_cancel]

end

end RingOf

end Bionic.Lib
