import Mathlib.Data.Nat.Bitwise

namespace Bionic.Lib

open Nat

def fieldMask (shift len : Nat) : Nat := (2 ^ len - 1) * 2 ^ shift

theorem and_fieldMask (x shift len : Nat) : x &&& fieldMask shift len = x / 2 ^ shift % 2 ^ len * 2 ^ shift := by
  apply eq_of_testBit_eq
  intro i
  rw [fieldMask, Nat.testBit_and, Nat.testBit_mul_two_pow, Nat.testBit_mul_two_pow, Nat.testBit_mod_two_pow, Nat.testBit_div_two_pow]
  by_cases hi : shift ≤ i
  · rw [Nat.sub_add_cancel hi]
    simp [hi, Bool.and_comm]
  · simp [hi]

theorem or_low {x y s : Nat} (hy : y < 2 ^ s) (hx : x % 2 ^ s = 0) : x ||| y = x + y := by
  obtain ⟨a, rfl⟩ := dvd_of_mod_eq_zero hx
  exact (two_pow_add_eq_or_of_lt hy a).symm

theorem xor_low {x y s : Nat} (hy : y < 2 ^ s) : x ^^^ y = 2 ^ s * (x / 2 ^ s) + (x % 2 ^ s ^^^ y) := by
  have hdiv : (x ^^^ y) / 2 ^ s = x / 2 ^ s := by
    rw [xor_div_two_pow, div_eq_of_lt hy, xor_zero]
  have hmod : (x ^^^ y) % 2 ^ s = x % 2 ^ s ^^^ y := by
    rw [xor_mod_two_pow, mod_eq_of_lt hy]
  rw [← hdiv, ← hmod, div_add_mod]

end Bionic.Lib
