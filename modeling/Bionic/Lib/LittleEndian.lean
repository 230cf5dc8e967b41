import Mathlib.Algebra.Order.Ring.Nat

namespace Bionic.Lib

def leBytes : ℕ → ℕ → List UInt8
  | 0, _ => []
  | k + 1, n => UInt8.ofNat n :: leBytes k (n / 256)

def leValue : List UInt8 → ℕ
  | [] => 0
  | b :: bs => b.toNat + 256 * leValue bs

variable (k n : ℕ) (bs : List UInt8)

@[simp]
theorem length_leBytes : (leBytes k n).length = k := by
  induction k generalizing n with
  | zero => rfl
  | succ k ih => rw [leBytes, List.length_cons, ih]

theorem leValue_leBytes : leValue (leBytes k n) = n % 256 ^ k := by
  induction k generalizing n with
  | zero => rw [leBytes, leValue, pow_zero, Nat.mod_one]
  | succ k ih =>
    have hlow : (UInt8.ofNat n).toNat = n % 256 := rfl
    rw [leBytes, leValue, ih, hlow, pow_succ', Nat.mod_mul]

theorem leBytes_leValue : leBytes bs.length (leValue bs) = bs := by
  induction bs with
  | nil => rfl
  | cons b bs ih =>
    have hb := b.toNat_lt
    have hlow : UInt8.ofNat (leValue (b :: bs)) = b := by
      rw [← UInt8.toNat_inj, UInt8.toNat_ofNat', leValue]
      omega
    have hh : leValue (b :: bs) / 256 = leValue bs := by
      rw [leValue]
      omega
    rw [List.length_cons, leBytes, hlow, hh, ih]

def byteSwap : ℕ := leValue (leBytes k n).reverse

theorem leBytes_byteSwap : leBytes k (byteSwap k n) = (leBytes k n).reverse := by
  have h := leBytes_leValue (leBytes k n).reverse
  rwa [List.length_reverse, length_leBytes] at h

theorem byteSwap_leValue_reverse : byteSwap bs.length (leValue bs.reverse) = leValue bs := by
  have h := leBytes_leValue bs.reverse
  rw [List.length_reverse] at h
  rw [byteSwap, h, List.reverse_reverse]

end Bionic.Lib
