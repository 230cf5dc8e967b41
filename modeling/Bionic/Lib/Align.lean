import Mathlib.Data.Nat.Bitwise

namespace Bionic.Lib

variable (k : Nat) (x : UInt64)

def alignDown : UInt64 := x &&& ~~~(UInt64.ofNat (2 ^ k - 1))

def alignOffset : UInt64 := x &&& UInt64.ofNat (2 ^ k - 1)

/-- Round up to a multiple of `2 ^ k`, wrapping at the end of the address space. -/
def alignUp : UInt64 := alignDown k (x + UInt64.ofNat (2 ^ k - 1))

theorem toNat_ofNat_mask {k : Nat} (hk : k ≤ 64) : (UInt64.ofNat (2 ^ k - 1)).toNat = 2 ^ k - 1 := by
  have h : 2 ^ k ≤ 2 ^ 64 := Nat.pow_le_pow_right (by decide) hk
  rw [UInt64.toNat_ofNat']
  exact Nat.mod_eq_of_lt (by omega)

theorem toNat_alignOffset {k : Nat} (hk : k ≤ 64) (x : UInt64) : (alignOffset k x).toNat = x.toNat % 2 ^ k := by
  rw [alignOffset, UInt64.toNat_and, toNat_ofNat_mask hk, Nat.and_two_pow_sub_one_eq_mod]

theorem and_high_mask {w k : Nat} (hk : k ≤ w) {x : Nat} (hx : x < 2 ^ w) :
    x &&& (2 ^ w - 1 - (2 ^ k - 1)) = x / 2 ^ k * 2 ^ k := by
  have h : 2 ^ k ≤ 2 ^ w := Nat.pow_le_pow_right (by decide) hk
  apply Nat.eq_of_testBit_eq
  intro i
  rw [Nat.sub_right_comm, Nat.sub_sub, Nat.testBit_and, Nat.testBit_two_pow_sub_succ (by omega),
    Nat.testBit_two_pow_sub_one, Nat.testBit_mul_two_pow, Nat.testBit_div_two_pow]
  by_cases hi : i < k
  · simp [hi]
  · have hle : k ≤ i := not_lt.1 hi
    by_cases hl : i < w
    · simp [hi, hl, hle]
    · have hb : x.testBit i = false :=
        Nat.testBit_lt_two_pow (hx.trans_le (Nat.pow_le_pow_right (by decide) (not_lt.1 hl)))
      simp [hb, hle]

theorem toNat_alignDown {k : Nat} (hk : k ≤ 64) (x : UInt64) : (alignDown k x).toNat = x.toNat / 2 ^ k * 2 ^ k := by
  rw [alignDown, UInt64.toNat_and, UInt64.toNat_not, toNat_ofNat_mask hk]
  exact and_high_mask hk x.toNat_lt

theorem toNat_alignUp {k : Nat} (hk : k ≤ 64) (x : UInt64) :
    (alignUp k x).toNat = (x.toNat + (2 ^ k - 1)) % 2 ^ 64 / 2 ^ k * 2 ^ k := by
  rw [alignUp, toNat_alignDown hk, UInt64.toNat_add, toNat_ofNat_mask hk]

end Bionic.Lib
