import Mathlib.Data.Nat.Bitwise

namespace Bionic.Properties

def propValueMax : Nat := 92

variable (serial : UInt32)

def serialDirty : Bool := serial &&& 1 != 0

def serialValueLen : Nat := (serial >>> 24).toNat

/-- The serial stored at the end of Update, from the dirty serial and the length of the new value. -/
def nextSerial (len : Nat) : UInt32 :=
  (UInt32.ofNat len <<< 24) ||| ((serial + 1) &&& 0xffffff)

def serialCount : Nat := serial.toNat % 2 ^ 24

theorem serialDirty_eq (serial : UInt32) : serialDirty serial = decide (serial.toNat % 2 = 1) := by
  have h : (serial &&& 1).toNat = serial.toNat % 2 := by
    exact Nat.and_one_is_mod _
  by_cases hz : serial.toNat % 2 = 1
  · have hne : serial &&& 1 ≠ 0 := fun he => by simp [he, hz] at h
    simp [serialDirty, hne, hz]
  · have he : serial &&& 1 = 0 := UInt32.toNat.inj (by rw [h]; simp; omega)
    simp [serialDirty, he, hz]

theorem serialValueLen_eq (serial : UInt32) : serialValueLen serial = serial.toNat / 2 ^ 24 := by
  simp [serialValueLen, Nat.shiftRight_eq_div_pow]

variable {serial : UInt32}

section

variable (h : serialDirty serial = false)
include h

theorem toNat_mark : (serial ||| 1).toNat = serial.toNat + 1 := by
  rw [serialDirty_eq] at h
  obtain ⟨k, hk⟩ : ∃ k, serial.toNat = 2 ^ 1 * k := ⟨serial.toNat / 2, by simp at h; omega⟩
  rw [UInt32.toNat_or, hk]
  exact (Nat.two_pow_add_eq_or_of_lt (by decide) k).symm

theorem mark_dirty : serialDirty (serial ||| 1) := by
  have hm := toNat_mark h
  rw [serialDirty_eq] at h ⊢
  simp only [decide_eq_false_iff_not] at h
  rw [hm]
  simp; omega

theorem mark_valueLen : serialValueLen (serial ||| 1) = serialValueLen serial := by
  rw [serialValueLen_eq, serialValueLen_eq, toNat_mark h]
  rw [serialDirty_eq] at h
  simp at h
  omega

theorem mark_inj {serial' : UInt32} (h' : serialDirty serial' = false)
    (he : serial ||| 1 = serial' ||| 1) : serial = serial' := by
  have hn := congrArg UInt32.toNat he
  rw [toNat_mark h, toNat_mark h'] at hn
  exact UInt32.toNat.inj (by omega)

end

variable {len : Nat}

section

variable (h : serialDirty serial = false)
include h

section

variable (hl : len < 2 ^ 8)

include hl

theorem toNat_nextSerial : (nextSerial (serial ||| 1) len).toNat = 2 ^ 24 * len + (serial.toNat + 2) % 2 ^ 24 := by
  have hlen : (UInt32.ofNat len <<< 24).toNat = 2 ^ 24 * len := by
    simp; omega
  have hlow : ((serial ||| 1) + 1 &&& 0xffffff : UInt32).toNat = (serial.toNat + 2) % 2 ^ 24 := by
    rw [UInt32.toNat_and, UInt32.toNat_add, toNat_mark h]
    rw [show (0xffffff : UInt32).toNat = 2 ^ 24 - 1 from rfl, Nat.and_two_pow_sub_one_eq_mod]
    simp
  rw [nextSerial, UInt32.toNat_or, hlen, hlow]
  exact (Nat.two_pow_add_eq_or_of_lt (Nat.mod_lt _ (by decide)) len).symm

theorem nextSerial_clean : serialDirty (nextSerial (serial ||| 1) len) = false := by
  have hn := toNat_nextSerial h hl
  rw [serialDirty_eq] at h ⊢
  simp at h ⊢
  omega

theorem nextSerial_valueLen : serialValueLen (nextSerial (serial ||| 1) len) = len := by
  rw [serialValueLen_eq, toNat_nextSerial h hl]
  omega

theorem nextSerial_count : serialCount (nextSerial (serial ||| 1) len) = (serialCount serial + 2) % 2 ^ 24 := by
  rw [serialCount, serialCount, toNat_nextSerial h hl]
  omega

end

end

end Bionic.Properties
