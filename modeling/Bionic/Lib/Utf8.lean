import Mathlib.Data.List.Basic

namespace Bionic.Lib.Utf8

variable (b : UInt8)

def leadLength : Option ℕ :=
  if b < 0x80 then some 1
  else if b < 0xc0 then none
  else if b < 0xe0 then some 2
  else if b < 0xf0 then some 3
  else if b < 0xf8 then some 4
  else none

def IsCont : Prop := 0x80 ≤ b ∧ b < 0xc0

instance (b : UInt8) : Decidable (IsCont b) := instDecidableAnd

/-- The bits of the first byte that belong to the character are those below this. -/
@[simp] def leadBits : ℕ → ℕ
  | 1 => 128
  | 2 => 32
  | 3 => 16
  | _ => 8

def lowest : ℕ → ℕ
  | 1 => 0
  | 2 => 0x80
  | 3 => 0x800
  | _ => 0x10000

def extend (v : ℕ) (bs : List UInt8) : ℕ := bs.foldl (fun v b => v * 64 + b.toNat % 64) v

/-- The character that the bits of the bytes give, in the shortest form or not. -/
def value (bs : List UInt8) : ℕ := extend (b.toNat % leadBits (bs.length + 1)) bs

theorem leadLength_iff {b : UInt8} {n : ℕ} :
    leadLength b = some n ↔ n = 1 ∧ b.toNat < 0x80 ∨ n = 2 ∧ 0xc0 ≤ b.toNat ∧ b.toNat < 0xe0 ∨
      n = 3 ∧ 0xe0 ≤ b.toNat ∧ b.toNat < 0xf0 ∨ n = 4 ∧ 0xf0 ≤ b.toNat ∧ b.toNat < 0xf8 := by
  simp only [leadLength, UInt8.lt_iff_toNat_lt]
  grind

theorem isCont_iff {b : UInt8} : IsCont b ↔ 0x80 ≤ b.toNat ∧ b.toNat < 0xc0 := by
  rfl

/-- The bytes of a character are a first byte that gives their number and continuation bytes, in the shortest form. -/
structure Encodes (b : UInt8) (bs : List UInt8) (c : Char) : Prop where
  length : leadLength b = some (bs.length + 1)
  cont : ∀ x ∈ bs, IsCont x
  value : value b bs = c.toNat
  lowest : lowest (bs.length + 1) ≤ c.toNat

theorem encodes_iff {b : UInt8} {bs : List UInt8} {c : Char} :
    Encodes b bs c ↔ leadLength b = some (bs.length + 1) ∧ (∀ x ∈ bs, IsCont x) ∧ value b bs = c.toNat ∧
      lowest (bs.length + 1) ≤ c.toNat :=
  ⟨fun h => ⟨h.length, h.cont, h.value, h.lowest⟩, fun ⟨hl, hc, hv, hs⟩ => ⟨hl, hc, hv, hs⟩⟩

theorem toNat_lt (c : Char) : c.toNat < 0x110000 := by
  obtain h | h := c.valid
  · exact Nat.lt_trans h (by decide)
  · exact h.2

section Lengths

variable {b x y z : UInt8} {bs : List UInt8} {c : Char}

theorem encodes_one : Encodes b [] c ↔ b.toNat < 0x80 ∧ b.toNat = c.toNat := by
  simp [encodes_iff, leadLength_iff, value, extend, lowest]
  omega

theorem encodes_two :
    Encodes b [x] c ↔ (0xc0 ≤ b.toNat ∧ b.toNat < 0xe0) ∧ (0x80 ≤ x.toNat ∧ x.toNat < 0xc0) ∧
      b.toNat % 32 * 64 + x.toNat % 64 = c.toNat ∧ 0x80 ≤ c.toNat := by
  simp [encodes_iff, leadLength_iff, isCont_iff, value, extend, lowest]

theorem encodes_three :
    Encodes b [x, y] c ↔ (0xe0 ≤ b.toNat ∧ b.toNat < 0xf0) ∧ (0x80 ≤ x.toNat ∧ x.toNat < 0xc0) ∧
      (0x80 ≤ y.toNat ∧ y.toNat < 0xc0) ∧ (b.toNat % 16 * 64 + x.toNat % 64) * 64 + y.toNat % 64 = c.toNat ∧
      0x800 ≤ c.toNat := by
  simp [encodes_iff, leadLength_iff, isCont_iff, value, extend, lowest, and_assoc]

theorem encodes_four :
    Encodes b [x, y, z] c ↔ (0xf0 ≤ b.toNat ∧ b.toNat < 0xf8) ∧ (0x80 ≤ x.toNat ∧ x.toNat < 0xc0) ∧
      (0x80 ≤ y.toNat ∧ y.toNat < 0xc0) ∧ (0x80 ≤ z.toNat ∧ z.toNat < 0xc0) ∧
      ((b.toNat % 8 * 64 + x.toNat % 64) * 64 + y.toNat % 64) * 64 + z.toNat % 64 = c.toNat ∧ 0x10000 ≤ c.toNat := by
  simp [encodes_iff, leadLength_iff, isCont_iff, value, extend, lowest, and_assoc]

theorem Encodes.length_le (h : Encodes b bs c) : bs.length ≤ 3 := by
  have hl := leadLength_iff.mp h.length
  omega

/-- The structure says what the encoder of the library does. -/
theorem eq_utf8EncodeChar_iff : b :: bs = String.utf8EncodeChar c ↔ Encodes b bs c := by
  have hc := toNat_lt c
  simp only [String.utf8EncodeChar, Char.toNat_val]
  match bs with
  | [] =>
    rw [encodes_one]
    split_ifs <;> simp [← UInt8.toNat_inj] <;> omega
  | [x] =>
    rw [encodes_two]
    split_ifs <;> simp [← UInt8.toNat_inj] <;> omega
  | [x, y] =>
    rw [encodes_three]
    split_ifs <;> simp [← UInt8.toNat_inj] <;> omega
  | [x, y, z] =>
    rw [encodes_four]
    split_ifs <;> simp [← UInt8.toNat_inj] <;> omega
  | x :: y :: z :: u :: us =>
    have hl : ¬Encodes b (x :: y :: z :: u :: us) c := fun h => absurd h.length_le (by simp)
    split_ifs <;> simp [hl]

end Lengths

end Bionic.Lib.Utf8
