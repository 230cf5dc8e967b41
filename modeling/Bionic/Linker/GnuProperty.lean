import Bionic.Lib.LittleEndian

namespace Bionic.Linker.GnuProperty

open Lib List

variable (desc : List UInt8) (aarch64 : Bool)

/-- A 32-bit field of the descriptor, unless it lies outside. -/
def word (i : ℕ) : Option ℕ := if i + 4 ≤ desc.length then some (leValue ((desc.drop i).take 4)) else none

/-- `align_up(sizeof(ElfW(Prop)) + pr_datasz, sizeof(ElfW(Addr)))` does not overflow, but is stored in 32 bits. -/
def propertySize (prDatasz : ℕ) : ℕ := (8 + prDatasz + 7) / 8 * 8 % 2 ^ 32

inductive Outcome
  | done (accepted btiCompatible : Bool)
  | outside
  | running

def parseLoop : ℕ → ℕ → Bool → Outcome
  | 0, _, _ => .running
  | fuel + 1, offset, bti =>
    if offset < desc.length then
      if desc.length - offset < 8 then .done false bti
      else
        match word desc offset, word desc (offset + 4) with
        | some prType, some prDatasz =>
          if desc.length - offset < propertySize prDatasz then .done false bti
          else if aarch64 ∧ prType = 0xc0000000 then
            if prDatasz ≠ 4 then .done false bti
            else
              match word desc (offset + 8) with
              | some flags => parseLoop fuel ((offset + propertySize prDatasz) % 2 ^ 32) (flags &&& 1 ≠ 0)
              | none => .outside
          else parseLoop fuel ((offset + propertySize prDatasz) % 2 ^ 32) bti
        | _, _ => .outside
    else .done true bti

def datasz : ℕ := leValue ((desc.drop 4).take 4)

def prType : ℕ := leValue (desc.take 4)

def fullSize (prDatasz : ℕ) : ℕ := (8 + prDatasz + 7) / 8 * 8

def FeatureInvalid : Prop := aarch64 ∧ prType desc = 0xc0000000 ∧ datasz desc ≠ 4

/-- Properties of `8 + pr_datasz` bytes, padded to 8, and nothing else. -/
inductive Sequence : List UInt8 → Prop
  | nil : Sequence []
  | cons {l : List UInt8} (hle : fullSize (datasz l) ≤ l.length) (h : Sequence (l.drop (fullSize (datasz l)))) :
      Sequence l

/-- Followed by the stored sizes, the properties come to one that is cut, does not fit or has no valid feature. -/
inductive Malformed (aarch64 : Bool) : List UInt8 → Prop
  | cut {l} (h0 : l ≠ []) (h8 : l.length < 8) : Malformed aarch64 l
  | short {l} (h8 : 8 ≤ l.length) (hlt : l.length < propertySize (datasz l)) : Malformed aarch64 l
  | feature {l} (h8 : 8 ≤ l.length) (hf : FeatureInvalid l aarch64) : Malformed aarch64 l
  | later {l} (h8 : 8 ≤ l.length) (hle : propertySize (datasz l) ≤ l.length)
      (h : Malformed aarch64 (l.drop (propertySize (datasz l)))) : Malformed aarch64 l

variable {desc aarch64} {fuel offset : ℕ} {l : List UInt8} {bti : Bool}

theorem word_drop (hle : offset ≤ desc.length) (i : ℕ) : word (desc.drop offset) i = word desc (offset + i) := by
  rw [word, word, drop_drop, length_drop]
  exact if_congr (by omega) rfl rfl

/-- Only what lies behind the offset matters. -/
theorem parseLoop_drop (hlen : desc.length < 2 ^ 32) (hle : offset ≤ desc.length) (bti : Bool) :
    parseLoop desc aarch64 fuel offset bti = parseLoop (desc.drop offset) aarch64 fuel 0 bti := by
  induction fuel generalizing desc offset bti with
  | zero => rfl
  | succ fuel ih =>
    have hnext {d : ℕ} (hfit : ¬desc.length - offset < propertySize d) (bti : Bool) :
        parseLoop desc aarch64 fuel ((offset + propertySize d) % 2 ^ 32) bti =
          parseLoop (desc.drop offset) aarch64 fuel (propertySize d % 2 ^ 32) bti := by
      have hrest : (desc.drop offset).length < 2 ^ 32 := by
        rw [length_drop]
        omega
      have hstep : propertySize d ≤ (desc.drop offset).length := by
        rw [length_drop]
        omega
      rw [Nat.mod_eq_of_lt (by omega), Nat.mod_eq_of_lt (by omega), ih hlen (by omega), ih hrest hstep, drop_drop]
    simp only [parseLoop, word_drop hle, length_drop, Nat.sub_zero, zero_add, add_zero, Nat.sub_pos_iff_lt]
    split_ifs
    · rfl
    · split
      · split_ifs with hfit
        · rfl
        · rfl
        · split
          · exact hnext hfit _
          · rfl
        · exact hnext hfit _
      · rfl
    · rfl

theorem parseLoop_cut (h0 : l ≠ []) (h8 : l.length < 8) :
    parseLoop l aarch64 (fuel + 1) 0 bti = .done false bti := by
  rw [parseLoop, if_pos (length_pos_iff.mpr h0), if_pos (by omega)]

section Header

variable (h8 : 8 ≤ l.length)

include h8

theorem parseLoop_header : parseLoop l aarch64 (fuel + 1) 0 bti =
    if l.length < propertySize (datasz l) then .done false bti
    else if aarch64 ∧ prType l = 0xc0000000 then
      if datasz l ≠ 4 then .done false bti
      else
        match word l 8 with
        | some flags => parseLoop l aarch64 fuel (propertySize (datasz l)) (flags &&& 1 ≠ 0)
        | none => .outside
    else parseLoop l aarch64 fuel (propertySize (datasz l)) bti := by
  have ht : word l 0 = some (prType l) := by rw [word, if_pos (by omega), drop_zero, prType]
  have hd : word l 4 = some (datasz l) := by rw [word, if_pos (by omega), datasz]
  have hs : propertySize (datasz l) % 2 ^ 32 = propertySize (datasz l) := Nat.mod_mod _ _
  rw [parseLoop, if_pos (by omega), Nat.sub_zero, if_neg (by omega)]
  simp only [zero_add, ht, hd, hs]

theorem parseLoop_short (hlt : l.length < propertySize (datasz l)) :
    parseLoop l aarch64 (fuel + 1) 0 bti = .done false bti := by
  rw [parseLoop_header h8, if_pos hlt]

theorem parseLoop_feature (hf : FeatureInvalid l aarch64) :
    parseLoop l aarch64 (fuel + 1) 0 bti = .done false bti := by
  rw [parseLoop_header h8, ite_eq_left_iff.mpr fun _ => ?_]
  rw [if_pos ⟨hf.1, hf.2.1⟩, if_pos hf.2.2]

theorem parseLoop_next (hlen : l.length < 2 ^ 32) (hle : propertySize (datasz l) ≤ l.length)
    (hf : ¬FeatureInvalid l aarch64) (bti : Bool) : ∃ bti', ∀ fuel, parseLoop l aarch64 (fuel + 1) 0 bti =
      parseLoop (l.drop (propertySize (datasz l))) aarch64 fuel 0 bti' := by
  simp only [parseLoop_header h8, if_neg (not_lt.mpr hle)]
  split_ifs with ht hd
  · exact absurd ⟨ht.1, ht.2, hd⟩ hf
  · have h16 : propertySize (datasz l) = 16 := by
      rw [not_not.mp hd]
      rfl
    rw [word, if_pos (by omega)]
    exact ⟨_, fun _ => parseLoop_drop hlen hle _⟩
  · exact ⟨bti, fun _ => parseLoop_drop hlen hle bti⟩

end Header

theorem Malformed.refused (h : Malformed aarch64 l) (hlen : l.length < 2 ^ 32) (bti : Bool) :
    ∃ fuel bti', parseLoop l aarch64 fuel 0 bti = .done false bti' := by
  induction h generalizing bti with
  | cut h0 h8 => exact ⟨1, bti, parseLoop_cut h0 h8⟩
  | short h8 hlt => exact ⟨1, bti, parseLoop_short h8 hlt⟩
  | feature h8 hf => exact ⟨1, bti, parseLoop_feature h8 hf⟩
  | @later l h8 hle h ih =>
    by_cases hf : FeatureInvalid l aarch64
    · exact ⟨1, bti, parseLoop_feature h8 hf⟩
    · obtain ⟨bti₁, hstep⟩ := parseLoop_next h8 hlen hle hf bti
      obtain ⟨fuel, bti₂, hp⟩ := ih ((drop_sublist _ _).length_le.trans_lt hlen) bti₁
      exact ⟨fuel + 1, bti₂, (hstep fuel).trans hp⟩

theorem Sequence.rest (h : Sequence l) (h0 : l ≠ []) :
    fullSize (datasz l) ≤ l.length ∧ Sequence (l.drop (fullSize (datasz l))) := by
  cases h with
  | nil => exact absurd rfl h0
  | cons hle h => exact ⟨hle, h⟩

end Bionic.Linker.GnuProperty
