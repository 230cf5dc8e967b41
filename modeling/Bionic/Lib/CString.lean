import Mathlib.Data.List.Basic
import Mathlib.Data.List.TakeWhile

namespace Bionic.Lib

open List

structure CString where
  bytes : List UInt8
  nulFree : ∀ b ∈ bytes, b ≠ 0
  deriving DecidableEq

theorem CString.eq_of_bytes {s t : CString} (h : s.bytes = t.bytes) : s = t := by
  cases s
  cases t
  congr

def strncmp : List UInt8 → List UInt8 → Nat → Int
  | _, _, 0 => 0
  | [], [], _ + 1 => 0
  | [], b :: _, _ + 1 => -b.toNat
  | a :: _, [], _ + 1 => a.toNat
  | a :: as, b :: bs, n + 1 => if a = b then strncmp as bs n else a.toNat - b.toNat

def strchr (s : List UInt8) (c : UInt8) : Option Nat := s.findIdx? (· == c)

def stringAt (mem : List UInt8) (off : Nat) : Option (List UInt8) :=
  let s := mem.drop off
  if 0 ∈ s then some (s.takeWhile (· != 0)) else none

theorem strncmp_take (n : Nat) (one two : List UInt8) : strncmp (one.take n) two n = strncmp one two n := by
  induction n generalizing one two with
  | zero => rw [strncmp, strncmp]
  | succ n ih =>
    cases one with
    | nil => rw [take_nil]
    | cons a as =>
      cases two with
      | nil => rw [take_succ_cons, strncmp, strncmp]
      | cons b bs => rw [take_succ_cons, strncmp, strncmp, ih]

theorem strncmp_eq_zero_iff {n : Nat} {one two : List UInt8} (hone : one.length = n) (htwo : two.length = n) :
    strncmp one two n = 0 ↔ one = two := by
  induction n generalizing one two with
  | zero =>
    rw [length_eq_zero_iff] at hone htwo
    rw [hone, htwo, strncmp]
    simp
  | succ n ih =>
    obtain ⟨a, as, rfl⟩ := exists_cons_of_length_eq_add_one hone
    obtain ⟨b, bs, rfl⟩ := exists_cons_of_length_eq_add_one htwo
    simp only [length_cons, Nat.add_right_cancel_iff] at hone htwo
    rw [strncmp]
    split
    · rename_i hab
      rw [ih hone htwo, hab, cons.injEq, eq_self_iff_true, true_and]
    · rename_i hab
      have hne : a.toNat ≠ b.toNat := fun h => hab (UInt8.toNat_inj.1 h)
      simp only [cons.injEq, hab, false_and, iff_false]
      omega

theorem strncmp_length_eq_zero_iff {one two : List UInt8} (h : ∀ b ∈ one, b ≠ 0) :
    strncmp one two one.length = 0 ↔ one <+: two := by
  induction one generalizing two with
  | nil => simp [strncmp]
  | cons a as ih =>
    cases two with
    | nil =>
      have ha : a.toNat ≠ 0 := fun h0 => h a mem_cons_self (UInt8.toNat_inj.1 h0)
      simpa [strncmp] using ha
    | cons b bs =>
      rw [length_cons, strncmp, cons_prefix_cons, ← ih fun x hx => h x (mem_cons_of_mem a hx)]
      split
      case isTrue hab => simp [hab]
      case isFalse hab =>
        have hne : a.toNat ≠ b.toNat := fun he => hab (UInt8.toNat_inj.1 he)
        simp only [hab, false_and, iff_false]
        omega

section Strchr

variable {s : List UInt8} {c : UInt8} {i : Nat}

theorem strchr_eq_none_iff : strchr s c = none ↔ c ∉ s := by
  rw [strchr, findIdx?_eq_none_iff]
  constructor
  · intro h hc
    simpa using h c hc
  · intro h x hx
    simp only [beq_eq_false_iff_ne]
    rintro rfl
    exact h hx

theorem strchr_eq_some (h : strchr s c = some i) :
    i < s.length ∧ s = s.take i ++ c :: s.drop (i + 1) ∧ c ∉ s.take i := by
  obtain ⟨hi, hc, hb⟩ := findIdx?_eq_some_iff_getElem.1 h
  refine ⟨hi, ?_, ?_⟩
  · have hget : s[i] = c := by simpa using hc
    rw [← hget, getElem_cons_drop, take_append_drop]
  · intro hmem
    obtain ⟨j, hj, hget⟩ := mem_take_iff_getElem.1 hmem
    have := hb j (by omega)
    simp [hget] at this

end Strchr

section StringAt

variable {mem : List UInt8} {off : Nat}

theorem stringAt_eq_some_iff {s : List UInt8} : stringAt mem off = some s ↔ 0 ∉ s ∧ s ++ [0] <+: mem.drop off := by
  unfold stringAt
  rw [Option.ite_none_right_eq_some, Option.some.injEq]
  constructor
  · rintro ⟨hmem, rfl⟩
    refine ⟨fun h => by simpa using mem_takeWhile_imp h, ?_⟩
    generalize mem.drop off = bytes at hmem ⊢
    induction bytes with
    | nil => cases hmem
    | cons b bs ih =>
      by_cases hb : b = 0
      · rw [hb]
        exact ⟨bs, rfl⟩
      · rw [takeWhile_cons_of_pos (by simp [hb])]
        refine cons_prefix_cons.2 ⟨rfl, ih ?_⟩
        exact (mem_cons.1 hmem).resolve_left fun h => hb h.symm
  · rintro ⟨hs, rest, hr⟩
    rw [← hr]
    refine ⟨by simp, ?_⟩
    rw [append_assoc, takeWhile_append_of_pos (fun b hb => by simpa using ne_of_mem_of_not_mem hb hs),
      singleton_append, takeWhile_cons_of_neg (by simp), append_nil]

theorem take_drop_eq_iff_stringAt (s : CString) :
    (mem.drop off).take (s.bytes.length + 1) = s.bytes ++ [0] ↔ stringAt mem off = some s.bytes := by
  have hnul : 0 ∉ s.bytes := fun h => s.nulFree 0 h rfl
  rw [stringAt_eq_some_iff, and_iff_right hnul, prefix_iff_eq_take, length_append,
    length_singleton, eq_comm]

end StringAt

end Bionic.Lib
