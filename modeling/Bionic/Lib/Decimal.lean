import Mathlib.Data.List.Induction
import Mathlib.Data.List.TakeWhile
import Mathlib.Data.Nat.Digits.Defs
import Mathlib.Tactic.IntervalCases

namespace Bionic.Lib

open Nat List

/-- A string of decimal digits that printing a number gives: no superfluous zero in front. -/
structure Plain (ds : List Char) : Prop where
  ne_nil : ds ≠ []
  digits : ∀ c ∈ ds, c.isDigit
  head : ds.head? = some '0' → ds = ['0']

variable {ds : List Char} {c : Char}

theorem isDigit_sub_lt (h : c.isDigit) : c.toNat - '0'.toNat < 10 := by
  rw [Char.isDigit, Bool.and_eq_true, decide_eq_true_iff, decide_eq_true_iff] at h
  have hr' : c.toNat ≤ 57 := h.2
  change c.toNat - 48 < 10
  omega

theorem digitChar_sub (h : c.isDigit) : (c.toNat - '0'.toNat).digitChar = c := by
  have hlt := isDigit_sub_lt h
  rw [Char.isDigit, Bool.and_eq_true, decide_eq_true_iff] at h
  have heq : c.toNat = c.toNat - '0'.toNat + '0'.toNat := (Nat.sub_add_cancel h.1).symm
  apply Char.toNat_inj.1
  rw [heq, Nat.add_sub_cancel]
  generalize c.toNat - '0'.toNat = d at hlt
  interval_cases d <;> rfl

theorem ofDigitChars_pos (hne : ds ≠ []) (hd : ∀ c ∈ ds, c.isDigit) (hh : ds.head? ≠ some '0') :
    0 < ofDigitChars 10 ds 0 := by
  cases ds with
  | nil => exact absurd rfl hne
  | cons c cs =>
    have hc : c ≠ '0' := fun h => hh (by rw [h]; rfl)
    have hpos : 0 < c.toNat - '0'.toNat := by
      by_contra h0
      have hz := digitChar_sub (hd c mem_cons_self)
      rw [Nat.eq_zero_of_not_pos h0] at hz
      exact hc hz.symm
    rw [Nat.ofDigitChars_cons, Nat.zero_add]
    clear hh hne hc
    induction cs using reverseRecOn with
    | nil => exact hpos
    | append_singleton cs c' ih =>
      rw [ofDigitChars_append, ofDigitChars_cons, ofDigitChars_nil]
      have := ih fun x hx => hd x (by grind)
      omega

theorem toDigits_ofDigitChars (h : Plain ds) : toDigits 10 (ofDigitChars 10 ds 0) = ds := by
  obtain ⟨hne, hd, hh⟩ := h
  induction ds using reverseRecOn with
  | nil => exact absurd rfl hne
  | append_singleton cs c ih =>
    have hc := hd c (by simp)
    rw [Nat.ofDigitChars_append, Nat.ofDigitChars_cons, Nat.ofDigitChars_nil]
    by_cases hcs : cs = []
    · rw [hcs, Nat.ofDigitChars_nil, Nat.zero_add, Nat.toDigits_of_lt_base (isDigit_sub_lt hc),
        digitChar_sub hc, nil_append]
    · have hhe : cs.head? ≠ some '0' := by
        intro h0
        have hone := hh (by rw [head?_append, h0, Option.some_or])
        rw [append_eq_singleton_iff] at hone
        simp [hcs] at hone
      have hcd : ∀ x ∈ cs, x.isDigit := fun x hx => hd x (mem_append_left _ hx)
      have hpos := ofDigitChars_pos hcs hcd hhe
      rw [← toDigits_append_toDigits (by decide) hpos (isDigit_sub_lt hc),
        ih hcs hcd (fun h0 => absurd h0 hhe), toDigits_of_lt_base (isDigit_sub_lt hc), digitChar_sub hc]

theorem plain_toDigits (n : Nat) : Plain (Nat.toDigits 10 n) := by
  refine ⟨Nat.toDigits_ne_nil, fun c => Nat.isDigit_of_mem_toDigits (by decide) (by decide), ?_⟩
  induction n using Nat.strong_induction_on with
  | _ n ih =>
    rcases Nat.lt_or_ge n 10 with hlt | hge
    · rw [Nat.toDigits_of_lt_base hlt]
      intro h
      rw [head?_cons, Option.some.injEq] at h
      rw [h]
    · rw [toDigits_of_base_le (by decide) hge, head?_append,
        head?_eq_some_head toDigits_ne_nil, Option.some_or, ← head?_eq_some_head toDigits_ne_nil]
      intro h0
      have hone := ih (n / 10) (by omega) h0
      have hv := ofDigitChars_toDigits (b := 10) (n := n / 10) (by decide) (by decide)
      rw [hone] at hv
      change 0 = n / 10 at hv
      omega

theorem ofDigitChars_toDigits (n : Nat) : Nat.ofDigitChars 10 (Nat.toDigits 10 n) 0 = n :=
  Nat.ofDigitChars_toDigits (by decide) (by decide)

end Bionic.Lib
