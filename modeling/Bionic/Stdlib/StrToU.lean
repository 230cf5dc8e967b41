import Bionic.Lib.Decimal

namespace Bionic.Stdlib

open Lib List

variable (c : Char) (lp64 : Bool) (s : List Char)

def isspace : Bool := c ∈ [' ', '\t', '\n', '\x0b', '\x0c', '\r']

def isxdigit : Bool := c.isDigit || 'a' ≤ c && c ≤ 'f' || 'A' ≤ c && c ≤ 'F'

def digitOf : Option Nat :=
  if c.isDigit then some (c.toNat - '0'.toNat)
  else if c.isUpper then some (c.toNat - 'A'.toNat + 10)
  else if c.isLower then some (c.toNat - 'a'.toNat + 10)
  else none

/-- Whether digits were consumed: the values 0, 1 and -1 of `any`. -/
inductive Consumed
  | nothing
  | digits
  | overflow
  deriving DecidableEq

structure Digits where
  acc : Nat
  any : Consumed
  rest : List Char
  deriving DecidableEq

def digitLoop (max base : Nat) : Nat → Consumed → List Char → Digits
  | acc, any, [] => ⟨acc, any, []⟩
  | acc, any, c :: cs =>
    match digitOf c with
    | none => ⟨acc, any, c :: cs⟩
    | some d =>
      if base ≤ d then ⟨acc, any, c :: cs⟩
      else if any = .overflow then digitLoop max base acc any cs
      else if max / base < acc ∨ acc = max / base ∧ max % base < d then digitLoop max base max .overflow cs
      else digitLoop max base (acc * base + d) .digits cs

inductive Errno
  | einval
  | erange
  deriving DecidableEq

/-- `rest` is the string at `*endptr`. -/
structure StrToU where
  value : Nat
  rest : List Char
  errno : Option Errno
  deriving DecidableEq

def skipSign : List Char → Bool × List Char
  | '-' :: s => (true, s)
  | '+' :: s => (false, s)
  | s => (false, s)

def skipHex (base : Nat) (s : List Char) : Nat × List Char :=
  match s with
  | '0' :: x :: d :: cs =>
    if (base = 0 ∨ base = 16) ∧ (x = 'x' ∨ x = 'X') ∧ isxdigit d then (16, d :: cs) else (base, s)
  | _ => (base, s)

def defaultBase (base : Nat) (s : List Char) : Nat :=
  if base = 0 then (if s.head? = some '0' then 8 else 10) else base

/-- StrToU for the type whose largest value is `max`. A string ends where its list does. -/
def strToU (max : Nat) (nptr : List Char) (base : Nat) : StrToU :=
  if base = 1 ∨ 36 < base then ⟨0, nptr, some .einval⟩
  else
    let (neg, s) := skipSign (nptr.dropWhile isspace)
    let (base, s) := skipHex base s
    let r := digitLoop max (defaultBase base s) 0 .nothing s
    ⟨if neg ∧ r.any = .digits then (max + 1 - r.acc) % (max + 1) else r.acc,
      if r.any = .nothing then nptr else r.rest,
      if r.any = .overflow then some .erange else none⟩

def ulongMax : Nat := if lp64 then 2 ^ 64 - 1 else 2 ^ 32 - 1

def strtoul (base : Nat) : StrToU := strToU (ulongMax lp64) s base

def NoDigit : Prop := ∀ c, s.head? = some c → c.isDigit = false

section Digits

variable {max base acc d : Nat} {ds rest : List Char} {any : Consumed} {c : Char}

theorem digitOf_digit (h : c.isDigit) : digitOf c = some (c.toNat - '0'.toNat) := if_pos h

theorem digitOf_ge (h : c.isDigit = false) (hd : digitOf c = some d) : 10 ≤ d := by
  rw [digitOf, h] at hd
  simp only [Bool.false_eq_true, if_false] at hd
  split at hd
  · cases hd
    omega
  · split at hd
    · cases hd
      omega
    · cases hd

def Stops (base : Nat) (s : List Char) : Prop := ∀ c d, s.head? = some c → digitOf c = some d → base ≤ d

theorem NoDigit.stops (h : NoDigit rest) (hb : base ≤ 10) : Stops base rest :=
  fun c _ hc hd => hb.trans (digitOf_ge (h c hc) hd)

def IsDigitOf (base : Nat) (c : Char) : Prop := c.isDigit ∧ c.toNat - '0'.toNat < base

theorem digitLoop_stop (h : Stops base rest) : digitLoop max base acc any rest = ⟨acc, any, rest⟩ := by
  cases rest with
  | nil => rfl
  | cons c cs =>
    rw [digitLoop]
    split
    case h_1 => rfl
    case h_2 d hd => rw [if_pos (h c d rfl hd)]

theorem digitLoop_overflow (hd : ∀ c ∈ ds, IsDigitOf base c) (h : Stops base rest) :
    digitLoop max base acc .overflow (ds ++ rest) = ⟨acc, .overflow, rest⟩ := by
  induction ds with
  | nil => exact digitLoop_stop h
  | cons c cs ih =>
    obtain ⟨hc, hlt⟩ := hd c mem_cons_self
    rw [cons_append, digitLoop, digitOf_digit hc]
    simp only
    rw [if_neg (by omega)]
    exact ih fun x hx => hd x (mem_cons_of_mem _ hx)

theorem le_ofDigitChars (hb : 1 ≤ base) (n : Nat) (ds : List Char) : n ≤ Nat.ofDigitChars base ds n := by
  induction ds generalizing n with
  | nil => exact Nat.le_refl n
  | cons c cs ih =>
    rw [Nat.ofDigitChars_cons]
    have hmul : n ≤ base * n := Nat.le_mul_of_pos_left n hb
    have := ih (base * n + (c.toNat - '0'.toNat))
    omega

theorem overflow_iff (hb : base = 8 ∨ base = 10) (hd : d < base) :
    (max / base < acc ∨ acc = max / base ∧ max % base < d) ↔ max < base * acc + d := by
  rcases hb with rfl | rfl <;> omega

theorem digitLoop_digits (hb : base = 8 ∨ base = 10) (hd : ∀ c ∈ ds, IsDigitOf base c) (h : Stops base rest)
    (hany : any ≠ .overflow) (hne : ds = [] → any = .digits) (hacc : acc ≤ max) :
    digitLoop max base acc any (ds ++ rest) =
      if Nat.ofDigitChars base ds acc ≤ max then ⟨Nat.ofDigitChars base ds acc, .digits, rest⟩
      else ⟨max, .overflow, rest⟩ := by
  induction ds generalizing acc any with
  | nil => rw [nil_append, digitLoop_stop h, hne rfl, Nat.ofDigitChars_nil, if_pos hacc]
  | cons c cs ih =>
    obtain ⟨hc, hlt⟩ := hd c mem_cons_self
    have hcs : ∀ x ∈ cs, IsDigitOf base x := fun x hx => hd x (mem_cons_of_mem _ hx)
    have hpos : 1 ≤ base := by omega
    have hge := le_ofDigitChars hpos (base * acc + (c.toNat - '0'.toNat)) cs
    rw [cons_append, digitLoop, digitOf_digit hc, Nat.ofDigitChars_cons]
    simp only [overflow_iff hb hlt]
    rw [if_neg (by omega), if_neg hany]
    by_cases ho : max < base * acc + (c.toNat - '0'.toNat)
    · rw [if_pos ho, digitLoop_overflow hcs h, if_neg (by omega)]
    · rw [if_neg ho, Nat.mul_comm acc base, ih hcs (by simp) (fun _ => rfl) (by omega)]

theorem isspace_digit (h : c.isDigit) : isspace c = false := by
  by_contra hs
  rw [Bool.not_eq_false, isspace, decide_eq_true_iff] at hs
  simp only [mem_cons, not_mem_nil, or_false] at hs
  rcases hs with rfl | rfl | rfl | rfl | rfl | rfl <;> cases h

theorem strToU_decimal (hne : ds ≠ []) (hd : ∀ c ∈ ds, c.isDigit) (h : NoDigit rest) :
    strToU max (ds ++ rest) 10 =
      if Nat.ofDigitChars 10 ds 0 ≤ max then ⟨Nat.ofDigitChars 10 ds 0, rest, none⟩
      else ⟨max, rest, some .erange⟩ := by
  obtain ⟨c, cs, rfl⟩ := exists_cons_of_ne_nil hne
  have hc := hd c mem_cons_self
  have hs : skipSign (c :: (cs ++ rest)) = (false, c :: (cs ++ rest)) := by
    rw [skipSign]
    all_goals
      rintro s ⟨⟩
      cases hc
  have hhex : skipHex 10 (c :: (cs ++ rest)) = (10, c :: (cs ++ rest)) := by
    unfold skipHex
    split
    · rw [if_neg (by omega)]
    · rfl
  rw [strToU, if_neg (by omega), cons_append, dropWhile_cons_of_neg (by simp [isspace_digit hc]), hs]
  simp only [hhex]
  have hb : defaultBase 10 (c :: (cs ++ rest)) = 10 := rfl
  rw [hb, ← cons_append, digitLoop_digits (.inr rfl) (fun x hx => ⟨hd x hx, isDigit_sub_lt (hd x hx)⟩)
    (h.stops (Nat.le_refl _)) (by simp) (by simp) (Nat.zero_le _)]
  split <;> simp

end Digits

end Bionic.Stdlib
