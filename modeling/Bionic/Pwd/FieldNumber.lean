import Bionic.Pwd.MmapFile
import Bionic.Pwd.Spelling

namespace Bionic.Pwd

open Lib Stdlib List

def afterColon : Pointer → Option Pointer
  | [] => none
  | c :: rest => if c = '\n' then none else if c = ':' then some rest else afterColon rest

def column : Nat → Pointer → Option Pointer
  | 0, line => some line
  | k + 1, line => (afterColon line).bind (column k)

def nextLine : Pointer → Pointer
  | [] => []
  | c :: rest => if c = '\n' then rest else nextLine rest

variable {lp64 : Bool} {numFields : Nat} {fields : Fields} {p : Pointer} {c : Char} (m : Nat) (rest : Pointer)

def InFile (p : Pointer) : Prop := p.getLast? = some '\n'

theorem InFile.cons {rest : Pointer} (h : InFile (c :: rest)) (hne : rest ≠ []) : InFile rest := by
  obtain ⟨c', rest', rfl⟩ := exists_cons_of_ne_nil hne
  exact h

theorem skipLine_eq (h : InFile p) : skipLine p = nextLine p := by
  induction p with
  | nil => rfl
  | cons c rest ih =>
    cases rest with
    | nil =>
      have hc : c = '\n' := Option.some.inj h
      rw [hc]
      rfl
    | cons c' rest =>
      rw [skipLine, nextLine]
      split
      · rfl
      · exact ih (h.cons (by simp))

theorem column_newline : column (m + 1) ('\n' :: rest) = none := rfl

theorem column_colon : column (m + 1) (':' :: rest) = column m rest := rfl

theorem column_other (hn : c ≠ '\n') (hc : c ≠ ':') : column (m + 1) (c :: rest) = column (m + 1) rest := by
  rw [column, afterColon, if_neg hn, if_neg hc, column]

theorem scanFields_spec (written : Nat) (fields : Fields) (h : InFile p) (hlen : fields.length = numFields) :
    (scanFields numFields written fields p).2 = nextLine p ∧
      (scanFields numFields written fields p).1.length = numFields ∧
      ∀ k < numFields, (scanFields numFields written fields p).1[k]?.join =
        if k < written then fields[k]?.join else (column (k - written + 1) p).or fields[k]?.join := by
  induction p generalizing written fields with
  | nil => cases h
  | cons c rest ih =>
    cases rest with
    | nil =>
      have hc : c = '\n' := Option.some.inj h
      subst hc
      refine ⟨rfl, hlen, fun k _ => ?_⟩
      rw [column_newline, Option.none_or, ite_self]
      rfl
    | cons c' rest =>
      have ht : InFile (c' :: rest) := h.cons (by simp)
      rw [scanFields]
      split_ifs with hw hn hc
      · subst hn
        refine ⟨rfl, hlen, fun k _ => ?_⟩
        rw [column_newline, Option.none_or, ite_self]
      · subst hc
        obtain ⟨hne, hlen', hf⟩ := ih (written + 1)
          (fields.set written (some (c' :: rest))) ht (by rw [length_set, hlen])
        refine ⟨hne.trans rfl, hlen', fun k hk => ?_⟩
        rw [hf k hk, column_colon]
        rcases Nat.lt_trichotomy k written with hlt | rfl | hgt
        · rw [if_pos (by omega), if_pos hlt, getElem?_set_ne (by omega)]
        · rw [if_pos (by omega), if_neg (by omega), getElem?_set_self (by omega), Nat.sub_self]
          rfl
        · rw [if_neg (by omega), if_neg (by omega), getElem?_set_ne (by omega)]
          congr 2
          omega
      · obtain ⟨hne, hlen', hf⟩ := ih written fields ht hlen
        refine ⟨?_, hlen', fun k hk => ?_⟩
        · rw [hne, nextLine, nextLine, if_neg hn]
          rfl
        · rw [hf k hk, column_other _ _ hn hc]
      · refine ⟨?_, hlen, fun k hk => ?_⟩
        · exact skipLine_eq h
        · rw [if_pos (by omega)]

theorem parseLine_spec (h : InFile p) (hlen : fields.length = numFields) :
    (parseLine numFields fields p).2 = nextLine p ∧ (parseLine numFields fields p).1.length = numFields ∧
      ∀ k < numFields, (parseLine numFields fields p).1[k]?.join = (column k p).or fields[k]?.join := by
  obtain ⟨hn, hlen', hf⟩ := scanFields_spec 1 (fields.set 0 (some p)) h
    (by rw [length_set, hlen])
  refine ⟨hn, hlen', fun k hk => ?_⟩
  rw [parseLine, hf k hk]
  cases k with
  | zero =>
    rw [getElem?_set_self (by omega)]
    rfl
  | succ k =>
    rw [if_neg (by omega), getElem?_set_ne (by omega)]
    rfl

variable {max n : Nat} {ds rest : List Char} {c : Pointer}

structure Written (col : List Char) (n : Nat) : Prop where
  ne_nil : col ≠ []
  digits : ∀ c ∈ col, c.isDigit
  value : value col = n

/-- The column is a decimal number below 2^32 that strtoul does not take for an octal one. -/
structure PlainNumber (col : List Char) : Prop where
  ne_nil : col ≠ []
  digits : ∀ c ∈ col, c.isDigit
  lt : value col < 2 ^ 32
  head : col.head? = some '0' → value col < 8

variable {cs : List Char}

theorem strToU_auto {c : Char} (hc : c.isDigit) (hx : cs.head? ≠ some 'x') (hX : cs.head? ≠ some 'X') :
    strToU max (c :: cs) 0 =
      ⟨(digitLoop max (if c = '0' then 8 else 10) 0 .nothing (c :: cs)).acc,
        if (digitLoop max (if c = '0' then 8 else 10) 0 .nothing (c :: cs)).any = .nothing then c :: cs
        else (digitLoop max (if c = '0' then 8 else 10) 0 .nothing (c :: cs)).rest,
        if (digitLoop max (if c = '0' then 8 else 10) 0 .nothing (c :: cs)).any = .overflow then some .erange
        else none⟩ := by
  have hs : skipSign (c :: cs) = (false, c :: cs) := by
    rw [skipSign]
    all_goals
      rintro s ⟨⟩
      cases hc
  have hhex : skipHex 0 (c :: cs) = (0, c :: cs) := by
    unfold skipHex
    split
    case h_1 x d cs' heq =>
      cases heq
      rw [if_neg]
      rintro ⟨-, rfl | rfl, -⟩
      · exact hx rfl
      · exact hX rfl
    case h_2 => rfl
  have hb : defaultBase 0 (c :: cs) = if c = '0' then 8 else 10 := by
    rw [defaultBase, if_pos rfl, head?_cons]
    simp only [Option.some.injEq]
  rw [strToU, if_neg (by omega), dropWhile_cons_of_neg (by simp [isspace_digit hc]), hs]
  simp only [hhex, hb, Bool.false_eq_true, false_and, if_false]

theorem octal_value (hd : ∀ c ∈ ds, IsDigitOf 8 c) :
    Nat.ofDigitChars 8 ds 0 ≤ value ds ∧ (value ds < 8 → Nat.ofDigitChars 8 ds 0 = value ds) ∧
      (8 ≤ value ds → Nat.ofDigitChars 8 ds 0 < value ds) := by
  rw [value]
  induction ds using reverseRecOn with
  | nil => simp
  | append_singleton cs c ih =>
    have hlt := (hd c (by simp)).2
    obtain ⟨hle, hs, hl⟩ := ih fun x hx => hd x (mem_append_left _ hx)
    rw [Nat.ofDigitChars_append, Nat.ofDigitChars_append, Nat.ofDigitChars_cons, Nat.ofDigitChars_cons,
      Nat.ofDigitChars_nil, Nat.ofDigitChars_nil]
    omega

theorem fieldToUid_some (h : fieldToUid lp64 (some c) = some n) :
    (strtoul lp64 c 0).errno = none ∧ (strtoul lp64 c 0).rest.head? = some ':' ∧
      n = (strtoul lp64 c 0).value % 2 ^ 32 := by
  rw [fieldToUid] at h
  simp only [Option.bind_eq_bind, Option.bind_some] at h
  split_ifs at h with hbad
  simp only [not_or, not_not] at hbad
  exact ⟨hbad.1, hbad.2.2, (Option.some.inj h).symm⟩

section Digits

variable {base : Nat} {c : Char} (hb : base = if c = '0' then 8 else 10) (hd : ∀ x ∈ c :: cs, IsDigitOf base x)
  (hs : Stops base rest) (hx : (cs ++ rest).head? ≠ some 'x') (hX : (cs ++ rest).head? ≠ some 'X')

include hb hd hs hx hX

theorem strtoul_autoBase : strtoul lp64 (c :: cs ++ rest) 0 =
    if Nat.ofDigitChars base (c :: cs) 0 ≤ ulongMax lp64 then ⟨Nat.ofDigitChars base (c :: cs) 0, rest, none⟩
    else ⟨ulongMax lp64, rest, some .erange⟩ := by
  have hb' : base = 8 ∨ base = 10 := by
    rw [hb]
    split <;> simp
  rw [strtoul, cons_append, strToU_auto (hd c mem_cons_self).1 hx hX, ← hb, ← cons_append,
    digitLoop_digits hb' hd hs (by simp) (by simp) (Nat.zero_le _)]
  by_cases hle : Nat.ofDigitChars base (c :: cs) 0 ≤ ulongMax lp64
  · simp [hle]
  · simp [hle]

theorem strtoul_accepted (h : fieldToUid lp64 (some (c :: cs ++ rest)) = some n) :
    rest.head? = some ':' ∧ n = Nat.ofDigitChars base (c :: cs) 0 % 2 ^ 32 := by
  obtain ⟨he, hh, hn⟩ := fieldToUid_some h
  rw [strtoul_autoBase hb hd hs hx hX] at he hh hn
  split_ifs at he hh hn
  exact ⟨hh, hn⟩

end Digits

theorem head_append_ne {x : Char} (hd : ∀ c ∈ ds, c.isDigit) (hx : x.isDigit = false)
    (h : rest.head? ≠ some x) : (ds ++ rest).head? ≠ some x := by
  cases ds with
  | nil => exact h
  | cons c cs =>
    rintro ⟨⟩
    rw [hd x mem_cons_self] at hx
    cases hx

def isOctal (c : Char) : Bool := c.toNat - '0'.toNat < 8

theorem stops_dropWhile (hcs : ∀ x ∈ cs, x.isDigit) (hr : NoDigit rest) : Stops 8 (cs.dropWhile isOctal ++ rest) := by
  induction cs with
  | nil => exact hr.stops (by decide)
  | cons c cs ih =>
    by_cases hc : isOctal c
    · rw [dropWhile_cons_of_pos hc]
      exact ih fun x hx => hcs x (mem_cons_of_mem _ hx)
    · rw [dropWhile_cons_of_neg hc]
      intro x d hh hd
      cases hh
      rw [digitOf_digit (hcs c mem_cons_self)] at hd
      cases hd
      exact Nat.le_of_not_lt fun hlt => hc (decide_eq_true hlt)

/-- A number with a zero in front: nothing but octal digits may stand before the colon. -/
theorem fieldToUid_octal (hcs : ∀ x ∈ cs, x.isDigit) (hr : NoDigit rest)
    (hx : rest.head? ≠ some 'x') (hX : rest.head? ≠ some 'X')
    (h : fieldToUid lp64 (some ('0' :: cs ++ rest)) = some n) :
    rest.head? = some ':' ∧ (∀ c ∈ '0' :: cs, IsDigitOf 8 c) ∧ n = Nat.ofDigitChars 8 ('0' :: cs) 0 % 2 ^ 32 := by
  have hs : cs ++ rest = cs.takeWhile isOctal ++ (cs.dropWhile isOctal ++ rest) := by
    rw [← append_assoc, takeWhile_append_dropWhile]
  have ht : ∀ x ∈ '0' :: cs.takeWhile isOctal, IsDigitOf 8 x := by
    intro x hmem
    rcases mem_cons.1 hmem with rfl | hmem
    · exact ⟨rfl, by decide⟩
    · have ho := mem_takeWhile_imp hmem
      exact ⟨hcs x (takeWhile_subset _ hmem), of_decide_eq_true ho⟩
  have hx' := head_append_ne hcs rfl hx
  have hX' := head_append_ne hcs rfl hX
  rw [cons_append, hs] at h
  rw [hs] at hx' hX'
  obtain ⟨hh, hn⟩ := strtoul_accepted rfl ht (stops_dropWhile hcs hr) hx' hX' h
  cases hd : cs.dropWhile isOctal with
  | nil =>
    have hall : cs.takeWhile isOctal = cs := by
      have hj := takeWhile_append_dropWhile (p := isOctal) (l := cs)
      rwa [hd, append_nil] at hj
    rw [hd] at hh
    rw [hall] at ht hn
    exact ⟨hh, ht, hn⟩
  | cons y ys =>
    rw [hd] at hh
    cases hh
    have hmem : ':' ∈ cs.dropWhile isOctal := by simp [hd]
    cases hcs ':' (dropWhile_subset _ hmem)

theorem written_iff (hr : NoDigit rest) (hx : rest.head? ≠ some 'x') (hX : rest.head? ≠ some 'X')
    (h : fieldToUid lp64 (some (ds ++ rest)) = some n) :
    (Written ds n ↔ PlainNumber ds) ∧ (PlainNumber ds → rest.head? = some ':') := by
  by_cases hdi : ds ≠ [] ∧ ∀ c ∈ ds, c.isDigit
  · obtain ⟨hne, hd⟩ := hdi
    obtain ⟨c, cs, rfl⟩ := exists_cons_of_ne_nil hne
    have hcs : ∀ x ∈ cs, x.isDigit := fun x hx => hd x (mem_cons_of_mem _ hx)
    by_cases hc : c = '0'
    · subst hc
      obtain ⟨hh, ho, hn⟩ := fieldToUid_octal hcs hr hx hX h
      obtain ⟨hle, hs, hl⟩ := octal_value ho
      refine ⟨⟨fun hw => ⟨hne, hd, ?_, fun _ => ?_⟩, fun hp => ⟨hne, hd, ?_⟩⟩, fun _ => hh⟩
      · rw [hw.value, hn]
        exact Nat.mod_lt _ (by decide)
      · have := hw.value
        omega
      · have := hp.head rfl
        have := hs this
        omega
    · have hd' : ∀ x ∈ c :: cs, IsDigitOf 10 x := fun x hx => ⟨hd x hx, isDigit_sub_lt (hd x hx)⟩
      obtain ⟨hh, hn⟩ := strtoul_accepted (if_neg hc).symm hd' (hr.stops (Nat.le_refl _))
        (head_append_ne hcs rfl hx) (head_append_ne hcs rfl hX) h
      change n = value (c :: cs) % 2 ^ 32 at hn
      refine ⟨⟨fun hw => ⟨hne, hd, ?_, fun h0 => absurd (Option.some.inj h0) hc⟩, fun hp => ⟨hne, hd, ?_⟩⟩,
        fun _ => hh⟩
      · rw [hw.value, hn]
        exact Nat.mod_lt _ (by decide)
      · rw [hn, Nat.mod_eq_of_lt hp.lt]
  · exact ⟨⟨fun hw => absurd ⟨hw.ne_nil, hw.digits⟩ hdi, fun hp => absurd ⟨hp.ne_nil, hp.digits⟩ hdi⟩,
      fun hp => absurd ⟨hp.ne_nil, hp.digits⟩ hdi⟩

theorem digits_octal (hd : ∀ c ∈ ds, c.isDigit) (h : value ds < 8) : ∀ c ∈ ds, IsDigitOf 8 c := by
  rw [value] at h
  induction ds using reverseRecOn with
  | nil => simp
  | append_singleton cs c ih =>
    rw [Nat.ofDigitChars_append, Nat.ofDigitChars_cons, Nat.ofDigitChars_nil] at h
    intro x hx
    rcases mem_append.1 hx with hx | hx
    · exact ih (fun y hy => hd y (mem_append_left _ hy)) (by omega) x hx
    · rw [mem_singleton.1 hx]
      exact ⟨hd c (by simp), by omega⟩

theorem fieldToUid_plain (h : PlainNumber ds) : fieldToUid lp64 (some (ds ++ ':' :: rest)) = some (value ds) := by
  obtain ⟨c, cs, rfl⟩ := exists_cons_of_ne_nil h.ne_nil
  have hcs : ∀ x ∈ cs, x.isDigit := fun x hx => h.digits x (mem_cons_of_mem _ hx)
  have hno : NoDigit (':' :: rest) := by
    rintro x ⟨⟩
    rfl
  have hle : value (c :: cs) ≤ ulongMax lp64 := by
    have hlt := h.lt
    rw [ulongMax]
    split <;> omega
  have hv : strtoul lp64 (c :: cs ++ ':' :: rest) 0 = ⟨value (c :: cs), ':' :: rest, none⟩ := by
    by_cases hc : c = '0'
    · have ho := digits_octal h.digits (h.head (by rw [hc]; rfl))
      rw [strtoul_autoBase (if_pos hc).symm ho (hno.stops (by decide)) (head_append_ne hcs rfl (by simp))
        (head_append_ne hcs rfl (by simp)), (octal_value ho).2.1 (h.head (by rw [hc]; rfl)), if_pos hle]
    · rw [strtoul_autoBase (if_neg hc).symm (fun x hx => ⟨h.digits x hx, isDigit_sub_lt (h.digits x hx)⟩)
        (hno.stops (Nat.le_refl _)) (head_append_ne hcs rfl (by simp)) (head_append_ne hcs rfl (by simp))]
      exact if_pos hle
  have hmoved : ':' :: rest ≠ c :: cs ++ ':' :: rest := by
    intro heq
    have hlen := congrArg length heq
    rw [length_append, length_cons, length_cons] at hlen
    omega
  rw [fieldToUid, Option.bind_eq_bind, Option.bind_some, hv, if_neg (by simpa using hmoved), Nat.mod_eq_of_lt h.lt]

end Bionic.Pwd
