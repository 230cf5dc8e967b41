import Bionic.Logd.Element
import Bionic.Stdlib.StrToU
import Mathlib.Data.List.Forall2

namespace Bionic.Logd

open Stdlib List UInt32

def uidAll : UInt32 := 0xffffffff

def pidAll : UInt32 := 0xffffffff

/-- A rule. The pid is the bit pattern of a `pid_t`. -/
structure Prune where
  uid : UInt32
  pid : UInt32
  deriving DecidableEq, Repr

def printUnsigned (n : UInt32) : List Char := Nat.toDigits 10 n.toNat

namespace Prune

variable (r : Prune)

def matchesElement (element : LogBufferElement) : Bool :=
  (r.uid = uidAll || r.uid = element.uid) && (r.pid = pidAll || r.pid = element.pid)

def format : List Char :=
  if r.uid ≠ uidAll then
    if r.pid ≠ pidAll then printUnsigned r.uid ++ '/' :: printUnsigned r.pid else printUnsigned r.uid
  else if r.pid ≠ pidAll then '/' :: printUnsigned r.pid
  else ['/']

end Prune

structure PruneList where
  highPriorityPrune : List Prune
  lowPriorityPrune : List Prune
  worstUidEnabled : Bool
  worstPidOfSystemEnabled : Bool
  deriving DecidableEq, Repr

namespace PruneList

def empty : PruneList := ⟨[], [], false, false⟩

variable (s : PruneList) (str : List Char) (r : Prune)

def enableWorstUid : PruneList := { s with worstUidEnabled := true }

def enableWorstPidOfSystem : PruneList := { s with worstPidOfSystemEnabled := true }

def addHigh : PruneList := { s with highPriorityPrune := s.highPriorityPrune ++ [r] }

def addLow : PruneList := { s with lowPriorityPrune := s.lowPriorityPrune ++ [r] }

@[simp] def atEnd : List Char → Bool
  | [] => true
  | c :: _ => isspace c

def readDigits (n : UInt32) : List Char → UInt32 × List Char
  | [] => (n, [])
  | c :: str => if c.isDigit then readDigits (n * 10 + UInt32.ofNat c.toNat - 48) str else (n, c :: str)

/-- A uid or a pid, or the value that stands for all of them. -/
def readNumber (all : UInt32) : List Char → UInt32 × List Char
  | [] => (all, [])
  | c :: str => if c.isDigit then readDigits 0 (c :: str) else (all, c :: str)

def readPid : List Char → UInt32 × List Char
  | [] => (pidAll, [])
  | c :: str => if c = '/' then readNumber pidAll str else (pidAll, c :: str)

def readRule : Option (Prune × List Char) :=
  let (uid, str) := readNumber uidAll str
  let (pid, str) := readPid str
  if uid = uidAll ∧ pid = pidAll then none
  else if atEnd str then some (⟨uid, pid⟩, str)
  else none

/-- `strncmp` with a constant: the rest of the string behind it. -/
def skipText : List Char → List Char → Option (List Char)
  | [], str => some str
  | _ :: _, [] => none
  | t :: ts, c :: str => if t = c then skipText ts str else none

def worstSystemPid : List Char := ['1', '0', '0', '0', '/', '!']

def readHigh : Option (PruneList × List Char) :=
  match skipText ['!'] str with
  | some rest => if atEnd rest then some (s.enableWorstUid, rest) else none
  | none =>
    match skipText worstSystemPid str with
    | some rest => if atEnd rest then some (s.enableWorstPidOfSystem, rest) else none
    | none => if str.isEmpty then none else (readRule str).map fun (r, rest) => (s.addHigh r, rest)

def readItem : List Char → Option (PruneList × List Char)
  | [] => none
  | c :: str =>
    if c = '~' ∨ c = '!' then readHigh s str
    else (readRule (c :: str)).map fun (r, rest) => (s.addLow r, rest)

/-- The loop of `Init`. Every turn takes a character, so the length of the string is enough fuel. -/
def initLoop : ℕ → PruneList → List Char → Option PruneList
  | 0, s, _ => some s
  | _ + 1, s, [] => some s
  | fuel + 1, s, c :: str =>
    if isspace c then initLoop fuel s str
    else (readItem s (c :: str)).bind fun (s', rest) => initLoop fuel s' rest.tail

/-- The filter that `Init` reads: its argument, or the properties `ro.logd.filter` and
`persist.logd.filter`. -/
def filterOf (ro persist : List Char) (str : Option (List Char)) : List Char :=
  let str := if str = some "default".toList then none else str
  let str := if str = some "disable".toList then some [] else str
  let filter :=
    match str with
    | some filter => filter
    | none => if persist ≠ "default".toList then persist else ro
  let filter := if filter = "default".toList then "~! ~1000/!".toList else filter
  if filter = "disable".toList then [] else filter

def init (ro persist : List Char) (str : Option (List Char)) : Option PruneList :=
  initLoop (filterOf ro persist str).length empty (filterOf ro persist str)

def rules : List (List Char) :=
  (if s.worstUidEnabled then [['~', '!']] else []) ++
    (if s.worstPidOfSystemEnabled then ['~' :: worstSystemPid] else []) ++
    s.lowPriorityPrune.map Prune.format ++ s.highPriorityPrune.map fun r => '~' :: r.format

def format : List Char := (s.rules.intersperse [' ']).flatten

def isHighPriority (element : LogBufferElement) : Bool :=
  s.highPriorityPrune.any (·.matchesElement element)

@[simp] def wordsFrom (current : List Char) : List Char → List (List Char)
  | [] => if current = [] then [] else [current]
  | c :: str =>
    if isspace c then (if current = [] then [] else [current]) ++ wordsFrom [] str
    else wordsFrom (current ++ [c]) str

def words : List (List Char) := wordsFrom [] str

structure Word (w : List Char) : Prop where
  ne_nil : w ≠ []
  no_space : ∀ c ∈ w, isspace c = false

section Words

variable {w rest str : List Char} {c : Char}

theorem wordsFrom_append (hw : ∀ c ∈ w, isspace c = false) (current rest : List Char) :
    wordsFrom current (w ++ rest) = wordsFrom (current ++ w) rest := by
  induction w generalizing current with
  | nil => rw [nil_append, append_nil]
  | cons c w ih =>
    have hc := hw c mem_cons_self
    rw [cons_append, wordsFrom, if_neg (by simp [hc]), ih (fun x hx => hw x (mem_cons_of_mem c hx)),
      append_assoc, singleton_append]

theorem words_append (hw : Word w) (hrest : atEnd rest) : words (w ++ rest) = w :: words rest.tail := by
  rw [words, wordsFrom_append hw.no_space]
  cases rest with
  | nil => simp [words, hw.ne_nil]
  | cons c rest =>
    have hc : isspace c := hrest
    simp [words, hw.ne_nil, hc]

theorem words_space (hc : isspace c) (str : List Char) : words (c :: str) = words str := by
  simp [words, hc]

theorem words_join {ws : List (List Char)} (h : ∀ w ∈ ws, Word w) : words ((ws.intersperse [' ']).flatten) = ws := by
  induction ws with
  | nil => rfl
  | cons w ws ih =>
    have hw := h w mem_cons_self
    cases ws with
    | nil =>
      have hone : words (w ++ []) = w :: words [] := words_append hw rfl
      simpa [words] using hone
    | cons w' ws =>
      have ht := ih (fun x hx => h x (mem_cons_of_mem w hx))
      rw [intersperse_cons_cons, flatten_cons, flatten_cons, words_append hw rfl]
      exact congrArg (w :: ·) ht

theorem word_of_mem_wordsFrom {current : List Char} (hcu : ∀ c ∈ current, isspace c = false)
    (h : w ∈ wordsFrom current str) : Word w := by
  induction str generalizing current with
  | nil =>
    rw [wordsFrom] at h
    split_ifs at h with hne
    · cases h
    · rw [mem_singleton] at h
      exact h ▸ ⟨hne, hcu⟩
  | cons c str ih =>
    rw [wordsFrom] at h
    split_ifs at h with hc hne
    · exact ih (fun x hx => by cases hx) h
    · rw [mem_append, mem_singleton] at h
      cases h with
      | inl h => exact h ▸ ⟨hne, hcu⟩
      | inr h => exact ih (fun x hx => by cases hx) h
    · apply ih _ h
      intro x hx
      rw [mem_append, mem_singleton] at hx
      cases hx with
      | inl hx => exact hcu x hx
      | inr hx => exact hx ▸ Bool.eq_false_iff.mpr hc

theorem word_of_mem_words (h : w ∈ words str) : Word w :=
  word_of_mem_wordsFrom (fun c hc => by cases hc) h

theorem exists_word (hc : isspace c = false) (str : List Char) :
    ∃ w rest, c :: str = w ++ rest ∧ Word w ∧ atEnd rest := by
  refine ⟨(c :: str).takeWhile (fun x => !isspace x), (c :: str).dropWhile (fun x => !isspace x), ?_, ?_, ?_⟩
  · rw [takeWhile_append_dropWhile]
  · constructor
    · simp [hc]
    · intro x hx
      simpa using mem_takeWhile_imp hx
  · cases hd : (c :: str).dropWhile (fun x => !isspace x) with
    | nil => rfl
    | cons x xs =>
      have hx := head_dropWhile_not (fun x => !isspace x) (l := c :: str) (by rw [hd]; exact cons_ne_nil _ _)
      simpa [hd] using hx

end Words

def numberIn : Option ℕ :=
  if str.takeWhile Char.isDigit = [] then none else some (Nat.ofDigitChars 10 (str.takeWhile Char.isDigit) 0)

theorem shift_digit {c : Char} (hc : c.isDigit) (k : ℕ) :
    ofNat k * 10 + ofNat c.toNat - 48 = ofNat (10 * k + (c.toNat - '0'.toNat)) := by
  rw [Char.isDigit, Bool.and_eq_true, decide_eq_true_iff] at hc
  obtain ⟨d, hd⟩ : ∃ d, c.toNat = d + 48 := ⟨c.toNat - 48, (Nat.sub_add_cancel hc.1).symm⟩
  rw [hd, UInt32.ofNat_add, UInt32.ofNat_add, UInt32.ofNat_mul, UInt32.mul_comm, ← UInt32.add_assoc]
  exact UInt32.add_sub_cancel _ _

theorem readDigits_eq (k : ℕ) (str : List Char) :
    readDigits (ofNat k) str =
      (ofNat (Nat.ofDigitChars 10 (str.takeWhile Char.isDigit) k), str.dropWhile Char.isDigit) := by
  induction str generalizing k with
  | nil => rfl
  | cons c str ih =>
    by_cases hc : c.isDigit
    · rw [readDigits, if_pos hc, shift_digit hc, ih, takeWhile_cons_of_pos hc, dropWhile_cons_of_pos hc,
        Nat.ofDigitChars_cons]
    · rw [readDigits, if_neg hc, takeWhile_cons_of_neg hc, dropWhile_cons_of_neg hc, Nat.ofDigitChars_nil]

theorem readNumber_eq (all : UInt32) (str : List Char) :
    readNumber all str = ((numberIn str).elim all ofNat, str.dropWhile Char.isDigit) := by
  cases str with
  | nil => rfl
  | cons c str =>
    by_cases hc : c.isDigit
    · have hd := readDigits_eq 0 (c :: str)
      have hne : (c :: str).takeWhile Char.isDigit ≠ [] := by simp [hc]
      rw [readNumber, if_pos hc, numberIn, if_neg hne]
      exact hd
    · rw [readNumber, if_neg hc, numberIn, takeWhile_cons_of_neg hc, dropWhile_cons_of_neg hc]
      rfl

section Append

variable {rest : List Char}

theorem isDigit_of_isspace {c : Char} (h : isspace c) : c.isDigit = false ∧ c ≠ '/' := by
  simp only [isspace, mem_cons, not_mem_nil, or_false, decide_eq_true_eq] at h
  rcases h with rfl | rfl | rfl | rfl | rfl | rfl <;> decide

theorem digits_append (h : NoDigit rest) (w : List Char) :
    (w ++ rest).takeWhile Char.isDigit = w.takeWhile Char.isDigit ∧
      (w ++ rest).dropWhile Char.isDigit = w.dropWhile Char.isDigit ++ rest := by
  induction w with
  | nil =>
    cases rest with
    | nil => exact ⟨rfl, rfl⟩
    | cons c rest => simp [h c rfl]
  | cons c w ih => by_cases hc : c.isDigit <;> simp [hc, ih]

section

variable (hrest : atEnd rest) (w : List Char) (s : PruneList)
include hrest

theorem noDigit_of_atEnd : NoDigit rest := by
  cases rest with
  | nil => nofun
  | cons c rest =>
    rintro _ ⟨⟩
    exact (isDigit_of_isspace hrest).1

theorem readNumber_append (all : UInt32) (w : List Char) :
    readNumber all (w ++ rest) = ((readNumber all w).1, (readNumber all w).2 ++ rest) := by
  obtain ⟨ht, hd⟩ := digits_append (noDigit_of_atEnd hrest) w
  rw [readNumber_eq, readNumber_eq, numberIn, ht, hd]
  rfl

theorem readPid_append : readPid (w ++ rest) = ((readPid w).1, (readPid w).2 ++ rest) := by
  cases w with
  | nil =>
    cases rest with
    | nil => rfl
    | cons c rest => simp [readPid, (isDigit_of_isspace hrest).2]
  | cons c w =>
    by_cases hc : c = '/'
    · simp [readPid, hc, readNumber_append hrest]
    · simp [readPid, hc]

theorem atEnd_append : atEnd (w ++ rest) = atEnd w := by
  cases w with
  | nil => exact hrest
  | cons c w => rfl

theorem readRule_append : readRule (w ++ rest) = (readRule w).map fun p => (p.1, p.2 ++ rest) := by
  simp only [readRule, readNumber_append hrest, readPid_append hrest, atEnd_append hrest]
  split_ifs <;> rfl

theorem skipText_append {t : List Char} (ht : ∀ c ∈ t, isspace c = false) (w : List Char) :
    skipText t (w ++ rest) = (skipText t w).map (· ++ rest) := by
  induction t generalizing w with
  | nil => rfl
  | cons a t ih =>
    cases w with
    | nil =>
      cases rest with
      | nil => rfl
      | cons c rest =>
        have hne : a ≠ c := by
          rintro rfl
          exact absurd hrest (by simp [ht a mem_cons_self])
        simp [skipText, hne]
    | cons c w =>
      rw [cons_append, skipText, skipText]
      split_ifs
      · exact ih (fun x hx => ht x (mem_cons_of_mem a hx)) w
      · rfl

theorem readHigh_append (w : List Char) :
    readHigh s (w ++ rest) = (readHigh s w).map fun p => (p.1, p.2 ++ rest) := by
  have hb := skipText_append hrest (t := ['!']) (by simp [isspace]) w
  have hw := skipText_append hrest (t := worstSystemPid) (by simp [worstSystemPid, isspace]) w
  rw [readHigh, readHigh, hb, hw, readRule_append hrest]
  cases skipText ['!'] w with
  | some x =>
    simp only [Option.map_some, atEnd_append hrest]
    split_ifs <;> rfl
  | none =>
    cases skipText worstSystemPid w with
    | some x =>
      simp only [Option.map_some, atEnd_append hrest]
      split_ifs <;> rfl
    | none =>
      cases w with
      | nil =>
        have hn : readRule [] = none := rfl
        simp [hn]
      | cons c w => simp [Function.comp_def]

theorem readItem_append {w : List Char} (hw : w ≠ []) :
    readItem s (w ++ rest) = (readItem s w).map fun p => (p.1, p.2 ++ rest) := by
  cases w with
  | nil => exact absurd rfl hw
  | cons c w =>
    rw [cons_append, readItem, readItem]
    split_ifs with hc
    · exact readHigh_append hrest s w
    · rw [← cons_append, readRule_append hrest]
      simp [Function.comp_def]

end

end Append

section Rest

theorem readPid_suffix (w : List Char) : (readPid w).2 <:+ w := by
  cases w with
  | nil => exact suffix_rfl
  | cons c w =>
    rw [readPid]
    split_ifs
    · rw [readNumber_eq]
      exact (dropWhile_suffix _).trans (suffix_cons c w)
    · exact suffix_rfl

theorem readRule_some {w rest : List Char} {r : Prune} (h : readRule w = some (r, rest)) :
    r = ⟨(readNumber uidAll w).1, (readPid (readNumber uidAll w).2).1⟩ ∧
      rest = (readPid (readNumber uidAll w).2).2 ∧ atEnd rest ∧ ¬(r.uid = uidAll ∧ r.pid = pidAll) := by
  simp only [readRule] at h
  split_ifs at h with hall hend
  obtain ⟨rfl, rfl⟩ := h
  exact ⟨rfl, rfl, hend, hall⟩

theorem skipText_some {t w rest : List Char} (h : skipText t w = some rest) : w = t ++ rest := by
  induction t generalizing w with
  | nil =>
    cases h
    rfl
  | cons a t ih =>
    cases w with
    | nil => cases h
    | cons c w =>
      rw [skipText] at h
      split_ifs at h with hac
      rw [hac, ih h, cons_append]

theorem eq_nil_of_suffix {w rest : List Char} (hw : ∀ c ∈ w, isspace c = false) (hs : rest <:+ w)
    (hend : atEnd rest) : rest = [] := by
  cases rest with
  | nil => rfl
  | cons c rest =>
    have hc := hw c (hs.subset mem_cons_self)
    exact absurd hend (by simp [hc])

theorem readRule_word {w rest : List Char} (hw : ∀ c ∈ w, isspace c = false) {r : Prune}
    (h : readRule w = some (r, rest)) : rest = [] := by
  obtain ⟨-, hrest, hend, -⟩ := readRule_some h
  apply eq_nil_of_suffix hw _ hend
  rw [hrest, readNumber_eq]
  exact (readPid_suffix _).trans (dropWhile_suffix _)

end Rest

inductive Adds (s : PruneList) : List Char → PruneList → Prop
  | worstUid (c : Char) (hc : c = '~' ∨ c = '!') : Adds s [c, '!'] s.enableWorstUid
  | worstPidOfSystem (c : Char) (hc : c = '~' ∨ c = '!') : Adds s (c :: worstSystemPid) s.enableWorstPidOfSystem
  | high (c : Char) (hc : c = '~' ∨ c = '!') (w : List Char) (r : Prune) (hbang : w ≠ ['!']) (hworst : w ≠ worstSystemPid)
      (hr : readRule w = some (r, [])) : Adds s (c :: w) (s.addHigh r)
  | low (c : Char) (hc : ¬(c = '~' ∨ c = '!')) (w : List Char) (r : Prune) (hr : readRule (c :: w) = some (r, [])) :
      Adds s (c :: w) (s.addLow r)

theorem readItem_word {s s' : PruneList} {w rest : List Char} (hw : ∀ c ∈ w, isspace c = false)
    (h : readItem s w = some (s', rest)) : rest = [] ∧ Adds s w s' := by
  cases w with
  | nil => cases h
  | cons c w =>
    have hw' : ∀ x ∈ w, isspace x = false := fun x hx => hw x (mem_cons_of_mem c hx)
    rw [readItem] at h
    split_ifs at h with hc
    · rw [readHigh] at h
      cases hb : skipText ['!'] w with
      | some x =>
        have hx := skipText_some hb
        rw [hb] at h
        simp only at h
        split_ifs at h with hend
        cases h
        have hnil : rest = [] := eq_nil_of_suffix hw' ⟨['!'], hx.symm⟩ hend
        subst hx hnil
        exact ⟨rfl, Adds.worstUid c hc⟩
      | none =>
        cases hp : skipText worstSystemPid w with
        | some x =>
          have hx := skipText_some hp
          rw [hb, hp] at h
          simp only at h
          split_ifs at h with hend
          cases h
          have hnil : rest = [] := eq_nil_of_suffix hw' ⟨worstSystemPid, hx.symm⟩ hend
          subst hx hnil
          exact ⟨rfl, Adds.worstPidOfSystem c hc⟩
        | none =>
          rw [hb, hp] at h
          split_ifs at h with he
          obtain ⟨⟨r, x⟩, hr, heq⟩ := Option.map_eq_some_iff.mp h
          cases heq
          have hnil := readRule_word hw' hr
          subst hnil
          refine ⟨rfl, Adds.high c hc w r ?_ ?_ hr⟩
          · rintro rfl
            cases hb
          · rintro rfl
            cases hp
    · obtain ⟨⟨r, x⟩, hr, heq⟩ := Option.map_eq_some_iff.mp h
      cases heq
      have hnil := readRule_word hw hr
      subst hnil
      exact ⟨rfl, Adds.low c hc w r hr⟩

def addWord (w : List Char) : Option PruneList := (readItem s w).map Prod.fst

/-- `Init` takes its filter word by word. -/
theorem initLoop_eq (fuel : ℕ) (s : PruneList) (str : List Char) (h : str.length ≤ fuel) :
    initLoop fuel s str = (words str).foldlM addWord s := by
  induction fuel generalizing s str with
  | zero =>
    rw [length_eq_zero_iff.mp (Nat.le_zero.mp h)]
    rfl
  | succ fuel ih =>
    cases str with
    | nil => rfl
    | cons c str =>
      by_cases hc : isspace c
      · rw [initLoop, if_pos hc, words_space hc, ih s str (Nat.le_of_succ_le_succ h)]
      · obtain ⟨w, rest, hstr, hw, hrest⟩ := exists_word (Bool.eq_false_iff.mpr hc) str
        have hlen : rest.tail.length ≤ fuel := by
          have hsum := congrArg length hstr
          rw [length_append] at hsum
          rw [length_tail]
          omega
        rw [initLoop, if_neg hc, hstr, words_append hw hrest, readItem_append hrest s hw.ne_nil, foldlM_cons, addWord]
        cases hi : readItem s w with
        | none => rfl
        | some p =>
          obtain ⟨s', x⟩ := p
          obtain ⟨rfl, -⟩ := readItem_word hw.no_space hi
          exact ih s' rest.tail hlen

end PruneList

end Bionic.Logd
