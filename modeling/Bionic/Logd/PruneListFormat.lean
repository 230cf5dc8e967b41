import Bionic.Logd.PruneList

namespace Bionic.Logd.PruneList

open Lib Stdlib List UInt32

variable (high : Bool) (v : Written) (str : List Char) {w : List Char} (n : ℕ)

/-- A rule as it is written: the numbers before and behind the slash, where there are any. -/
structure Written where
  high : Bool
  uid : Option ℕ
  pid : Option ℕ
  deriving DecidableEq

def pidIn : List Char → Option ℕ
  | [] => none
  | c :: str => if c = '/' then numberIn str else none

def Written.ofText : Written :=
  ⟨high, numberIn str, pidIn (str.dropWhile Char.isDigit)⟩

@[simp] theorem Written.ofText_high : (Written.ofText high str).high = high := rfl

def writtenIn : List Char → Option Written
  | [] => none
  | c :: w =>
    if c = '~' ∨ c = '!' then if w = ['!'] ∨ w = worstSystemPid then none else some (Written.ofText true w)
    else some (Written.ofText false (c :: w))

def written (filter : List Char) : List Written := (words filter).filterMap writtenIn

def Written.stored : Prune := ⟨v.uid.elim uidAll ofNat, v.pid.elim pidAll ofNat⟩

theorem readPid_eq : (readPid str).1 = (pidIn str).elim pidAll ofNat := by
  cases str with
  | nil => rfl
  | cons c str =>
    rw [readPid, pidIn]
    split_ifs
    · rw [readNumber_eq]
    · rfl

theorem readRule_stored {rest : List Char} {r : Prune} (h : readRule w = some (r, rest)) (high : Bool) :
    r = (Written.ofText high w).stored := by
  obtain ⟨hr, -, -, -⟩ := readRule_some h
  rw [hr, readNumber_eq, readPid_eq]
  rfl

def rulesOf (vs : List Written) : List Prune := (vs.filter (·.high = high)).map Written.stored

theorem rulesOf_singleton : rulesOf high [v] = if v.high = high then [v.stored] else [] := by
  by_cases h : v.high = high
  all_goals simp [rulesOf, h]

def Valid (s : PruneList) : Prop :=
  ∀ r, r ∈ s.highPriorityPrune ∨ r ∈ s.lowPriorityPrune → ¬(r.uid = uidAll ∧ r.pid = pidAll)

theorem Adds.rules {s s' : PruneList} (h : Adds s w s') (hv : s.Valid) :
    s'.highPriorityPrune = s.highPriorityPrune ++ rulesOf true (writtenIn w).toList ∧
      s'.lowPriorityPrune = s.lowPriorityPrune ++ rulesOf false (writtenIn w).toList ∧ s'.Valid := by
  cases h with
  | worstUid c hc =>
    refine ⟨?_, ?_, hv⟩
    · simp [writtenIn, rulesOf, enableWorstUid]
    · simp [writtenIn, hc, rulesOf, enableWorstUid]
  | worstPidOfSystem c hc =>
    refine ⟨?_, ?_, hv⟩
    all_goals simp [writtenIn, hc, rulesOf, enableWorstPidOfSystem]
  | high c hc w r hb hw hr =>
    obtain ⟨-, -, -, hall⟩ := readRule_some hr
    have hs := readRule_stored hr true
    refine ⟨?_, ?_, ?_⟩
    · simp [writtenIn, hc, hb, hw, rulesOf_singleton, addHigh, ← hs]
    · simp [writtenIn, hc, hb, hw, rulesOf_singleton, addHigh]
    · simp only [Valid, addHigh, mem_append, mem_singleton, or_imp, forall_and, forall_eq] at hv ⊢
      exact ⟨⟨hv.1, hall⟩, hv.2⟩
  | low c hc w r hr =>
    obtain ⟨-, -, -, hall⟩ := readRule_some hr
    have hs := readRule_stored hr false
    refine ⟨?_, ?_, ?_⟩
    · simp [writtenIn, hc, rulesOf_singleton, addLow]
    · simp [writtenIn, hc, rulesOf_singleton, addLow, ← hs]
    · simp only [Valid, addLow, mem_append, mem_singleton, or_imp, forall_and, forall_eq] at hv ⊢
      exact ⟨hv.1, hv.2, hall⟩

theorem foldlM_rules {ws : List (List Char)} (hws : ∀ w ∈ ws, Word w) {s s' : PruneList} (hv : s.Valid)
    (h : ws.foldlM addWord s = some s') :
    s'.highPriorityPrune = s.highPriorityPrune ++ rulesOf true (ws.filterMap writtenIn) ∧
      s'.lowPriorityPrune = s.lowPriorityPrune ++ rulesOf false (ws.filterMap writtenIn) ∧ s'.Valid := by
  induction ws generalizing s with
  | nil =>
    cases h
    simpa [rulesOf] using hv
  | cons w ws ih =>
    obtain ⟨s₁, h₁, hr⟩ := Option.bind_eq_some_iff.mp h
    obtain ⟨⟨s₂, x⟩, hi, rfl⟩ := Option.map_eq_some_iff.mp h₁
    obtain ⟨hh, hlow, hv'⟩ := (readItem_word (hws w mem_cons_self).no_space hi).2.rules hv
    obtain ⟨hh', hlow', hv''⟩ := ih (fun x hx => hws x (mem_cons_of_mem w hx)) hv' hr
    have hs : (w :: ws).filterMap writtenIn = (writtenIn w).toList ++ ws.filterMap writtenIn := by
      cases hw : writtenIn w with
      | none => simp [hw]
      | some v => simp [hw]
    refine ⟨?_, ?_, hv''⟩
    · rw [hh', hh, hs, rulesOf, rulesOf, rulesOf, filter_append, map_append, append_assoc]
    · rw [hlow', hlow, hs, rulesOf, rulesOf, rulesOf, filter_append, map_append, append_assoc]

section RoundTrip

variable {rest : List Char}

variable (n : UInt32)

theorem digits_printUnsigned : ∀ c ∈ printUnsigned n, c.isDigit := (plain_toDigits n.toNat).digits

theorem takeWhile_printUnsigned (h : NoDigit rest) :
    (printUnsigned n ++ rest).takeWhile Char.isDigit = printUnsigned n ∧
      (printUnsigned n ++ rest).dropWhile Char.isDigit = rest := by
  have ht := takeWhile_eq_self_iff.mpr (digits_printUnsigned n)
  have hd := dropWhile_eq_nil_iff.mpr (digits_printUnsigned n)
  rw [(digits_append h _).1, (digits_append h _).2, ht, hd]
  exact ⟨rfl, rfl⟩

theorem readNumber_printUnsigned (all n : UInt32) (h : NoDigit rest) : readNumber all (printUnsigned n ++ rest) = (n, rest) := by
  obtain ⟨ht, hd⟩ := takeWhile_printUnsigned n h
  have hne : printUnsigned n ≠ [] := (plain_toDigits n.toNat).ne_nil
  rw [readNumber_eq, numberIn, ht, hd, if_neg hne, printUnsigned]
  simp

theorem noDigit_slash : NoDigit ('/' :: str) := by
  rintro c ⟨⟩
  rfl

theorem noDigit_end : NoDigit [] := by
  intro c h
  cases h

theorem readPid_printUnsigned : readPid ('/' :: printUnsigned n) = (n, []) := by
  have h := readNumber_printUnsigned pidAll n noDigit_end
  rw [append_nil] at h
  rw [readPid, if_pos rfl, h]

variable {r : Prune} {c : Char}

theorem readRule_format (h : ¬(r.uid = uidAll ∧ r.pid = pidAll)) : readRule r.format = some (r, []) := by
  obtain ⟨uid, pid⟩ := r
  by_cases hu : uid = uidAll
  · have hp : pid ≠ pidAll := fun hp => h ⟨hu, hp⟩
    have hn : readNumber uidAll ('/' :: printUnsigned pid) = (uidAll, '/' :: printUnsigned pid) := rfl
    subst hu
    rw [Prune.format, if_pos hp]
    simp [readRule, hn, readPid_printUnsigned, hp]
  · by_cases hp : pid = pidAll
    · have hnum := readNumber_printUnsigned uidAll uid noDigit_end
      subst hp
      rw [append_nil] at hnum
      rw [Prune.format, if_pos hu, if_neg (not_not_intro rfl)]
      simp [readRule, hnum, readPid, hu]
    · have hnum := readNumber_printUnsigned uidAll uid (noDigit_slash (printUnsigned pid))
      rw [Prune.format, if_pos hu, if_pos hp]
      simp [readRule, hnum, readPid_printUnsigned, hu]

theorem mem_format (h : c ∈ r.format) : c.isDigit ∨ c = '/' := by
  rw [Prune.format] at h
  split_ifs at h
  · rw [mem_append, mem_cons] at h
    rcases h with h | rfl | h
    · exact Or.inl (digits_printUnsigned r.uid c h)
    · exact Or.inr rfl
    · exact Or.inl (digits_printUnsigned r.pid c h)
  · exact Or.inl (digits_printUnsigned r.uid c h)
  · rw [mem_cons] at h
    rcases h with rfl | h
    · exact Or.inr rfl
    · exact Or.inl (digits_printUnsigned r.pid c h)
  · rw [mem_singleton] at h
    exact Or.inr h

theorem bang_not_mem_format (r : Prune) : '!' ∉ r.format := by
  intro h
  cases mem_format h with
  | inl h => cases h
  | inr h => cases h

theorem format_ne_nil (r : Prune) : r.format ≠ [] := by
  have hne : ∀ n, printUnsigned n ≠ [] := fun n => (plain_toDigits n.toNat).ne_nil
  rw [Prune.format]
  split_ifs
  · exact append_ne_nil_of_left_ne_nil (hne _) _
  · exact hne _
  all_goals exact cons_ne_nil _ _

theorem isspace_format (h : c ∈ r.format) : isspace c = false := by
  rw [Bool.eq_false_iff]
  intro hs
  obtain ⟨hd, hsl⟩ := isDigit_of_isspace hs
  cases mem_format h with
  | inl h => exact absurd h (by simp [hd])
  | inr h => exact hsl h

theorem addWord_low (h : ¬(r.uid = uidAll ∧ r.pid = pidAll)) (s : PruneList) :
    addWord s r.format = some (s.addLow r) := by
  have hr := readRule_format h
  obtain ⟨c, w, hw⟩ := exists_cons_of_ne_nil (format_ne_nil r)
  have hc : ¬(c = '~' ∨ c = '!') := by
    have hmem := mem_format (r := r) (c := c) (by rw [hw]; exact mem_cons_self)
    rintro (rfl | rfl) <;> revert hmem <;> decide
  rw [hw] at hr ⊢
  rw [addWord, readItem, if_neg hc, hr]
  rfl

theorem addWord_high (h : ¬(r.uid = uidAll ∧ r.pid = pidAll)) (s : PruneList) :
    addWord s ('~' :: r.format) = some (s.addHigh r) := by
  have hsk : ∀ t, '!' ∈ t → skipText t r.format = none := by
    intro t ht
    cases hs : skipText t r.format with
    | none => rfl
    | some x =>
      have hx := skipText_some hs
      exact absurd (hx ▸ mem_append_left x ht) (bang_not_mem_format r)
  rw [addWord, readItem, readHigh, hsk _ (by decide), hsk _ (by decide), readRule_format h]
  simp [format_ne_nil]

theorem foldlM_add {text : Prune → List Char} {f : List Prune → PruneList} {rs : List Prune}
    (h : ∀ r ∈ rs, ∀ l, addWord (f l) (text r) = some (f (l ++ [r]))) (l : List Prune) :
    (rs.map text).foldlM addWord (f l) = some (f (l ++ rs)) := by
  induction rs generalizing l with
  | nil => simp
  | cons r rs ih =>
    rw [map_cons, foldlM_cons, h r mem_cons_self]
    change (rs.map text).foldlM addWord (f (l ++ [r])) = _
    rw [ih (fun x hx => h x (mem_cons_of_mem r hx)), append_assoc, singleton_append]

theorem foldlM_flags (uid pid : Bool) :
    ((if uid then [['~', '!']] else []) ++ (if pid then ['~' :: worstSystemPid] else [])).foldlM addWord empty =
      some ⟨[], [], uid, pid⟩ := by
  cases uid <;> cases pid <;> rfl

variable {s : PruneList}

theorem foldlM_rules_eq (hv : s.Valid) : s.rules.foldlM addWord empty = some s := by
  have hlow := foldlM_add (f := fun l => ⟨[], l, s.worstUidEnabled, s.worstPidOfSystemEnabled⟩)
    (fun r hr l => addWord_low (hv r (Or.inr hr)) _) []
  have hh := foldlM_add (f := fun l => ⟨l, s.lowPriorityPrune, s.worstUidEnabled, s.worstPidOfSystemEnabled⟩)
    (fun r hr l => addWord_high (hv r (Or.inl hr)) _) []
  rw [rules, foldlM_append, foldlM_append, foldlM_flags]
  change (((s.lowPriorityPrune.map Prune.format).foldlM addWord ⟨[], [], _, _⟩).bind fun s' =>
    (s.highPriorityPrune.map fun r => '~' :: r.format).foldlM addWord s') = some s
  rw [hlow]
  exact hh

theorem word_rules (h : w ∈ s.rules) : Word w := by
  have hr : ∀ r : Prune, Word r.format := fun r => ⟨format_ne_nil r, fun c hc => isspace_format hc⟩
  simp only [rules, mem_append, mem_map] at h
  rcases h with ((h | h) | ⟨r, -, rfl⟩) | ⟨r, -, rfl⟩
  · split_ifs at h
    · rw [mem_singleton] at h
      exact h ▸ ⟨cons_ne_nil _ _, by simp [isspace]⟩
    · cases h
  · split_ifs at h
    · rw [mem_singleton] at h
      exact h ▸ ⟨cons_ne_nil _ _, by simp [worstSystemPid, isspace]⟩
    · cases h
  · exact hr r
  · refine ⟨cons_ne_nil _ _, ?_⟩
    intro c hc
    rw [mem_cons] at hc
    rcases hc with rfl | hc
    · rfl
    · exact isspace_format hc

theorem init_format (hv : s.Valid) (ro persist : List Char) : init ro persist (some s.format) = some s := by
  have hr : ∀ fuel, s.format.length ≤ fuel → initLoop fuel empty s.format = some s := by
    intro fuel hfu
    rw [initLoop_eq fuel empty s.format hfu, format, words_join (fun w hw => word_rules hw), foldlM_rules_eq hv]
  have hne : ∀ t, initLoop t.length empty t = none → s.format ≠ t := by
    rintro t hn rfl
    cases hn.symm.trans (hr _ (Nat.le_refl _))
  have hd := hne "default".toList rfl
  have hdi := hne "disable".toList rfl
  have hf : filterOf ro persist (some s.format) = s.format := by
    simp only [filterOf, Option.some.injEq, hd, hdi, if_false]
  rw [init, hf, hr _ (Nat.le_refl _)]

end RoundTrip

/-- The rule has the numbers that are written, not reduced to 32 bits. -/
def Exact (r : Prune) : Prop :=
  (∀ n, v.uid = some n → r.uid.toNat = n) ∧ ∀ n, v.pid = some n → r.pid.toInt32.toInt = n

/-- The numbers written are those of a `uid_t` and of a `pid_t`. -/
def InRange : Prop := (∀ n, v.uid = some n → n < 4294967296) ∧ ∀ n, v.pid = some n → n < 2147483648

theorem toInt32_ofNat_iff : (ofNat n).toInt32.toInt = n ↔ n < 2147483648 := by
  change (BitVec.ofNat 32 n).toInt = n ↔ _
  rw [BitVec.toInt_eq_toNat_cond, BitVec.toNat_ofNat]
  split_ifs <;> omega

theorem toNat_ofNat_iff : (ofNat n).toNat = n ↔ n < 4294967296 := by
  rw [toNat_ofNat']
  omega

theorem exact_stored : Exact v v.stored ↔ InRange v := by
  apply and_congr
  · apply forall_congr'
    intro n
    apply imp_congr_right
    intro h
    rw [Written.stored, h]
    exact toNat_ofNat_iff n
  · apply forall_congr'
    intro n
    apply imp_congr_right
    intro h
    rw [Written.stored, h]
    exact toInt32_ofNat_iff n

theorem forall₂_exact (vs : List Written) : Forall₂ Exact vs (vs.map Written.stored) ↔ ∀ v ∈ vs, InRange v := by
  induction vs with
  | nil => simp
  | cons v vs ih => simp [exact_stored]

/-- The rules of an accepted filter have the numbers written in it, and `Format` prints what `Init` reads back,
exactly if no uid reaches 32 bits and no pid 31. -/
theorem init_exact_iff (ro persist : List Char) (str : Option (List Char)) (s : PruneList)
    (h : init ro persist str = some s) :
    (Forall₂ Exact ((written (filterOf ro persist str)).filter (·.high = true)) s.highPriorityPrune ∧
      Forall₂ Exact ((written (filterOf ro persist str)).filter (·.high = false)) s.lowPriorityPrune ∧
      init ro persist (some s.format) = some s) ↔
      ∀ v ∈ written (filterOf ro persist str), InRange v := by
  rw [init, initLoop_eq _ _ _ (Nat.le_refl _)] at h
  have he : empty.Valid := by
    intro r hr
    rcases hr with hr | hr <;> cases hr
  obtain ⟨hhi, hlow, hv⟩ := foldlM_rules (fun w hw => word_of_mem_words hw) he h
  rw [hhi, hlow]
  change Forall₂ Exact _ (rulesOf true _) ∧ Forall₂ Exact _ (rulesOf false _) ∧ _ ↔ _
  rw [rulesOf, rulesOf, written, forall₂_exact, forall₂_exact]
  constructor
  · rintro ⟨hh, hl, -⟩ v hmem
    cases hc : v.high with
    | true => exact hh v (mem_filter.mpr ⟨hmem, by simp [hc]⟩)
    | false => exact hl v (mem_filter.mpr ⟨hmem, by simp [hc]⟩)
  · intro hall
    exact ⟨fun v hmem => hall v (mem_of_mem_filter hmem), fun v hmem => hall v (mem_of_mem_filter hmem),
      init_format hv ro persist⟩

theorem init_exact_iff_plain :
    Forall₂ Exact [⟨true, some 1000, some 42⟩] [⟨1000, 42⟩] ∧
      init [] [] (some "~1000/42".toList) = some ⟨[⟨1000, 42⟩], [], false, false⟩ :=
  have hr : ∀ v ∈ written (filterOf [] [] (some "~1000/42".toList)), InRange v := by
    have hone : written (filterOf [] [] (some "~1000/42".toList)) = [⟨true, some 1000, some 42⟩] := by decide
    rw [hone]
    simp [InRange]
  ⟨((init_exact_iff [] [] (some "~1000/42".toList) ⟨[⟨1000, 42⟩], [], false, false⟩ (by decide)).mpr hr).1, by decide⟩

/-- The rule for the uid 4294967296 is accepted as one for root. -/
theorem uid_reduced :
    init [] [] (some "4294967296".toList) = some ⟨[], [⟨0, pidAll⟩], false, false⟩ ∧
      written (filterOf [] [] (some "4294967296".toList)) = [⟨false, some 4294967296, none⟩] ∧
      ¬Forall₂ Exact [⟨false, some 4294967296, none⟩] [⟨0, pidAll⟩] := by
  refine ⟨by decide, by decide, ?_⟩
  intro h
  cases h with
  | cons h _ => exact absurd (h.1 4294967296 rfl) (by decide)

end Bionic.Logd.PruneList
