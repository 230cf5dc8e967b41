import Bionic.Lib.CString
import Mathlib.Data.List.Induction
import Mathlib.Data.List.Sort

namespace Bionic.Properties

open Lib List

structure PrefixNode (C : Type) where
  prefixStr : CString
  context : C
  deriving DecidableEq

namespace PrefixNode

variable {C : Type} (n : PrefixNode C) (name : CString)

def prefixLen : ℕ := n.prefixStr.bytes.length

def wildcard : Bool := n.prefixStr.bytes.head? = some 42

def accepts : Bool := n.wildcard || strncmp n.prefixStr.bytes name.bytes n.prefixLen = 0

/-- The prefix is a literal one that the name begins with. -/
def LiteralMatch : Prop := n.wildcard = false ∧ n.prefixStr.bytes <+: name.bytes

theorem accepts_iff : n.accepts name ↔ n.wildcard ∨ n.LiteralMatch name := by
  rw [accepts, prefixLen, LiteralMatch, Bool.or_eq_true, decide_eq_true_iff,
    strncmp_length_eq_zero_iff n.prefixStr.nulFree]
  cases n.wildcard <;> simp

def Precedes (m : PrefixNode C) : Prop := m.prefixLen < n.prefixLen ∨ m.wildcard

instance : DecidableRel (Precedes (C := C)) := fun _ _ => inferInstanceAs (Decidable (_ ∨ _))

end PrefixNode

open PrefixNode

variable {C : Type}

def listAddAfterLen (n : PrefixNode C) : List (PrefixNode C) → List (PrefixNode C)
  | [] => [n]
  | m :: rest => if n.Precedes m then n :: m :: rest else m :: listAddAfterLen n rest

def prefixes (entries : List (PrefixNode C)) : List (PrefixNode C) :=
  entries.foldl (fun list n => listAddAfterLen n list) []

def getPrefixNodeForName (list : List (PrefixNode C)) (name : CString) : Option (PrefixNode C) :=
  list.find? (·.accepts name)

theorem listAddAfterLen_eq (n : PrefixNode C) (l : List (PrefixNode C)) :
    listAddAfterLen n l = l.orderedInsert Precedes n := by
  induction l with
  | nil => rfl
  | cons m rest ih => rw [listAddAfterLen, orderedInsert_cons, ih]

theorem prefixes_concat (entries : List (PrefixNode C)) (n : PrefixNode C) :
    prefixes (entries ++ [n]) = (prefixes entries).orderedInsert Precedes n := by
  simp [prefixes, listAddAfterLen_eq]

variable {n m x w : PrefixNode C} {l rest entries : List (PrefixNode C)} {s name : CString}

theorem prefixes_perm (entries : List (PrefixNode C)) : prefixes entries ~ entries := by
  induction entries using reverseRecOn with
  | nil => exact .refl _
  | append_singleton entries n ih =>
    rw [prefixes_concat]
    exact (perm_orderedInsert _ n _).trans ((ih.cons n).trans (perm_append_singleton n entries).symm)

/-- Literal prefixes stand in front of the others, the longer ones first. -/
def Sorted (l : List (PrefixNode C)) : Prop :=
  l.Pairwise fun m x => x.wildcard ∨ m.wildcard = false ∧ x.prefixLen ≤ m.prefixLen

theorem Sorted.precedes (h : Sorted (m :: rest)) (hm : n.Precedes m) : ∀ x ∈ m :: rest, n.Precedes x := by
  intro x hx
  rcases mem_cons.mp hx with rfl | hx
  · exact hm
  · rcases (pairwise_cons.mp h).1 x hx with hw | ⟨hw, hle⟩
    · exact .inr hw
    · exact .inl (hle.trans_lt (hm.resolve_right (by simp [hw])))

theorem Sorted.insert (h : Sorted l) (hn : n.wildcard → ∀ x ∈ l, x.wildcard = false → n.prefixLen ≤ x.prefixLen) :
    Sorted (l.orderedInsert Precedes n) := by
  induction l with
  | nil => exact pairwise_singleton _ _
  | cons m rest ih =>
    obtain ⟨hm, hr⟩ := pairwise_cons.mp h
    rw [orderedInsert_cons]
    split_ifs with hc
    · refine pairwise_cons.mpr ⟨fun x hx => ?_, h⟩
      rcases h.precedes hc x hx with hlt | hw
      · cases hw : x.wildcard with
        | true => exact .inl rfl
        | false => exact .inr ⟨Bool.eq_false_iff.mpr fun hwild => absurd (hn hwild x hx hw) (by omega), hlt.le⟩
      · exact .inl hw
    · refine pairwise_cons.mpr ⟨fun x hx => ?_, ih hr fun hw x hx => hn hw x (mem_cons_of_mem m hx)⟩
      rcases (mem_orderedInsert _).mp hx with rfl | hx
      · rw [Precedes, not_or, Nat.not_lt, Bool.not_eq_true] at hc
        exact .inr ⟨hc.2, hc.1⟩
      · exact hm x hx

/-- Of the nodes with one literal prefix, the first to be added is found first. -/
theorem Sorted.find?_insert (h : Sorted l) (hs : s.bytes.head? ≠ some 42) :
    (l.orderedInsert Precedes n).find? (·.prefixStr = s) = (l ++ [n]).find? (·.prefixStr = s) := by
  induction l with
  | nil => rfl
  | cons m rest ih =>
    rw [orderedInsert_cons]
    split_ifs with hc
    · by_cases hn : n.prefixStr = s
      · have hnone : (m :: rest).find? (·.prefixStr = s) = none := by
          rw [find?_eq_none]
          intro x hx he
          have hp := h.precedes hc x hx
          simp [Precedes, wildcard, prefixLen, of_decide_eq_true he, hn, hs] at hp
        rw [find?_append, hnone, find?_cons_of_pos (by simp [hn])]
        simp [hn]
      · rw [find?_cons_of_neg (by simpa using hn), find?_append]
        simp [hn]
    · rw [cons_append, find?_cons, find?_cons, ih (pairwise_cons.mp h).2]

/-- No entry that begins with '*' is given after a shorter literal one. -/
def WildcardsShort (entries : List (PrefixNode C)) : Prop :=
  ∀ pre w post, entries = pre ++ w :: post → w.wildcard → ∀ x ∈ pre, x.wildcard = false →
    w.prefixLen ≤ x.prefixLen

theorem prefixes_sorted (h : WildcardsShort entries) :
    Sorted (prefixes entries) ∧ ∀ s : CString, s.bytes.head? ≠ some 42 →
      (prefixes entries).find? (·.prefixStr = s) = entries.find? (·.prefixStr = s) := by
  induction entries using reverseRecOn with
  | nil => exact ⟨Pairwise.nil, fun _ _ => rfl⟩
  | append_singleton entries n ih =>
    obtain ⟨hs, hf⟩ := ih fun pre w post he => h pre w (post ++ [n]) (by simp [he])
    rw [prefixes_concat]
    refine ⟨hs.insert fun hw x hx => h entries n [] rfl hw x ((prefixes_perm entries).mem_iff.mp hx), fun s hl => ?_⟩
    rw [hs.find?_insert hl, find?_append, find?_append, hf s hl]

/-- The entry has the longest literal prefix of the name, and none before it has the same. -/
structure Longest (entries : List (PrefixNode C)) (name : CString) (e : PrefixNode C) : Prop where
  isMatch : e.LiteralMatch name
  longest : ∀ x ∈ entries, x.LiteralMatch name → x.prefixLen ≤ e.prefixLen
  earliest : entries.find? (·.prefixStr = e.prefixStr) = some e

def FindsLongest (entries : List (PrefixNode C)) (name : CString) : Prop :=
  (∀ x ∈ entries, x.LiteralMatch name →
    ∃ e, getPrefixNodeForName (prefixes entries) name = some e ∧ Longest entries name e) ∧
  ∀ e, getPrefixNodeForName (prefixes entries) name = some e → e.wildcard →
    ∀ x ∈ entries, ¬x.LiteralMatch name

theorem WildcardsShort.finds (h : WildcardsShort entries) (hx : x ∈ entries) (hm : x.LiteralMatch name) :
    ∃ e, getPrefixNodeForName (prefixes entries) name = some e ∧ Longest entries name e := by
  obtain ⟨hs, hf⟩ := prefixes_sorted h
  have hp {y : PrefixNode C} : y ∈ prefixes entries ↔ y ∈ entries := (prefixes_perm entries).mem_iff
  have hsome : (getPrefixNodeForName (prefixes entries) name).isSome :=
    find?_isSome.mpr ⟨x, hp.mpr hx, (x.accepts_iff name).mpr (.inr hm)⟩
  obtain ⟨e, he⟩ := Option.isSome_iff_exists.mp hsome
  obtain ⟨ha, as, bs, hl, has⟩ := find?_eq_some_iff_append.mp he
  have hb {y : PrefixNode C} (hy : y ∈ entries) (hym : y.LiteralMatch name) :
      e.wildcard = false ∧ y.prefixLen ≤ e.prefixLen := by
    rw [← hp, hl, mem_append, mem_cons] at hy
    rw [hl, Sorted, pairwise_append, pairwise_cons] at hs
    rcases hy with hy | rfl | hy
    · simpa [(y.accepts_iff name).mpr (.inr hym)] using has y hy
    · exact ⟨hym.1, Nat.le_refl _⟩
    · exact (hs.2.1.1 y hy).resolve_left (by simp [hym.1])
  have hlit : e.LiteralMatch name := ((e.accepts_iff name).mp ha).resolve_left (by simp [(hb hx hm).1])
  refine ⟨e, he, hlit, fun y hy hym => (hb hy hym).2, ?_⟩
  rw [← hf e.prefixStr (of_decide_eq_false hlit.1), hl, find?_append, find?_eq_none.mpr, find?_cons_of_pos (by simp)]
  · rfl
  · intro a hmem heq
    have hs : a.prefixStr = e.prefixStr := of_decide_eq_true heq
    have hsame : a.accepts name = e.accepts name := by
      unfold accepts wildcard prefixLen
      rw [hs]
    simpa [hsame, ha] using has a hmem

theorem prefixes_sublist (pre post : List (PrefixNode C)) : prefixes pre <+ prefixes (pre ++ post) := by
  induction post using reverseRecOn with
  | nil => simp
  | append_singleton post n ih =>
    rw [← append_assoc, prefixes_concat]
    exact ih.trans (sublist_orderedInsert n _)

theorem find?_ne_of_pair {p : PrefixNode C → Bool} (hd : l.Nodup) (h : [w, x] <+ l) (hw : p w) :
    l.find? p ≠ some x := by
  induction l with
  | nil => cases h
  | cons m rest ih =>
    obtain ⟨hm, hr⟩ := nodup_cons.mp hd
    cases h with
    | cons _ h =>
      rw [find?_cons]
      split
      · rintro ⟨⟩
        exact hm (h.subset (by simp))
      · exact ih hr h
    | cons_cons _ h =>
      rw [find?_cons_of_pos hw]
      rintro ⟨⟩
      exact hm (singleton_sublist.mp h)

/-- The lookup finds the longest literal prefix, the earliest one given, of every name if no entry that begins
with '*' comes after a shorter literal one; and, where the entries differ, only then. -/
theorem getPrefixNodeForName_longest_iff (entries : List (PrefixNode C)) :
    (WildcardsShort entries → ∀ name, FindsLongest entries name) ∧
      (entries.Nodup → (∀ name, FindsLongest entries name) → WildcardsShort entries) := by
  constructor
  · intro h name
    refine ⟨fun x hx hm => h.finds hx hm, fun e he hw x hx hm => ?_⟩
    obtain ⟨e', he', hl⟩ := h.finds hx hm
    cases he.symm.trans he'
    simp [hl.isMatch.1] at hw
  · intro hd h pre w post heq hw x hx hlit
    by_contra hlt
    have hmem : x ∈ entries := by simp [heq, hx]
    obtain ⟨e, he, hl⟩ := (h x.prefixStr).1 x hmem ⟨hlit, prefix_rfl⟩
    have hsame : e.prefixStr = x.prefixStr :=
      CString.eq_of_bytes (hl.isMatch.2.eq_of_length_le (hl.longest x hmem ⟨hlit, prefix_rfl⟩))
    have hpre : e ∈ pre := by
      have hf := hl.earliest
      rw [heq, find?_append] at hf
      cases hfind : pre.find? (·.prefixStr = e.prefixStr) with
      | none => simpa [hsame] using find?_eq_none.mp hfind x hx
      | some y =>
        rw [hfind] at hf
        cases hf
        exact mem_of_find?_eq_some hfind
    have hpair : [w, e] <+ prefixes entries := by
      rw [heq, append_cons]
      refine Sublist.trans ?_ (prefixes_sublist _ post)
      rw [prefixes_concat]
      refine cons_sublist_orderedInsert (singleton_sublist.mpr ((prefixes_perm pre).mem_iff.mpr hpre)) ?_
      simpa [Precedes, prefixLen, hsame] using Or.inl (Nat.lt_of_not_le hlt)
    refine find?_ne_of_pair ((prefixes_perm entries).nodup_iff.mpr hd) hpair ?_ he
    exact (w.accepts_iff _).mpr (.inl hw)

def letterA : CString := ⟨[97], by simp⟩

/-- The context of `a`, and after it one for a longer text that begins with '*'. -/
def longWildcard : List (PrefixNode Bool) := [⟨letterA, false⟩, ⟨⟨[42, 120], by simp⟩, true⟩]

theorem wildcard_hides_literal :
    ∃ e, getPrefixNodeForName (prefixes longWildcard) letterA = some e ∧ e.wildcard = true ∧
      ∃ x ∈ longWildcard, x.LiteralMatch letterA :=
  ⟨_, rfl, rfl, ⟨letterA, false⟩, mem_cons_self, rfl, prefix_rfl⟩

end Bionic.Properties
