import Bionic.Pwd.FindSpec
import Mathlib.Data.List.Nodup

namespace Bionic.Pwd

open Stdlib List Option

variable {lp64 : Bool} {numFields n k : Nat} {text pfx : List Char} {q : Query}

/-- The line is what the query asks for: the name stands in its first column, or the id in its third. -/
def Query.Matches (line : Pointer) : Query → Prop
  | .id uid => ∃ c, column 2 line = some c ∧ Written (fieldText c) uid ∧ column 3 line ≠ none
  | .name login => fieldText line = login ∧ column 1 line ≠ none

/-- What was found comes from one line, the first that matches: the columns are its fields, as far as they fit
into the buffers. -/
structure FromLine (numFields : Nat) (text pfx : List Char) (q : Query) (fields : Fields) (numbers : List (Nat × Nat))
    (strings : List (Nat × List Char)) (before : List Pointer) (line : Pointer) : Prop where
  split : ∃ after, lineStarts true text = before ++ line :: after
  prefixed : hasPrefix pfx line
  columns : ∀ k < numFields, fields[k]? = some (column k line)
  written : ∀ kn ∈ numbers, ∃ c, column kn.1 line = some c ∧ Written (fieldText c) kn.2
  copied : ∀ ks ∈ strings, ∃ c, column ks.1 line = some c ∧ ks.2 = (fieldText c).take 31
  matching : q.Matches line
  first : ∀ l ∈ before, hasPrefix pfx l → ¬q.Matches l

/-- The line answers the query by its own columns, as FieldToUid reads the third one. -/
def Query.Reads (lp64 : Bool) (line : Pointer) : Query → Prop
  | .id uid => fieldToUid lp64 (column 2 line) = some uid
  | .name login => nameMatches line login

/-- The id is written with a zero in front of it, so that strtoul does not take it for a decimal number. -/
def Query.LeadingZero (line : Pointer) : Query → Prop
  | .id uid => 8 ≤ uid ∧ column 3 line ≠ none ∧
      ∃ c, column 2 line = some c ∧ (fieldText c).head? = some '0' ∧ Written (fieldText c) uid
  | .name _ => False

/-- The line has no third column, and the last line before it that has one has the id there and lacks the prefix. -/
def Query.Inherits (lp64 : Bool) (pfx : List Char) (before : List Pointer) (line : Pointer) : Query → Prop
  | .id uid => column 2 line = none ∧ ∃ b l a, before = b ++ l :: a ∧ (∀ x ∈ a, column 2 x = none) ∧
      ¬hasPrefix pfx l ∧ fieldToUid lp64 (column 2 l) = some uid
  | .name _ => False

/-- The first line with the prefix that answers the query by its own columns has all of them, with plain numbers for
the ids. No line with the prefix before it has the id with a zero in front, or inherits it. -/
structure ReliableAt (lp64 : Bool) (numFields : Nat) (ids : List Nat) (text pfx : List Char) (q : Query)
    (before : List Pointer) (line : Pointer) : Prop where
  split : ∃ after, lineStarts true text = before ++ line :: after
  prefixed : hasPrefix pfx line
  reads : q.Reads lp64 line
  complete : ∀ k < numFields, column k line ≠ none
  plain : ∀ k ∈ ids, ∀ c, column k line = some c → PlainNumber (fieldText c)
  first : ∀ l ∈ before, hasPrefix pfx l → ¬q.Reads lp64 l
  decimal : ∀ l ∈ before, hasPrefix pfx l → ¬q.LeadingZero l
  own : ∀ b l a, before = b ++ l :: a → hasPrefix pfx l → ¬q.Inherits lp64 pfx b l

def Reliable (lp64 : Bool) (numFields : Nat) (ids : List Nat) (text pfx : List Char) (q : Query) : Prop :=
  ∃ before line, ReliableAt lp64 numFields ids text pfx q before line

section Text

variable {p : Pointer}

theorem fieldText_split (p : Pointer) : ∃ rest, p = fieldText p ++ rest ∧
    ∀ c, rest.head? = some c → c = ':' ∨ c = '\n' := by
  refine ⟨p.dropWhile fun c => c ≠ ':' ∧ c ≠ '\n', (takeWhile_append_dropWhile ..).symm, fun c hc => ?_⟩
  have := head?_dropWhile_not (fun c : Char => decide (c ≠ ':' ∧ c ≠ '\n')) p
  rw [hc] at this
  by_contra hne
  rw [not_or] at hne
  simp [hne] at this

theorem written_iff_plainNumber (h : fieldToUid lp64 (some p) = some n) :
    (Written (fieldText p) n ↔ PlainNumber (fieldText p)) ∧
      (PlainNumber (fieldText p) → ∃ rest, p = fieldText p ++ ':' :: rest) := by
  obtain ⟨rest, heq, hh⟩ := fieldText_split p
  have hno : NoDigit rest := by
    intro c hc
    rcases hh c hc with rfl | rfl <;> rfl
  have hx {x : Char} (h1 : x ≠ ':') (h2 : x ≠ '\n') : rest.head? ≠ some x := by
    intro hc
    rcases hh x hc with hc' | hc'
    · exact h1 hc'
    · exact h2 hc'
  rw [heq] at h
  obtain ⟨hiff, hco⟩ := written_iff hno (hx (by decide) (by decide)) (hx (by decide) (by decide)) h
  refine ⟨hiff, fun hp => ?_⟩
  cases rest with
  | nil => cases hco hp
  | cons x xs =>
    cases hco hp
    exact ⟨xs, heq⟩

theorem fieldText_cons {c : Char} {cs : Pointer} (hn : c ≠ '\n') (hc : c ≠ ':') :
    fieldText (c :: cs) = c :: fieldText cs := takeWhile_cons_of_pos (by simp [hn, hc])

theorem fieldText_colon (h : afterColon p ≠ none) : ∃ rest, p = fieldText p ++ ':' :: rest := by
  induction p with
  | nil => exact absurd rfl h
  | cons c cs ih =>
    rw [afterColon] at h
    split_ifs at h with hn hc
    · exact absurd rfl h
    · subst hc
      exact ⟨cs, rfl⟩
    · obtain ⟨rest, heq⟩ := ih h
      exact ⟨rest, by rw [fieldText_cons hn hc, cons_append, ← heq]⟩

theorem fieldToUid_lt {field : Option Pointer} (h : fieldToUid lp64 field = some n) : n < 2 ^ 32 := by
  cases field with
  | none => cases h
  | some c => exact (fieldToUid_some h).2.2 ▸ Nat.mod_lt _ (by decide)

theorem afterColon_append {col rest : List Char} (hcol : ∀ c ∈ col, c ≠ ':' ∧ c ≠ '\n') :
    afterColon (col ++ ':' :: rest) = some rest := by
  induction col with
  | nil => rfl
  | cons c cs ih =>
    obtain ⟨h1, h2⟩ := hcol c mem_cons_self
    rw [cons_append, afterColon, if_neg h2, if_neg h1]
    exact ih fun x hx => hcol x (mem_cons_of_mem _ hx)

theorem nameMatches_iff {login : List Char} : nameMatches p login ↔ fieldText p = login ∧ column 1 p ≠ none := by
  induction p generalizing login with
  | nil =>
    have hn : column 1 [] = none := rfl
    cases login <;> simp [nameMatches, hn]
  | cons c cs ih =>
    by_cases hs : c = '\n' ∨ c = ':'
    · have hf : fieldText (c :: cs) = [] := takeWhile_cons_of_neg (by rcases hs with rfl | rfl <;> simp)
      rw [hf]
      cases login with
      | nil =>
        rcases hs with rfl | rfl
        · simp [nameMatches, column_newline]
        · simp [nameMatches, column, afterColon]
      | cons m ms => simp [nameMatches, hs]
    · rw [not_or] at hs
      rw [fieldText_cons hs.1 hs.2, column_other _ _ hs.1 hs.2]
      cases login with
      | nil => simp [nameMatches, hs]
      | cons m ms =>
        rw [nameMatches, if_neg (not_or.2 hs), cons.injEq, and_assoc, ← ih]
        split_ifs with hm <;> simp [hm]

theorem column_succ (k : Nat) (p : Pointer) : column (k + 1) p = (column k p).bind afterColon := by
  induction k generalizing p with
  | zero =>
    rw [column, column, bind_some]
    cases afterColon p <;> rfl
  | succ k ih =>
    rw [column, column]
    cases afterColon p with
    | none => rfl
    | some p' => exact ih p'

theorem column_le {j : Nat} (h : j ≤ k) (hk : column k p ≠ none) : column j p ≠ none := by
  induction h with
  | refl => exact hk
  | step _ ih =>
    apply ih
    intro hn
    rw [column_succ, hn] at hk
    exact hk rfl

end Text

section Lookup

variable {fields : Fields} {numbers : List (Nat × Nat)} {strings : List (Nat × List Char)}
  {line : Pointer}

theorem nodup_split {a b a' b' : List Pointer} {x : Pointer} (h : (a ++ x :: b).Nodup)
    (heq : a ++ x :: b = a' ++ x :: b') : a = a' := by
  have hx := (nodup_cons.1 (nodup_middle.1 h)).1
  rw [mem_append, not_or] at hx
  exact ((append_cons_inj_of_notMem hx.1 hx.2).1 heq).1

theorem getElem_arrayOf {before : List Pointer} (hk : k < numFields) :
    (arrayOf numFields (before ++ [line]))[k]? = some ((column k line).or (latest before k)) := by
  rw [arrayOf_getElem hk, latest_concat]

section Accepted

variable {ids : List Nat} {before b a : List Pointer} {l : Pointer} (hnum : 4 ≤ numFields)

include hnum

theorem accepts_of_reads (hp : hasPrefix pfx line) (h : q.Reads lp64 line) :
    accepts lp64 numFields pfx q before line := by
  refine ⟨hp, ?_⟩
  cases q with
  | id uid =>
    have hc : column 2 line ≠ none := by
      intro hn
      rw [Query.Reads, hn] at h
      cases h
    obtain ⟨c, hc⟩ := ne_none_iff_exists'.1 hc
    rw [Query.predicate, getElem_arrayOf (by omega), join_some, hc, some_or, ← hc]
    exact decide_eq_true h
  | name login =>
    rw [Query.predicate, getElem_arrayOf (by omega), join_some]
    exact h

theorem accepts_of_inherits (hp : hasPrefix pfx line) (h : q.Inherits lp64 pfx before line) :
    accepts lp64 numFields pfx q before line := by
  refine ⟨hp, ?_⟩
  cases q with
  | id uid =>
    obtain ⟨hn, b, l, a, rfl, ha, -, hl⟩ := h
    have hc : column 2 l ≠ none := by
      intro hn
      rw [hn] at hl
      cases hl
    obtain ⟨c, hc⟩ := ne_none_iff_exists'.1 hc
    have hlast : latest (b ++ l :: a) 2 = column 2 l := by
      rw [append_cons, latest_append _ ha, latest_concat, hc, some_or]
    rw [Query.predicate, getElem_arrayOf (by omega), join_some, hn, none_or, hlast]
    exact decide_eq_true hl
  | name login => exact h.elim

theorem reads_or_inherits (hfirst : ∀ l ∈ before, hasPrefix pfx l → ¬q.Reads lp64 l)
    (h : accepts lp64 numFields pfx q before line) : q.Reads lp64 line ∨ q.Inherits lp64 pfx before line := by
  have hp := h.2
  cases q with
  | id uid =>
    have huid := of_decide_eq_true hp
    rw [getElem_arrayOf (by omega), join_some] at huid
    cases hc : column 2 line with
    | some c =>
      rw [hc, some_or, ← hc] at huid
      exact .inl huid
    | none =>
      rw [hc, none_or] at huid
      have hl : latest before 2 ≠ none := by
        intro hn
        rw [hn] at huid
        cases huid
      obtain ⟨c, hl⟩ := ne_none_iff_exists'.1 hl
      obtain ⟨b, l, a, rfl, hcl, ha⟩ := latest_eq_some hl
      rw [hl, ← hcl] at huid
      exact .inr ⟨hc, b, l, a, rfl, ha, fun hpl => hfirst l (by simp) hpl huid, huid⟩
  | name login =>
    rw [Query.predicate, getElem_arrayOf (by omega), join_some] at hp
    exact .inl hp

theorem ReliableAt.firstAccepted (h : ReliableAt lp64 numFields ids text pfx q before line) :
    FirstAccepted lp64 numFields text pfx q before line where
  split := h.split
  accepted := accepts_of_reads hnum h.prefixed h.reads
  first b l a heq hacc := by
    have hb : ∀ x ∈ b, hasPrefix pfx x → ¬q.Reads lp64 x :=
      fun x hx => h.first x (heq ▸ mem_append_left _ hx)
    rcases reads_or_inherits hnum hb hacc with hr | hi
    · exact h.first l (by simp [heq]) hacc.1 hr
    · exact h.own b l a heq hacc.1 hi

end Accepted

theorem Query.LeadingZero.matches (h : q.LeadingZero line) : q.Matches line := by
  cases q with
  | id uid =>
    obtain ⟨-, hcol, c, hc, -, hw⟩ := h
    exact ⟨c, hc, hw, hcol⟩
  | name login => exact h.elim

/-- A line with the id in its third column is read as one, but for a zero in front. -/
theorem Query.Matches.reads (hq : ∀ uid, q = .id uid → uid < 2 ^ 32) (h : q.Matches line) :
    q.Reads lp64 line ∨ q.LeadingZero line := by
  cases q with
  | id uid =>
    obtain ⟨c, hc, hw, hcol⟩ := h
    by_cases hz : (fieldText c).head? = some '0' ∧ 8 ≤ uid
    · exact .inr ⟨hz.2, hcol, c, hc, hz.1, hw⟩
    · have hplain : PlainNumber (fieldText c) := by
        refine ⟨hw.ne_nil, hw.digits, hw.value ▸ hq uid rfl, fun h0 => ?_⟩
        rw [hw.value]
        exact not_le.mp fun h8 => hz ⟨h0, h8⟩
      obtain ⟨rest, heq⟩ : ∃ rest, c = fieldText c ++ ':' :: rest := by
        rw [column_succ, hc, bind_some] at hcol
        exact fieldText_colon hcol
      left
      rw [Query.Reads, hc, heq, fieldToUid_plain hplain, hw.value]
  | name login => exact .inl (nameMatches_iff.2 h)

section FromLine

variable (hnum : 4 ≤ numFields)
  (hn : ∀ kn ∈ numbers, kn.1 < numFields ∧ fieldToUid lp64 fields[kn.1]?.join = some kn.2)

include hnum hn

theorem FromLine.reliableAt (hf : FromLine numFields text pfx q fields numbers strings before line)
    (hacc : FirstAccepted lp64 numFields text pfx q before line) (hl : column (numFields - 1) line ≠ none) :
    ReliableAt lp64 numFields (numbers.map Prod.fst) text pfx q before line := by
  have hco : ∀ k < numFields, column k line ≠ none := fun k hk => column_le (by omega) hl
  have hfirst : ∀ l ∈ before, hasPrefix pfx l → ¬q.Reads lp64 l := by
    intro l hl hp hr
    obtain ⟨b, a, heq⟩ := append_of_mem hl
    exact hacc.first b l a heq (accepts_of_reads hnum hp hr)
  refine ⟨hacc.split, hacc.accepted.1, ?_, hco, ?_, hfirst, fun l hl hp hz => hf.first l hl hp hz.matches,
    fun b l a heq hp hi => hacc.first b l a heq (accepts_of_inherits hnum hp hi)⟩
  · rcases reads_or_inherits hnum hfirst hacc.accepted with hr | hi
    · exact hr
    · cases q with
      | id uid => exact absurd hi.1 (hco 2 (by omega))
      | name login => exact hi.elim
  · intro k hk c hc
    obtain ⟨⟨k', n⟩, hmem, rfl⟩ := mem_map.1 hk
    obtain ⟨hlt, huid⟩ := hn _ hmem
    obtain ⟨c', hc', hw⟩ := hf.written _ hmem
    cases hc.symm.trans hc'
    rw [hf.columns _ hlt, hc] at huid
    exact (written_iff_plainNumber huid).1.1 hw

theorem ReliableAt.fromLine (hr : ReliableAt lp64 numFields (numbers.map Prod.fst) text pfx q before line)
    (hfields : ∀ k < numFields, fields[k]? = some (column k line)) (hids : 2 ∈ numbers.map Prod.fst)
    (hs : ∀ ks ∈ strings, ks.1 < numFields ∧ ∃ c, fields[ks.1]?.join = some c ∧ ks.2 = (fieldText c).take 31) :
    FromLine numFields text pfx q fields numbers strings before line := by
  have hwr {kn : Nat × Nat} {n : Nat} (hmem : kn ∈ numbers) (huid : fieldToUid lp64 (column kn.1 line) = some n) :
      ∃ c, column kn.1 line = some c ∧ Written (fieldText c) n := by
    obtain ⟨c, hc⟩ := ne_none_iff_exists'.1 (hr.complete _ (hn _ hmem).1)
    rw [hc] at huid
    exact ⟨c, hc, (written_iff_plainNumber huid).1.2 (hr.plain _ (mem_map_of_mem hmem) c hc)⟩
  have hq : ∀ uid, q = .id uid → uid < 2 ^ 32 := by
    rintro uid rfl
    exact fieldToUid_lt hr.reads
  refine ⟨hr.split, hr.prefixed, hfields, ?_, ?_, ?_, ?_⟩
  · intro kn hmem
    obtain ⟨hlt, huid⟩ := hn kn hmem
    rw [hfields _ hlt, join_some] at huid
    exact hwr hmem huid
  · intro ks hmem
    obtain ⟨hlt, c, hc, hcp⟩ := hs ks hmem
    rw [hfields _ hlt, join_some] at hc
    exact ⟨c, hc, hcp⟩
  · cases q with
    | id uid =>
      obtain ⟨⟨k, n⟩, hmem, rfl⟩ := mem_map.1 hids
      obtain ⟨c, hc, hw⟩ := hwr hmem hr.reads
      exact ⟨c, hc, hw, hr.complete 3 (by omega)⟩
    | name login => exact nameMatches_iff.1 hr.reads
  · intro l hl hp hm
    rcases hm.reads hq with hrd | hz
    · exact hr.first l hl hp hrd
    · exact hr.decimal l hl hp hz

/-- What was found comes from a line exactly if the file is reliable for the query. -/
theorem fromLine_iff (h : find lp64 numFields text pfx q = some fields) (hids : 2 ∈ numbers.map Prod.fst)
    (hs : ∀ ks ∈ strings, ks.1 < numFields ∧ ∃ c, fields[ks.1]?.join = some c ∧ ks.2 = (fieldText c).take 31)
    (hl : ∀ before line, FromLine numFields text pfx q fields numbers strings before line →
      column (numFields - 1) line ≠ none) :
    (∃ before line, FromLine numFields text pfx q fields numbers strings before line) ↔
      Reliable lp64 numFields (numbers.map Prod.fst) text pfx q := by
  obtain ⟨before, line, hacc, rfl⟩ := find_spec h
  constructor
  · rintro ⟨before', line', hf⟩
    have hli : line = line' := by
      have h0 := hf.columns 0 (by omega)
      rw [getElem_arrayOf (by omega)] at h0
      exact some.inj (some.inj h0)
    subst hli
    have hb : before' = before := by
      obtain ⟨after, hsp⟩ := hacc.split
      obtain ⟨after', hsp'⟩ := hf.split
      exact nodup_split (hsp' ▸ lineStarts_nodup true text) (hsp'.symm.trans hsp)
    subst hb
    exact ⟨before', line, hf.reliableAt hnum hn hacc (hl _ _ hf)⟩
  · rintro ⟨before', line', hr⟩
    obtain ⟨rfl, rfl⟩ := hacc.unique (hr.firstAccepted hnum)
    refine ⟨before, line, hr.fromLine hnum hn (fun k hk => ?_) hids hs⟩
    obtain ⟨c, hc⟩ := ne_none_iff_exists'.1 (hr.complete k hk)
    rw [getElem_arrayOf hk, hc, some_or]

end FromLine

theorem toPasswdState_some {pw : Passwd} (h : toPasswdState lp64 fields = some pw) :
    fieldToUid lp64 fields[2]?.join = some pw.uid ∧ fieldToUid lp64 fields[3]?.join = some pw.gid ∧
      (∃ c, fields[0]?.join = some c ∧ pw.name = (fieldText c).take 31) ∧
      (∃ c, fields[5]?.join = some c ∧ pw.dir = (fieldText c).take 31) ∧
      ∃ c, fields[6]?.join = some c ∧ pw.shell = (fieldText c).take 31 := by
  rw [toPasswdState] at h
  simp only [bind_eq_bind, bind_eq_some_iff] at h
  obtain ⟨name, hn, dir, hdir, shell, hs, uid, huid, gid, hgid, h⟩ := h
  cases some.inj h
  exact ⟨huid, hgid, ⟨name, hn, rfl⟩, ⟨dir, hdir, rfl⟩, ⟨shell, hs, rfl⟩⟩

theorem toGroupState_some {gr : Group} (h : toGroupState lp64 fields = some gr) :
    fieldToUid lp64 fields[2]?.join = some gr.gid ∧ ∃ c, fields[0]?.join = some c ∧ gr.name = (fieldText c).take 31 := by
  rw [toGroupState] at h
  simp only [bind_eq_bind, bind_eq_some_iff] at h
  obtain ⟨name, hn, gid, hgid, h⟩ := h
  cases some.inj h
  exact ⟨hgid, name, hn, rfl⟩

theorem column_of_written {c : Pointer} (hc : column k line = some c) (hw : Written (fieldText c) n)
    (h : fieldToUid lp64 (some c) = some n) : column (k + 1) line ≠ none := by
  obtain ⟨hiff, hco⟩ := written_iff_plainNumber h
  obtain ⟨rest', heq⟩ := hco (hiff.1 hw)
  have ha : afterColon c = some rest' := by
    rw [heq]
    apply afterColon_append
    intro x hx
    have hs := mem_takeWhile_imp hx
    exact of_decide_eq_true hs
  rw [column_succ, hc, bind_some, ha]
  simp

/-- What a lookup finds comes from one line of the file, the first that matches, exactly if the file is reliable for
the query. -/
theorem found_in_one_line_iff (lp64 : Bool) (text pfx : List Char) (q : Query) (fields : Fields) :
    (find lp64 passwdNumFields text pfx q = some fields → ∀ pw, toPasswdState lp64 fields = some pw →
      ((∃ before line, FromLine passwdNumFields text pfx q fields [(2, pw.uid), (3, pw.gid)]
          [(0, pw.name), (5, pw.dir), (6, pw.shell)] before line) ↔
        Reliable lp64 passwdNumFields [2, 3] text pfx q)) ∧
    (find lp64 groupNumFields text pfx q = some fields → ∀ gr, toGroupState lp64 fields = some gr →
      ((∃ before line, FromLine groupNumFields text pfx q fields [(2, gr.gid)] [(0, gr.name)] before line) ↔
        Reliable lp64 groupNumFields [2] text pfx q)) := by
  constructor
  · intro h pw hpw
    obtain ⟨huid, hgid, hn, hdir, hs⟩ := toPasswdState_some hpw
    refine fromLine_iff (by decide) ?_ h (by simp) ?_ ?_
    · simp only [forall_mem_cons, not_mem_nil, false_implies, implies_true, and_true]
      exact ⟨⟨by decide, huid⟩, by decide, hgid⟩
    · simp only [forall_mem_cons, not_mem_nil, false_implies, implies_true, and_true]
      exact ⟨⟨by decide, hn⟩, ⟨by decide, hdir⟩, by decide, hs⟩
    · intro before line hf
      obtain ⟨c, hc, -⟩ := hf.copied (6, pw.shell) (by simp)
      exact ne_none_iff_exists'.2 ⟨c, hc⟩
  · intro h gr hgr
    obtain ⟨hgid, hn⟩ := toGroupState_some hgr
    refine fromLine_iff (by decide) ?_ h (by simp) ?_ ?_
    · simp only [forall_mem_cons, not_mem_nil, false_implies, implies_true, and_true]
      exact ⟨by decide, hgid⟩
    · simp only [forall_mem_cons, not_mem_nil, false_implies, implies_true, and_true]
      exact ⟨by decide, hn⟩
    · intro before line hf
      obtain ⟨c, hc, hw⟩ := hf.written (2, gr.gid) (by simp)
      rw [hf.columns 2 (by decide), hc] at hgid
      exact column_of_written hc hw hgid

end Lookup

def vendorPrefix : List Char := "vendor_".toList

def plainLine : Pointer := "vendor_a:x:2901:2902::/:/bin/sh\n".toList

def shortLine : Pointer := "vendor_x\n".toList ++ plainLine

def plainText : List Char := "root:x:0:0::/:/bin/sh\n".toList ++ shortLine

/-- A line without the prefix and a short one stand in front of the line with the id. -/
theorem plainText_reliable :
    ReliableAt true passwdNumFields [2, 3] plainText vendorPrefix (.id 2901) [plainText, shortLine] plainLine where
  split := ⟨[], by decide +kernel⟩
  prefixed := by decide +kernel
  reads := show fieldToUid true (column 2 plainLine) = some 2901 by decide +kernel
  complete := by decide +kernel
  plain k hk c hc := by
    have hu : (column 2 plainLine).map fieldText = some ['2', '9', '0', '1'] := by decide +kernel
    have hg : (column 3 plainLine).map fieldText = some ['2', '9', '0', '2'] := by decide +kernel
    rcases mem_pair.1 hk with rfl | rfl
    · rw [hc] at hu
      rw [Option.some.inj hu]
      exact ⟨by decide, by simp, by decide, by decide⟩
    · rw [hc] at hg
      rw [Option.some.inj hg]
      exact ⟨by decide, by simp, by decide, by decide⟩
  first l hl _ := by
    have h : ∀ l ∈ [plainText, shortLine], fieldToUid true (column 2 l) ≠ some 2901 := by decide +kernel
    exact h l hl
  decimal l hl hp hz := by
    have h : ∀ l ∈ [plainText, shortLine], hasPrefix vendorPrefix l → column 2 l = none := by decide +kernel
    obtain ⟨-, -, c, hc, -⟩ := hz
    cases (h l hl hp).symm.trans hc
  own b l a heq _ hi := by
    have h : ∀ l ∈ [plainText, shortLine], fieldToUid true (column 2 l) ≠ some 2901 := by decide +kernel
    obtain ⟨-, b', l', a', rfl, -, -, hl'⟩ := hi
    exact h l' (by simp [heq]) hl'

theorem found_in_one_line_iff_plainText :
    ∃ fields, find true passwdNumFields plainText vendorPrefix (.id 2901) = some fields ∧
      toPasswdState true fields = some ⟨"vendor_a".toList, 2901, 2902, "/".toList, "/bin/sh".toList⟩ ∧
      ∃ before line, FromLine passwdNumFields plainText vendorPrefix (.id 2901) fields [(2, 2901), (3, 2902)]
        [(0, "vendor_a".toList), (5, "/".toList), (6, "/bin/sh".toList)] before line :=
  have h : find true passwdNumFields plainText vendorPrefix (.id 2901) =
    some (arrayOf passwdNumFields [plainText, shortLine, plainLine]) := by decide +kernel
  have hpw : toPasswdState true (arrayOf passwdNumFields [plainText, shortLine, plainLine]) =
    some ⟨"vendor_a".toList, 2901, 2902, "/".toList, "/bin/sh".toList⟩ := by decide +kernel
  ⟨_, h, hpw, ((found_in_one_line_iff true plainText vendorPrefix (.id 2901) _).1 h _ hpw).2
    ⟨_, _, plainText_reliable⟩⟩

def staleText : List Char := "root:x:0:0::/:/bin/sh\nvendor_x\n".toList

def staleLine : Pointer := "vendor_x\n".toList

/-- The lookup of uid 0 gives the name of the second line with the id of the first one, and a number of 33 bits is
taken for 0. -/
theorem found_in_two_lines :
    (∃ fields, find true passwdNumFields staleText vendorPrefix (.id 0) = some fields ∧
      toPasswdState true fields = some ⟨"vendor_x".toList, 0, 0, "/".toList, "/bin/sh".toList⟩ ∧
      ¬∃ before line, FromLine passwdNumFields staleText vendorPrefix (.id 0) fields [(2, 0), (3, 0)]
        [(0, "vendor_x".toList), (5, "/".toList), (6, "/bin/sh".toList)] before line) ∧
    findPasswd true ⟨"vendor_y:x:4294967296:4294967296::/:/bin/sh\n".toList, vendorPrefix⟩ (.id 0) =
      some ⟨"vendor_y".toList, 0, 0, "/".toList, "/bin/sh".toList⟩ := by
  have h : find true passwdNumFields staleText vendorPrefix (.id 0) =
      some (arrayOf passwdNumFields [staleText, staleLine]) := by decide +kernel
  refine ⟨⟨_, h, by decide +kernel, ?_⟩, by decide +kernel⟩
  rintro ⟨before, line, hf⟩
  have h0 := hf.columns 0 (by decide)
  have h6 := hf.columns 6 (by decide)
  have hl : line = staleLine := by
    have hcol : some (some line) = some (some staleLine) := h0.symm
    exact some.inj (some.inj hcol)
  rw [hl] at h6
  have hn : column 6 staleLine = none := by decide +kernel
  have hs : latest [staleText, staleLine] 6 ≠ none := by decide +kernel
  rw [hn] at h6
  exact hs (some.inj h6)

end Bionic.Pwd
