import Bionic.Pwd.FieldNumber

namespace Bionic.Pwd

open List

variable {lp64 : Bool} {numFields : Nat} {pfx text : List Char} {q : Query} {p : Pointer} {fields : Fields}

/-- The starts of the lines of a file, the last newline apart. The flag tells whether a line starts here. -/
def lineStarts : Bool → Pointer → List Pointer
  | _, [] => []
  | start, c :: rest =>
    if start ∧ rest ≠ [] then (c :: rest) :: lineStarts (c = '\n') rest else lineStarts (c = '\n') rest

theorem lineStarts_false (p : Pointer) : lineStarts false p = lineStarts true (nextLine p) := by
  induction p with
  | nil => rfl
  | cons c rest ih =>
    rw [lineStarts, if_neg (by simp), nextLine]
    by_cases hc : c = '\n'
    · rw [if_pos hc, decide_eq_true hc]
    · rw [if_neg hc, decide_eq_false hc, ih]

theorem lineStarts_true (h : 1 < p.length) : lineStarts true p = p :: lineStarts true (nextLine p) := by
  cases p with
  | nil => cases h
  | cons c rest =>
    have hne : rest ≠ [] := by
      rintro rfl
      exact Nat.lt_irrefl 1 h
    rw [← lineStarts_false, lineStarts, if_pos ⟨rfl, hne⟩, lineStarts, if_neg (by simp)]

theorem lineStarts_length {start : Bool} : ∀ l ∈ lineStarts start p, l.length ≤ p.length := by
  induction p generalizing start with
  | nil => exact fun l hl => absurd hl not_mem_nil
  | cons c rest ih =>
    intro l hl
    rw [lineStarts] at hl
    split_ifs at hl
    · rcases mem_cons.1 hl with rfl | hl
      · exact Nat.le_refl _
      · exact (ih l hl).trans (Nat.le_succ _)
    · exact (ih l hl).trans (Nat.le_succ _)

theorem lineStarts_nodup (start : Bool) (p : Pointer) : (lineStarts start p).Nodup := by
  induction p generalizing start with
  | nil => exact nodup_nil
  | cons c rest ih =>
    rw [lineStarts]
    split_ifs
    · refine nodup_cons.2 ⟨fun hmem => ?_, ih _⟩
      have := lineStarts_length _ hmem
      rw [length_cons] at this
      omega
    · exact ih _

theorem nextLine_inFile (h : InFile p) (hne : nextLine p ≠ []) : InFile (nextLine p) := by
  induction p with
  | nil => exact absurd rfl hne
  | cons c rest ih =>
    rw [nextLine] at hne ⊢
    split_ifs at hne ⊢ with hc
    · exact h.cons hne
    · refine ih (h.cons ?_) hne
      rintro rfl
      exact hc (Option.some.inj h)

/-- What the array holds for a column after these lines: the column of the last one that has it. -/
def latest (lines : List Pointer) (k : Nat) : Option Pointer :=
  lines.foldl (fun field line => (column k line).or field) none

theorem latest_concat (lines : List Pointer) (line : Pointer) (k : Nat) :
    latest (lines ++ [line]) k = (column k line).or (latest lines k) := by
  rw [latest, foldl_append]
  rfl

theorem latest_append {after : List Pointer} {k : Nat} (lines : List Pointer) (h : ∀ l ∈ after, column k l = none) :
    latest (lines ++ after) k = latest lines k := by
  induction after using reverseRecOn with
  | nil => rw [append_nil]
  | append_singleton after line ih =>
    rw [← append_assoc, latest_concat, h line (by simp), Option.none_or]
    exact ih fun l hl => h l (mem_append_left _ hl)

theorem latest_eq_some {lines : List Pointer} {k : Nat} {c : Pointer} (h : latest lines k = some c) :
    ∃ before line after, lines = before ++ line :: after ∧ column k line = some c ∧ ∀ l ∈ after, column k l = none := by
  induction lines using reverseRecOn with
  | nil => cases h
  | append_singleton lines last ih =>
    rw [latest_concat] at h
    cases hc : column k last with
    | some c' =>
      rw [hc] at h
      exact ⟨lines, last, [], rfl, hc.trans h, by simp⟩
    | none =>
      rw [hc] at h
      obtain ⟨before, line, after, rfl, hl, ha⟩ := ih h
      refine ⟨before, line, after ++ [last], by simp, hl, fun l hl => ?_⟩
      rcases mem_append.1 hl with hl | hl
      · exact ha l hl
      · rwa [mem_singleton.1 hl]

def arrayOf (numFields : Nat) (lines : List Pointer) : Fields := (range numFields).map (latest lines)

theorem arrayOf_getElem {lines : List Pointer} {k : Nat} (h : k < numFields) :
    (arrayOf numFields lines)[k]? = some (latest lines k) := by
  rw [arrayOf, getElem?_map, getElem?_range h]
  rfl

theorem parseLine_array (h : InFile p) (lines : List Pointer) :
    parseLine numFields (arrayOf numFields lines) p = (arrayOf numFields (lines ++ [p]), nextLine p) := by
  have hlen : (arrayOf numFields lines).length = numFields := by
    rw [arrayOf, length_map, length_range]
  obtain ⟨hn, hlen', hfi⟩ := parseLine_spec h hlen
  refine Prod.ext (ext_getElem? fun k => ?_) hn
  by_cases hk : k < numFields
  · have hk' : k < (parseLine numFields (arrayOf numFields lines) p).1.length := by rwa [hlen']
    have hf := hfi k hk
    rw [arrayOf_getElem hk, getElem?_eq_getElem hk'] at hf
    rw [arrayOf_getElem hk, latest_concat, getElem?_eq_getElem hk']
    exact congrArg some hf
  · rw [getElem?_eq_none (by omega), getElem?_eq_none]
    rw [arrayOf, length_map, length_range]
    omega

def accepts (lp64 : Bool) (numFields : Nat) (pfx : List Char) (q : Query) (before : List Pointer) (line : Pointer) :
    Prop :=
  hasPrefix pfx line ∧ q.predicate lp64 (arrayOf numFields (before ++ [line]))

structure FirstAccepted (lp64 : Bool) (numFields : Nat) (text pfx : List Char) (q : Query) (before : List Pointer)
    (line : Pointer) : Prop where
  split : ∃ after, lineStarts true text = before ++ line :: after
  accepted : accepts lp64 numFields pfx q before line
  first : ∀ b l a, before = b ++ l :: a → ¬accepts lp64 numFields pfx q b l

theorem split_concat {before b a : List Pointer} {l : Pointer} (h : before ++ [p] = b ++ l :: a) :
    b = before ∧ l = p ∨ ∃ a', before = b ++ l :: a' := by
  rcases eq_nil_or_concat a with rfl | ⟨a', x, rfl⟩
  · obtain ⟨hb, hl⟩ := append_inj' h rfl
    exact .inl ⟨hb.symm, (singleton_inj.1 hl).symm⟩
  · rw [concat_eq_append, ← cons_append, ← append_assoc] at h
    exact .inr ⟨a', (append_inj' h rfl).1⟩

theorem findLoop_spec {fuel : Nat} (before : List Pointer) (hp : p ≠ [] → InFile p)
    (hpr : ∀ b l a, before = b ++ l :: a → ¬accepts lp64 numFields pfx q b l)
    (h : findLoop lp64 numFields pfx q fuel (arrayOf numFields before) p = some fields) :
    ∃ mid line after, lineStarts true p = mid ++ line :: after ∧ accepts lp64 numFields pfx q (before ++ mid) line ∧
      (∀ b l a, before ++ mid = b ++ l :: a → ¬accepts lp64 numFields pfx q b l) ∧
      fields = arrayOf numFields (before ++ mid ++ [line]) := by
  induction fuel generalizing before p with
  | zero => cases h
  | succ fuel ih =>
    rw [findLoop] at h
    split_ifs at h with hlen
    have hlen' : 1 < p.length := Nat.lt_of_not_le hlen
    have hin : InFile p := hp (by rintro rfl; cases hlen')
    rw [parseLine_array hin] at h
    simp only at h
    split_ifs at h with hacc
    · cases h
      exact ⟨[], p, _, lineStarts_true hlen', by rwa [append_nil], by rwa [append_nil],
        by rw [append_nil]⟩
    · have hpr' : ∀ b l a, before ++ [p] = b ++ l :: a → ¬accepts lp64 numFields pfx q b l := by
        intro b l a heq
        rcases split_concat heq with ⟨rfl, rfl⟩ | ⟨a', heq'⟩
        · exact hacc
        · exact hpr b l a' heq'
      obtain ⟨mid, line, after, hs, hl, hfi, hf⟩ := ih (before ++ [p])
        (fun hne => nextLine_inFile hin hne) hpr' h
      refine ⟨p :: mid, line, after, ?_, ?_, ?_, ?_⟩
      · rw [lineStarts_true hlen', hs]
        rfl
      · rwa [append_assoc] at hl
      · rwa [append_assoc] at hfi
      · rwa [append_assoc before [p] mid] at hf

theorem find_spec (h : find lp64 numFields text pfx q = some fields) :
    ∃ before line, FirstAccepted lp64 numFields text pfx q before line ∧
      fields = arrayOf numFields (before ++ [line]) := by
  rw [find] at h
  split_ifs at h with hin
  have ha : replicate numFields none = arrayOf numFields [] := by
    have hn : latest [] = fun _ => none := rfl
    rw [arrayOf, hn, map_const', length_range]
  rw [ha] at h
  obtain ⟨mid, line, after, hs, hl, hfi, hf⟩ := findLoop_spec [] (fun _ => hin) (by simp) h
  exact ⟨mid, line, ⟨⟨after, hs⟩, hl, hfi⟩, hf⟩

theorem FirstAccepted.unique {before before' : List Pointer} {line line' : Pointer}
    (h : FirstAccepted lp64 numFields text pfx q before line)
    (h' : FirstAccepted lp64 numFields text pfx q before' line') : before = before' ∧ line = line' := by
  obtain ⟨after, hs⟩ := h.split
  obtain ⟨after', hs'⟩ := h'.split
  rw [hs] at hs'
  rcases append_eq_append_iff.1 hs' with ⟨m, hb, hm⟩ | ⟨m, hb, hm⟩
  · cases m with
    | nil =>
      rw [nil_append, cons.injEq] at hm
      exact ⟨by rw [hb, append_nil], hm.1⟩
    | cons x m =>
      rw [cons_append, cons.injEq] at hm
      exact absurd h.accepted (h'.first before line m (by rw [hb, hm.1]))
  · cases m with
    | nil =>
      rw [nil_append, cons.injEq] at hm
      exact ⟨by rw [hb, append_nil], hm.1.symm⟩
    | cons x m =>
      rw [cons_append, cons.injEq] at hm
      exact absurd h'.accepted (h.first before' line' m (by rw [hb, hm.1]))

end Bionic.Pwd
