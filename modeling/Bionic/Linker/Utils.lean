import Mathlib.Data.List.Basic

namespace Bionic.Linker

variable (params : List (List Char × List Char)) (str rest : List Char)

def findDollar (pos : ℕ) : Option ℕ :=
  if '$' ∈ str.drop pos then some (pos + (str.drop pos).idxOf '$') else none

/-- The loop over the parameters behind a `$`: the length of the reference and its replacement. -/
def reference : Option (ℕ × List Char) :=
  params.findSome? fun (token, replacement) =>
    if rest.take token.length = token then some (token.length + 1, replacement)
    else if rest.take (token.length + 2) = '{' :: token ++ ['}'] then some (token.length + 3, replacement)
    else none

/-- The `- 1` after a replacement and the `++pos` cancel, for an empty replacement by wrapping around. -/
def formatLoop : ℕ → List Char → ℕ → Option (List Char)
  | 0, _, _ => none
  | fuel + 1, str, pos =>
    if pos < str.length then
      match findDollar str pos with
      | none => some str
      | some pos =>
        match reference params (str.drop (pos + 1)) with
        | some (n, replacement) =>
          formatLoop fuel (str.take pos ++ replacement ++ str.drop (pos + n)) (pos + replacement.length)
        | none => formatLoop fuel str (pos + 1)
    else some str

def formatString : Option (List Char) := formatLoop params (str.length + 1) str 0

/-- `$NAME` or `${NAME}`. -/
inductive Reference : List Char → List Char → Prop
  | plain (name : List Char) : Reference name ('$' :: name)
  | braced (name : List Char) : Reference name ('$' :: '{' :: name ++ ['}'])

/-- Every reference of the string is replaced, from left to right, and the rest is kept. -/
inductive Substitution : List Char → List Char → Prop
  | nil : Substitution [] []
  | reference {name value text rest out : List Char} (hp : (name, value) ∈ params) (ht : Reference name text)
      (h : Substitution rest out) : Substitution (text ++ rest) (value ++ out)
  | keep {c : Char} {rest out : List Char} (hn : ∀ p ∈ params, ∀ text, Reference p.1 text → ¬text <+: c :: rest)
      (h : Substitution rest out) : Substitution (c :: rest) (c :: out)

variable {params} {pre out : List Char} (fuel : ℕ)

theorem Substitution.skip (hpre : '$' ∉ pre) (h : Substitution params rest out) :
    Substitution params (pre ++ rest) (pre ++ out) := by
  induction pre with
  | nil => exact h
  | cons c pre ih =>
    apply Substitution.keep
    · rintro p - text ⟨⟩ ht
      all_goals exact hpre (by simp_all)
    · exact ih (by simp_all)

theorem reference_some {n : ℕ} {value : List Char} (h : reference params rest = some (n, value)) :
    ∃ name text, (name, value) ∈ params ∧ Reference name text ∧ n = text.length ∧ text <+: '$' :: rest := by
  obtain ⟨⟨name, v⟩, hp, hm⟩ := List.exists_of_findSome?_eq_some h
  dsimp only at hm
  split_ifs at hm with h₁ h₂
  · cases hm
    exact ⟨name, _, hp, .plain name, rfl, by simp [List.prefix_iff_eq_take, h₁]⟩
  · cases hm
    exact ⟨name, _, hp, .braced name, by simp, by simp [List.prefix_iff_eq_take, h₂]⟩

theorem reference_none (h : reference params rest = none) {p : List Char × List Char} (hp : p ∈ params)
    {text : List Char} (ht : Reference p.1 text) : ¬text <+: '$' :: rest := by
  have hm := List.findSome?_eq_none_iff.mp h p hp
  dsimp only at hm
  split_ifs at hm with h₁ h₂
  intro hpre
  rw [List.prefix_iff_eq_take] at hpre
  cases ht with
  | plain => exact h₁ (List.cons.inj hpre).2.symm
  | braced => exact h₂ (by simpa using (List.cons.inj hpre).2.symm)

theorem formatLoop_found (done : List Char) (hpre : '$' ∉ pre) :
    formatLoop params (fuel + 1) (done ++ (pre ++ '$' :: rest)) done.length =
      match reference params rest with
      | some (n, value) =>
        formatLoop params fuel (done ++ pre ++ value ++ ('$' :: rest).drop n) (done ++ pre ++ value).length
      | none => formatLoop params fuel (done ++ pre ++ ['$'] ++ rest) (done ++ pre ++ ['$']).length := by
  have hf : findDollar (done ++ (pre ++ '$' :: rest)) done.length = some (done ++ pre).length := by
    simp [findDollar, List.idxOf_append_of_notMem hpre]
  have hlt : done.length < (done ++ (pre ++ '$' :: rest)).length := by
    simp only [List.length_append, List.length_cons]
    omega
  rw [formatLoop, if_pos hlt, hf, ← List.append_assoc]
  generalize done ++ pre = a
  simp [List.drop_append, List.drop_of_length_le]

/-- What stands before the position is not read again. -/
theorem formatLoop_substitutes (h : rest.length < fuel) (done : List Char) :
    ∃ out, formatLoop params fuel (done ++ rest) done.length = some (done ++ out) ∧ Substitution params rest out := by
  induction fuel generalizing done rest with
  | zero => omega
  | succ fuel ih =>
    by_cases hd : '$' ∈ rest
    · obtain ⟨pre, tail, rfl, hpre⟩ := List.eq_append_cons_of_mem hd
      rw [List.length_append, List.length_cons] at h
      rw [formatLoop_found tail fuel done hpre]
      cases hr : reference params tail with
      | none =>
        obtain ⟨out, hout, hs⟩ := ih tail (by omega) (done ++ pre ++ ['$'])
        refine ⟨pre ++ '$' :: out, by simpa using hout, Substitution.skip _ hpre (.keep ?_ hs)⟩
        exact fun p hp text ht => reference_none _ hr hp ht
      | some x =>
        obtain ⟨name, text, hp, ht, hn, t, hx⟩ := reference_some _ hr
        have hlen : t.length < fuel := by
          have hl := congrArg List.length hx
          cases ht <;> simp at hl <;> omega
        obtain ⟨out, hout, hs⟩ := ih t hlen (done ++ pre ++ x.2)
        refine ⟨pre ++ (x.2 ++ out), ?_, Substitution.skip _ hpre (hx ▸ .reference hp ht hs)⟩
        simpa [hn, ← hx] using hout
    · refine ⟨rest, ?_, ?_⟩
      · simp [formatLoop, findDollar, hd]
      · have hn : Substitution params [] [] := .nil
        simpa using hn.skip [] hd

/-- A name has a first letter other than a brace and is not the start of another one. -/
def Unambiguous (params : List (List Char × List Char)) : Prop :=
  ∀ p ∈ params, (∃ c name, p.1 = c :: name ∧ c ≠ '{') ∧ ∀ q ∈ params, p.1 <+: q.1 → p = q

section Unambiguous

variable (h : Unambiguous params) {p q : List Char × List Char} {text u out' : List Char}
include h

theorem Reference.eq_of_isPrefix (hp : p ∈ params) (hq : q ∈ params) (ht : Reference p.1 text) (hu : Reference q.1 u)
    (hpre : text <+: u) : p = q ∧ text = u := by
  obtain ⟨⟨a, as, ha, hab⟩, hpq⟩ := h p hp
  obtain ⟨⟨b, bs, hb, hbb⟩, -⟩ := h q hq
  cases ht with
  | plain =>
    cases hu with
    | plain =>
      obtain rfl := hpq q hq (List.cons_prefix_cons.mp hpre).2
      exact ⟨rfl, rfl⟩
    | braced => simp [ha, hab] at hpre
  | braced =>
    cases hu with
    | plain => simp [hb, hbb.symm] at hpre
    | braced =>
      have hpre' : p.1 ++ ['}'] <+: q.1 ++ ['}'] := by simpa using hpre
      have hle : p.1 <+: q.1 := by
        rcases List.prefix_concat_iff.mp hpre' with heq | hle
        · exact (List.append_cancel_right heq) ▸ List.prefix_rfl
        · exact (List.prefix_append ..).trans hle
      obtain rfl := hpq q hq hle
      exact ⟨rfl, rfl⟩

theorem Substitution.unique (h₁ : Substitution params str out) (h₂ : Substitution params str out') : out = out' := by
  induction h₁ generalizing out' with
  | nil =>
    generalize hs : ([] : List Char) = s at h₂
    cases h₂ with
    | nil => rfl
    | reference hq hu _ => cases hu <;> cases hs
    | keep => cases hs
  | @reference name value text rest out hp ht _ ih =>
    generalize hs : text ++ rest = s at h₂
    cases h₂ with
    | nil => cases ht <;> cases hs
    | @reference name' value' text' rest' out' hq hu h₂ =>
      have heq : (name, value) = (name', value') ∧ text = text' := by
        rcases List.append_eq_append_iff.mp hs with ⟨t, rfl, -⟩ | ⟨t, rfl, -⟩
        · exact Reference.eq_of_isPrefix h hp hq ht hu (List.prefix_append ..)
        · obtain ⟨hn, htt⟩ := Reference.eq_of_isPrefix h hq hp hu ht (List.prefix_append ..)
          exact ⟨hn.symm, htt.symm⟩
      obtain ⟨⟨⟩, rfl⟩ := heq
      rw [ih (List.append_cancel_left hs ▸ h₂)]
    | keep hn => exact (hn _ hp _ ht (hs ▸ List.prefix_append ..)).elim
  | @keep c rest out hn _ ih =>
    generalize hs : c :: rest = s at h₂
    cases h₂ with
    | nil => cases hs
    | reference hq hu => exact (hn _ hq _ hu (hs ▸ List.prefix_append ..)).elim
    | keep _ h₂ =>
      cases hs
      rw [ih h₂]

theorem formatString_eq_some_iff : formatString params str = some out ↔ Substitution params str out := by
  obtain ⟨out', hout, hs⟩ := formatLoop_substitutes str (str.length + 1) (Nat.lt_succ_self _) []
  have hf : formatString params str = some out' := hout
  rw [hf, Option.some.injEq]
  constructor
  · rintro rfl
    exact hs
  · exact hs.unique str h

end Unambiguous

/-- `format_string` ends, and every reference of the string is replaced once. -/
theorem formatString_substitutes (params : List (List Char × List Char)) (str : List Char) :
    ∃ out, formatString params str = some out ∧ Substitution params str out :=
  formatLoop_substitutes str (str.length + 1) (Nat.lt_succ_self _) []

end Bionic.Linker
