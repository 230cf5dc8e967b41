import Mathlib.Data.List.Basic

namespace Bionic.Lib

open Function List

variable {ι N : Type*}

/-- The nodes of `l`, and no others, are met one after another from the pointer `p` on. -/
def Linked (next : N → Option N) : Option N → List N → Prop
  | p, [] => p = none
  | p, a :: l => p = some a ∧ Linked next (next a) l

section Linked

variable {next next' : N → Option N} {p : Option N} {l l₁ l₂ : List N} {a : N}

@[simp]
theorem linked_nil : Linked next p [] ↔ p = none := Iff.rfl

@[simp]
theorem linked_cons : Linked next p (a :: l) ↔ p = some a ∧ Linked next (next a) l := Iff.rfl

theorem Linked.unique (h : Linked next p l₁) (h' : Linked next p l₂) : l₁ = l₂ := by
  induction l₁ generalizing p l₂ with
  | nil =>
    cases l₂ with
    | nil => rfl
    | cons b l₂ =>
      cases (linked_nil.mp h).symm.trans h'.1
  | cons a l₁ ih =>
    cases l₂ with
    | nil => cases h.1.symm.trans (linked_nil.mp h')
    | cons b l₂ =>
      cases h.1.symm.trans h'.1
      rw [ih h.2 h'.2]

theorem Linked.of_append (h : Linked next p (l₁ ++ a :: l₂)) : Linked next (next a) l₂ := by
  induction l₁ generalizing p with
  | nil => exact h.2
  | cons b l₁ ih => exact ih h.2

theorem Linked.nodup (h : Linked next p l) : l.Nodup := by
  induction l generalizing p with
  | nil => exact nodup_nil
  | cons a l ih =>
    refine nodup_cons.mpr ⟨?_, ih h.2⟩
    intro ha
    obtain ⟨l₁, l₂, rfl⟩ := append_of_mem ha
    have heq := h.2.unique (Linked.of_append h.2)
    have := congrArg length heq
    simp at this
    omega

theorem Linked.congr (h : Linked next p l) (hn : ∀ a ∈ l, next' a = next a) : Linked next' p l := by
  induction l generalizing p with
  | nil => exact h
  | cons a l ih =>
    refine ⟨h.1, ?_⟩
    rw [hn a mem_cons_self]
    exact ih h.2 fun b hb => hn b (mem_cons_of_mem a hb)

theorem Linked.redirect [DecidableEq N] {b : N} {q : Option N} (h : Linked next p (l₁ ++ b :: l₂))
    (hq : Linked (update next b q) q l) : Linked (update next b q) p (l₁ ++ b :: l) := by
  induction l₁ generalizing p with
  | nil =>
    refine ⟨h.1, ?_⟩
    rwa [update_self]
  | cons c l₁ ih =>
    have hne : c ≠ b := by
      rintro rfl
      exact (nodup_cons.mp h.nodup).1 mem_append_cons_self
    refine ⟨h.1, ?_⟩
    rw [update_of_ne hne]
    exact ih h.2

theorem Linked.update [DecidableEq N] (h : Linked next p l) (ha : a ∉ l) (q : Option N) :
    Linked (update next a q) p l :=
  h.congr fun b hb => update_of_ne (fun heq : b = a => ha (heq ▸ hb)) _ _

end Linked

inductive Place (ι N : Type*)
  | head (i : ι)
  | next (a : N)
  deriving DecidableEq

def Place.after : Place ι N → List N → Place ι N
  | p, [] => p
  | _, a :: l => Place.after (.next a) l

theorem Place.after_concat (p : Place ι N) (l : List N) (a : N) : p.after (l ++ [a]) = .next a := by
  induction l generalizing p with
  | nil => rfl
  | cons b l ih => exact ih (.next b)

structure Links (ι N : Type*) where
  head : ι → Option N
  next : N → Option N

namespace Links

def get (L : Links ι N) : Place ι N → Option N
  | .head i => L.head i
  | .next a => L.next a

section Walk

variable {L : Links ι N} {p : Place ι N} {l₁ l₂ : List N} {test : N → Option Bool}

/-- The first node that passes the test and the place of the link to it, or the place of the final link. A test
that fails to read its node ends the walk. -/
def walk (L : Links ι N) (test : N → Option Bool) : Nat → Place ι N → Option (Place ι N × Option N)
  | 0, _ => none
  | fuel + 1, p =>
    match L.get p with
    | none => some (p, none)
    | some a => (test a).bind fun found => if found then some (p, some a) else walk L test fuel (.next a)

theorem walk_append (h : Linked L.next (L.get p) (l₁ ++ l₂)) (hl₁ : ∀ a ∈ l₁, test a = some false)
    (hl₂ : ∀ a ∈ l₂.head?, test a = some true) {fuel : Nat} (hf : l₁.length < fuel) :
    L.walk test fuel p = some (p.after l₁, l₂.head?) := by
  induction l₁ generalizing p fuel with
  | nil =>
    obtain ⟨fuel, rfl⟩ := Nat.exists_eq_succ_of_ne_zero (Nat.ne_zero_of_lt hf)
    cases l₂ with
    | nil => simp only [walk, linked_nil.mp h]; rfl
    | cons a l₂ =>
      simp only [walk, h.1, hl₂ a rfl]
      rfl
  | cons b l₁ ih =>
    obtain ⟨fuel, rfl⟩ := Nat.exists_eq_succ_of_ne_zero (Nat.ne_zero_of_lt hf)
    simp only [walk, h.1, hl₁ b mem_cons_self, Option.bind_some]
    have hr : Linked L.next (L.get (.next b)) (l₁ ++ l₂) := h.2
    exact ih hr (fun a ha => hl₁ a (mem_cons_of_mem b ha)) (Nat.lt_of_succ_lt_succ hf)

theorem get_after (h : Linked L.next (L.get p) (l₁ ++ l₂)) : L.get (p.after l₁) = l₂.head? := by
  induction l₁ generalizing p with
  | nil =>
    cases l₂ with
    | nil => exact h
    | cons a l₂ => exact h.1
  | cons a l₁ ih =>
    have hr : Linked L.next (L.get (.next a)) (l₁ ++ l₂) := h.2
    exact ih hr

end Walk

section Set

variable [DecidableEq ι] [DecidableEq N]

def set (L : Links ι N) (p : Place ι N) (q : Option N) : Links ι N :=
  match p with
  | .head i => { L with head := update L.head i q }
  | .next a => { L with next := update L.next a q }

theorem set_get (L : Links ι N) (p : Place ι N) : L.set p (L.get p) = L := by
  cases p with
  | head i | next a => simp only [set, get, update_eq_self]

structure Table (L : Links ι N) (chains : ι → List N) : Prop where
  linked : ∀ i, Linked L.next (L.head i) (chains i)
  disjoint : ∀ {i j a}, a ∈ chains i → a ∈ chains j → i = j

variable {L : Links ι N} {chains : ι → List N} {i : ι} {l l₁ l₂ : List N} {a : N} {q : Option N}

omit [DecidableEq ι] [DecidableEq N] in
theorem Table.linked_whole (h : L.Table chains) (i : ι) : Linked L.next (L.get (.head i)) (chains i ++ []) := by
  rw [append_nil]
  exact h.linked i

theorem Table.set_next (h : L.Table chains) (ha : ∀ i, a ∉ chains i) (q : Option N) :
    (L.set (.next a) q).Table chains where
  linked i := (h.linked i).update (ha i) q
  disjoint := h.disjoint

theorem linked_set_after {p : Option N} (h : Linked L.next p l) (hl₁ : ∀ a ∈ l, a ∉ l₁) (i : ι) (q : Option N) :
    Linked (L.set ((Place.head i).after l₁) q).next p l := by
  cases eq_nil_or_concat l₁ with
  | inl hnil =>
    subst hnil
    exact h
  | inr hc =>
    obtain ⟨l₀, b, rfl⟩ := hc
    rw [concat_eq_append] at hl₁ ⊢
    rw [Place.after_concat]
    exact h.update (fun hb => hl₁ b hb (by simp)) q

section

variable (h : L.Table chains)

include h

theorem Table.set_after (hi : chains i = l₁ ++ l₂) (hq : Linked L.next q l)
    (hl₁ : ∀ a ∈ l, a ∉ l₁) (hf : ∀ a ∈ l, ∀ j, j ≠ i → a ∉ chains j) :
    (L.set ((Place.head i).after l₁) q).Table (update chains i (l₁ ++ l)) := by
  have ho {j : ι} (hj : j ≠ i) : ∀ a ∈ l₁ ++ l, a ∉ chains j := by
    intro a ha haj
    cases mem_append.mp ha with
    | inl ha =>
      refine hj (h.disjoint haj (?_ : a ∈ chains i))
      rw [hi]
      exact mem_append_left _ ha
    | inr ha => exact hf a ha j hj haj
  refine ⟨fun j => ?_, ?_⟩
  · cases eq_nil_or_concat l₁ with
    | inl hnil =>
      subst hnil
      by_cases hj : j = i
      · subst hj
        simpa [set, Place.after] using hq
      · simpa [set, Place.after, hj] using h.linked j
    | inr hc =>
      obtain ⟨l₀, b, rfl⟩ := hc
      rw [concat_eq_append] at *
      rw [Place.after_concat]
      have hb : b ∉ l := fun hb => hl₁ b hb (by simp)
      by_cases hj : j = i
      · subst hj
        have hl := h.linked j
        rw [hi, append_assoc] at hl
        rw [update_self, append_assoc]
        exact hl.redirect (hq.update hb q)
      · rw [update_of_ne hj]
        exact (h.linked j).update (ho hj b (by simp)) q
  · intro j k a haj hak
    by_cases hj : j = i
    · by_cases hk : k = i
      · rw [hj, hk]
      · rw [hj, update_self] at haj
        rw [update_of_ne hk] at hak
        exact absurd hak (ho hk a haj)
    · rw [update_of_ne hj] at haj
      by_cases hk : k = i
      · rw [hk, update_self] at hak
        exact absurd haj (ho hj a hak)
      · rw [update_of_ne hk] at hak
        exact h.disjoint haj hak

theorem Table.unlink (hi : chains i = l₁ ++ a :: l₂) :
    (L.set ((Place.head i).after l₁) (L.next a)).Table (update chains i (l₁ ++ l₂)) := by
  have hl := h.linked i
  rw [hi] at hl
  apply h.set_after hi (Linked.of_append hl)
  · intro b hb hb'
    have := (nodup_append.mp hl.nodup).2.2 b hb' b (mem_cons_of_mem a hb)
    exact this rfl
  · intro b hb j hj hbj
    refine hj (h.disjoint hbj (?_ : b ∈ chains i))
    rw [hi]
    exact mem_append_right _ (mem_cons_of_mem a hb)

theorem Table.append (hnew : ∀ i, a ∉ chains i) (hn : L.next a = none) :
    (L.set ((Place.head i).after (chains i)) (some a)).Table (update chains i (chains i ++ [a])) := by
  have hl : Linked L.next (some a) [a] := ⟨rfl, hn⟩
  apply h.set_after (append_nil _).symm hl
  · intro b hb
    rw [mem_singleton.mp hb]
    exact hnew i
  · intro b hb j _
    rw [mem_singleton.mp hb]
    exact hnew j

theorem Table.push (hnew : ∀ i, a ∉ chains i) :
    ((L.set (.next a) (L.head i)).set (.head i) (some a)).Table (update chains i (a :: chains i)) := by
  have ht := h.set_next hnew (L.head i)
  have hl : Linked (L.set (.next a) (L.head i)).next (some a) (a :: chains i) := by
    refine ⟨rfl, ?_⟩
    have := ht.linked i
    simpa [set] using this
  have hh : chains i = [] ++ chains i := rfl
  apply ht.set_after hh hl
  · exact fun _ _ => not_mem_nil
  · intro b hb j hj hbj
    cases mem_cons.mp hb with
    | inl hb => exact hnew j (hb ▸ hbj)
    | inr hb => exact hj (h.disjoint hbj hb)

end

end Set

end Links

end Bionic.Lib
