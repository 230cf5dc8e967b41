import Bionic.Logd.LogTags

namespace Bionic.EventTags

open List Option Function

/-- A new key does not get a tag that is there already, and a name without a format is not one that was first given
with a format. -/
def Allowed (hash : Str → UInt64) (t : LogTags) (name format : Str) : Prop :=
  (t.key2tag (keyOf name format) = none → t.tag2name (hash (keyOf name format)).toUInt32 = none) ∧
    (format = [] → ∀ tag, t.key2tag name = some tag → t.tag2format tag = none)

variable {hash : Str → UInt64} {env : Env} {t : LogTags} {uid tag : UInt32} {name format : Str}

def formatOf (t : LogTags) (tag : UInt32) : Str := (t.tag2format tag).getD []

theorem takeWhile_append_plus (hn : plus ∉ name) : (name ++ plus :: format).takeWhile (· ≠ plus) = name := by
  have hall : ∀ b ∈ name, decide (b ≠ plus) := by
    intro b hb
    apply decide_eq_true
    rintro rfl
    exact hn hb
  rw [takeWhile_append_of_pos hall, takeWhile_cons_of_neg (by decide), append_nil]

theorem keyOf_inj {n f : Str} (hna : plus ∉ name) (hn : plus ∉ n) (h : keyOf n f = keyOf name format) :
    n = name ∧ f = format := by
  rw [keyOf, keyOf] at h
  split at h
  · rename_i hf
    subst hf
    split at h
    · rename_i hfo
      exact ⟨h, hfo.symm⟩
    · exact absurd (h ▸ mem_append_right name (mem_cons_self ..)) hn
  · split at h
    · exact absurd (h ▸ mem_append_right n (mem_cons_self ..)) hna
    · have ht := congrArg (takeWhile (· ≠ plus)) h
      rw [takeWhile_append_plus hn, takeWhile_append_plus hna] at ht
      subst ht
      exact ⟨rfl, tail_eq_of_cons_eq (append_cancel_left h)⟩

/-- What the database says about names and formats. A name alone may stand for the first tag that has it. -/
structure Consistent (t : LogTags) : Prop where
  linked : Linked t
  keyed : ∀ key tag, t.key2tag key = some tag →
    ∃ n, t.tag2name tag = some n ∧ plus ∉ n ∧ (key = keyOf n (formatOf t tag) ∨ key = n)
  format : ∀ tag f, t.tag2format tag = some f → f ≠ [] ∧ t.tag2name tag ≠ none

structure Serves (t : LogTags) (name format : Str) (tag : UInt32) : Prop where
  key : t.key2tag (keyOf name format) = some tag
  name : t.tag2name tag = some name
  format : formatOf t tag = format

theorem Consistent.serves (h : Consistent t) (hna : plus ∉ name) (ha : Allowed hash t name format)
    (hkey : t.key2tag (keyOf name format) = some tag) : Serves t name format tag := by
  obtain ⟨n, hn, hp, hk⟩ := h.keyed _ _ hkey
  obtain hk | hk := hk
  · obtain ⟨rfl, hf⟩ := keyOf_inj hna hp hk.symm
    exact ⟨hkey, hn, hf⟩
  · by_cases hf : format = []
    · subst hf
      have hno := ha.2 rfl tag hkey
      refine ⟨hkey, hn.trans (congrArg some hk.symm), ?_⟩
      rw [formatOf, hno]
      rfl
    · rw [keyOf, if_neg hf] at hk
      exact absurd (hk ▸ mem_append_right name (mem_cons_self ..)) hp

theorem Consistent.locked (h : Consistent t) (hna : plus ∉ name) (ha : Allowed hash t name format) {unique : Bool}
    (hl : nameToTagLocked hash t name (some format) = some (tag, unique)) :
    unique = false ∧ Serves t name format tag ∨
      unique ∧ t.key2tag (keyOf name format) = none ∧ t.tag2name tag = none := by
  obtain ⟨hkey, hu⟩ | ⟨hkey, rfl, hr⟩ := locked_cases hl
  · exact Or.inl ⟨hu, h.serves hna ha hkey⟩
  · obtain ⟨hu, hf⟩ | ⟨-, hn, -⟩ := hr
    · exact Or.inr ⟨hu, hkey, hf⟩
    · exact absurd (ha.1 hkey) hn

section Joined

variable {uids : List UInt32}

theorem formatOf_joined (hs : formatOf t tag = format) (other : UInt32) :
    formatOf (joined env t uid format tag uids) other = formatOf t other := by
  rw [formatOf, joined]
  dsimp only
  split
  · by_cases ho : other = tag
    · subst ho
      rw [update_self, getD_some, hs]
    · rw [update_of_ne ho]
      rfl
  · rfl

theorem Consistent.joined (h : Consistent t) (hs : Serves t name format tag) :
    Consistent (joined env t uid format tag uids) where
  linked := by
    refine ⟨fun other ho => ?_, h.linked.key⟩
    by_cases heq : other = tag
    · rw [heq]
      exact fun hn => some_ne_none _ (hs.name.symm.trans hn)
    · rw [EventTags.joined] at ho
      dsimp only at ho
      rw [update_of_ne heq] at ho
      exact h.linked.total other ho
  keyed key other hkey := by
    rw [formatOf_joined hs.format]
    exact h.keyed key other hkey
  format other f hf := by
    rw [EventTags.joined] at hf
    dsimp only at hf
    split at hf
    · rename_i hfo
      by_cases heq : other = tag
      · subst heq
        rw [update_self] at hf
        cases hf
        exact ⟨hfo.1, fun hn => some_ne_none _ (hs.name.symm.trans hn)⟩
      · rw [update_of_ne heq] at hf
        exact h.format other f hf
    · exact h.format other f hf

end Joined

section Created

theorem name_ne_keyOf (hf : format ≠ []) : keyOf name format ≠ name := by
  rw [keyOf, if_neg hf]
  intro h
  exact cons_ne_nil _ _ (append_right_eq_self.mp h)

theorem registered_self : (registerTag t tag name format).key2tag (keyOf name format) = some tag := by
  rw [registerTag]
  dsimp only
  split
  · rename_i h
    rw [update_of_ne (name_ne_keyOf h.1), update_self]
  · exact update_self ..

variable {key : Str} {other : UInt32}

theorem registered_of_some (hf : t.key2tag (keyOf name format) = none)
    (h : t.key2tag key = some other) : (registerTag t tag name format).key2tag key = some other := by
  have hne : key ≠ keyOf name format := by
    rintro rfl
    exact some_ne_none other (h.symm.trans hf)
  have hu : Function.update t.key2tag (keyOf name format) (some tag) key = some other := by
    rw [Function.update_of_ne hne, h]
  rw [registerTag]
  dsimp only
  split
  · rename_i hn
    rw [update_of_ne, hu]
    rintro rfl
    exact some_ne_none other (hu.symm.trans hn.2)
  · exact hu

theorem registered_cases (h : (registerTag t tag name format).key2tag key = some other) :
    other = tag ∧ (key = keyOf name format ∨ key = name) ∨ t.key2tag key = some other := by
  have hu (hk : Function.update t.key2tag (keyOf name format) (some tag) key = some other) :
      other = tag ∧ (key = keyOf name format ∨ key = name) ∨ t.key2tag key = some other := by
    by_cases hkey : key = keyOf name format
    · subst hkey
      rw [update_self] at hk
      exact Or.inl ⟨(some.inj hk).symm, Or.inl rfl⟩
    · rw [update_of_ne hkey] at hk
      exact Or.inr hk
  rw [registerTag] at h
  dsimp only at h
  split at h
  · by_cases hkey : key = name
    · subst hkey
      rw [update_self] at h
      exact Or.inl ⟨(some.inj h).symm, Or.inr rfl⟩
    · rw [update_of_ne hkey] at h
      exact hu h
  · exact hu h

theorem Consistent.format_free (h : Consistent t) (hfr : t.tag2name tag = none) : t.tag2format tag = none := by
  cases hf : t.tag2format tag with
  | none => rfl
  | some f => exact absurd hfr (h.format tag f hf).2

theorem formatOf_created (h : Consistent t) (hfr : t.tag2name tag = none) :
    formatOf (created env t uid name format tag) tag = format := by
  rw [formatOf, created]
  dsimp only
  split
  · rw [update_self]
    rfl
  · rename_i hf
    rw [h.format_free hfr]
    exact (not_not.mp hf).symm

theorem formatOf_created_of_ne (hne : other ≠ tag) :
    formatOf (created env t uid name format tag) other = formatOf t other := by
  rw [formatOf, created]
  dsimp only
  split
  · rw [update_of_ne hne]
    rfl
  · rfl

theorem name_created : (created env t uid name format tag).tag2name tag = some name := update_self ..

theorem name_created_of_ne (hne : other ≠ tag) :
    (created env t uid name format tag).tag2name other = t.tag2name other := update_of_ne hne ..

theorem Consistent.created (h : Consistent t) (hn : plus ∉ name) (hfr : t.tag2name tag = none) :
    Consistent (created env t uid name format tag) where
  linked := by
    refine ⟨fun other ho => ?_, fun key other hkey => ?_⟩
    · by_cases heq : other = tag
      · rw [heq, name_created]
        exact some_ne_none name
      · rw [name_created_of_ne heq]
        rw [EventTags.created] at ho
        dsimp only at ho
        rw [update_of_ne heq] at ho
        exact h.linked.total other ho
    · by_cases heq : other = tag
      · rw [heq, name_created]
        exact some_ne_none name
      · rw [name_created_of_ne heq]
        obtain ⟨htag, -⟩ | hkey := registered_cases hkey
        · exact absurd htag heq
        · exact h.linked.key key other hkey
  keyed key other hkey := by
    obtain ⟨htag, hnew⟩ | hold := registered_cases hkey
    · rw [htag, formatOf_created h hfr]
      exact ⟨name, name_created, hn, hnew⟩
    · have hne : other ≠ tag := by
        rintro rfl
        exact h.linked.key key other hold hfr
      rw [name_created_of_ne hne, formatOf_created_of_ne hne]
      exact h.keyed key other hold
  format other f hf := by
    by_cases heq : other = tag
    · subst heq
      refine ⟨?_, by rw [name_created]; exact some_ne_none name⟩
      rw [EventTags.created] at hf
      dsimp only at hf
      split at hf
      · rename_i hfo
        rw [update_self] at hf
        exact some.inj hf ▸ hfo
      · rw [h.format_free hfr] at hf
        cases hf
    · rw [name_created_of_ne heq]
      rw [EventTags.created] at hf
      dsimp only at hf
      split at hf
      · rw [update_of_ne heq] at hf
        exact h.format other f hf
      · exact h.format other f hf

end Created

end Bionic.EventTags
