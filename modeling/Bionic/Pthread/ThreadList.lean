import Bionic.Lib.CircularList

namespace Bionic.Thread

open Lib Function List

variable {N : Type}

structure ThreadList (N : Type) where
  head : Option N
  next : N → Option N
  prev : N → Option N

namespace ThreadList

def find [DecidableEq N] (L : ThreadList N) (thread : N) : Nat → Option N → Option Bool
  | 0, _ => none
  | _ + 1, none => some false
  | fuel + 1, some t => if t = thread then some true else L.find thread fuel (L.next t)

def Finds [DecidableEq N] (L : ThreadList N) (thread : N) : Prop := ∃ fuel, L.find thread fuel L.head = some true

def add [DecidableEq N] (L : ThreadList N) (thread : N) : ThreadList N :=
  let L₁ : ThreadList N :=
    { L with next := update L.next thread L.head, prev := update L.prev thread none }
  let L₂ : ThreadList N :=
    match L₁.next thread with
    | some n => { L₁ with prev := update L₁.prev n (some thread) }
    | none => L₁
  { L₂ with head := some thread }

def remove [DecidableEq N] (L : ThreadList N) (thread : N) : ThreadList N :=
  let L₁ : ThreadList N :=
    match L.next thread with
    | some n => { L with prev := update L.prev n (L.prev thread) }
    | none => L
  match L₁.prev thread with
  | some p => { L₁ with next := update L₁.next p (L₁.next thread) }
  | none => { L₁ with head := L₁.next thread }

/-- The list with its two ends closed by a sentinel. The backward link of the sentinel is in no block. -/
@[simp] def ring (L : ThreadList N) (tail : Option N) : DLinks N :=
  ⟨fun x => x.elim L.head L.next, fun x => x.elim tail L.prev⟩

def Represents (L : ThreadList N) (l : List N) : Prop := ∃ tail, (L.ring tail).Ring l

variable {L : ThreadList N} {l : List N} {a : N}

theorem Represents.linked (h : L.Represents l) : Linked L.next L.head l := by
  obtain ⟨tail, h⟩ := h
  exact DLinks.Path.linked h

variable [DecidableEq N] {p : Option N} {fuel : Nat} (d : Option N) (f : N → Option N)

theorem find_of_linked (h : Linked L.next p l) (hf : l.length < fuel) : L.find a fuel p = some (decide (a ∈ l)) := by
  induction l generalizing p fuel with
  | nil =>
    obtain ⟨fuel, rfl⟩ := Nat.exists_eq_succ_of_ne_zero (Nat.ne_zero_of_lt hf)
    rw [linked_nil.mp h]
    rfl
  | cons b l ih =>
    obtain ⟨fuel, rfl⟩ := Nat.exists_eq_succ_of_ne_zero (Nat.ne_zero_of_lt hf)
    rw [h.1, find]
    by_cases hb : b = a
    · simp [hb]
    · rw [if_neg hb, ih h.2 (Nat.lt_of_succ_lt_succ hf)]
      simp [Ne.symm hb]

theorem find_fuel (h : L.find a fuel p = some true) (hl : Linked L.next p l) : a ∈ l := by
  induction fuel generalizing p l with
  | zero => cases h
  | succ fuel ih =>
    cases l with
    | nil =>
      rw [linked_nil.mp hl] at h
      cases h
    | cons b l =>
      rw [hl.1, find] at h
      split at h
      · rename_i hb
        exact hb ▸ mem_cons_self
      · exact mem_cons_of_mem b (ih h hl.2)

theorem Represents.finds_iff (h : L.Represents l) : L.Finds a ↔ a ∈ l := by
  constructor
  · rintro ⟨fuel, hf⟩
    exact find_fuel hf h.linked
  · intro ha
    refine ⟨l.length + 1, ?_⟩
    rw [find_of_linked h.linked (Nat.lt_succ_self _), decide_eq_true ha]

theorem update_elim_none (v : Option N) : update (fun x : Option N => x.elim d f) none v = fun x => x.elim v f := by
  funext x
  cases x <;> simp

theorem update_elim_some (a : N) (v : Option N) :
    update (fun x : Option N => x.elim d f) (some a) v = fun x => x.elim d (update f a v) := by
  funext x
  cases x with
  | none => simp
  | some b => by_cases hb : b = a <;> simp [hb]

theorem ring_add (L : ThreadList N) (a : N) (tail : Option N) :
    ∃ tail', (L.add a).ring tail' = (L.ring tail).pushFront a := by
  cases hh : L.head with
  | none =>
    refine ⟨some a, ?_⟩
    simp [add, DLinks.pushFront, hh, update_elim_none, update_elim_some]
  | some c =>
    refine ⟨tail, ?_⟩
    simp [add, DLinks.pushFront, hh, update_elim_none, update_elim_some]

theorem Represents.add (h : L.Represents l) (ha : a ∉ l) : (L.add a).Represents (a :: l) := by
  obtain ⟨tail, h⟩ := h
  obtain ⟨tail', heq⟩ := ring_add L a tail
  refine ⟨tail', ?_⟩
  rw [heq]
  exact h.pushFront ha

theorem ring_remove (L : ThreadList N) (a : N) (tail : Option N) (hn : L.next a ≠ some a) (hp : L.prev a ≠ some a) :
    ∃ tail', (L.remove a).ring tail' = (L.ring tail).remove a := by
  refine ⟨if L.next a = none then L.prev a else tail, ?_⟩
  cases hne : L.next a with
  | none =>
    cases hpr : L.prev a with
    | none => simp [remove, DLinks.remove, hne, hpr, update_elim_none]
    | some p =>
      have hpa : a ≠ p := fun heq => hp (heq ▸ hpr)
      simp [remove, DLinks.remove, hne, hpr, hpa, update_elim_none, update_elim_some]
  | some n =>
    have hna : a ≠ n := fun heq => hn (heq ▸ hne)
    cases hpr : L.prev a with
    | none => simp [remove, DLinks.remove, hne, hpr, hna, update_elim_none, update_elim_some]
    | some p =>
      have hpa : a ≠ p := fun heq => hp (heq ▸ hpr)
      simp [remove, DLinks.remove, hne, hpr, hna, hpa, update_elim_some]

theorem Represents.remove {l₁ l₂ : List N} (h : L.Represents (l₁ ++ a :: l₂)) : (L.remove a).Represents (l₁ ++ l₂) := by
  obtain ⟨tail, h⟩ := h
  have hno := (nodup_cons.mp (nodup_middle.mp h.nodup)).1
  have hn : L.next a ≠ some a := by
    intro heq
    have hh : L.next a = l₂.head? := h.next_at
    exact hno (mem_append_right l₁ (mem_of_mem_head? (hh.symm.trans heq)))
  have hp : L.prev a ≠ some a := by
    have hl : L.prev a = DLinks.lastFrom none l₁ := (DLinks.path_append.mp h).1.prev_end
    rw [hl]
    rcases DLinks.lastFrom_mem (none : Option N) l₁ with heq | ⟨b, hb, heq⟩
    · simp [heq]
    · rw [heq]
      rintro ⟨⟩
      exact hno (mem_append_left l₂ hb)
  obtain ⟨tail', heq⟩ := ring_remove L a tail hn hp
  refine ⟨tail', ?_⟩
  rw [heq]
  exact h.remove

theorem Represents.exists_remove (h : L.Represents l) (ha : a ∈ l) :
    ∃ l', (L.remove a).Represents l' ∧ ∀ b, b ∈ l' ↔ b ∈ l ∧ b ≠ a := by
  obtain ⟨l₁, l₂, rfl⟩ := append_of_mem ha
  refine ⟨l₁ ++ l₂, h.remove, fun b => ?_⟩
  have hn := (nodup_cons.mp (nodup_middle.mp h.linked.nodup)).1
  constructor
  · intro hb
    refine ⟨?_, fun heq => hn (heq ▸ hb)⟩
    rcases mem_append.mp hb with hb | hb
    · exact mem_append_left _ hb
    · exact mem_append_right _ (mem_cons_of_mem a hb)
  · rintro ⟨hb, hne⟩
    simpa [hne] using hb

end ThreadList

end Bionic.Thread
