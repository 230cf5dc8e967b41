import Bionic.Lib.LinkedList
import Mathlib.Data.List.Nodup

namespace Bionic.Lib

open List Function

variable {N : Type*}

/-- The links of a doubly linked list that is closed by a sentinel, which is `none`. -/
structure DLinks (N : Type*) where
  next : Option N → Option N
  prev : Option N → Option N

namespace DLinks

variable {D : DLinks N} {x y z : Option N} {l l₁ l₂ : List N} {a : N}

def Path (D : DLinks N) : Option N → List N → Option N → Prop
  | x, [], y => D.next x = y ∧ D.prev y = x
  | x, a :: l, y => D.next x = some a ∧ D.prev (some a) = x ∧ D.Path (some a) l y

def Ring (D : DLinks N) (l : List N) : Prop := D.Path none l none

def lastFrom : Option N → List N → Option N
  | x, [] => x
  | _, a :: l => lastFrom (some a) l

theorem path_append : D.Path x (l₁ ++ a :: l₂) y ↔ D.Path x l₁ (some a) ∧ D.Path (some a) l₂ y := by
  induction l₁ generalizing x with
  | nil =>
    show D.next x = some a ∧ D.prev (some a) = x ∧ D.Path (some a) l₂ y ↔ _
    rw [← and_assoc]
    rfl
  | cons b l₁ ih =>
    show _ ∧ _ ∧ D.Path (some b) (l₁ ++ a :: l₂) y ↔ (_ ∧ _ ∧ _) ∧ _
    rw [ih, and_assoc, and_assoc]

theorem Path.linked (h : D.Path x l none) : Linked (fun a => D.next (some a)) (D.next x) l := by
  induction l generalizing x with
  | nil => exact h.1
  | cons a l ih => exact ⟨h.1, ih h.2.2⟩

theorem Ring.nodup (h : D.Ring l) : l.Nodup := (Path.linked h).nodup

theorem Path.prev_end (h : D.Path x l y) : D.prev y = lastFrom x l := by
  induction l generalizing x with
  | nil => exact h.2
  | cons a l ih => exact ih h.2.2

theorem Path.next_start (h : D.Path x l none) : D.next x = l.head? := by
  cases l with
  | nil => exact h.1
  | cons a l => exact h.1

theorem Ring.next_at (h : D.Ring (l₁ ++ a :: l₂)) : D.next (some a) = l₂.head? := (path_append.mp h).2.next_start

theorem lastFrom_mem (x : Option N) (l : List N) : lastFrom x l = x ∨ ∃ a ∈ l, lastFrom x l = some a := by
  induction l generalizing x with
  | nil => exact .inl rfl
  | cons a l ih =>
    right
    rcases ih (some a) with h | ⟨b, hb, h⟩
    · exact ⟨a, mem_cons_self, h⟩
    · exact ⟨b, mem_cons_of_mem a hb, h⟩

theorem lastFrom_concat (x : Option N) (l : List N) (a : N) : lastFrom x (l ++ [a]) = some a := by
  induction l generalizing x with
  | nil => rfl
  | cons b l ih => exact ih (some b)

variable [DecidableEq N]

theorem Path.update (h : D.Path x l y) {u v : Option N} (hu : u ≠ x) (hul : ∀ a ∈ l, u ≠ some a) (hv : v ≠ y)
    (hvl : ∀ a ∈ l, v ≠ some a) (p q : Option N) :
    Path ⟨update D.next u p, update D.prev v q⟩ x l y := by
  induction l generalizing x with
  | nil => exact ⟨(update_of_ne hu.symm _ _).trans h.1, (update_of_ne hv.symm _ _).trans h.2⟩
  | cons a l ih =>
    refine ⟨(update_of_ne hu.symm _ _).trans h.1, ?_, ?_⟩
    · exact (update_of_ne (hvl a mem_cons_self).symm _ _).trans h.2.1
    · exact ih h.2.2 (hul a mem_cons_self) (fun b hb => hul b (mem_cons_of_mem a hb))
        fun b hb => hvl b (mem_cons_of_mem a hb)

theorem Path.redirect (h : D.Path x l y) (hx : ∀ a ∈ l, x ≠ some a) (hl : l.Nodup) (hz : ∀ a ∈ l, z ≠ some a) :
    Path ⟨Function.update D.next (lastFrom x l) z, Function.update D.prev z (lastFrom x l)⟩ x l z := by
  induction l generalizing x with
  | nil => exact ⟨Function.update_self .., Function.update_self ..⟩
  | cons a l ih =>
    obtain ⟨ha, hl⟩ := nodup_cons.mp hl
    have hla : lastFrom x (a :: l) ≠ x := by
      rcases lastFrom_mem (some a) l with heq | ⟨b, hb, heq⟩
      · exact fun hxa => hx a mem_cons_self (hxa.symm.trans heq)
      · exact fun hxb => hx b (mem_cons_of_mem a hb) (hxb.symm.trans heq)
    refine ⟨(update_of_ne hla.symm _ _).trans h.1, ?_, ?_⟩
    · exact (update_of_ne (hz a mem_cons_self).symm _ _).trans h.2.1
    · refine ih h.2.2 ?_ hl fun b hb => hz b (mem_cons_of_mem a hb)
      intro b hb heq
      cases heq
      exact ha hb

def remove (D : DLinks N) (e : N) : DLinks N :=
  let D' : DLinks N := { D with next := update D.next (D.prev (some e)) (D.next (some e)) }
  { D' with prev := update D'.prev (D'.next (some e)) (D'.prev (some e)) }

@[simp] def pushFront (D : DLinks N) (e : N) : DLinks N :=
  let first := D.next none
  ⟨update (update D.next (some e) first) none (some e),
    update (update D.prev (some e) none) first (some e)⟩

theorem Ring.remove (h : D.Ring (l₁ ++ a :: l₂)) : (D.remove a).Ring (l₁ ++ l₂) := by
  have hn := nodup_middle.mp h.nodup
  obtain ⟨ha, hn⟩ := nodup_cons.mp hn
  obtain ⟨hl, hr⟩ := path_append.mp h
  have hl₁ := (nodup_append.mp hn).1
  have hp : D.prev (some a) = lastFrom none l₁ := hl.prev_end
  have hla : lastFrom none l₁ ≠ some a := by
    rcases lastFrom_mem (none : Option N) l₁ with heq | ⟨b, hb, heq⟩
    · simp [heq]
    · rw [heq]
      rintro ⟨⟩
      exact ha (mem_append_left _ hb)
  have hne : update D.next (lastFrom none l₁) (D.next (some a)) (some a) = D.next (some a) :=
    Function.update_of_ne hla.symm _ _
  have hre : D.remove a =
      ⟨Function.update D.next (lastFrom none l₁) (D.next (some a)),
        Function.update D.prev (D.next (some a)) (lastFrom none l₁)⟩ := by
    simp only [DLinks.remove, hp, hne]
  have hno : ∀ b ∈ l₁, (none : Option N) ≠ some b := fun b _ => Option.some_ne_none b |>.symm
  rw [hre]
  cases l₂ with
  | nil =>
    rw [append_nil, hr.1]
    exact hl.redirect hno hl₁ hno
  | cons c l₂ =>
    rw [hr.1]
    have hdi := (nodup_append.mp hn).2.2
    have hc := nodup_cons.mp (nodup_append.mp hn).2.1
    refine path_append.mpr ⟨hl.redirect hno hl₁ ?_, hr.2.2.update ?_ ?_ ?_ ?_ _ _⟩
    · rintro b hb ⟨⟩
      exact hdi c hb c mem_cons_self rfl
    · rcases lastFrom_mem (none : Option N) l₁ with heq | ⟨b, hb, heq⟩
      · simp [heq]
      · rw [heq]
        rintro ⟨⟩
        exact hdi c hb c mem_cons_self rfl
    · intro d hd
      rcases lastFrom_mem (none : Option N) l₁ with heq | ⟨b, hb, heq⟩
      · simp [heq]
      · rw [heq]
        rintro ⟨⟩
        exact hdi d hb d (mem_cons_of_mem c hd) rfl
    · simp
    · rintro d hd ⟨⟩
      exact hc.1 hd

theorem Ring.pushFront (h : D.Ring l) (ha : a ∉ l) : (D.pushFront a).Ring (a :: l) := by
  cases l with
  | nil =>
    have hf : D.next none = none := h.1
    simp [Ring, Path, hf]
  | cons b l =>
    have hf : D.next none = some b := h.1
    have hb := (nodup_cons.mp h.nodup).1
    rw [mem_cons, not_or] at ha
    have hne : b ≠ a := Ne.symm ha.1
    refine ⟨by simp, by simp [hf, hne.symm],
      by simp [hf], by simp [hf], ?_⟩
    have hbe : D.Path (some b) l none := h.2.2
    have hn : ∀ c ∈ l, some a ≠ some c := by
      rintro c hc ⟨⟩
      exact ha.2 hc
    have hr := hbe.update (p := some b) (q := none) (u := some a) (v := some a) (by simpa using ha.1) hn
      (by simp) hn
    rw [DLinks.pushFront, hf]
    apply hr.update
    · simp
    · simp
    · simp
    · rintro c hc ⟨⟩
      exact hb hc

end DLinks

end Bionic.Lib
