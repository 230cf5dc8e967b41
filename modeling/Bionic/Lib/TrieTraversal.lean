import Bionic.Lib.LinkedTrie
import Mathlib.Data.List.Nodup

namespace Bionic.Lib.LinkedTrie

open Relation List

variable {κ : Type*} {cmp : κ → κ → Int} {h : Heap κ} {path : Nat → List κ} {o x : Nat}

def Child (h : Heap κ) (o x : Nat) : Prop := ∃ n s, h o = some n ∧ x ≠ 0 ∧ n.link s = x

abbrev Below (h : Heap κ) : Nat → Nat → Prop := ReflTransGen (Child h)

def atLink (f : Nat → List Nat) (o : Nat) : List Nat := if o ≠ 0 then f o else []

/-- The nodes below a node, in the order left, node, children, right. -/
def visit (h : Heap κ) : Nat → Nat → List Nat
  | 0, _ => []
  | fuel + 1, o =>
    match h o with
    | none => []
    | some n => atLink (visit h fuel) (n.link .left) ++
        o :: (atLink (visit h fuel) (n.link .children) ++ atLink (visit h fuel) (n.link .right))

theorem mem_atLink {f : Nat → List Nat} : x ∈ atLink f o ↔ o ≠ 0 ∧ x ∈ f o := by
  unfold atLink
  split
  · rename_i ho
    exact (and_iff_right ho).symm
  · rename_i ho
    simp [ho]

section Shape

variable (hS : Shape cmp h path)
include hS

theorem Shape.lt_of_child (hc : Child h o x) : o < x := by
  obtain ⟨n, s, hn, hx, rfl⟩ := hc
  exact (hS.target o n s hn hx).1

theorem Shape.le_of_below (hb : Below h o x) : o ≤ x := by
  induction hb with
  | refl => exact Nat.le_refl o
  | tail _ hc ih => exact Nat.le_trans ih (Nat.le_of_lt (hS.lt_of_child hc))

theorem Shape.child_leftUnique {o' : Nat} (hc : Child h o x) (hc' : Child h o' x) : o = o' := by
  obtain ⟨n, s, hn, hx, rfl⟩ := hc
  obtain ⟨n', s', hn', -, heq⟩ := hc'
  exact (hS.unique o n s o' n' s' hn hn' hx heq.symm).1

theorem Shape.below_total {a b : Nat} (ha : Below h a x) (hb : Below h b x) : Below h a b ∨ Below h b a := by
  have hu : Relator.RightUnique (Function.swap (Child h)) := fun _ _ _ hc hc' => hS.child_leftUnique hc hc'
  have := (reflTransGen_swap.2 ha).total_of_right_unique hu (reflTransGen_swap.2 hb)
  exact (this.imp reflTransGen_swap.1 reflTransGen_swap.1).symm

variable {n : Node κ}

theorem Shape.below_link_disjoint (hn : h o = some n) {s t : Slot} (hst : s ≠ t)
    (hs : n.link s ≠ 0) (ht : n.link t ≠ 0) (hbs : Below h (n.link s) x) (hbt : Below h (n.link t) x) : False := by
  have hnot {s t : Slot} (hst : s ≠ t) (hs : n.link s ≠ 0) (ht : n.link t ≠ 0) :
      ¬ Below h (n.link s) (n.link t) := by
    intro hb
    rcases ReflTransGen.cases_tail hb with heq | ⟨y, hy, hc⟩
    · exact hst (hS.unique o n s o n t hn hn hs heq.symm).2
    · obtain rfl := hS.child_leftUnique hc ⟨n, t, hn, ht, rfl⟩
      have := hS.le_of_below hy
      have := hS.lt_of_child ⟨n, s, hn, hs, rfl⟩
      omega
  rcases hS.below_total hbs hbt with hb | hb
  · exact hnot hst hs ht hb
  · exact hnot (Ne.symm hst) ht hs hb

theorem Shape.below_root (hn : h o = some n) : Below h 0 o := by
  induction o using Nat.strongRecOn generalizing n with
  | ind o ih =>
    by_cases ho : o = 0
    · rw [ho]
    · obtain ⟨p, m, hm, -, hc, hs⟩ := hS.found o n hn ho
      have hch : Child h p m.children := ⟨m, .children, hm, hc, rfl⟩
      have hb : Below h m.children o :=
        ReflTransGen.mono (fun x y ⟨l, hl, _, hy, hli⟩ => ⟨l, _, hl, hy, hli⟩) _ _ hs
      have hlt := Nat.lt_of_lt_of_le (hS.lt_of_child hch) (hS.le_of_below hb)
      exact ((ih p hlt hm).tail hch).trans hb

variable {bound fuel : Nat} (hbound : ∀ o n, h o = some n → o < bound)
include hbound

theorem Shape.mem_visit (hn : h o = some n) (hf : bound ≤ o + fuel) : x ∈ visit h fuel o ↔ Below h o x := by
  induction fuel generalizing o n with
  | zero =>
    have := hbound o n hn
    omega
  | succ fuel ih =>
    have hl (s : Slot) : x ∈ atLink (visit h fuel) (n.link s) ↔ n.link s ≠ 0 ∧ Below h (n.link s) x := by
      rw [mem_atLink]
      refine and_congr_right fun hs => ?_
      obtain ⟨hlt, m, hm, -⟩ := hS.target o n s hn hs
      exact ih hm (by omega)
    rw [visit, hn]
    simp only [mem_append, mem_cons, hl]
    constructor
    · rintro (⟨hs, hb⟩ | rfl | ⟨hs, hb⟩ | ⟨hs, hb⟩)
      · exact .head ⟨n, .left, hn, hs, rfl⟩ hb
      · exact .refl
      · exact .head ⟨n, .children, hn, hs, rfl⟩ hb
      · exact .head ⟨n, .right, hn, hs, rfl⟩ hb
    · intro hb
      rcases ReflTransGen.cases_head hb with rfl | ⟨y, ⟨m, s, hm, hy, rfl⟩, hb⟩
      · exact .inr (.inl rfl)
      · obtain rfl := Option.mem_unique hn hm
        cases s with
        | left => exact .inl ⟨hy, hb⟩
        | children => exact .inr (.inr (.inl ⟨hy, hb⟩))
        | right => exact .inr (.inr (.inr ⟨hy, hb⟩))

theorem Shape.nodup_visit (hn : h o = some n) (hf : bound ≤ o + fuel) : (visit h fuel o).Nodup := by
  induction fuel generalizing o n with
  | zero => exact nodup_nil
  | succ fuel ih =>
    have hmem {s : Slot} {x : Nat} (hx : x ∈ atLink (visit h fuel) (n.link s)) :
        n.link s ≠ 0 ∧ Below h (n.link s) x := by
      obtain ⟨hs, hx⟩ := mem_atLink.1 hx
      obtain ⟨hlt, m, hm, -⟩ := hS.target o n s hn hs
      exact ⟨hs, (hS.mem_visit hbound hm (by omega)).1 hx⟩
    have hno (s : Slot) : (atLink (visit h fuel) (n.link s)).Nodup := by
      unfold atLink
      split
      · rename_i hs
        obtain ⟨hlt, m, hm, -⟩ := hS.target o n s hn hs
        exact ih hm (by omega)
      · exact nodup_nil
    have hse (s : Slot) : o ∉ atLink (visit h fuel) (n.link s) := by
      intro ho
      obtain ⟨hs, hb⟩ := hmem ho
      have := hS.le_of_below hb
      have := (hS.target o n s hn hs).1
      omega
    have hd {s t : Slot} (hst : s ≠ t) :
        (atLink (visit h fuel) (n.link s)).Disjoint (atLink (visit h fuel) (n.link t)) := by
      intro x hxs hxt
      obtain ⟨hs, hbs⟩ := hmem hxs
      obtain ⟨ht, hbt⟩ := hmem hxt
      exact hS.below_link_disjoint hn hst hs ht hbs hbt
    rw [visit, hn]
    refine nodup_append'.2 ⟨hno .left, nodup_cons.2 ⟨?_, nodup_append'.2
      ⟨hno .children, hno .right, hd (by decide)⟩⟩, ?_⟩
    · rw [mem_append, not_or]
      exact ⟨hse .children, hse .right⟩
    · rw [disjoint_cons_right, disjoint_append_right]
      exact ⟨hse .left, hd (by decide), hd (by decide)⟩

end Shape

end Bionic.Lib.LinkedTrie
