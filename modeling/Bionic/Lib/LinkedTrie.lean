import Mathlib.Logic.Relation
import Mathlib.Logic.Function.Basic

namespace Bionic.Lib.LinkedTrie

open Relation Function Option

variable {κ : Type*}

inductive Slot where
  | left
  | right
  | children
  deriving DecidableEq, Repr

/-- A node of a trie whose siblings form a binary search tree. Links are addresses, 0 is no link. -/
structure Node (κ : Type*) where
  key : κ
  left : Nat
  right : Nat
  children : Nat
  deriving DecidableEq, Repr

namespace Node

def link (n : Node κ) : Slot → Nat
  | .left => n.left
  | .right => n.right
  | .children => n.children

def setLink (n : Node κ) : Slot → Nat → Node κ
  | .left, o => { n with left := o }
  | .right, o => { n with right := o }
  | .children, o => { n with children := o }

def leaf (k : κ) : Node κ := ⟨k, 0, 0, 0⟩

@[simp] theorem key_setLink (n : Node κ) (s : Slot) (o : Nat) : (n.setLink s o).key = n.key := by
  cases s <;> rfl

@[simp] theorem link_setLink_self (n : Node κ) (s : Slot) (o : Nat) : (n.setLink s o).link s = o := by
  cases s <;> rfl

theorem link_setLink_of_ne (n : Node κ) {s t : Slot} (h : t ≠ s) (o : Nat) : (n.setLink s o).link t = n.link t := by
  cases s <;> cases t <;> first | rfl | exact absurd rfl h

@[simp] theorem link_leaf (k : κ) (s : Slot) : (leaf k).link s = 0 := by
  cases s <;> rfl

end Node

abbrev Heap (κ : Type*) := Nat → Option (Node κ)

variable (cmp : κ → κ → Int) {x : Nat} {m n : Node κ}

def searchSlot (k key : κ) : Slot := if cmp k key < 0 then .left else .right

theorem searchSlot_ne_children (k key : κ) : searchSlot cmp k key ≠ .children := by
  unfold searchSlot
  split <;> decide

def Descend (h : Heap κ) (k : κ) (o o' : Nat) : Prop :=
  ∃ n, h o = some n ∧ cmp k n.key ≠ 0 ∧ o' ≠ 0 ∧ n.link (searchSlot cmp k n.key) = o'

abbrev Search (h : Heap κ) (k : κ) : Nat → Nat → Prop := ReflTransGen (Descend cmp h k)

theorem descend_rightUnique (h : Heap κ) (k : κ) : Relator.RightUnique (Descend cmp h k) := by
  rintro o a b ⟨n, hn, -, -, ha⟩ ⟨m, hm, -, -, hb⟩
  obtain rfl := mem_unique hn hm
  exact ha.symm.trans hb

/-- The path, key of the node first, that a link leads to from a node with path `p`. -/
def linkPath (p : List κ) (key : κ) : Slot → List κ
  | .children => key :: p
  | _ => key :: p.tail

theorem linkPath_of_ne_children {s : Slot} (h : s ≠ .children) (x k : κ) (q : List κ) :
    linkPath (x :: q) k s = k :: q := by
  cases s with
  | left => rfl
  | right => rfl
  | children => exact absurd rfl h

/-- A heap of nodes that is a trie: `path` gives the keys from each node up to the root at 0. -/
structure Shape (h : Heap κ) (path : Nat → List κ) : Prop where
  root : ∃ n, h 0 = some n ∧ n.left = 0 ∧ n.right = 0
  path_root : path 0 = []
  target : ∀ o n s, h o = some n → n.link s ≠ 0 →
    o < n.link s ∧ ∃ m, h (n.link s) = some m ∧ path (n.link s) = linkPath (path o) m.key s
  found : ∀ o n, h o = some n → o ≠ 0 →
    ∃ p m, h p = some m ∧ path o = n.key :: path p ∧ m.children ≠ 0 ∧ Search cmp h n.key m.children o
  unique : ∀ o n s o' n' s', h o = some n → h o' = some n' → n.link s ≠ 0 → n.link s = n'.link s' →
    o = o' ∧ s = s'

theorem Shape.single {h : Heap κ} (hr : h 0 = some n) (hl : ∀ s, n.link s = 0)
    (hn : ∀ o, o ≠ 0 → h o = none) : Shape cmp h (fun _ => []) := by
  have hon {o : Nat} {m : Node κ} (hm : h o = some m) : o = 0 ∧ m = n := by
    by_cases ho : o = 0
    · subst ho
      exact ⟨rfl, some.inj (hm.symm.trans hr)⟩
    · rw [hn o ho] at hm
      cases hm
  refine ⟨⟨n, hr, hl .left, hl .right⟩, rfl, fun o m s hm hs => ?_, fun o m hm ho => ?_,
    fun o m s o' m' s' hm _ hs _ => ?_⟩
  · exact absurd ((hon hm).2 ▸ hl s) hs
  · exact absurd (hon hm).1 ho
  · exact absurd ((hon hm).2 ▸ hl s) hs

section Link

variable {cmp} {h : Heap κ} {o f : Nat} {n : Node κ} {s : Slot} {k : κ}

def link (h : Heap κ) (o : Nat) (n : Node κ) (s : Slot) (f : Nat) (k : κ) : Heap κ :=
  update (update h f (some (.leaf k))) o (some (n.setLink s f))

theorem link_self : link h o n s f k o = some (n.setLink s f) := update_self ..

theorem link_leaf (hne : f ≠ o) : link h o n s f k f = some (.leaf k) := by
  rw [link, update_of_ne hne, update_self]

theorem link_of_ne (ho : x ≠ o) (hf : x ≠ f) : link h o n s f k x = h x := by
  rw [link, update_of_ne ho, update_of_ne hf]

section

variable (hn : h o = some n) {k' : κ} {y : Nat}

include hn

theorem link_cases (hfr : h f = none) (hm : link h o n s f k x = some m) :
    (x = f ∧ x ≠ o ∧ m = .leaf k) ∨ (x = o ∧ m = n.setLink s f) ∨ (x ≠ o ∧ x ≠ f ∧ h x = some m) := by
  have hne : f ≠ o := fun hfo => by
    rw [hfo, hn] at hfr
    cases hfr
  by_cases ho : x = o
  · subst ho
    rw [link_self, some.injEq] at hm
    exact .inr (.inl ⟨rfl, hm.symm⟩)
  · by_cases hf : x = f
    · subst hf
      rw [link_leaf hne, some.injEq] at hm
      exact .inl ⟨rfl, ho, hm.symm⟩
    · rw [link_of_ne ho hf] at hm
      exact .inr (.inr ⟨ho, hf, hm⟩)

theorem link_old (hf : h f = none) (hno : n.link s = 0) (hm : h x = some m) :
    ∃ m', link h o n s f k x = some m' ∧ m'.key = m.key ∧ ∀ t, m.link t ≠ 0 → m'.link t = m.link t := by
  have hxf : x ≠ f := fun hxf => by
    rw [hxf, hf] at hm
    cases hm
  by_cases hxo : x = o
  · subst hxo
    obtain rfl := mem_unique hn hm
    refine ⟨_, link_self, n.key_setLink s f, fun t ht => n.link_setLink_of_ne ?_ f⟩
    rintro rfl
    exact ht hno
  · exact ⟨m, by rw [link_of_ne hxo hxf, hm], rfl, fun _ _ => rfl⟩

theorem Descend.link (hf : h f = none) (hno : n.link s = 0)
    (hd : Descend cmp h k' x y) : Descend cmp (link h o n s f k) k' x y := by
  obtain ⟨m, hm, hne, hy, hl⟩ := hd
  obtain ⟨m', hm', hkey, hli⟩ := link_old (k := k) hn hf hno hm
  refine ⟨m', hm', by rwa [hkey], hy, ?_⟩
  rw [hkey, hli _ (by rwa [hl])]
  exact hl

theorem Search.link (hf : h f = none) (hno : n.link s = 0)
    (hs : Search cmp h k' x y) : Search cmp (link h o n s f k) k' x y :=
  ReflTransGen.mono (fun _ _ hd => Descend.link hn hf hno hd) _ _ hs

end

end Link

section Shape

variable {cmp} {h : Heap κ} {path : Nat → List κ} {k : κ} {o p : Nat}

theorem Shape.ne_zero_of_path (hS : Shape cmp h path) {q : List κ} (hp : path o = k :: q) : o ≠ 0 := by
  rintro rfl
  rw [hS.path_root] at hp
  cases hp

theorem Shape.search_path (hS : Shape cmp h path) (hm : h p = some m)
    (hne : m.children ≠ 0) (hs : Search cmp h k m.children o) :
    ∃ n, h o = some n ∧ path o = n.key :: path p := by
  induction hs with
  | refl =>
    obtain ⟨-, n, hn, hp⟩ := hS.target p m .children hm hne
    exact ⟨n, hn, hp⟩
  | tail _ hd ih =>
    obtain ⟨n, hn, hp⟩ := ih
    obtain ⟨n', hn', -, hne', rfl⟩ := hd
    obtain rfl := mem_unique hn hn'
    obtain ⟨-, l, hl, hlp⟩ := hS.target _ n _ hn hne'
    refine ⟨l, hl, ?_⟩
    rw [hlp, hp, linkPath_of_ne_children (searchSlot_ne_children cmp k n.key)]

variable (hcmp : ∀ a b, cmp a b = 0 ↔ a = b)
include hcmp

theorem search_eq_of_key (hn : h o = some n) (hs : Search cmp h n.key o x) : x = o := by
  rcases ReflTransGen.cases_head hs with rfl | ⟨y, hd, -⟩
  · rfl
  · obtain ⟨n', hn', hne, -⟩ := hd
    obtain rfl := mem_unique hn hn'
    exact absurd ((hcmp _ _).2 rfl) hne

theorem Shape.path_injective (hS : Shape cmp h path) {o' : Nat} {n' : Node κ} (hn : h o = some n)
    (hn' : h o' = some n') (hpa : path o = path o') : o = o' := by
  induction hq : path o generalizing o o' n n' with
  | nil =>
    have hz {x : Nat} {m : Node κ} (hm : h x = some m) (hx : path x = []) : x = 0 := by
      by_contra hne
      obtain ⟨p, -, -, hp, -⟩ := hS.found x m hm hne
      rw [hx] at hp
      cases hp
    rw [hz hn hq, hz hn' (hpa ▸ hq)]
  | cons k q ih =>
    obtain ⟨p, m, hm, hp, hc, hs⟩ := hS.found o n hn (hS.ne_zero_of_path hq)
    obtain ⟨p', m', hm', hp', hc', hs'⟩ := hS.found o' n' hn' (hS.ne_zero_of_path (hpa ▸ hq))
    rw [hpa, hp'] at hp
    obtain ⟨hkey, hpr⟩ := List.cons.inj hp
    rw [hpa, hp'] at hq
    obtain rfl := ih hm hm' hpr.symm (hpr ▸ (List.cons.inj hq).2)
    obtain rfl := mem_unique hm hm'
    rw [hkey] at hs'
    rcases hs.total_of_right_unique (descend_rightUnique cmp h n.key) hs' with hs | hs
    · exact (search_eq_of_key hcmp hn hs).symm
    · rw [← hkey] at hs
      exact search_eq_of_key hcmp hn' hs

theorem Shape.search_child (hS : Shape cmp h path) (hm : h p = some m)
    (hn : h x = some n) (hp : path x = k :: path p) :
    n.key = k ∧ m.children ≠ 0 ∧ Search cmp h k m.children x := by
  obtain ⟨p', m', hm', hp', hc', hs'⟩ := hS.found x n hn (hS.ne_zero_of_path hp)
  rw [hp] at hp'
  obtain ⟨rfl, hpa⟩ := List.cons.inj hp'
  obtain rfl := hS.path_injective hcmp hm hm' hpa
  obtain rfl := mem_unique hm hm'
  exact ⟨rfl, hc', hs'⟩

theorem Shape.not_found (hS : Shape cmp h path) (hm : h p = some m)
    (hse : Search cmp h k m.children o) (hn : h o = some n) (hne : cmp k n.key ≠ 0)
    (hend : n.link (searchSlot cmp k n.key) = 0) {nx : Node κ} (hx : h x = some nx) :
    path x ≠ k :: path p := by
  intro hp
  obtain ⟨hkey, -, hs⟩ := hS.search_child hcmp hm hx hp
  rcases hse.total_of_right_unique (descend_rightUnique cmp h k) hs with hox | hxo
  · rcases ReflTransGen.cases_head hox with rfl | ⟨y, ⟨n', hn', -, hy, hl⟩, -⟩
    · obtain rfl := mem_unique hn hx
      exact hne ((hcmp _ _).2 hkey.symm)
    · obtain rfl := mem_unique hn hn'
      exact hy (hl.symm.trans hend)
  · rw [← hkey] at hxo
    obtain rfl := search_eq_of_key hcmp hx hxo
    obtain rfl := mem_unique hn hx
    exact hne ((hcmp _ _).2 hkey.symm)

end Shape

section Insert

variable {cmp} {h : Heap κ} {path : Nat → List κ} {o f : Nat} {n : Node κ} {s : Slot} {k : κ}

/-- Where a leaf with key `k` may be linked: below a node without children, or where a search for `k` among
siblings has ended. -/
def Insertable (cmp : κ → κ → Int) (h : Heap κ) (path : Nat → List κ) (o : Nat) (n : Node κ) (s : Slot) (k : κ) :
    Prop :=
  n.link s = 0 ∧ (s = .children ∨ cmp k n.key ≠ 0 ∧ s = searchSlot cmp k n.key ∧
    ∃ p m, h p = some m ∧ path o = n.key :: path p ∧ m.children ≠ 0 ∧ Search cmp h k m.children o)

theorem Insertable.found (hins : Insertable cmp h path o n s k) (hn : h o = some n) (hf : h f = none)
    (hof : o < f) : ∃ p m, link h o n s f k p = some m ∧ linkPath (path o) k s = k :: path p ∧ m.children ≠ 0 ∧
      Search cmp (link h o n s f k) k m.children f ∧ p ≠ f := by
  obtain ⟨hno, hw⟩ := hins
  rcases hw with rfl | ⟨hne, hs, p, m, hm, hp, hc, hse⟩
  · exact ⟨o, _, link_self, rfl, by simp only [Node.setLink]; omega, .refl, by omega⟩
  · obtain ⟨m', hm', -, hl⟩ := link_old (k := k) hn hf hno hm
    have hch : m'.children = m.children := hl .children hc
    have hnot : s ≠ .children := hs ▸ searchSlot_ne_children cmp k n.key
    refine ⟨p, m', hm', ?_, hch ▸ hc, ?_, ?_⟩
    · rw [hp, linkPath_of_ne_children hnot]
    · rw [hch]
      refine (Search.link hn hf hno hse).tail ⟨_, link_self, by rwa [Node.key_setLink], by omega, ?_⟩
      rw [Node.key_setLink, ← hs, Node.link_setLink_self]
    · rintro rfl
      rw [hf] at hm
      cases hm

theorem link_link_cases (hn : h o = some n) (hf : h f = none) {t : Slot}
    (hm : link h o n s f k x = some m) (ht : m.link t ≠ 0) :
    (x = o ∧ t = s ∧ m.link t = f) ∨ ∃ m₀, h x = some m₀ ∧ m₀.link t = m.link t := by
  rcases link_cases hn hf hm with ⟨rfl, -, rfl⟩ | ⟨rfl, rfl⟩ | ⟨-, -, hold⟩
  · exact absurd (Node.link_leaf k t) ht
  · by_cases hts : t = s
    · subst hts
      exact .inl ⟨rfl, rfl, Node.link_setLink_self ..⟩
    · exact .inr ⟨n, hn, (n.link_setLink_of_ne hts f).symm⟩
  · exact .inr ⟨m, hold, rfl⟩

theorem Shape.link (hS : Shape cmp h path) (hn : h o = some n) (hf : h f = none) (hof : o < f)
    (hins : Insertable cmp h path o n s k) :
    Shape cmp (link h o n s f k) (update path f (linkPath (path o) k s)) := by
  have hno := hins.1
  have hpa {x : Nat} (hx : x ≠ f) : update path f (linkPath (path o) k s) x = path x :=
    update_of_ne hx ..
  have hold {x : Nat} {m : Node κ} (hm : h x = some m) : x ≠ f := by
    rintro rfl
    rw [hf] at hm
    cases hm
  have hta {x : Nat} {m : Node κ} {t : Slot} (hm : h x = some m) (ht : m.link t ≠ 0) : m.link t ≠ f := by
    obtain ⟨-, l, hl, -⟩ := hS.target x m t hm ht
    exact hold hl
  refine ⟨?_, ?_, ?_, ?_, ?_⟩
  · obtain ⟨r, hr, hle, hri⟩ := hS.root
    by_cases ho : o = 0
    · subst ho
      obtain rfl := mem_unique hn hr
      have hs : s = .children := by
        rcases hins.2 with hs | ⟨-, -, p, -, -, hp, -⟩
        · exact hs
        · rw [hS.path_root] at hp
          cases hp
      subst hs
      exact ⟨_, link_self, hle, hri⟩
    · exact ⟨r, by rw [link_of_ne (Ne.symm ho) (by omega), hr], hle, hri⟩
  · rw [hpa (by omega), hS.path_root]
  · intro x m t hm ht
    rcases link_link_cases hn hf hm ht with ⟨rfl, rfl, hli⟩ | ⟨m₀, hm₀, hli⟩
    · rw [hli, hpa (Nat.ne_of_lt hof)]
      exact ⟨hof, _, link_leaf (Nat.ne_of_gt hof), update_self ..⟩
    · rw [← hli] at ht ⊢
      obtain ⟨hlt, l, hl, hlp⟩ := hS.target x m₀ t hm₀ ht
      obtain ⟨l', hl', hkey, -⟩ := link_old (k := k) hn hf hno hl
      rw [hpa (hta hm₀ ht), hpa (hold hm₀)]
      exact ⟨hlt, l', hl', hkey ▸ hlp⟩
  · have hfo {x : Nat} {m : Node κ} (hm : h x = some m) (hx : x ≠ 0) :
        ∃ p l, LinkedTrie.link h o n s f k p = some l ∧ path x = m.key :: path p ∧ l.children ≠ 0 ∧
          Search cmp (LinkedTrie.link h o n s f k) m.key l.children x ∧ p ≠ f := by
      obtain ⟨p, l, hl, hp, hc, hse⟩ := hS.found x m hm hx
      obtain ⟨l', hl', -, hln⟩ := link_old (k := k) hn hf hno hl
      have hch : l'.children = l.children := hln .children hc
      exact ⟨p, l', hl', hp, hch ▸ hc, hch ▸ Search.link hn hf hno hse, hold hl⟩
    intro x m hm hx
    rcases link_cases hn hf hm with ⟨rfl, -, rfl⟩ | ⟨rfl, rfl⟩ | ⟨-, hxf, hm⟩
    · obtain ⟨p, l, hl, hp, hc, hse, hpf⟩ := hins.found hn hf hof
      refine ⟨p, l, hl, ?_, hc, hse⟩
      rw [hpa hpf, update_self, hp]
      rfl
    · obtain ⟨p, l, hl, hp, hc, hse, hpf⟩ := hfo hn hx
      rw [Node.key_setLink, hpa (hold hn)]
      exact ⟨p, l, hl, by rw [hpa hpf, hp], hc, hse⟩
    · obtain ⟨p, l, hl, hp, hc, hse, hpf⟩ := hfo hm hx
      rw [hpa hxf]
      exact ⟨p, l, hl, by rw [hpa hpf, hp], hc, hse⟩
  · intro a na sa b nb sb ha hb hne heq
    have hneb : nb.link sb ≠ 0 := heq ▸ hne
    rcases link_link_cases hn hf ha hne with ⟨rfl, rfl, hla⟩ | ⟨ma, hma, hla⟩
    · rcases link_link_cases hn hf hb hneb with ⟨rfl, rfl, -⟩ | ⟨mb, hmb, hlb⟩
      · exact ⟨rfl, rfl⟩
      · exact absurd (hlb.trans (heq.symm.trans hla)) (hta hmb (hlb ▸ hneb))
    · rcases link_link_cases hn hf hb hneb with ⟨rfl, rfl, hlb⟩ | ⟨mb, hmb, hlb⟩
      · exact absurd (hla.trans (heq.trans hlb)) (hta hma (hla ▸ hne))
      · exact hS.unique a ma sa b mb sb hma hmb (hla ▸ hne) (hla.trans (heq.trans hlb.symm))

end Insert

end Bionic.Lib.LinkedTrie
