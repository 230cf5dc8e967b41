import Bionic.Properties.PropArea

namespace Bionic.Properties

open Lib.LinkedTrie Function Nat

abbrev Path := List (List UInt8)

def Obj.size : Obj → Nat
  | .bt b => sizeofPropBt + b.name.length + 1
  | .info i => sizeofPropInfo + i.name.length + 1
  | .longValue bytes => bytes.length + 1

theorem Obj.size_pos (x : Obj) : 0 < x.size := by
  cases x <;> exact succ_pos _

namespace PropArea

variable {a a' : PropArea} {path path' : Nat → Path} {o off : Nat} {x : Obj} {bt : PropBt}

theorem data_write (a : PropArea) (off o : Nat) (x : Obj) :
    (a.write off x).data o = if o = off then some x else a.data o :=
  update_apply ..

theorem data_fresh (o : Nat) : fresh.data o = if o = 0 then some (.bt ⟨0, 0, 0, 0, 0, []⟩) else none := by
  simp only [fresh, update_apply]

section Arena

/-- Objects lie apart from each other in the space in use, above the root and the dirty backup area. -/
structure Arena (a : PropArea) : Prop where
  bounded : a.bytesUsed ≤ paDataSize
  used : ∀ o x, a.data o = some x → o + x.size ≤ a.bytesUsed
  apart : ∀ o x o' x', a.data o = some x → a.data o' = some x' → o < o' → o + x.size ≤ o'
  reserved : ∀ o x, a.data o = some x → o ≠ 0 → sizeofPropBt + propValueMax ≤ o
  start : sizeofPropBt + propValueMax ≤ a.bytesUsed

theorem fresh_arena : Arena fresh where
  bounded := by decide
  used o x hx := by
    rw [data_fresh] at hx
    split at hx
    · rename_i ho
      cases hx
      rw [ho]
      decide
    · cases hx
  apart o x o' x' hx hx' hlt := by
    rw [data_fresh] at hx'
    split at hx'
    · omega
    · cases hx'
  reserved o x hx ho := by
    rw [data_fresh, if_neg ho] at hx
    cases hx
  start := by decide

theorem Arena.lt_bytesUsed (h : Arena a) (hx : a.data o = some x) : o < a.bytesUsed := by
  have hle := h.used o x hx
  have hpos := x.size_pos
  omega

theorem Arena.data_eq_none (h : Arena a) (ho : a.bytesUsed ≤ o) : a.data o = none := by
  cases hx : a.data o with
  | none => rfl
  | some x =>
    have hlt := h.lt_bytesUsed hx
    omega

theorem Arena.write (h : Arena a) (hsep : ∀ o y, a.data o = some y → o ≠ off → o + y.size ≤ off ∨ off + x.size ≤ o)
    (hend : off + x.size ≤ a.bytesUsed) (hs : off ≠ 0 → sizeofPropBt + propValueMax ≤ off) :
    Arena (a.write off x) where
  bounded := h.bounded
  start := h.start
  used o y hy := by
    rw [data_write] at hy
    split at hy
    · rename_i ho
      cases hy
      rw [ho]
      exact hend
    · exact h.used o y hy
  apart o y o' y' hy hy' hlt := by
    rw [data_write] at hy hy'
    split at hy
    · rename_i ho
      cases hy
      rw [if_neg (by omega)] at hy'
      have := hsep o' y' hy' (by omega)
      omega
    · rename_i ho
      split at hy'
      · rename_i ho'
        cases hy'
        have := hsep o y hy ho
        have := x.size_pos
        omega
      · exact h.apart o y o' y' hy hy' hlt
  reserved o y hy ho := by
    rw [data_write] at hy
    split at hy
    · rename_i hoff
      rw [hoff]
      exact hs (hoff ▸ ho)
    · exact h.reserved o y hy ho

theorem Arena.overwrite (h : Arena a) {y : Obj} (hy : a.data off = some y) (hs : x.size = y.size) :
    Arena (a.write off x) := by
  refine h.write (fun o z hz hne => ?_) ?_ (h.reserved off y hy)
  · rcases lt_or_gt_of_ne hne with hlt | hlt
    · exact .inl (h.apart o z off y hz hy hlt)
    · rw [hs]
      exact .inr (h.apart off y o z hy hz hlt)
  · rw [hs]
    exact h.used off y hy

theorem Arena.allocate (h : Arena a) {size : Nat} (ha : a.allocateObj size = some (a', off)) :
    Arena a' ∧ off = a.bytesUsed ∧ a'.data = a.data ∧ off + size ≤ a'.bytesUsed := by
  unfold allocateObj at ha
  dsimp only at ha
  split at ha
  · cases ha
  · rename_i hfit
    cases ha
    refine ⟨⟨not_lt.1 hfit, fun o x hx => ?_, h.apart, h.reserved, ?_⟩, rfl, rfl, ?_⟩
    · have := h.used o x hx
      dsimp only
      omega
    · have := h.start
      dsimp only
      omega
    · dsimp only
      omega

end Arena

section Nodes

def heap (a : PropArea) : Heap (List UInt8) := fun o => (a.bt? o).map PropBt.node

theorem bt?_eq_some_iff : a.bt? o = some bt ↔ a.data o = some (.bt bt) := by
  unfold bt?
  split
  · rename_i bt' h
    rw [h]
    simp
  · rename_i h
    simp only [reduceCtorEq, false_iff]
    exact h bt

theorem bt?_write_of_ne (h : o ≠ off) : (a.write off x).bt? o = a.bt? o := by
  rw [bt?, bt?, data_write, if_neg h]

theorem heap_of_bt? (h : a.bt? o = some bt) : a.heap o = some bt.node := by
  rw [heap, h, Option.map_some]

theorem heap_eq_some {n : Node (List UInt8)} (h : a.heap o = some n) : ∃ bt, a.bt? o = some bt ∧ bt.node = n := by
  simpa [heap] using h

theorem exists_setLink (bt : PropBt) (s : Slot) (off : Nat) :
    (bt.setLink s off).node = bt.node.setLink s off ∧ (bt.setLink s off).prop = bt.prop ∧
      (bt.setLink s off).name = bt.name ∧ (bt.setLink s off).namelen = bt.namelen := by
  cases s <;> exact ⟨rfl, rfl, rfl, rfl⟩

end Nodes

/-- The invariant of an area: the nodes are a trie whose keys are not empty, and a node's property has the
name the node stands for. -/
structure Inv (a : PropArea) (path : Nat → Path) : Prop where
  arena : Arena a
  shape : Shape cmpToken a.heap path
  namelen : ∀ o bt, a.bt? o = some bt → bt.namelen.toNat = bt.name.length
  nonempty : ∀ o bt, a.bt? o = some bt → o ≠ 0 → bt.name ≠ []
  prop : ∀ o bt, a.bt? o = some bt → bt.prop ≠ 0 →
    ∃ info, a.data bt.prop = some (.info info) ∧ tokens info.name = (path o).reverse

def HasProp (a : PropArea) (path : Nat → Path) (p : Path) (off : Nat) : Prop :=
  ∃ o bt, a.bt? o = some bt ∧ path o = p ∧ bt.prop = off ∧ off ≠ 0

/-- Nodes have been made, and nothing else has changed that a reader of the properties sees. -/
structure Grow (a : PropArea) (path : Nat → Path) (a' : PropArea) (path' : Nat → Path) : Prop where
  node : ∀ o bt, a.bt? o = some bt → path' o = path o ∧ ∃ bt', a'.bt? o = some bt' ∧ bt'.prop = bt.prop
  fresh : ∀ o bt', a'.bt? o = some bt' → a.bt? o = none → bt'.prop = 0
  other : ∀ o x, a.data o = some x → a.bt? o = none → a'.data o = some x

theorem Grow.refl (a : PropArea) (path : Nat → Path) : Grow a path a path := by
  refine ⟨fun _ bt h => ⟨rfl, bt, h, rfl⟩, fun o bt h hn => ?_, fun _ _ h _ => h⟩
  rw [h] at hn
  cases hn

theorem bt?_congr (h : a'.data o = a.data o) : a'.bt? o = a.bt? o := by
  rw [bt?, bt?, h]

theorem Grow.trans {a'' : PropArea} {path'' : Nat → Path} (h : Grow a path a' path')
    (h' : Grow a' path' a'' path'') : Grow a path a'' path'' := by
  refine ⟨fun o bt hbt => ?_, fun o bt'' hbt'' hn => ?_, fun o x hx hbt => ?_⟩
  · obtain ⟨hpa, bt', hbt', hp⟩ := h.node o bt hbt
    obtain ⟨hpa', bt'', hbt'', hp'⟩ := h'.node o bt' hbt'
    exact ⟨hpa'.trans hpa, bt'', hbt'', hp'.trans hp⟩
  · cases hbt' : a'.bt? o with
    | none => exact h'.fresh o bt'' hbt'' hbt'
    | some bt' =>
      obtain ⟨-, b, hb, hp⟩ := h'.node o bt' hbt'
      obtain rfl := Option.mem_unique hbt'' hb
      rw [hp, h.fresh o bt' hbt' hn]
  · have hx' := h.other o x hx hbt
    refine h'.other o x hx' ?_
    rw [bt?_congr (hx'.trans hx.symm), hbt]

theorem Grow.hasProp_iff (h : Grow a path a' path') {p : Path} : HasProp a' path' p off ↔ HasProp a path p off := by
  constructor
  · rintro ⟨o, bt', hbt', hpa, hp, hne⟩
    cases hbt : a.bt? o with
    | none => exact absurd (h.fresh o bt' hbt' hbt) (hp ▸ hne)
    | some bt =>
      obtain ⟨hpa', b, hb, hp'⟩ := h.node o bt hbt
      obtain rfl := Option.mem_unique hbt' hb
      exact ⟨o, bt, hbt, hpa'.symm.trans hpa, hp'.symm.trans hp, hne⟩
  · rintro ⟨o, bt, hbt, hpa, hp, hne⟩
    obtain ⟨hpa', bt', hbt', hp'⟩ := h.node o bt hbt
    exact ⟨o, bt', hbt', hpa'.trans hpa, hp'.trans hp, hne⟩

end PropArea

end Bionic.Properties

namespace Bionic.Properties.PropArea

open Lib.LinkedTrie Function

variable {a a' : PropArea} {path : Nat → Path}

theorem Inv.lt_of_bt? (hI : Inv a path) {o : Nat} {bt : PropBt} (hbt : a.bt? o = some bt) : o < a.bytesUsed :=
  hI.arena.lt_bytesUsed (bt?_eq_some_iff.1 hbt)

theorem newPropBt_eq_some (hA : Arena a) {name : List UInt8} {namelen : UInt32} {f : Nat}
    (hlen : namelen.toNat ≤ name.length) (h : a.newPropBt name namelen = some (a', f)) :
    Arena a' ∧ f = a.bytesUsed ∧
      a'.data = update a.data f (some (.bt ⟨namelen, 0, 0, 0, 0, name.take namelen.toNat⟩)) := by
  unfold newPropBt at h
  cases ha : a.allocateObj (sizeofPropBt + namelen.toNat + 1) with
  | none =>
    rw [ha] at h
    cases h
  | some r =>
    obtain ⟨a₁, off⟩ := r
    rw [ha] at h
    cases h
    obtain ⟨hA₁, rfl, hd, hend⟩ := hA.allocate ha
    have hs : (Obj.bt ⟨namelen, 0, 0, 0, 0, name.take namelen.toNat⟩).size =
        sizeofPropBt + namelen.toNat + 1 := by
      simp only [Obj.size, List.length_take, min_eq_left hlen]
    refine ⟨hA₁.write (fun o y hy _ => ?_) (by rwa [hs]) (fun _ => hA.start), rfl, ?_⟩
    · rw [hd] at hy
      exact .inl (hA.used o y hy)
    · rw [PropArea.write, hd]

section AllocLinked

variable (hI : Inv a path) {o f : Nat} {bt : PropBt} (hbt : a.bt? o = some bt) {s : Slot} {name : List UInt8}
  {namelen : UInt32} (hlen : namelen.toNat ≤ name.length)
include hI hbt hlen

theorem heap_allocLinked (h : a.newPropBt name namelen = some (a', f)) :
    (a'.write o (.bt (bt.setLink s f))).heap = link a.heap o bt.node s f (name.take namelen.toNat) := by
  obtain ⟨-, rfl, hd⟩ := newPropBt_eq_some hI.arena hlen h
  funext x
  by_cases hxo : x = o
  · subst hxo
    rw [link_self, heap_of_bt? (bt?_eq_some_iff.2 (by rw [data_write, if_pos rfl])), (exists_setLink bt s _).1]
  · rw [heap, bt?_write_of_ne hxo]
    by_cases hxf : x = a.bytesUsed
    · subst hxf
      rw [link_leaf (by omega), bt?_eq_some_iff.2 (by rw [hd, update_self])]
      rfl
    · have hs : a'.bt? x = a.bt? x := bt?_congr (by rw [hd, update_of_ne hxf])
      rw [link_of_ne hxo hxf, heap, hs]

theorem Inv.allocLinked (hne : namelen ≠ 0)
    (hins : Insertable cmpToken a.heap path o bt.node s (name.take namelen.toNat))
    (h : a.newPropBt name namelen = some (a', f)) :
    Inv (a'.write o (.bt (bt.setLink s f))) (update path f (linkPath (path o) (name.take namelen.toNat) s)) ∧
      Grow a path (a'.write o (.bt (bt.setLink s f)))
        (update path f (linkPath (path o) (name.take namelen.toNat) s)) ∧
      (a'.write o (.bt (bt.setLink s f))).bt? o = some (bt.setLink s f) ∧ o < f ∧
      ∃ leaf, (a'.write o (.bt (bt.setLink s f))).bt? f = some leaf := by
  have hh := heap_allocLinked (s := s) hI hbt hlen h
  obtain ⟨hA', rfl, hd⟩ := newPropBt_eq_some hI.arena hlen h
  have hlt := hI.lt_of_bt? hbt
  have hf : a.data a.bytesUsed = none := hI.arena.data_eq_none (le_refl _)
  obtain ⟨hno, hpr, hna, hnm⟩ := exists_setLink bt s a.bytesUsed
  have hold {x : Nat} (hxo : x ≠ o) (hxf : x ≠ a.bytesUsed) :
      (a'.write o (.bt (bt.setLink s a.bytesUsed))).data x = a.data x := by
    rw [data_write, if_neg hxo, hd, update_of_ne hxf]
  have hs : (a'.write o (.bt (bt.setLink s a.bytesUsed))).bt? o = some (bt.setLink s a.bytesUsed) :=
    bt?_eq_some_iff.2 (by rw [data_write, if_pos rfl])
  have hl : (a'.write o (.bt (bt.setLink s a.bytesUsed))).bt? a.bytesUsed =
      some ⟨namelen, 0, 0, 0, 0, name.take namelen.toNat⟩ :=
    bt?_eq_some_iff.2 (by rw [data_write, if_neg (by omega), hd, update_self])
  have hca {x : Nat} {b : PropBt} (hb : (a'.write o (.bt (bt.setLink s a.bytesUsed))).bt? x = some b) :
      (x = o ∧ b = bt.setLink s a.bytesUsed) ∨
        (x = a.bytesUsed ∧ b = ⟨namelen, 0, 0, 0, 0, name.take namelen.toNat⟩) ∨
        (x ≠ o ∧ x ≠ a.bytesUsed ∧ a.bt? x = some b) := by
    by_cases hxo : x = o
    · subst hxo
      rw [hs, Option.some.injEq] at hb
      exact .inl ⟨rfl, hb.symm⟩
    · by_cases hxf : x = a.bytesUsed
      · subst hxf
        rw [hl, Option.some.injEq] at hb
        exact .inr (.inl ⟨rfl, hb.symm⟩)
      · rw [bt?_congr (hold hxo hxf)] at hb
        exact .inr (.inr ⟨hxo, hxf, hb⟩)
  have hp {x : Nat} (hx : x ≠ a.bytesUsed) :
      update path a.bytesUsed (linkPath (path o) (name.take namelen.toNat) s) x = path x :=
    update_of_ne hx ..
  refine ⟨⟨?_, ?_, ?_, ?_, ?_⟩, ⟨?_, ?_, ?_⟩, hs, hlt, _, hl⟩
  · refine hA'.overwrite (y := .bt bt) ?_ (by simp only [Obj.size, hna])
    rw [hd, update_of_ne (by omega), bt?_eq_some_iff.1 hbt]
  · rw [hh]
    refine hI.shape.link (heap_of_bt? hbt) ?_ hlt hins
    rw [heap, bt?, hf]
    rfl
  · intro x b hb
    rcases hca hb with ⟨rfl, rfl⟩ | ⟨rfl, rfl⟩ | ⟨-, -, hb⟩
    · rw [hnm, hna]
      exact hI.namelen x bt hbt
    · rw [List.length_take, min_eq_left hlen]
    · exact hI.namelen x b hb
  · intro x b hb hx
    rcases hca hb with ⟨rfl, rfl⟩ | ⟨rfl, rfl⟩ | ⟨-, -, hb⟩
    · rw [hna]
      exact hI.nonempty x bt hbt hx
    · have hpos : namelen.toNat ≠ 0 := fun h => hne (UInt32.toNat_inj.1 h)
      exact List.ne_nil_of_length_pos (by rw [List.length_take]; omega)
    · exact hI.nonempty x b hb hx
  · intro x b hb hne'
    have hold' {y : Nat} {c : PropBt} (hc : a.bt? y = some c) (hc' : c.prop ≠ 0) :
        ∃ info, (a'.write o (.bt (bt.setLink s a.bytesUsed))).data c.prop = some (.info info) ∧
          tokens info.name = (path y).reverse := by
      obtain ⟨info, hi, ht⟩ := hI.prop y c hc hc'
      refine ⟨info, ?_, ht⟩
      rw [hold ?_ ?_, hi]
      · intro hco
        rw [hco, bt?_eq_some_iff.1 hbt] at hi
        cases hi
      · intro hcf
        rw [hcf, hf] at hi
        cases hi
    rcases hca hb with ⟨rfl, rfl⟩ | ⟨rfl, rfl⟩ | ⟨-, hxf, hb⟩
    · rw [hpr] at hne' ⊢
      rw [hp (by omega)]
      exact hold' hbt hne'
    · exact absurd rfl hne'
    · rw [hp hxf]
      exact hold' hb hne'
  · intro x b hb
    have hxf : x ≠ a.bytesUsed := ne_of_lt (hI.lt_of_bt? hb)
    refine ⟨hp hxf, ?_⟩
    by_cases hxo : x = o
    · subst hxo
      obtain rfl := Option.mem_unique hbt hb
      exact ⟨_, hs, hpr⟩
    · exact ⟨b, by rw [bt?_congr (hold hxo hxf), hb], rfl⟩
  · intro x b hb hn
    rcases hca hb with ⟨rfl, rfl⟩ | ⟨rfl, rfl⟩ | ⟨-, -, hb⟩
    · rw [hbt] at hn
      cases hn
    · rfl
    · rw [hb] at hn
      cases hn
  · intro x y hy hn
    rw [hold ?_ ?_, hy]
    · rintro rfl
      rw [hbt] at hn
      cases hn
    · exact ne_of_lt (hI.arena.lt_bytesUsed hy)

end AllocLinked

end Bionic.Properties.PropArea
