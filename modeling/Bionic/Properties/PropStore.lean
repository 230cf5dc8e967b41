import Bionic.Properties.TrieInv

namespace Bionic.Properties.PropArea

open Lib (strchr strchr_eq_some)
open Lib.LinkedTrie List

variable {a a' : PropArea} {path : Nat → Path}

/-- What a walk to the node with path `target` leaves: the trie, larger if it may allocate, and that node, or
null if it has run out of space or may not allocate. -/
def Outcome (a : PropArea) (path : Nat → Path) (target : Path) (allocIfNeeded : Bool) (a' : PropArea)
    (result : Option Nat) : Prop :=
  ∃ path', Inv a' path' ∧ Grow a path a' path' ∧ (allocIfNeeded = false → a' = a ∧ path' = path) ∧
    match result with
    | some x => path' x = target ∧ ∃ bt, a'.bt? x = some bt
    | none => allocIfNeeded = false → ∀ x bt, a.bt? x = some bt → path x ≠ target

variable (hI : Inv a path) {allocIfNeeded : Bool} {target : Path} {o x fuel : Nat} {s : Slot}
include hI

theorem Inv.outcome_some {bt : PropBt} (hbt : a.bt? x = some bt)
    (hp : path x = target) : Outcome a path target allocIfNeeded a (some x) :=
  ⟨path, hI, Grow.refl a path, fun _ => ⟨rfl, rfl⟩, hp, bt, hbt⟩

theorem Inv.outcome_none (hnot : allocIfNeeded = false → ∀ x bt, a.bt? x = some bt → path x ≠ target) :
    Outcome a path target allocIfNeeded a none :=
  ⟨path, hI, Grow.refl a path, fun _ => ⟨rfl, rfl⟩, hnot⟩

theorem Inv.toPropObj_link {bt : PropBt} (hbt : a.bt? o = some bt) (hne : bt.link s ≠ 0) :
    toPropObj (bt.link s) = some (bt.link s) ∧ o < bt.link s ∧ ∃ bt', a.bt? (bt.link s) = some bt' := by
  obtain ⟨hlt, m, hm, -⟩ := hI.shape.target o bt.node s (heap_of_bt? hbt) hne
  obtain ⟨bt', hbt', -⟩ := heap_eq_some hm
  refine ⟨if_neg ?_, hlt, bt', hbt'⟩
  have := hI.lt_of_bt? hbt'
  have := hI.arena.bounded
  unfold PropBt.link
  omega

section Siblings

variable {name : List UInt8} {namelen : UInt32} {allocIfNeeded : Bool} (hlen : namelen.toNat ≤ name.length)
  (hne : namelen ≠ 0)
include hlen hne

theorem Inv.allocLinked_spec {bt : PropBt} (hbt : a.bt? o = some bt)
    (hins : Insertable cmpToken a.heap path o bt.node s (name.take namelen.toNat)) :
    Outcome a path (linkPath (path o) (name.take namelen.toNat) s) true (a.allocLinked o bt s name namelen).1
      (a.allocLinked o bt s name namelen).2 := by
  unfold PropArea.allocLinked
  cases hnew : a.newPropBt name namelen with
  | none => exact hI.outcome_none (by simp)
  | some r =>
    obtain ⟨hI', hg, -, -, leaf, hl⟩ := hI.allocLinked hbt hlen hne hins hnew
    exact ⟨_, hI', hg, by simp, Function.update_self .., leaf, hl⟩

theorem findPropBt_spec {p : Nat} {parent : PropBt} (hp : a.bt? p = some parent) (hc : parent.children ≠ 0)
    (hse : Search cmpToken a.heap (name.take namelen.toNat) parent.children o) (hf : paDataSize < o + fuel) :
    ∃ a' result, findPropBt name namelen allocIfNeeded fuel a (some o) = some (a', result) ∧
      Outcome a path (name.take namelen.toNat :: path p) allocIfNeeded a' result := by
  induction fuel generalizing o with
  | zero =>
    obtain ⟨n, hn, -⟩ := hI.shape.search_path (heap_of_bt? hp) hc hse
    obtain ⟨bt, hbt, -⟩ := heap_eq_some hn
    have := hI.lt_of_bt? hbt
    have := hI.arena.bounded
    omega
  | succ fuel ih =>
    obtain ⟨n, hn, hpa⟩ := hI.shape.search_path (heap_of_bt? hp) hc hse
    obtain ⟨bt, hbt, rfl⟩ := heap_eq_some hn
    have hcmp := cmpPropName_eq_cmpToken hlen (hI.namelen o bt hbt)
    unfold findPropBt
    simp only [hbt, hcmp, Option.bind_eq_bind, Option.bind_some]
    by_cases hret : cmpToken (name.take namelen.toNat) bt.name = 0
    · rw [if_pos hret]
      rw [cmpToken_eq_zero_iff] at hret
      exact ⟨a, some o, rfl, hI.outcome_some hbt (by rw [hpa, hret]; rfl)⟩
    rw [if_neg hret]
    generalize hs : (if cmpToken (name.take namelen.toNat) bt.name < 0 then Slot.left else Slot.right) = s
    have hsl : s = searchSlot cmpToken (name.take namelen.toNat) bt.node.key := hs.symm
    by_cases hl : bt.link s ≠ 0
    · obtain ⟨hobj, hlt, -⟩ := hI.toPropObj_link hbt hl
      rw [if_pos hl, hobj]
      exact ih (hse.tail ⟨bt.node, hn, hret, hl, by rw [← hsl]; rfl⟩) (by omega)
    · rw [if_neg hl]
      rw [not_not] at hl
      cases allocIfNeeded with
      | false =>
        refine ⟨a, none, rfl, hI.outcome_none fun _ x b hb => ?_⟩
        exact hI.shape.not_found cmpToken_eq_zero_iff (heap_of_bt? hp) hse hn hret (by rwa [← hsl])
          (heap_of_bt? hb)
      | true =>
        have hout := hI.allocLinked_spec hlen hne hbt (s := s) ⟨hl, .inr ⟨hret, hsl, p, parent.node,
          heap_of_bt? hp, hpa, hc, hse⟩⟩
        rw [hpa, linkPath_of_ne_children (hsl ▸ searchSlot_ne_children cmpToken _ _)] at hout
        exact ⟨_, _, rfl, hout⟩

end Siblings

theorem Inv.exists_suffix {l q : Path} {bt : PropBt} (hbt : a.bt? x = some bt) (hpa : path x = l ++ q) :
    ∃ y bt', a.bt? y = some bt' ∧ path y = q := by
  induction l generalizing x bt with
  | nil => exact ⟨x, bt, hbt, hpa⟩
  | cons k l ih =>
    obtain ⟨p, m, hm, hp, -⟩ := hI.shape.found x bt.node (heap_of_bt? hbt) (hI.shape.ne_zero_of_path hpa)
    obtain ⟨bt', hbt', -⟩ := heap_eq_some hm
    rw [hpa] at hp
    exact ih hbt' (cons.inj hp).2.symm

theorem Inv.nil_notMem_path {bt : PropBt} (hbt : a.bt? x = some bt) : [] ∉ path x := by
  intro hmem
  obtain ⟨l, q, hpa⟩ := append_of_mem hmem
  obtain ⟨y, bt', hbt', hy⟩ := hI.exists_suffix hbt hpa
  obtain ⟨p, m, hm, hp, -⟩ := hI.shape.found y bt'.node (heap_of_bt? hbt') (hI.shape.ne_zero_of_path hy)
  rw [hy] at hp
  exact hI.nonempty y bt' hbt' (hI.shape.ne_zero_of_path hy) (cons.inj hp).1.symm

theorem Inv.childrenRoot_spec {bt : PropBt} (hbt : a.bt? o = some bt) (name : List UInt8)
    (namelen : UInt32) (allocIfNeeded : Bool) (hlen : namelen.toNat ≤ name.length) (hne : namelen ≠ 0) :
    ∃ a' result path', a.childrenRoot o bt name namelen allocIfNeeded = (a', result) ∧
      Inv a' path' ∧ Grow a path a' path' ∧ (allocIfNeeded = false → a' = a ∧ path' = path) ∧
      match result with
      | some root => ∃ bt', a'.bt? o = some bt' ∧ bt'.children = root ∧ root ≠ 0
      | none => allocIfNeeded = false → ∀ x b k, a.bt? x = some b → path x ≠ k :: path o := by
  unfold childrenRoot
  by_cases hc : bt.children ≠ 0
  · obtain ⟨hobj, -⟩ := hI.toPropObj_link hbt (s := .children) hc
    refine ⟨a, some bt.children, path, ?_, hI, Grow.refl a path, fun _ => ⟨rfl, rfl⟩, bt, hbt, rfl, hc⟩
    rw [if_pos hc]
    exact congrArg _ hobj
  · rw [if_neg hc]
    rw [not_not] at hc
    cases allocIfNeeded with
    | false =>
      refine ⟨a, none, path, rfl, hI, Grow.refl a path, fun _ => ⟨rfl, rfl⟩, fun _ x b k hb hx => ?_⟩
      have := (hI.shape.search_child cmpToken_eq_zero_iff (heap_of_bt? hbt) (heap_of_bt? hb) hx).2.1
      exact this hc
    | true =>
      unfold PropArea.allocLinked
      cases hnew : a.newPropBt name namelen with
      | none => exact ⟨a, none, path, rfl, hI, Grow.refl a path, by simp, by simp⟩
      | some r =>
        obtain ⟨a₁, f⟩ := r
        obtain ⟨hI', hg, hs, hlt, -⟩ := hI.allocLinked hbt hlen hne (s := .children)
          ⟨hc, .inl rfl⟩ hnew
        exact ⟨_, some f, _, rfl, hI', hg, by simp, _, hs, rfl, by omega⟩

omit hI in
theorem Outcome.trans_grow {a₁ : PropArea} {path₁ : Nat → Path} {result : Option Nat} (hg : Grow a path a₁ path₁)
    (hs : allocIfNeeded = false → a₁ = a ∧ path₁ = path)
    (h : Outcome a₁ path₁ target allocIfNeeded a' result) : Outcome a path target allocIfNeeded a' result := by
  obtain ⟨path', hI', hg', hs', hr⟩ := h
  refine ⟨path', hI', hg.trans hg', fun hno => ?_, ?_⟩
  · obtain ⟨rfl, rfl⟩ := hs hno
    exact hs' hno
  · cases result with
    | some x => exact hr
    | none =>
      intro hno
      obtain ⟨rfl, rfl⟩ := hs hno
      exact hr hno

theorem findNode_spec {bt : PropBt} (hbt : a.bt? o = some bt) {remainingName : List UInt8}
    (hsm : remainingName.length < 2 ^ 32) (hfu : remainingName.length < fuel) (allocIfNeeded : Bool) :
    ∃ a' result, findNode allocIfNeeded fuel a o remainingName = some (a', result) ∧
      Outcome a path ((tokens remainingName).reverse ++ path o) allocIfNeeded a' result := by
  induction fuel generalizing a path o bt remainingName with
  | zero => omega
  | succ fuel ih =>
    have ht := tokens_eq_cons remainingName
    have hlen : (strchr remainingName 46).getD remainingName.length ≤ remainingName.length := by
      cases h : strchr remainingName 46 with
      | none => exact Nat.le_refl _
      | some i => exact Nat.le_of_lt (strchr_eq_some h).1
    have hsi : (UInt32.ofNat ((strchr remainingName 46).getD remainingName.length)).toNat =
        (strchr remainingName 46).getD remainingName.length := by
      rw [UInt32.toNat_ofNat', Nat.mod_eq_of_lt (by omega)]
    unfold findNode
    dsimp only
    generalize (strchr remainingName 46).getD remainingName.length = len at ht hlen hsi ⊢
    -- A node for the whole name lies below one for the first token.
    have hbe (h : ∀ x b, a.bt? x = some b → path x ≠ remainingName.take len :: path o) :
        ∀ x b, a.bt? x = some b → path x ≠ (tokens remainingName).reverse ++ path o := by
      intro x b hb hx
      rw [ht, reverse_cons, append_assoc] at hx
      obtain ⟨y, b', hb', hy⟩ := hI.exists_suffix hb hx
      exact h y b' hb' hy
    by_cases hz : UInt32.ofNat len = 0
    · rw [if_pos hz]
      refine ⟨a, none, rfl, hI.outcome_none fun _ => hbe fun x b hb hx => ?_⟩
      have hlen0 : len = 0 := by
        rw [← hsi, hz]
        rfl
      rw [hlen0, take_zero] at hx
      exact hI.nil_notMem_path hb (hx ▸ mem_cons_self)
    rw [if_neg hz]
    obtain ⟨a₁, root, path₁, hro, hI₁, hg₁, hs₁, hr₁⟩ :=
      hI.childrenRoot_spec hbt remainingName (UInt32.ofNat len) allocIfNeeded (by rwa [hsi]) hz
    simp only [hbt, hro, Option.bind_eq_bind, Option.bind_some, Option.pure_def]
    cases root with
    | none =>
      refine ⟨a₁, none, rfl, path₁, hI₁, hg₁, hs₁, fun hno => hbe fun x b hb => ?_⟩
      exact hr₁ hno x b _ hb
    | some root =>
      obtain ⟨bt₁, hbt₁, rfl, hne⟩ := hr₁
      have hp₁ : path₁ o = path o := (hg₁.node o bt hbt).1
      have hsp : ∃ a₂ node, findPropBt remainingName (UInt32.ofNat len) allocIfNeeded loopFuel a₁
          (some bt₁.children) = some (a₂, node) ∧
          Outcome a₁ path₁ (remainingName.take (UInt32.ofNat len).toNat :: path₁ o) allocIfNeeded a₂ node :=
        findPropBt_spec hI₁ (by rwa [hsi]) hz hbt₁ hne .refl (by unfold loopFuel; omega)
      obtain ⟨a₂, node, hf, hout⟩ := hsp
      rw [hsi, hp₁] at hout
      obtain ⟨path₂, hI₂, hg₂, hs₂, hn⟩ := Outcome.trans_grow hg₁ hs₁ hout
      simp only [hf, Option.bind_some]
      cases node with
      | none => exact ⟨a₂, none, rfl, path₂, hI₂, hg₂, hs₂, fun hno => hbe (hn hno)⟩
      | some current =>
        obtain ⟨hc, bt₂, hbt₂⟩ := hn
        cases hsep : strchr remainingName 46 with
        | none =>
          refine ⟨a₂, some current, rfl, path₂, hI₂, hg₂, hs₂, ?_, bt₂, hbt₂⟩
          rw [hsep] at ht
          rw [ht, hc]
          rfl
        | some i =>
          have hd : (remainingName.drop (i + 1)).length < remainingName.length := by
            have := (strchr_eq_some hsep).1
            rw [length_drop]
            omega
          obtain ⟨a₃, result, hrec, hout₃⟩ :=
            @ih a₂ path₂ hI₂ current bt₂ hbt₂ (remainingName.drop (i + 1)) (by omega) (by omega)
          rw [hsep] at ht
          rw [hc, ← singleton_append, ← append_assoc, ← reverse_cons, ← ht] at hout₃
          exact ⟨a₃, result, hrec, Outcome.trans_grow hg₂ hs₂ hout₃⟩

end Bionic.Properties.PropArea

namespace Bionic.Properties.PropArea

open Lib.LinkedTrie List

variable {a a' : PropArea} {path : Nat → Path} {off : Nat}

def Holds (a : PropArea) (off : Nat) (name value : List UInt8) : Prop :=
  ∃ info, a.data off = some (.info info) ∧ info.name = name ∧
    if value.length < propValueMax then info.contents = .value value
    else ∃ offset, info.contents = .longProperty PropInfo.kLongLegacyError offset ∧
      a.data (off + offset) = some (.longValue value)

theorem Holds.keep (hk : ∀ o x, a.data o = some x → a.bt? o = none → a'.data o = some x)
    {name value : List UInt8} (h : Holds a off name value) : Holds a' off name value := by
  have hk' {o : Nat} {x : Obj} (hx : a.data o = some x) (hne : ∀ b, x ≠ .bt b) : a'.data o = some x := by
    refine hk o x hx ?_
    cases hbt : a.bt? o with
    | none => rfl
    | some b =>
      rw [bt?_eq_some_iff, hx] at hbt
      exact absurd (Option.some.inj hbt) (hne b)
  obtain ⟨info, hi, hn, hc⟩ := h
  refine ⟨info, hk' hi (by simp), hn, ?_⟩
  split at hc
  · rename_i hs
    rwa [if_pos hs]
  · rename_i hl
    obtain ⟨offset, ho, hv⟩ := hc
    rw [if_neg hl]
    exact ⟨offset, ho, hk' hv (by simp)⟩

structure SameNodes (a a' : PropArea) : Prop where
  arena : Arena a'
  used : a.bytesUsed ≤ a'.bytesUsed
  data : ∀ o, o < a.bytesUsed → a'.data o = a.data o
  bt : ∀ o bt, a'.data o = some (.bt bt) → o < a.bytesUsed

theorem SameNodes.bt?_eq (h : SameNodes a a') (hA : Arena a) (o : Nat) : a'.bt? o = a.bt? o := by
  by_cases hlt : o < a.bytesUsed
  · exact bt?_congr (h.data o hlt)
  · have hn : a.bt? o = none := by
      rw [bt?, hA.data_eq_none (not_lt.1 hlt)]
    rw [hn]
    cases hbt : a'.bt? o with
    | none => rfl
    | some bt => exact absurd (h.bt o bt (bt?_eq_some_iff.1 hbt)) hlt

theorem SameNodes.inv (h : SameNodes a a') (hI : Inv a path) : Inv a' path := by
  have hbt := h.bt?_eq hI.arena
  have hh : a'.heap = a.heap := by
    funext o
    rw [heap, heap, hbt]
  refine ⟨h.arena, hh ▸ hI.shape, fun o bt ho => ?_, fun o bt ho => ?_, fun o bt ho hne => ?_⟩
  · exact hI.namelen o bt (hbt o ▸ ho)
  · exact hI.nonempty o bt (hbt o ▸ ho)
  · obtain ⟨info, hi, ht⟩ := hI.prop o bt (hbt o ▸ ho) hne
    exact ⟨info, by rw [h.data _ (hI.arena.lt_bytesUsed hi), hi], ht⟩

theorem SameNodes.grow (h : SameNodes a a') (hI : Inv a path) : Grow a path a' path := by
  have hbt := h.bt?_eq hI.arena
  refine ⟨fun o bt ho => ⟨rfl, bt, by rw [hbt, ho], rfl⟩, fun o bt ho hn => ?_, fun o x hx _ => ?_⟩
  · rw [hbt, hn] at ho
    cases ho
  · rw [h.data o (hI.arena.lt_bytesUsed hx), hx]

theorem SameNodes.refl (hA : Arena a) : SameNodes a a :=
  ⟨hA, Nat.le_refl _, fun _ _ => rfl, fun _ _ h => hA.lt_bytesUsed h⟩

theorem SameNodes.allocate {a₁ : PropArea} (h : SameNodes a a₁) {size : Nat}
    (ha : a₁.allocateObj size = some (a', off)) :
    SameNodes a a' ∧ off = a₁.bytesUsed ∧ off + size ≤ a'.bytesUsed ∧ a'.data = a₁.data := by
  obtain ⟨hA', rfl, hd, hend⟩ := h.arena.allocate ha
  have hu := h.used
  refine ⟨⟨hA', by omega, fun o ho => by rw [hd, h.data o ho], fun o bt hbt => ?_⟩, rfl, hend, hd⟩
  rw [hd] at hbt
  exact h.bt o bt hbt

theorem SameNodes.write (h : SameNodes a a') {x : Obj} (hoff : a.bytesUsed ≤ off)
    (hx : ∀ bt, x ≠ .bt bt) (hA' : Arena (a'.write off x)) : SameNodes a (a'.write off x) := by
  refine ⟨hA', h.used, fun o ho => ?_, fun o bt hbt => ?_⟩
  · rw [data_write, if_neg (by omega), h.data o ho]
  · rw [data_write] at hbt
    split at hbt
    · exact absurd (Option.some.inj hbt) (hx bt)
    · exact h.bt o bt hbt

/-- A property that no node is linked to yet leaves no trace in the trie, nor does the space of one whose long
value does not fit. -/
theorem newPropInfo_spec (hA : Arena a) {name value : List UInt8} {namelen valuelen : UInt32}
    (hn : namelen.toNat = name.length) (hv : valuelen.toNat = value.length)
    (hsm : valuelen.toNat + 1 < 2 ^ 32) :
    ∃ a' result, a.newPropInfo name namelen value valuelen = (a', result) ∧ SameNodes a a' ∧
      ∀ off, result = some off → off = a.bytesUsed ∧ Holds a' off name value := by
  have ht : name.take namelen.toNat = name := by rw [hn, take_length]
  have hta : value.take valuelen.toNat = value := by rw [hv, take_length]
  unfold newPropInfo
  cases ha : a.allocateObj (sizeofPropInfo + namelen.toNat + 1) with
  | none =>
    refine ⟨a, none, rfl, .refl hA, ?_⟩
    intro _ h
    cases h
  | some r =>
    obtain ⟨a₁, off⟩ := r
    obtain ⟨hs₁, rfl, hend₁, hd₁⟩ := (SameNodes.refl hA).allocate ha
    rw [hn] at hend₁
    have hst := hA.start
    dsimp only
    by_cases hl : propValueMax ≤ valuelen.toNat
    · rw [if_pos hl]
      cases ha₂ : a₁.allocateObj (valuelen + 1).toNat with
      | none =>
        refine ⟨a₁, none, rfl, hs₁, ?_⟩
        intro _ h
        cases h
      | some r =>
        obtain ⟨a₂, off⟩ := r
        obtain ⟨hs₂, rfl, hend₂, hd₂⟩ := hs₁.allocate ha₂
        rw [UInt32.toNat_add, UInt32.toNat_one, Nat.mod_eq_of_lt hsm, hv] at hend₂
        have hold {o : Nat} {y : Obj} (hy : a₂.data o = some y) : o + y.size ≤ a.bytesUsed := by
          rw [hd₂, hd₁] at hy
          exact hA.used o y hy
        rw [hta]
        have hs₃ : SameNodes a (a₂.write a₁.bytesUsed (.longValue value)) := by
          refine hs₂.write (by omega) (by simp) (hs₂.arena.write (fun o y hy _ => ?_) hend₂ (by omega))
          have := hold hy
          omega
        have hi (d : Nat) : (Obj.info (.newLong name namelen d)).size =
            sizeofPropInfo + name.length + 1 := by
          simp only [Obj.size, PropInfo.newLong, ht]
        refine ⟨_, _, rfl, hs₃.write (Nat.le_refl _) (by simp) (hs₃.arena.write ?_ ?_ (fun _ => hst)), ?_⟩
        · intro o y hy hne
          rw [data_write] at hy
          rw [hi]
          split at hy
          · omega
          · exact .inl (hold hy)
        · rw [hi]
          have : (a₂.write a₁.bytesUsed (.longValue value)).bytesUsed = a₂.bytesUsed := rfl
          omega
        · intro off hoff
          cases hoff
          refine ⟨rfl, _, by rw [data_write, if_pos rfl], ht, ?_⟩
          rw [if_neg (by omega)]
          refine ⟨_, rfl, ?_⟩
          rw [data_write, if_neg (by omega), data_write, if_pos (by omega)]
    · rw [if_neg hl]
      have hsi : (Obj.info (.newShort name namelen value valuelen)).size = sizeofPropInfo + name.length + 1 := by
        simp only [Obj.size, PropInfo.newShort, ht]
      refine ⟨_, _, rfl, hs₁.write (Nat.le_refl _) (by simp) (hs₁.arena.write ?_ ?_ (fun _ => hst)), ?_⟩
      · intro o y hy _
        rw [hd₁] at hy
        exact .inl (hA.used o y hy)
      · rwa [hsi]
      · intro off hoff
        cases hoff
        refine ⟨rfl, _, by rw [data_write, if_pos rfl], ht, ?_⟩
        rw [if_pos (by omega)]
        exact congrArg _ hta

end Bionic.Properties.PropArea
