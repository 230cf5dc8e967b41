import Bionic.Properties.PropStore

namespace Bionic.Properties.PropArea

open Lib (CString)
open Lib.LinkedTrie List Option Nat

variable {a a' : PropArea} {path path' : Nat → Path} {bt : PropBt}

section SetProp

variable (hI : Inv a path) {o off : Nat} {bt : PropBt} (hbt : a.bt? o = some bt)
include hI hbt

omit hI hbt in
theorem bt?_setProp (x : Nat) : (a.write o (.bt { bt with prop := off })).bt? x =
    if x = o then some { bt with prop := off } else a.bt? x := by
  by_cases hx : x = o
  · rw [if_pos hx, bt?_eq_some_iff, data_write, if_pos hx]
  · rw [if_neg hx, bt?_write_of_ne hx]

theorem Inv.setProp {info : PropInfo} (hin : a.data off = some (.info info))
    (ht : tokens info.name = (path o).reverse) : Inv (a.write o (.bt { bt with prop := off })) path := by
  have hd := bt?_eq_some_iff.1 hbt
  have hk {x : Nat} {i : PropInfo} (hi : a.data x = some (.info i)) :
      (a.write o (.bt { bt with prop := off })).data x = some (.info i) := by
    rw [data_write, if_neg ?_, hi]
    rintro rfl
    rw [hd] at hi
    cases hi
  have hh : (a.write o (.bt { bt with prop := off })).heap = a.heap := by
    funext x
    rw [heap, heap, bt?_setProp]
    split
    · rename_i hx
      rw [hx, hbt]
      rfl
    · rfl
  refine ⟨hI.arena.overwrite hd rfl, hh ▸ hI.shape, fun x b hb => ?_, fun x b hb hx => ?_,
    fun x b hb hne => ?_⟩
  · rw [bt?_setProp] at hb
    split at hb
    · cases hb
      exact hI.namelen o bt hbt
    · exact hI.namelen x b hb
  · rw [bt?_setProp] at hb
    split at hb
    · rename_i hxo
      cases hb
      exact hI.nonempty o bt hbt (hxo ▸ hx)
    · exact hI.nonempty x b hb hx
  · rw [bt?_setProp] at hb
    split at hb
    · rename_i hxo
      cases hb
      exact ⟨info, hk hin, hxo ▸ ht⟩
    · obtain ⟨i, hi, hit⟩ := hI.prop x b hb hne
      exact ⟨i, hk hi, hit⟩

omit hI in
theorem hasProp_setProp_iff (hn : bt.prop = 0) (hoff : off ≠ 0) {p : Path} {off' : Nat} :
    HasProp (a.write o (.bt { bt with prop := off })) path p off' ↔
      HasProp a path p off' ∨ (p = path o ∧ off' = off) := by
  constructor
  · rintro ⟨x, b, hb, hpa, hp, hne⟩
    rw [bt?_setProp] at hb
    split at hb
    · rename_i hx
      cases hb
      exact .inr ⟨hx ▸ hpa.symm, hp.symm⟩
    · exact .inl ⟨x, b, hb, hpa, hp, hne⟩
  · rintro (⟨x, b, hb, hpa, hp, hne⟩ | ⟨rfl, rfl⟩)
    · refine ⟨x, b, ?_, hpa, hp, hne⟩
      rw [bt?_setProp, if_neg ?_, hb]
      rintro rfl
      obtain rfl := mem_unique hbt hb
      exact hne (hp.symm.trans hn)
    · exact ⟨o, _, by rw [bt?_setProp, if_pos rfl], rfl, rfl, hoff⟩

end SetProp

theorem Inv.hasProp_iff (hI : Inv a path) {o off : Nat} (hbt : a.bt? o = some bt) :
    HasProp a path (path o) off ↔ bt.prop = off ∧ off ≠ 0 := by
  constructor
  · rintro ⟨x, b, hb, hpa, hp, hne⟩
    obtain rfl := hI.shape.path_injective cmpToken_eq_zero_iff (heap_of_bt? hb) (heap_of_bt? hbt) hpa
    obtain rfl := mem_unique hb hbt
    exact ⟨hp, hne⟩
  · rintro ⟨hp, hne⟩
    exact ⟨o, bt, hbt, rfl, hp, hne⟩

theorem Inv.root (hI : Inv a path) : ∃ bt, a.bt? 0 = some bt := by
  obtain ⟨n, hn, -⟩ := hI.shape.root
  obtain ⟨bt, hbt, -⟩ := heap_eq_some hn
  exact ⟨bt, hbt⟩

theorem Inv.toPropObj_prop (hI : Inv a path) {o : Nat} (hbt : a.bt? o = some bt) (hne : bt.prop ≠ 0) :
    toPropObj bt.prop = some bt.prop := by
  obtain ⟨info, hi, -⟩ := hI.prop o bt hbt hne
  have hlt := hI.arena.lt_bytesUsed hi
  have hle := hI.arena.bounded
  exact if_neg (by omega)

theorem find_spec (hI : Inv a path) {name : CString} (hs : name.bytes.length < 2 ^ 32) :
    ∃ result, a.find name = some result ∧
      ∀ off, result = some off ↔ HasProp a path (tokens name.bytes).reverse off := by
  obtain ⟨root, hro⟩ := hI.root
  obtain ⟨a', node, hn, path', -, -, hsa, hr⟩ :=
    findNode_spec hI hro hs (lt_succ_self _) false
  obtain ⟨rfl, rfl⟩ := hsa rfl
  rw [hI.shape.path_root, append_nil] at hr
  unfold find findProperty
  simp only [hn, Option.bind_eq_bind, Option.pure_def]
  cases node with
  | none =>
    refine ⟨none, rfl, fun off => iff_of_false (by simp) ?_⟩
    rintro ⟨x, b, hb, hpa, -⟩
    exact hr rfl x b hb hpa
  | some current =>
    obtain ⟨hpa, bt, hbt⟩ := hr
    rw [← hpa]
    simp only [hbt, bind_some]
    by_cases hp : bt.prop ≠ 0
    · refine ⟨some bt.prop, ?_, fun off => ?_⟩
      · rw [if_pos hp, hI.toPropObj_prop hbt hp]
        rfl
      · rw [hI.hasProp_iff hbt, some.injEq]
        exact ⟨fun h => ⟨h, h ▸ hp⟩, fun h => h.1⟩
    · refine ⟨none, ?_, fun off => iff_of_false (by simp) ?_⟩
      · rw [if_neg hp]
        rfl
      · rw [hI.hasProp_iff hbt]
        rintro ⟨h, hne⟩
        exact hp (h ▸ hne)

theorem Grow.data_bytesUsed (h : Grow a path a' path') (hI' : Inv a' path') : a.data a'.bytesUsed = none := by
  cases hx : a.data a'.bytesUsed with
  | none => rfl
  | some x =>
    exfalso
    cases hbt : a.bt? a'.bytesUsed with
    | none => exact lt_irrefl _ (hI'.arena.lt_bytesUsed (h.other _ x hx hbt))
    | some bt =>
      obtain ⟨-, bt', hbt', -⟩ := h.node _ bt hbt
      exact lt_irrefl _ (hI'.lt_of_bt? hbt')

/-- What `add` does to the properties: nothing, with null or the property that is there as its result, or it
makes the property where there was none. -/
inductive AddOutcome (a : PropArea) (path : Nat → Path) (name value : CString) (a' : PropArea)
    (path' : Nat → Path) : Option Nat → Prop where
  | failed (hsame : ∀ p off, HasProp a' path' p off ↔ HasProp a path p off) : AddOutcome a path name value a' path' none
  | present (off : Nat) (hsame : ∀ p off, HasProp a' path' p off ↔ HasProp a path p off)
      (hprop : HasProp a path (tokens name.bytes).reverse off) : AddOutcome a path name value a' path' (some off)
  | created (off : Nat) (hfresh : a.data off = none)
      (hnone : ∀ off', ¬ HasProp a path (tokens name.bytes).reverse off')
      (hholds : Holds a' off name.bytes value.bytes)
      (hprops : ∀ p off', HasProp a' path' p off' ↔
        HasProp a path p off' ∨ (p = (tokens name.bytes).reverse ∧ off' = off)) :
      AddOutcome a path name value a' path' (some off)

theorem Holds.setProp {o off : Nat} {bt' : PropBt} (hbt : a.bt? o = some bt) {name value : List UInt8}
    (h : Holds a off name value) : Holds (a.write o (.bt bt')) off name value := by
  refine h.keep fun x y hy hn => ?_
  rw [data_write, if_neg ?_, hy]
  rintro rfl
  rw [hbt] at hn
  cases hn

theorem add_spec (hI : Inv a path) {name value : CString} (hn : name.bytes.length < 2 ^ 32)
    (hv : value.bytes.length + 1 < 2 ^ 32) :
    ∃ a' result path', a.add name value = some (a', result) ∧ Inv a' path' ∧
      (∀ o x, a.data o = some x → a.bt? o = none → a'.data o = some x) ∧
      AddOutcome a path name value a' path' result := by
  obtain ⟨root, hro⟩ := hI.root
  obtain ⟨a₁, node, hno, path₁, hI₁, hg, -, hr⟩ := findNode_spec hI hro hn (lt_succ_self _) true
  rw [hI.shape.path_root, append_nil] at hr
  unfold add findProperty
  simp only [hno, Option.bind_eq_bind, Option.bind_some, Option.pure_def]
  cases node with
  | none => exact ⟨a₁, none, path₁, rfl, hI₁, hg.other, .failed fun p off => hg.hasProp_iff⟩
  | some current =>
    obtain ⟨hpa, bt, hbt⟩ := hr
    simp only [hbt, bind_some]
    by_cases hp : bt.prop ≠ 0
    · rw [if_pos hp, hI₁.toPropObj_prop hbt hp]
      refine ⟨a₁, some bt.prop, path₁, rfl, hI₁, hg.other, .present _ (fun p off => hg.hasProp_iff) ?_⟩
      rw [← hg.hasProp_iff, ← hpa]
      exact (hI₁.hasProp_iff hbt).2 ⟨rfl, hp⟩
    · rw [not_not] at hp
      simp only [hp, ne_eq, if_true]
      have hlen {s : CString} (hs : s.bytes.length < 2 ^ 32) :
          (UInt32.ofNat s.bytes.length).toNat = s.bytes.length := by
        rw [UInt32.toNat_ofNat', mod_eq_of_lt hs]
      have hnn (off : Nat) : ¬ HasProp a path (tokens name.bytes).reverse off := by
        rw [← hg.hasProp_iff, ← hpa, hI₁.hasProp_iff hbt]
        rintro ⟨h, hne⟩
        exact hne (h.symm.trans hp)
      obtain ⟨a₂, result, hin, hsa, hh⟩ :=
        newPropInfo_spec hI₁.arena (hlen hn) (hlen (lt_of_succ_lt hv)) (by rwa [hlen (lt_of_succ_lt hv)])
      have hI₂ := hsa.inv hI₁
      have hg₂ := hg.trans (hsa.grow hI₁)
      have hbt₂ : a₂.bt? current = some bt := by rw [hsa.bt?_eq hI₁.arena, hbt]
      simp only [hin]
      cases result with
      | none => exact ⟨a₂, none, path₁, rfl, hI₂, hg₂.other, .failed fun p off => hg₂.hasProp_iff⟩
      | some off =>
        obtain ⟨rfl, hh⟩ := hh off rfl
        have hst := hI₁.arena.start
        have hne : a₁.bytesUsed ≠ 0 := by
          unfold sizeofPropBt at hst
          omega
        obtain ⟨info, hd, hi, -⟩ := id hh
        refine ⟨_, _, path₁, rfl, hI₂.setProp hbt₂ hd (by rw [hi, hpa, reverse_reverse]), ?_,
          .created _ ?_ hnn (hh.setProp hbt₂) fun p off' => ?_⟩
        · intro o x hx hxbt
          have hx₂ := hg₂.other o x hx hxbt
          rw [data_write, if_neg ?_, hx₂]
          rintro rfl
          rw [bt?_congr (hx₂.trans hx.symm), hxbt] at hbt₂
          cases hbt₂
        · exact hg.data_bytesUsed hI₁
        · rw [hasProp_setProp_iff hbt₂ hp hne, hg₂.hasProp_iff, hpa]

open Lib (strncmp strchr strchr_eq_none_iff)

structure Call where
  name : CString
  value : CString
  deriving DecidableEq

/-- A call of `add` that has returned: the area it was made on, and the property it returned, if not null. -/
structure Entry where
  before : PropArea
  call : Call
  result : Option Nat

structure Run where
  area : PropArea
  log : List Entry

def Run.start : Run := ⟨fresh, []⟩

variable (r : Run) {n : Nat} (name : CString)

def Run.add (c : Call) : Option Run := do
  let (area, result) ← r.area.add c.name c.value
  return ⟨area, r.log ++ [⟨r.area, c, result⟩]⟩

def Run.addAll (calls : List Call) : Option Run := calls.foldlM Run.add r

@[simp] def Entry.added? (e : Entry) : Option (Entry × Nat) :=
  if e.call.name = name then e.result.map fun off => (e, off) else none

def Run.firstAdded : Option (Entry × Nat) := r.log.findSome? (Entry.added? name)

/-- Names and values whose lengths the `uint32_t` and `unsigned int` of the interface hold, with the value's NUL. -/
structure Call.Fits (c : Call) : Prop where
  name : c.name.bytes.length < 2 ^ 32
  value : c.value.bytes.length + 1 < 2 ^ 32

theorem fresh_inv : Inv fresh (fun _ => []) := by
  have hbt (o : Nat) (bt : PropBt) : fresh.bt? o = some bt ↔ o = 0 ∧ bt = ⟨0, 0, 0, 0, 0, []⟩ := by
    rw [bt?_eq_some_iff, data_fresh]
    split
    · rename_i ho
      simp [ho, eq_comm]
    · rename_i ho
      simp [ho]
  refine ⟨fresh_arena, .single cmpToken (n := .leaf []) ?_ (Node.link_leaf _) fun o ho => ?_, fun o bt h => ?_, fun o bt h ho => ?_,
    fun o bt h hne => ?_⟩
  · exact heap_of_bt? ((hbt 0 _).2 ⟨rfl, rfl⟩)
  · cases h : fresh.heap o with
    | none => rfl
    | some n =>
      obtain ⟨bt, hb, -⟩ := heap_eq_some h
      exact absurd ((hbt o bt).1 hb).1 ho
  · rw [((hbt o bt).1 h).2]
    rfl
  · exact absurd ((hbt o bt).1 h).1 ho
  · exact absurd (by rw [((hbt o bt).1 h).2]) hne

/-- The properties of the area are those of the first successful calls, and each is as its call made it. -/
structure Run.Inv (r : Run) (path : Nat → Path) : Prop where
  area : PropArea.Inv r.area path
  props : ∀ name off, HasProp r.area path (tokens name.bytes).reverse off ↔
    (r.firstAdded name).map Prod.snd = some off
  made : ∀ name e off, r.firstAdded name = some (e, off) →
    e.call.name = name ∧ e.before.data off = none ∧ Holds r.area off name.bytes e.call.value.bytes
  named : ∀ p off, HasProp r.area path p off → ∃ name : CString, p = (tokens name.bytes).reverse

theorem Run.start_inv : Run.Inv .start (fun _ => []) := by
  have hn (p : Path) (off : Nat) : ¬ HasProp fresh (fun _ => []) p off := by
    rintro ⟨o, bt, hbt, -, hp, hne⟩
    obtain ⟨info, -, ht⟩ := fresh_inv.prop o bt hbt (hp ▸ hne)
    exact splitOn_ne_nil _ _ ht
  refine ⟨fresh_inv, fun name off => ?_, fun name e off h => ?_, fun p off h => absurd h (hn p off)⟩
  · exact iff_of_false (hn _ off) (by simp [Run.start, Run.firstAdded])
  · simp [Run.start, Run.firstAdded] at h

theorem path_injective {s t : CString} (h : (tokens s.bytes).reverse = (tokens t.bytes).reverse) : s = t := by
  have hb := tokens_injective (reverse_injective h)
  cases s
  cases t
  cases hb
  rfl

theorem Run.firstAdded_snoc (area : PropArea) (e : Entry) (name : CString) :
    Run.firstAdded ⟨area, r.log ++ [e]⟩ name = (r.firstAdded name).or (e.added? name) := by
  simp only [Run.firstAdded, findSome?_append, findSome?_cons]
  cases e.added? name <;> rfl

theorem Run.Inv.add {r : Run} (h : r.Inv path) {c : Call} (hc : c.Fits) :
    ∃ r' path', r.add c = some r' ∧ Run.Inv r' path' ∧ ∃ e, r'.log = r.log ++ [e] ∧ e.call = c := by
  obtain ⟨a', result, path', hadd, hI', hk, hout⟩ := add_spec h.area hc.name hc.value
  refine ⟨_, path', by rw [Run.add, hadd]; rfl, ?_, _, rfl, rfl⟩
  have hm (name : CString) (e : Entry) (off : Nat) (he : r.firstAdded name = some (e, off)) :
      e.call.name = name ∧ e.before.data off = none ∧ Holds a' off name.bytes e.call.value.bytes := by
    obtain ⟨hn, hb, hh⟩ := h.made name e off he
    exact ⟨hn, hb, hh.keep hk⟩
  -- Neither a failed call nor one that finds the property changes what was added first.
  have hsame {e : Entry} (hs : ∀ p off, HasProp a' path' p off ↔ HasProp r.area path p off)
      (hf : ∀ name, Run.firstAdded ⟨a', r.log ++ [e]⟩ name = r.firstAdded name) : Run.Inv ⟨a', r.log ++ [e]⟩ path' := by
    refine ⟨hI', fun name off => ?_, fun name e off he => hm name e off (hf name ▸ he),
      fun p off hp => h.named p off ((hs p off).1 hp)⟩
    rw [hf, hs, h.props]
  cases hout with
  | failed hs =>
    refine hsame hs fun name => ?_
    rw [Run.firstAdded_snoc]
    simp
  | present off hs hpo =>
    refine hsame hs fun name => ?_
    rw [Run.firstAdded_snoc]
    by_cases hn : c.name = name
    · have := (h.props name off).1 (hn ▸ hpo)
      cases hr : r.firstAdded name with
      | none => simp [hr] at this
      | some x => rfl
    · simp [hn]
  | created off hfr hno hh hpr =>
    have ho {name : CString} (hn : c.name ≠ name) :
        Run.firstAdded ⟨a', r.log ++ [⟨r.area, c, some off⟩]⟩ name = r.firstAdded name := by
      rw [Run.firstAdded_snoc]
      simp [hn]
    have hse : Run.firstAdded ⟨a', r.log ++ [⟨r.area, c, some off⟩]⟩ c.name =
        some (⟨r.area, c, some off⟩, off) := by
      rw [Run.firstAdded_snoc]
      cases hr : r.firstAdded c.name with
      | none => simp
      | some x => exact absurd ((h.props c.name x.2).2 (by rw [hr]; rfl)) (hno x.2)
    refine ⟨hI', fun name off' => ?_, fun name e off' he => ?_, fun p off' hp => ?_⟩
    · rw [hpr]
      by_cases hn : c.name = name
      · subst hn
        rw [hse]
        simp [hno, eq_comm]
      · rw [ho hn, h.props]
        refine or_iff_left ?_
        rintro ⟨hpa, -⟩
        exact hn (path_injective hpa).symm
    · by_cases hn : c.name = name
      · subst hn
        rw [hse] at he
        cases he
        exact ⟨rfl, hfr, hh⟩
      · exact hm name e off' (ho hn ▸ he)
    · rcases (hpr p off').1 hp with hp | ⟨rfl, -⟩
      · exact h.named p off' hp
      · exact ⟨c.name, rfl⟩

theorem Run.Inv.addAll {r : Run} (h : r.Inv path) {calls : List Call} (hca : ∀ c ∈ calls, c.Fits) :
    ∃ r' path', r.addAll calls = some r' ∧ Run.Inv r' path' ∧
      r'.log.map Entry.call = r.log.map Entry.call ++ calls := by
  induction calls generalizing r path with
  | nil => exact ⟨r, path, rfl, h, by simp⟩
  | cons c calls ih =>
    obtain ⟨r₁, path₁, hadd, h₁, e, hlog, he⟩ := h.add (hca c mem_cons_self)
    obtain ⟨r', path', hall, h', hca'⟩ := ih h₁ fun c hc => hca c (mem_cons_of_mem _ hc)
    refine ⟨r', path', ?_, h', ?_⟩
    · rw [Run.addAll, foldlM_cons, hadd]
      exact hall
    · rw [hca', hlog, map_append, map_singleton, he, append_assoc, singleton_append]

/-- After any calls of `add` on a fresh area, `find` returns for a name the property that the first successful
call for it made, and null for a name without one. -/
theorem find_returns_first_added (calls : List Call) (hcalls : ∀ c ∈ calls, c.Fits) :
    ∃ r, Run.addAll .start calls = some r ∧ r.log.map Entry.call = calls ∧
      ∀ name : CString, name.bytes.length < 2 ^ 32 →
        r.area.find name = some ((r.firstAdded name).map Prod.snd) ∧
        ∀ e off, r.firstAdded name = some (e, off) →
          e.call.name = name ∧ e.before.data off = none ∧ Holds r.area off name.bytes e.call.value.bytes := by
  obtain ⟨r, path, hrun, hI, hlog⟩ := Run.start_inv.addAll hcalls
  refine ⟨r, hrun, hlog, fun name hn => ⟨?_, hI.made name⟩⟩
  obtain ⟨result, hf, hr⟩ := find_spec hI.area hn
  rw [hf, Option.some.injEq]
  refine Option.ext fun off => ?_
  rw [hr, hI.props]

theorem Run.addAll_data {r r' : Run} (h : PropArea.Inv r.area path) {calls : List Call} (hca : ∀ c ∈ calls, c.Fits)
    (hr : r.addAll calls = some r') {o : Nat} {x : Obj} (hx : r.area.data o = some x) (hb : r.area.bt? o = none) :
    r'.area.data o = some x := by
  induction calls generalizing r path with
  | nil =>
    cases hr
    exact hx
  | cons c calls ih =>
    obtain ⟨hc, hca⟩ := forall_mem_cons.1 hca
    obtain ⟨a', result, path', ha, h', hk, -⟩ := add_spec h hc.name hc.value
    rw [Run.addAll, foldlM_cons, Run.add, ha] at hr
    have hx' := hk o x hx hb
    exact ih (r := ⟨a', _⟩) h' hca hr hx' ((bt?_congr (hx'.trans hx.symm)).trans hb)

/-- Objects stay apart and inside the area, and no call changes a property that an earlier call made. -/
theorem add_keeps_objects (calls more : List Call) (hcalls : ∀ c ∈ calls ++ more, c.Fits) :
    ∃ r r', Run.addAll .start calls = some r ∧ r.addAll more = some r' ∧ Arena r'.area ∧
      ∀ o x, r.area.data o = some x → r.area.bt? o = none → r'.area.data o = some x := by
  obtain ⟨hc, hm⟩ := forall_mem_append.1 hcalls
  obtain ⟨r, path, hr, h, -⟩ := Run.start_inv.addAll hc
  obtain ⟨r', path', hr', h', -⟩ := h.addAll hm
  exact ⟨r, r', hr, hr', h'.area.arena, fun o x hx hb => Run.addAll_data h.area hm hr' hx hb⟩

theorem ne_nul : (∀ b ∈ [(97 : UInt8)], b ≠ 0) ∧ ∀ b ∈ [(118 : UInt8)], b ≠ 0 := by simp

def shortCall : Call := ⟨⟨[97], ne_nul.1⟩, ⟨[118], ne_nul.2⟩⟩

def longCall : Call := ⟨⟨[97, 46, 98], by simp⟩, ⟨replicate 92 118, by simp⟩⟩

theorem add_keeps_objects_long : ∃ r r', Run.addAll .start [shortCall] = some r ∧ r.addAll [longCall] = some r' ∧
    Arena r'.area ∧ ∀ o x, r.area.data o = some x → r.area.bt? o = none → r'.area.data o = some x :=
  add_keeps_objects _ _ (forall_mem_cons.2 ⟨⟨by decide, by decide⟩, forall_mem_singleton.2 ⟨by decide, by decide⟩⟩)

theorem find_returns_first_added_long :
    (∀ c ∈ [shortCall, longCall, shortCall], c.Fits) ∧
      ∃ r, Run.addAll .start [shortCall, longCall, shortCall] = some r ∧
        r.log.map Entry.call = [shortCall, longCall, shortCall] ∧
        ∀ name : CString, name.bytes.length < 2 ^ 32 →
          r.area.find name = some ((r.firstAdded name).map Prod.snd) ∧
          ∀ e off, r.firstAdded name = some (e, off) →
            e.call.name = name ∧ e.before.data off = none ∧ Holds r.area off name.bytes e.call.value.bytes := by
  have hf : ∀ c ∈ [shortCall, longCall, shortCall], c.Fits := by
    simp only [mem_cons, not_mem_nil, or_false, forall_eq_or_imp, forall_eq]
    exact ⟨⟨by decide, by decide⟩, ⟨by decide, by decide⟩, ⟨by decide, by decide⟩⟩
  exact ⟨hf, find_returns_first_added _ hf⟩

def repeatedName (n : Nat) : CString where
  bytes := replicate n 97
  nulFree b hb := by
    rw [eq_of_mem_replicate hb]
    decide

theorem findProperty_repeatedName (hr : a.bt? 0 = some ⟨0, 0, 0, 0, 112, []⟩)
    (hno : a.bt? 112 = some ⟨1, 136, 0, 0, 0, [97]⟩) (hn : UInt32.ofNat (n + 1) = 1)
    (namelen : UInt32) (value : List UInt8) (valuelen : UInt32) (allocIfNeeded : Bool) :
    a.findProperty (repeatedName (n + 1)).bytes namelen value valuelen allocIfNeeded = some (a, some 136) := by
  have hsep : strchr (replicate (n + 1) 97) 46 = none := by
    rw [strchr_eq_none_iff, mem_replicate]
    exact fun h => absurd h.2 (by decide)
  have hcmp : cmpPropName (replicate (n + 1) 97) 1 [97] 1 = 0 := by
    rw [replicate_succ, cmpPropName, if_neg (by decide), if_neg (by decide), UInt32.toNat_one, strncmp,
      if_pos rfl, strncmp]
  have hbt : findPropBt (replicate (n + 1) 97) 1 allocIfNeeded loopFuel a (some 112) =
      some (a, some 112) := by
    simp [loopFuel, findPropBt, hno, hcmp]
  have hnd : findNode allocIfNeeded (n + 1 + 1) a 0 (replicate (n + 1) 97) = some (a, some 112) := by
    have hobj : toPropObj 112 = some 112 := by decide
    simp [findNode, hsep, hn, hr, childrenRoot, hobj, hbt]
  have hobj : toPropObj 136 = some 136 := by decide
  simp [findProperty, repeatedName, hnd, hno, hobj]

theorem repeatedName_ne_shortCall (hne : n ≠ 0) : repeatedName (n + 1) ≠ shortCall.name := by
  intro h
  have hlen : shortCall.name.bytes.length = n + 1 := by
    rw [← h, repeatedName, length_replicate]
  exact hne (Nat.succ.inj hlen).symm

theorem find_of_repeatedName (hn : UInt32.ofNat (n + 1) = 1) (hne : n ≠ 0) :
    ∃ r, Run.addAll .start [shortCall] = some r ∧
      ∃ name : CString, r.firstAdded name = none ∧ r.area.find name = some (some 136) := by
  refine ⟨_, rfl, repeatedName (n + 1), ?_, ?_⟩
  · simp [Run.firstAdded, Run.start, (repeatedName_ne_shortCall hne).symm]
  · rw [find, findProperty_repeatedName (by decide +kernel) (by decide +kernel) hn]
    rfl

/-- A name of 4 GiB and a byte that was never added is found. -/
theorem find_returns_property_never_added :
    ∃ r, Run.addAll .start [shortCall] = some r ∧
      ∃ name : CString, r.firstAdded name = none ∧ r.area.find name = some (some 136) :=
  @find_of_repeatedName 4294967296 (by decide) (by decide)

end Bionic.Properties.PropArea
