import Bionic.Lib.TrieTraversal
import Bionic.Properties.PropRuns

namespace Bionic.Properties.PropArea

open Lib (CString)
open Lib.LinkedTrie List Option

variable {a : PropArea} {path : Nat → Path} {off : Nat}

def propAt (a : PropArea) (o : Nat) : Option Nat :=
  (a.bt? o).bind fun bt => if bt.prop ≠ 0 then some bt.prop else none

theorem propAt_eq_some_iff {o : Nat} : a.propAt o = some off ↔ ∃ bt, a.bt? o = some bt ∧ bt.prop = off ∧ off ≠ 0 := by
  rw [propAt, bind_eq_some_iff]
  refine exists_congr fun bt => and_congr_right fun _ => ?_
  rw [ite_none_right_eq_some, some.injEq]
  constructor
  · rintro ⟨hne, rfl⟩
    exact ⟨rfl, hne⟩
  · rintro ⟨rfl, hne⟩
    exact ⟨hne, rfl⟩

section Walk

variable (hI : Inv a path)
include hI

section

variable {o : Nat} {bt : PropBt} (hbt : a.bt? o = some bt)
include hbt

theorem walkLink_eq {walk : Option Nat → List Nat → Option (Bool × List Nat)} {f : Nat → List Nat} (s : Slot)
    (hw : ∀ o' bt', o < o' → a.bt? o' = some bt' → ∀ visited,
      walk (some o') visited = some (true, visited ++ (f o').filterMap a.propAt)) (visited : List Nat) :
    walkLink walk (bt.link s) visited =
      some (true, visited ++ (atLink f (bt.link s)).filterMap a.propAt) := by
  unfold walkLink atLink
  by_cases hs : bt.link s = 0
  · simp [hs]
  · obtain ⟨hobj, hlt, bt', hbt'⟩ := hI.toPropObj_link hbt hs
    rw [if_pos hs, if_pos hs, hobj, hw _ bt' hlt hbt']

theorem visitProp_eq (visited : List Nat) : visitProp bt.prop visited = some (visited ++ (a.propAt o).toList) := by
  rw [visitProp, propAt, hbt, bind_some]
  by_cases hne : bt.prop = 0
  · simp [hne]
  · rw [if_pos hne, if_pos hne, hI.toPropObj_prop hbt hne]
    rfl

theorem foreachProperty_eq {fuel : Nat} (hf : a.bytesUsed ≤ o + fuel) (visited : List Nat) :
    a.foreachProperty fuel (some o) visited =
      some (true, visited ++ (visit a.heap fuel o).filterMap a.propAt) := by
  induction fuel generalizing o bt visited with
  | zero =>
    have := hI.lt_of_bt? hbt
    omega
  | succ fuel ih =>
    have hw (o' : Nat) (bt' : PropBt) (hlt : o < o') (hbt' : a.bt? o' = some bt') (visited : List Nat) :
        a.foreachProperty fuel (some o') visited =
          some (true, visited ++ (visit a.heap fuel o').filterMap a.propAt) :=
      ih hbt' (by omega) visited
    have hl : ∀ visited, walkLink (a.foreachProperty fuel) bt.left visited =
        some (true, visited ++ (atLink (visit a.heap fuel) bt.left).filterMap a.propAt) :=
      walkLink_eq hI hbt .left hw
    have hc : ∀ visited, walkLink (a.foreachProperty fuel) bt.children visited =
        some (true, visited ++ (atLink (visit a.heap fuel) bt.children).filterMap a.propAt) :=
      walkLink_eq hI hbt .children hw
    have hr : ∀ visited, walkLink (a.foreachProperty fuel) bt.right visited =
        some (true, visited ++ (atLink (visit a.heap fuel) bt.right).filterMap a.propAt) :=
      walkLink_eq hI hbt .right hw
    have hv : visit a.heap (fuel + 1) o = atLink (visit a.heap fuel) bt.left ++
        o :: (atLink (visit a.heap fuel) bt.children ++ atLink (visit a.heap fuel) bt.right) := by
      rw [visit, heap_of_bt? hbt]
      rfl
    have herr : ¬ err true < 0 := by decide
    simp only [foreachProperty, hbt, bind, bind_some, hl, hc, hr,
      visitProp_eq hI hbt, if_neg herr]
    rw [hv, filterMap_append, ← singleton_append, filterMap_append, filterMap_append]
    cases hp : a.propAt o with
    | none => simp [hp]
    | some off => simp [hp]

end

theorem foreach_eq : a.foreach = some (true, (visit a.heap loopFuel 0).filterMap a.propAt) := by
  obtain ⟨bt, hbt⟩ := hI.root
  have hle := hI.arena.bounded
  rw [foreach, foreachProperty_eq hI hbt (by rw [loopFuel]; omega), nil_append]

theorem heap_lt_bytesUsed (o : Nat) (n : Node (List UInt8)) (hn : a.heap o = some n) : o < a.bytesUsed := by
  obtain ⟨bt, hbt, -⟩ := heap_eq_some hn
  exact hI.lt_of_bt? hbt

theorem bytesUsed_le_loopFuel : a.bytesUsed ≤ 0 + loopFuel := by
  have hle := hI.arena.bounded
  rw [loopFuel]
  omega

theorem mem_visited_iff (off : Nat) :
    off ∈ (visit a.heap loopFuel 0).filterMap a.propAt ↔ ∃ p, HasProp a path p off := by
  obtain ⟨bt₀, hbt₀⟩ := hI.root
  simp only [mem_filterMap, propAt_eq_some_iff,
    hI.shape.mem_visit (heap_lt_bytesUsed hI) (heap_of_bt? hbt₀) (bytesUsed_le_loopFuel hI)]
  constructor
  · rintro ⟨o, -, bt, hbt, hp, hne⟩
    exact ⟨path o, o, bt, hbt, rfl, hp, hne⟩
  · rintro ⟨p, o, bt, hbt, -, hp, hne⟩
    exact ⟨o, hI.shape.below_root (heap_of_bt? hbt), bt, hbt, hp, hne⟩

theorem HasProp.path_eq {p p' : Path} (h : HasProp a path p off) (h' : HasProp a path p' off) : p = p' := by
  obtain ⟨o, bt, hbt, rfl, rfl, hne⟩ := h
  obtain ⟨o', bt', hbt', rfl, hp, -⟩ := h'
  obtain ⟨info, hi, ht⟩ := hI.prop o bt hbt hne
  obtain ⟨info', hi', ht'⟩ := hI.prop o' bt' hbt' (hp ▸ hne)
  rw [hp, hi, some.injEq, Obj.info.injEq] at hi'
  rw [← hi', ht] at ht'
  exact reverse_injective ht'

theorem nodup_visited : ((visit a.heap loopFuel 0).filterMap a.propAt).Nodup := by
  obtain ⟨bt₀, hbt₀⟩ := hI.root
  refine Nodup.filterMap (fun o o' off h h' => ?_)
    (hI.shape.nodup_visit (heap_lt_bytesUsed hI) (heap_of_bt? hbt₀) (bytesUsed_le_loopFuel hI))
  obtain ⟨bt, hbt, hp, hne⟩ := propAt_eq_some_iff.1 h
  obtain ⟨bt', hbt', hp', -⟩ := propAt_eq_some_iff.1 h'
  refine hI.shape.path_injective cmpToken_eq_zero_iff (heap_of_bt? hbt) (heap_of_bt? hbt') ?_
  exact HasProp.path_eq hI ⟨o, bt, hbt, rfl, hp, hne⟩ ⟨o', bt', hbt', rfl, hp', hne⟩

end Walk

theorem Run.mem_of_firstAdded {r : Run} {name : CString}
    (h : (r.firstAdded name).map Prod.snd = some off) : ∃ e ∈ r.log, e.call.name = name := by
  obtain ⟨x, hx, -⟩ := map_eq_some_iff.1 h
  obtain ⟨e, he, ha⟩ := exists_of_findSome?_eq_some hx
  refine ⟨e, he, ?_⟩
  unfold Entry.added? at ha
  split at ha
  · assumption
  · cases ha

/-- After any calls of `add` on a fresh area, `foreach` calls `propfn` exactly once for each name a call has
succeeded for, which is once for each property `find` returns. -/
theorem foreach_visits_each_name_once (calls : List Call) (hcalls : ∀ c ∈ calls, c.Fits) :
    ∃ r visited, Run.addAll .start calls = some r ∧ r.area.foreach = some (true, visited) ∧
      (∀ name off, (r.firstAdded name).map Prod.snd = some off → visited.count off = 1) ∧
      (∀ off ∈ visited, ∃! name, (r.firstAdded name).map Prod.snd = some off) ∧
      visited.Nodup ∧
      ∀ off, off ∈ visited ↔ ∃ name : CString, name.bytes.length < 2 ^ 32 ∧ r.area.find name = some (some off) := by
  obtain ⟨r, path, hrun, hI, hlog⟩ := Run.start_inv.addAll hcalls
  have hno := nodup_visited hI.area
  have hmem (off : Nat) := mem_visited_iff hI.area off
  have hn (off : Nat) : (∃ p, HasProp r.area path p off) ↔
      ∃ name, (r.firstAdded name).map Prod.snd = some off := by
    constructor
    · rintro ⟨p, hp⟩
      obtain ⟨name, rfl⟩ := hI.named p off hp
      exact ⟨name, (hI.props name off).1 hp⟩
    · rintro ⟨name, h⟩
      exact ⟨_, (hI.props name off).2 h⟩
  refine ⟨r, _, hrun, foreach_eq hI.area, fun name off h => ?_, fun off h => ?_, hno, fun off => ?_⟩
  · exact count_eq_one_of_mem hno ((hmem off).2 ((hn off).2 ⟨name, h⟩))
  · obtain ⟨name, h⟩ := (hn off).1 ((hmem off).1 h)
    refine ⟨name, h, fun name' h' => path_injective ?_⟩
    exact HasProp.path_eq hI.area ((hI.props name' off).2 h') ((hI.props name off).2 h)
  · have hf {name : CString} (hlen : name.bytes.length < 2 ^ 32) :
        r.area.find name = some (some off) ↔ (r.firstAdded name).map Prod.snd = some off := by
      obtain ⟨result, hf, hr⟩ := find_spec hI.area hlen
      rw [hf, some.injEq, hr, hI.props]
    rw [hmem, hn]
    constructor
    · rintro ⟨name, h⟩
      have hlen : name.bytes.length < 2 ^ 32 := by
        obtain ⟨e, he, rfl⟩ := Run.mem_of_firstAdded h
        have hc : e.call ∈ calls := by
          have := mem_map_of_mem (f := Entry.call) he
          rwa [hlog] at this
        exact (hcalls _ hc).name
      exact ⟨name, hlen, (hf hlen).2 h⟩
    · rintro ⟨name, hlen, h⟩
      exact ⟨name, (hf hlen).1 h⟩

theorem foreach_visits_each_name_once_nested :
    (∀ c ∈ [longCall, shortCall, longCall], c.Fits) ∧
      ∃ r visited, Run.addAll .start [longCall, shortCall, longCall] = some r ∧
        r.area.foreach = some (true, visited) ∧
        (∀ name off, (r.firstAdded name).map Prod.snd = some off → visited.count off = 1) ∧
        (∀ off ∈ visited, ∃! name, (r.firstAdded name).map Prod.snd = some off) ∧
        visited.Nodup ∧
        ∀ off, off ∈ visited ↔
          ∃ name : CString, name.bytes.length < 2 ^ 32 ∧ r.area.find name = some (some off) := by
  have hf : ∀ c ∈ [longCall, shortCall, longCall], c.Fits := by
    simp only [mem_cons, not_mem_nil, or_false, forall_eq_or_imp, forall_eq]
    exact ⟨⟨by decide, by decide⟩, ⟨by decide, by decide⟩, ⟨by decide, by decide⟩⟩
  exact ⟨hf, foreach_visits_each_name_once _ hf⟩

theorem foreach_after_repeatedName {n : Nat} (hn : UInt32.ofNat (n + 1) = 1) (hne : n ≠ 0) :
    ∃ r name, Run.addAll .start [shortCall, ⟨name, shortCall.value⟩] = some r ∧ name ≠ shortCall.name ∧
      (r.firstAdded shortCall.name).map Prod.snd = some 136 ∧ (r.firstAdded name).map Prod.snd = some 136 ∧
      r.area.foreach = some (true, [136]) := by
  obtain ⟨r, hr, hro, hno, hlog, hf⟩ : ∃ r, Run.add .start shortCall = some r ∧
      r.area.bt? 0 = some ⟨0, 0, 0, 0, 112, []⟩ ∧ r.area.bt? 112 = some ⟨1, 136, 0, 0, 0, [97]⟩ ∧
      r.log = [⟨fresh, shortCall, some 136⟩] ∧ r.area.foreach = some (true, [136]) :=
    ⟨_, rfl, by decide +kernel, by decide +kernel, rfl, by decide +kernel⟩
  let e : Entry := ⟨r.area, ⟨repeatedName (n + 1), shortCall.value⟩, some 136⟩
  have hadd : r.add e.call = some ⟨r.area, r.log ++ [e]⟩ := by
    rw [Run.add, PropArea.add, findProperty_repeatedName hro hno hn]
    rfl
  have hna := repeatedName_ne_shortCall hne
  refine ⟨⟨r.area, r.log ++ [e]⟩, repeatedName (n + 1), ?_, hna, ?_, ?_, hf⟩
  · simp only [Run.addAll, foldlM_cons, foldlM_nil, hr, bind, bind_some]
    rw [hadd]
    rfl
  · simp [Run.firstAdded, hlog]
  · simp [Run.firstAdded, hlog, e, hna.symm]

/-- The names "a" and "aa…a" of 4 GiB and a byte are both added, and `foreach` calls `propfn` once. -/
theorem foreach_visits_once_for_two_names :
    ∃ r name, Run.addAll .start [shortCall, ⟨name, shortCall.value⟩] = some r ∧ name ≠ shortCall.name ∧
      (r.firstAdded shortCall.name).map Prod.snd = some 136 ∧ (r.firstAdded name).map Prod.snd = some 136 ∧
      r.area.foreach = some (true, [136]) :=
  @foreach_after_repeatedName 4294967296 (by decide) (by decide)

end Bionic.Properties.PropArea
