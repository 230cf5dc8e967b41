import Bionic.Linker.HashLookup

namespace Bionic.Linker

open List Option SymbolLookupLib

open Lib (CString stringAt)

section Search

variable {si : Soinfo} {t : GnuHash} {name : CString} {vi : Option VersionInfo}

variable {lib : SymbolLookupLib} {verneed : UInt16} {calculated : Bool}

theorem calculateVerneed_eq (hlib : lib.si = some si) (hn : si.findVerdefVersionIndex vi = some (si.neededVersion vi))
    (hs : (vi.isSome && !calculated) = false → verneed = si.neededVersion vi) :
    ∃ calculated', lib.calculateVerneed vi verneed calculated = some (si.neededVersion vi, calculated') ∧
      (vi.isSome && !calculated') = false := by
  unfold calculateVerneed
  cases hc : vi.isSome && !calculated with
  | true => exact ⟨true, by simp [hlib, hn], by simp⟩
  | false => exact ⟨calculated, by simp [hs hc], hc⟩

theorem searchChain_eq_walk (hlib : lib.si = some si)
    (hn : si.findVerdefVersionIndex vi = some (si.neededVersion vi)) (hash nameLen : UInt32) (hs : (vi.isSome && !calculated) = false → verneed = si.neededVersion vi)
    (chain : List UInt32) (n : UInt32) :
    lib.searchChain name hash nameLen vi chain n verneed calculated =
      GnuHash.walk (fun c => c >>> 1 = hash >>> 1) (lib.checkSymbol name nameLen (si.neededVersion vi)) chain n := by
  induction chain generalizing n verneed calculated with
  | nil => rfl
  | cons c chain ih =>
    rw [searchChain, GnuHash.walk]
    by_cases hsa : c >>> 1 = hash >>> 1
    · obtain ⟨calculated', hc, hs'⟩ := calculateVerneed_eq hlib hn hs
      simp only [hsa, if_true, decide_true, hc, bind, bind_some, ih fun _ => rfl]
    · simp only [hsa, if_false, decide_false, ih hs]
      rfl

theorem search_finds (hwf : si.WellFormed) (hgnu : si.gnu = some t) (hvi : ∀ v, vi = some v → v.WellFormed)
    (hname : name.bytes.length + 1 < 2 ^ 32) :
    ∃ r, si.getLookupLib.search name (gnuHash name.bytes) (UInt32.ofNat name.bytes.length) vi = some r ∧
      si.Finds name vi r := by
  have hlib : si.getLookupLib = ⟨some t, si.strtab, si.symtab, si.versym, some si⟩ := by
    rw [Soinfo.getLookupLib, hgnu]
  have hsi : si.getLookupLib.si = some si := by rw [hlib]
  have ht : si.getLookupLib.gnu = some t := by rw [hlib]
  unfold search
  rw [ht]
  rcases (hwf.gnuHash hgnu).bloom_bucket name vi with ⟨hb, hno⟩ | ⟨hb, n, hn, hz⟩
  · exact ⟨none, by simp [hb], hno⟩
  by_cases h0 : n = 0
  · exact ⟨none, by simp [hb, hn, h0], hz h0⟩
  obtain ⟨r, hr, hf⟩ := GnuHash.walk_finds hwf hgnu (fun c => c >>> 1 = gnuHash name.bytes >>> 1)
    (fun c => decide_eq_true_iff)
    (fun i hi => checkSymbol_spec vi hgnu hwf hname hi) hn h0
  refine ⟨r, ?_, hf⟩
  have hne := findVerdefVersionIndex_eq_neededVersion hwf hvi
  have hs : (vi.isSome && !false) = false → kVersymNotNeeded = si.neededVersion vi := by
    cases vi with
    | none => exact fun _ => rfl
    | some v => simp
  simp [hb, hn, h0, searchChain_eq_walk hsi hne _ _ hs, hr]

end Search

/-- The first library in the order with such a symbol, and a symbol of it; nothing if there is none. -/
def FirstProvider (order : List Soinfo) (name : CString) (vi : Option VersionInfo) : Option (Soinfo × UInt32) → Prop
  | some (si, i) => ∃ before after, order = before ++ si :: after ∧ si.Provides name vi i ∧
      ∀ si' ∈ before, ∀ j, ¬ si'.Provides name vi j
  | none => ∀ si ∈ order, ∀ j, ¬ si.Provides name vi j

theorem getLookupLib_si (si : Soinfo) : si.getLookupLib.si = some si := by
  unfold Soinfo.getLookupLib
  split <;> rfl

theorem needsSysvLookup_getLookupLib (si : Soinfo) : si.getLookupLib.needsSysvLookup = si.gnu.isNone := by
  unfold needsSysvLookup Soinfo.getLookupLib
  split <;> simp [*, empty]

section Impl

variable {isGeneral : Bool} {name : CString} {vi : Option VersionInfo} (hvi : ∀ v, vi = some v → v.WellFormed)
  (hname : name.bytes.length + 1 < 2 ^ 32)
include hvi hname

theorem lookup_finds {si : Soinfo} (hwf : si.WellFormed) (hf : isGeneral = false → si.gnu.isSome) :
    ∃ r, si.getLookupLib.lookup isGeneral name vi si = some r ∧ si.Finds name vi r := by
  unfold SymbolLookupLib.lookup calculateGnuHash
  dsimp only
  rw [needsSysvLookup_getLookupLib]
  split
  · exact findSymbolByName_finds hwf hvi
  · rename_i hs
    have hgnu : si.gnu.isSome := by
      cases isGeneral with
      | false => exact hf rfl
      | true => simpa [isSome_iff_ne_none] using hs
    obtain ⟨t, ht⟩ := isSome_iff_exists.1 hgnu
    exact search_finds hwf ht hvi hname

theorem soinfoDoLookupImpl_finds {order : List Soinfo} (hwf : ∀ si ∈ order, si.WellFormed)
    (hfa : isGeneral = false → ∀ si ∈ order, si.gnu.isSome) :
    ∃ r, soinfoDoLookupImpl isGeneral name vi (order.map Soinfo.getLookupLib) = some r ∧
      FirstProvider order name vi r := by
  induction order with
  | nil => exact ⟨none, rfl, by simp [FirstProvider]⟩
  | cons si order ih =>
    obtain ⟨hsi, hwf⟩ := forall_mem_cons.1 hwf
    obtain ⟨found, hfo, hf⟩ := lookup_finds hvi hname hsi fun h => hfa h si mem_cons_self
    simp only [map_cons, soinfoDoLookupImpl, getLookupLib_si, bind, bind_some, hfo]
    cases found with
    | some i => exact ⟨some (si, i), rfl, [], order, rfl, hf, by simp⟩
    | none =>
      obtain ⟨r, hr, hfi⟩ := ih hwf fun h si' hsi' => hfa h si' (mem_cons_of_mem _ hsi')
      refine ⟨r, hr, ?_⟩
      cases r with
      | none => exact forall_mem_cons.2 ⟨hf, hfi⟩
      | some x =>
        obtain ⟨before, after, rfl, hp, hb⟩ := hfi
        exact ⟨si :: before, after, rfl, hp, forall_mem_cons.2 ⟨hf, hb⟩⟩

end Impl

/-- A lookup list, with the `DT_SYMBOLIC` library set last and the libraries it was constructed with. -/
inductive SymbolLookupList.Built : SymbolLookupList → Option Soinfo → List Soinfo → Prop where
  | ofSoinfo (tracing : Bool) (si : Soinfo) : Built (.ofSoinfo tracing si) none [si]
  | ofGroups (tracing : Bool) (globalGroup localGroup : List Soinfo) :
      Built (.ofGroups tracing globalGroup localGroup) none (globalGroup ++ localGroup)
  | setDtSymbolicLib {list list' : SymbolLookupList} {symbolic : Option Soinfo} {libs : List Soinfo}
      (lib : Option Soinfo) (hlist : Built list symbolic libs) (hset : list.setDtSymbolicLib lib = some list') :
      Built list' lib libs

section Lists

open SymbolLookupList

def sysvCount (libs : List SymbolLookupLib) : Nat := libs.countP needsSysvLookup

theorem sysvCount_cons (lib : SymbolLookupLib) (libs : List SymbolLookupLib) :
    sysvCount (lib :: libs) = lib.needsSysvLookup.toNat + sysvCount libs := by
  rw [sysvCount, countP_cons, Nat.add_comm]
  cases lib.needsSysvLookup <;> rfl

theorem foldl_pushBack (sis : List Soinfo) (list : SymbolLookupList) :
    sis.foldl pushBack list = { list with
      libs := list.libs ++ sis.map Soinfo.getLookupLib
      slowPathCount := list.slowPathCount + sysvCount (sis.map Soinfo.getLookupLib) } := by
  induction sis generalizing list with
  | nil => simp [sysvCount]
  | cons si sis ih =>
    rw [foldl_cons, ih]
    simp [pushBack, sysvCount_cons, Nat.add_assoc]

def symbolicLib (symbolic : Option Soinfo) : SymbolLookupLib := (symbolic.map Soinfo.getLookupLib).getD .empty

/-- A list of groups counts the SysV libraries in it, the one set last included. -/
structure SymbolLookupList.IsGroups (list : SymbolLookupList) (symbolic : Option Soinfo) (libs : List Soinfo) :
    Prop where
  libs : list.libs = symbolicLib symbolic :: libs.map Soinfo.getLookupLib
  start : list.start = .libs (if symbolic.isSome then 0 else 1)
  count : ∃ tracing : Bool, list.slowPathCount = tracing.toNat + sysvCount list.libs

theorem isGroups_ofGroups (tracing : Bool) (globalGroup localGroup : List Soinfo) :
    IsGroups (.ofGroups tracing globalGroup localGroup) none (globalGroup ++ localGroup) := by
  unfold ofGroups
  rw [foldl_pushBack, foldl_pushBack]
  refine ⟨by simp [symbolicLib], rfl, tracing, ?_⟩
  have he : empty.needsSysvLookup = false := rfl
  simp [sysvCount, he, Nat.add_assoc]

variable {list : SymbolLookupList} {symbolic : Option Soinfo} {libs : List Soinfo}

theorem SymbolLookupList.IsGroups.setDtSymbolicLib {list' : SymbolLookupList} (h : IsGroups list symbolic libs) {lib : Option Soinfo}
    (hset : list.setDtSymbolicLib lib = some list') : IsGroups list' lib libs := by
  obtain ⟨tracing, hc⟩ := h.count
  rw [SymbolLookupList.setDtSymbolicLib, h.libs] at hset
  cases hset
  refine ⟨rfl, rfl, tracing, ?_⟩
  rw [hc, h.libs]
  simp only [sysvCount_cons]
  omega

section

variable (h : Built list symbolic libs)

include h

theorem SymbolLookupList.Built.cases :
    (∃ tracing si, list = .ofSoinfo tracing si ∧ symbolic = none ∧ libs = [si]) ∨ IsGroups list symbolic libs := by
  induction h with
  | ofSoinfo tracing si => exact .inl ⟨tracing, si, rfl, rfl, rfl⟩
  | ofGroups tracing globalGroup localGroup => exact .inr (isGroups_ofGroups tracing globalGroup localGroup)
  | setDtSymbolicLib lib _ hset ih =>
    rcases ih with ⟨tracing, si, rfl, -⟩ | hg
    · cases hset
    · exact .inr (hg.setDtSymbolicLib hset)

theorem SymbolLookupList.Built.entries_eq : list.entries = (symbolic.toList ++ libs).map Soinfo.getLookupLib := by
  rcases h.cases with ⟨tracing, si, rfl, rfl, rfl⟩ | hg
  · rfl
  · unfold entries
    rw [hg.start, hg.libs]
    cases symbolic <;> rfl

theorem SymbolLookupList.Built.gnu_of_fast (hf : list.needsSlowPath = false) :
    ∀ si ∈ symbolic.toList ++ libs, si.gnu.isSome := by
  have hz : list.slowPathCount = 0 := by
    rw [needsSlowPath, decide_eq_false_iff_not] at hf
    exact Nat.eq_zero_of_not_pos hf
  have hgnu {si : Soinfo} (hsi : si.getLookupLib.needsSysvLookup = false) : si.gnu.isSome := by
    rw [needsSysvLookup_getLookupLib] at hsi
    simpa using hsi
  rcases h.cases with ⟨tracing, si, rfl, rfl, rfl⟩ | hg
  · have hs : si.getLookupLib.needsSysvLookup = false := Bool.toNat_eq_zero.1 (Nat.add_eq_zero_iff.1 hz).2
    simpa using hgnu hs
  · obtain ⟨tracing, hc⟩ := hg.count
    have hn : sysvCount list.libs = 0 := by omega
    rw [sysvCount, countP_eq_zero, hg.libs, forall_mem_cons, List.forall_mem_map] at hn
    intro si hsi
    rcases mem_append.1 hsi with hsi | hsi
    · rw [mem_toList] at hsi
      rw [hsi] at hn
      exact hgnu (by simpa [symbolicLib] using hn.1)
    · exact hgnu (by simpa using hn.2 si hsi)

end

end Lists

/-- `soinfo_do_lookup` returns the first provider of the symbol, starting with the `DT_SYMBOLIC` library if one is
set. -/
theorem soinfoDoLookup_finds_first_provider {list : SymbolLookupList} {symbolic : Option Soinfo} {libs : List Soinfo}
    (hlist : list.Built symbolic libs) (hwf : ∀ si ∈ symbolic.toList ++ libs, si.WellFormed) (name : CString)
    (hname : name.bytes.length + 1 < 2 ^ 32) (vi : Option VersionInfo) (hvi : ∀ v, vi = some v → v.WellFormed) :
    ∃ r, soinfoDoLookup name vi list = some r ∧ FirstProvider (symbolic.toList ++ libs) name vi r := by
  unfold soinfoDoLookup
  rw [hlist.entries_eq]
  exact soinfoDoLookupImpl_finds hvi hname hwf hlist.gnu_of_fast

section Libraries

def gnuLibrary : Soinfo where
  strtab := [0, 103, 108, 105, 100, 112, 106, 0, 86, 0]
  symtab := [⟨0, 0, 0⟩, ⟨1, 0x12, 7⟩]
  versym := some [0, 2]
  verdef := some ⟨1, fun _ => some ⟨1, 0, 2, 1, 86, 20, 0⟩, fun _ => some 8⟩
  gnu := some ⟨1, 0, 5, [0xffffffffffffffff], [1], [0xffffffff]⟩
  sysv := ⟨[], []⟩

def sysvLibrary : Soinfo where
  strtab := [0, 86, 0]
  symtab := [⟨0, 0, 0⟩, ⟨1, 0x22, 7⟩]
  versym := none
  verdef := none
  gnu := none
  sysv := ⟨[1], [0, 0]⟩

theorem gnuLibrary_wellFormed : gnuLibrary.WellFormed where
  symbols := by decide
  names s hs := by
    have : (s = ⟨0, 0, 0⟩ ∨ s = ⟨1, 0x12, 7⟩) := by simpa [gnuLibrary] using hs
    rcases this with rfl | rfl
    · exact ⟨[], by decide⟩
    · exact ⟨[103, 108, 105, 100, 112, 106], by decide⟩
  versym versym h := by
    cases h
    rfl
  verdef sec h := by
    cases h
    refine ⟨[(0, ⟨1, 0, 2, 1, 86, 20, 0⟩)], rfl, ?_⟩
    rw [forall_mem_singleton]
    exact ⟨rfl, fun _ => ⟨by decide, by decide, [86], by decide, by decide⟩⟩
  hash := {
    maskwords := rfl
    powerof2 := ⟨0, rfl⟩
    shift2 := by decide
    buckets := by decide
    chain := rfl
    ended c hc := by
      cases hc
      decide
    starts n hn _ := by
      rw [mem_singleton.1 hn]
      decide
    hashed := by
      intro i s name hs hd hname
      match i with
      | 0 =>
        cases hs
        cases hd
      | 1 =>
        cases hs
        have : name = [103, 108, 105, 100, 112, 106] := by
          rw [← some.injEq, ← hname]
          decide
        subst this
        exact ⟨⟨0xffffffffffffffff, by decide, by decide, by decide⟩,
          ⟨1, by decide, by decide, Nat.le_refl 1, fun j hj hlt => absurd hlt (Nat.not_lt.2 hj)⟩,
          ⟨0xffffffff, by decide, by decide⟩⟩
      | i + 2 => cases hs }

theorem sysvLibrary_wellFormed : sysvLibrary.WellFormed where
  symbols := by decide
  names s hs := by
    have : (s = ⟨0, 0, 0⟩ ∨ s = ⟨1, 0x22, 7⟩) := by simpa [sysvLibrary] using hs
    rcases this with rfl | rfl
    · exact ⟨[], by decide⟩
    · exact ⟨[86], by decide⟩
  versym versym h := by cases h
  verdef sec h := by cases h
  hash := {
    buckets := by decide
    chain := rfl
    chains := by
      intro n hn
      rw [mem_singleton.1 hn]
      exact ⟨[1], by decide, .cons (by decide) rfl .nil⟩
    hashed := by
      intro i s name hs hd hname
      refine ⟨1, [1], by simp [sysvLibrary, Nat.mod_one], .cons (by decide) rfl .nil, mem_singleton.2 ?_⟩
      have hlt : i.toNat < 2 := (List.getElem?_eq_some_iff.1 hs).1
      by_contra hne
      have hz : i.toNat = 0 := by
        have : i.toNat ≠ 1 := fun h => hne (UInt32.toNat_inj.1 h)
        omega
      rw [hz] at hs
      cases hs
      cases hd }

theorem soinfoDoLookup_finds_first_provider_symbolic :
    ∃ list r, SymbolLookupList.Built list (some sysvLibrary) [gnuLibrary] ∧
      soinfoDoLookup ⟨[103, 108, 105, 100, 112, 106], by simp⟩ (some ⟨86, ⟨[86], by simp⟩⟩) list = some r ∧
      FirstProvider [sysvLibrary, gnuLibrary] ⟨[103, 108, 105, 100, 112, 106], by simp⟩
        (some ⟨86, ⟨[86], by simp⟩⟩) r := by
  have hl : SymbolLookupList.Built _ (some sysvLibrary) [gnuLibrary] :=
    .setDtSymbolicLib (some sysvLibrary) (.ofGroups false [] [gnuLibrary]) rfl
  have hwf : ∀ si ∈ (some sysvLibrary).toList ++ [gnuLibrary], si.WellFormed := by
    simpa using ⟨sysvLibrary_wellFormed, gnuLibrary_wellFormed⟩
  obtain ⟨r, hr, hf⟩ := soinfoDoLookup_finds_first_provider hl hwf
    ⟨[103, 108, 105, 100, 112, 106], by simp⟩ (by decide) (some ⟨86, ⟨[86], by simp⟩⟩) (fun v hv => by cases hv; exact rfl)
  exact ⟨_, r, hl, hr, hf⟩

def paddedName (n : Nat) : CString where
  bytes := [103, 108, 105, 100, 112, 106] ++ replicate n 32
  nulFree b hb := by
    rcases mem_append.1 hb with hb | hb
    · rintro rfl
      revert hb
      decide
    · rw [eq_of_mem_replicate hb]
      decide

theorem gnuHash_paddedName (n : Nat) : gnuHash (paddedName n).bytes = 0xffffffff := by
  have hf : (replicate n (32 : UInt8)).foldl gnuHashStep 0xffffffff = 0xffffffff := by
    induction n with
    | zero => rfl
    | succ n ih =>
      exact ih
  rw [gnuHash, paddedName, foldl_append]
  exact hf

theorem gnuLibrary_not_provides_paddedName {n : Nat} (hn : n ≠ 0) (vi : Option VersionInfo) (i : UInt32) :
    ¬ gnuLibrary.Provides (paddedName n) vi i := by
  rintro ⟨s, -, -, hs, -⟩
  have hsp : 32 ∈ (paddedName n).bytes ++ [0] := by simp [paddedName, hn]
  have hmem := mem_of_mem_drop ((Lib.stringAt_eq_some_iff.1 hs).2.subset hsp)
  revert hmem
  decide

theorem soinfoDoLookup_of_paddedName {n : Nat} (hn : n ≠ 0) (hlen : UInt32.ofNat (6 + n) = 5) :
    ∃ name, (∀ i, ¬ gnuLibrary.Provides name none i) ∧
      soinfoDoLookup name none (.ofSoinfo false gnuLibrary) = some (some (gnuLibrary, 1)) := by
  refine ⟨paddedName n, gnuLibrary_not_provides_paddedName hn none, ?_⟩
  have hna : UInt32.ofNat (paddedName n).bytes.length = 5 := by
    rw [paddedName, length_append, length_replicate]
    exact hlen
  have ht : ((paddedName n).bytes ++ [0]).take ((5 : UInt32) + 1).toNat = [103, 108, 105, 100, 112, 106] := by
    rw [paddedName, append_assoc]
    exact take_left' rfl
  have hc : gnuLibrary.getLookupLib.checkSymbol (paddedName n) 5 kVersymNotNeeded 1 = some true := by
    rw [checkSymbol, ht]
    decide
  have hch : gnuLibrary.getLookupLib.searchChain (paddedName n) 0xffffffff 5 none [0xffffffff] 1 kVersymNotNeeded
      false = some (some 1) := by
    simp [searchChain, calculateVerneed, hc]
  have hl : gnuLibrary.getLookupLib.lookup false (paddedName n) none gnuLibrary = some (some 1) := by
    rw [SymbolLookupLib.lookup, calculateGnuHash, gnuHash_paddedName, hna]
    exact hch
  have he : soinfoDoLookup (paddedName n) none (.ofSoinfo false gnuLibrary) =
      soinfoDoLookupImpl false (paddedName n) none [gnuLibrary.getLookupLib] := rfl
  simp [he, soinfoDoLookupImpl, getLookupLib_si, hl]

/-- A name of 4 GiB and five bytes is looked up as the symbol it begins with. -/
theorem soinfoDoLookup_finds_other_name :
    gnuLibrary.WellFormed ∧ ∃ name, (∀ i, ¬ gnuLibrary.Provides name none i) ∧
      soinfoDoLookup name none (.ofSoinfo false gnuLibrary) = some (some (gnuLibrary, 1)) :=
  ⟨gnuLibrary_wellFormed, @soinfoDoLookup_of_paddedName 4294967295 (by decide) (by decide)⟩

end Libraries

end Bionic.Linker
