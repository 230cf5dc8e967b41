import Bionic.Linker.Symbols
import Mathlib.Algebra.Group.Nat.Defs

namespace Bionic.Linker

open List Option Soinfo

open Lib (CString stringAt)

def VerdefSection.records (sec : VerdefSection) : Nat → Nat → Option (List (Nat × Verdef))
  | 0, _ => some []
  | n + 1, offset => do
      let verdef ← sec.verdefAt offset
      return (offset, verdef) :: (← sec.records n (offset + verdef.vdNext.toNat))

variable (sec : VerdefSection) (strtab : List UInt8)

def VerdefSection.nameOf (r : Nat × Verdef) : Option (List UInt8) := do
  let vdaName ← sec.verdauxAt (r.1 + r.2.vdAux.toNat)
  stringAt strtab vdaName.toNat

@[simp] def VerdefSection.versions (rs : List (Nat × Verdef)) : List (List UInt8 × UInt16) :=
  rs.filterMap fun r => if r.2.isBase then none else (sec.nameOf strtab r).map fun name => (name, r.2.vdNdx)

def Soinfo.versions (si : Soinfo) : List (List UInt8 × UInt16) :=
  match si.verdef with
  | none => []
  | some sec => sec.versions si.strtab ((sec.records sec.cnt 0).getD [])

/-- A record other than the base has a name, the name's hash and an index that is not the local one. -/
structure VerdefSection.RecordWellFormed (sec : VerdefSection) (strtab : List UInt8) (r : Nat × Verdef) : Prop where
  version : r.2.vdVersion = 1
  named : r.2.isBase = false → r.2.vdCnt ≠ 0 ∧ r.2.vdNdx ≠ kVersymNotNeeded ∧
    ∃ name, sec.nameOf strtab r = some name ∧ r.2.vdHash = calculateElfHash name

def VerdefSection.WellFormed : Prop :=
  ∃ rs, sec.records sec.cnt 0 = some rs ∧ ∀ r ∈ rs, sec.RecordWellFormed strtab r

variable (si : Soinfo) (vi : VersionInfo) (name : CString)

def Soinfo.versionIndex : UInt16 :=
  (si.versions.lookup vi.name.bytes).getD kVersymGlobal

def Soinfo.VersionMatches (vi : Option VersionInfo) (i : Nat) : Prop :=
  ∀ versym, si.versym = some versym → ∃ v, versym[i]? = some v ∧
    match vi with
    | none => v &&& kVersymHiddenBit = 0
    | some vi => v &&& ~~~kVersymHiddenBit = si.versionIndex vi

def VersionInfo.WellFormed : Prop := vi.elfHash = calculateElfHash vi.name.bytes

theorem stringAt_lt {mem s : List UInt8} {off : Nat} (h : stringAt mem off = some s) : off < mem.length := by
  obtain ⟨-, hp⟩ := Lib.stringAt_eq_some_iff.1 h
  have := hp.length_le
  rw [length_append, length_singleton, length_drop] at this
  omega

theorem Soinfo.getString_eq_some {si : Soinfo} {index : UInt32} {s : List UInt8}
    (h : stringAt si.strtab index.toNat = some s) : si.getString index = some s := by
  have := stringAt_lt h
  rw [getString, if_neg (by omega), h]

section FindVerdef

variable {si : Soinfo} {sec : VerdefSection} {vi : VersionInfo}

theorem forEach_eq_lookup (hvi : vi.WellFormed) {n offset : Nat} {rs : List (Nat × Verdef)}
    (hre : sec.records n offset = some rs) (hwf : ∀ r ∈ rs, sec.RecordWellFormed si.strtab r) :
    sec.forEach (fun verdef vdaName =>
      if verdef.vdHash = vi.elfHash then
        (si.getString vdaName).map fun name => if vi.name.bytes = name then some verdef.vdNdx else none
      else some none) n offset = some ((sec.versions si.strtab rs).lookup vi.name.bytes) := by
  induction n generalizing offset rs with
  | zero =>
    cases hre
    rfl
  | succ n ih =>
    simp only [VerdefSection.records, bind, pure, bind_eq_some_iff, some.injEq] at hre
    obtain ⟨d, hd, rest, hrs, rfl⟩ := hre
    have ih := ih hrs fun r hr => hwf r (mem_cons_of_mem _ hr)
    obtain ⟨hv, hna⟩ := hwf _ mem_cons_self
    dsimp only at hv hna
    rw [VerdefSection.forEach]
    simp only [hd, bind, bind_some, hv, ne_eq, not_true_eq_false, if_false]
    cases hb : d.isBase with
    | true =>
      rw [if_pos rfl, ih]
      simp [hb]
    | false =>
      obtain ⟨hcnt, -, name, hn, hh⟩ := hna hb
      rw [if_neg hcnt]
      have hve : sec.versions si.strtab ((offset, d) :: rest) =
          (name, d.vdNdx) :: sec.versions si.strtab rest := by
        simp [hb, hn]
      simp only [VerdefSection.nameOf, bind, bind_eq_some_iff] at hn
      obtain ⟨vdaName, haux, hs⟩ := hn
      rw [haux, bind_some, hve, getString_eq_some hs, map_some]
      by_cases heq : vi.name.bytes = name
      · subst heq
        rw [if_pos (hh.trans hvi.symm)]
        simp
      · have hl : ((name, d.vdNdx) :: sec.versions si.strtab rest).lookup vi.name.bytes =
            (sec.versions si.strtab rest).lookup vi.name.bytes := by
          rw [lookup_cons, beq_eq_false_iff_ne.2 heq]
        rw [if_neg heq, ite_self, bind_some, hl]
        exact ih

theorem findVerdefVersionIndex_eq (hvi : vi.WellFormed)
    (hwf : ∀ sec, si.verdef = some sec → sec.WellFormed si.strtab) :
    si.findVerdefVersionIndex (some vi) = some (si.versionIndex vi) := by
  unfold findVerdefVersionIndex versionIndex versions
  cases hsec : si.verdef with
  | none => rfl
  | some sec =>
    obtain ⟨rs, hrs, hr⟩ := hwf sec hsec
    dsimp only
    rw [forEach_eq_lookup hvi hrs hr, hrs]
    rfl

theorem versionIndex_ne_notNeeded (hwf : ∀ sec, si.verdef = some sec → sec.WellFormed si.strtab) :
    si.versionIndex vi ≠ kVersymNotNeeded := by
  unfold versionIndex
  cases hl : si.versions.lookup vi.name.bytes with
  | none => decide
  | some ndx =>
    obtain ⟨l₁, l₂, heq, -⟩ := lookup_eq_some_iff.1 hl
    have hmem : (vi.name.bytes, ndx) ∈ si.versions := by simp [heq]
    unfold versions at hmem
    split at hmem
    · cases hmem
    · rename_i sec hsec
      obtain ⟨rs, hrs, hre⟩ := hwf sec hsec
      rw [hrs, VerdefSection.versions, mem_filterMap] at hmem
      obtain ⟨r, hr, hn⟩ := hmem
      split at hn
      · cases hn
      · rename_i hb
        obtain ⟨name, -, hp⟩ := map_eq_some_iff.1 hn
        cases hp
        exact ((hre r hr).named (by simpa using hb)).2.1

end FindVerdef

/-- The library has a global or weak defined symbol of this name and a matching version at this index. -/
def Soinfo.Provides (vi : Option VersionInfo) (i : UInt32) : Prop :=
  ∃ s, si.symtab[i.toNat]? = some s ∧ ((s.bind = stbGlobal ∨ s.bind = stbWeak) ∧ s.stShndx ≠ shnUndef) ∧
    stringAt si.strtab s.stName.toNat = some name.bytes ∧ si.VersionMatches vi i.toNat

def Soinfo.Finds (vi : Option VersionInfo) : Option UInt32 → Prop
  | some i => si.Provides name vi i
  | none => ∀ i, ¬ si.Provides name vi i

/-- The tables lead from this hash to symbol `i`: both bits of the filter are set, and `i` lies in the chain of its
bucket with the hash beside the end mark. -/
structure GnuHash.Leads (t : GnuHash) (hash : UInt32) (i : Nat) : Prop where
  bloom : ∃ word, t.bloomFilter[hash.toNat / 64 % t.bloomFilter.length]? = some word ∧
    word.toNat.testBit (hash.toNat % 64) ∧ word.toNat.testBit (hash.toNat / 2 ^ t.shift2.toNat % 64)
  bucket : ∃ n, t.bucketOf hash = some n ∧ n ≠ 0 ∧ n.toNat ≤ i ∧
    ∀ j, n.toNat ≤ j → j < i → ∀ c, t.chain[j - t.symndx]? = some c → c &&& 1 = 0
  chain : ∃ c, t.chain[i - t.symndx]? = some c ∧ c >>> 1 = hash >>> 1

structure GnuHash.WellFormed (t : GnuHash) (si : Soinfo) : Prop where
  maskwords : t.bloomFilter.length = t.maskwords.toNat + 1
  powerof2 : ∃ k, t.maskwords.toNat + 1 = 2 ^ k
  shift2 : t.shift2 < 32
  buckets : t.bucket ≠ []
  chain : t.symndx + t.chain.length = si.symtab.length
  ended : ∀ c, t.chain.getLast? = some c → c &&& 1 ≠ 0
  starts : ∀ n ∈ t.bucket, n ≠ 0 → t.symndx ≤ n.toNat ∧ n.toNat < si.symtab.length
  hashed : ∀ i s name, si.symtab[i]? = some s → isSymbolGlobalAndDefined s →
    stringAt si.strtab s.stName.toNat = some name → t.Leads (gnuHash name) i

inductive SysvHash.Links (t : SysvHash) : UInt32 → List UInt32 → Prop where
  | nil : Links t 0 []
  | cons {n next : UInt32} {l : List UInt32} (hn : n ≠ 0) (hnext : t.chain[n.toNat]? = some next)
      (hlinks : Links t next l) : Links t n (n :: l)

structure SysvHash.WellFormed (t : SysvHash) (si : Soinfo) : Prop where
  buckets : t.bucket ≠ []
  chain : t.chain.length = si.symtab.length
  chains : ∀ n ∈ t.bucket, ∃ l, l.Nodup ∧ t.Links n l
  hashed : ∀ (i : UInt32) s name, si.symtab[i.toNat]? = some s → isSymbolGlobalAndDefined s →
    stringAt si.strtab s.stName.toNat = some name → ∃ n l,
      t.bucket[(calculateElfHash name).toNat % t.bucket.length]? = some n ∧ t.Links n l ∧ i ∈ l

/-- Every symbol has a name, tables for the symbols cover them, and the hash table in use leads to every symbol that
a lookup may return. -/
structure Soinfo.WellFormed (si : Soinfo) : Prop where
  symbols : si.symtab.length ≤ 2 ^ 32
  names : ∀ s ∈ si.symtab, ∃ name, stringAt si.strtab s.stName.toNat = some name
  versym : ∀ versym, si.versym = some versym → versym.length = si.symtab.length
  verdef : ∀ sec, si.verdef = some sec → sec.WellFormed si.strtab
  hash : match si.gnu with
    | some t => t.WellFormed si
    | none => si.sysv.WellFormed si

theorem isSymbolGlobalAndDefined_iff (s : Sym) :
    isSymbolGlobalAndDefined s ↔ (s.bind = stbGlobal ∨ s.bind = stbWeak) ∧ s.stShndx ≠ shnUndef := by
  unfold isSymbolGlobalAndDefined
  split
  · rename_i h
    rw [decide_eq_true_iff, and_iff_right h]
  · rename_i h
    simp [h]

section Checks

variable {si : Soinfo} {name : CString} {vi : Option VersionInfo} {i : UInt32}

def Soinfo.neededVersion (vi : Option VersionInfo) : UInt16 :=
  (vi.map si.versionIndex).getD kVersymNotNeeded

theorem findVerdefVersionIndex_eq_neededVersion (hwf : si.WellFormed) (hvi : ∀ v, vi = some v → v.WellFormed) :
    si.findVerdefVersionIndex vi = some (si.neededVersion vi) := by
  cases vi with
  | none => rfl
  | some v => exact findVerdefVersionIndex_eq (hvi v rfl) hwf.verdef

theorem checkSymbolVersion_spec (vi : Option VersionInfo) (hwf : si.WellFormed) (hi : i.toNat < si.symtab.length) :
    ∃ b, checkSymbolVersion si.versym i (si.neededVersion vi) = some b ∧
      (b ↔ si.VersionMatches vi i.toNat) := by
  unfold checkSymbolVersion Soinfo.VersionMatches
  cases hv : si.versym with
  | none => exact ⟨true, rfl, by simp⟩
  | some versym =>
    have hlt : i.toNat < versym.length := by rwa [hwf.versym versym hv]
    refine ⟨_, by dsimp only; rw [getElem?_eq_getElem hlt]; rfl, ?_⟩
    simp only [some.injEq, forall_eq', getElem?_eq_getElem hlt, exists_eq_left']
    cases vi with
    | none =>
      rw [show si.neededVersion none = kVersymNotNeeded from rfl, if_pos rfl, decide_eq_true_iff]
    | some v =>
      rw [show si.neededVersion (some v) = si.versionIndex v from rfl,
        if_neg (versionIndex_ne_notNeeded hwf.verdef), decide_eq_true_iff]
      exact eq_comm

theorem Soinfo.checkSymbol_spec (name : CString) (vi : Option VersionInfo) (hwf : si.WellFormed) (hi : i.toNat < si.symtab.length) :
    ∃ b, si.checkSymbol name (si.neededVersion vi) i = some b ∧ (b ↔ si.Provides name vi i) := by
  obtain ⟨b, hv, hb⟩ := checkSymbolVersion_spec vi hwf hi
  obtain ⟨s, hs⟩ : ∃ s, si.symtab[i.toNat]? = some s := ⟨_, getElem?_eq_getElem hi⟩
  obtain ⟨string, hst⟩ := hwf.names s (mem_of_getElem? hs)
  unfold checkSymbol Provides
  simp only [hv, hs, getString_eq_some hst, bind, bind_some, some.injEq, exists_eq_left',
    hst, ← hb, ← isSymbolGlobalAndDefined_iff]
  cases b with
  | false => exact ⟨false, rfl, by simp⟩
  | true =>
    by_cases heq : string = name.bytes
    · exact ⟨isSymbolGlobalAndDefined s, by simp [heq], by simp [heq]⟩
    · exact ⟨false, by simp [heq], by simp [heq]⟩

/-- So do the checks of `soinfo_do_lookup_impl` for names whose length, with the NUL, 32 bits hold. -/
theorem SymbolLookupLib.checkSymbol_spec {t : GnuHash} (vi : Option VersionInfo) (hgnu : si.gnu = some t) (hwf : si.WellFormed)
    (hn : name.bytes.length + 1 < 2 ^ 32) (hi : i.toNat < si.symtab.length) :
    ∃ b, si.getLookupLib.checkSymbol name (UInt32.ofNat name.bytes.length) (si.neededVersion vi) i = some b ∧
      (b ↔ si.Provides name vi i) := by
  obtain ⟨b, hv, hb⟩ := checkSymbolVersion_spec vi hwf hi
  obtain ⟨s, hs⟩ : ∃ s, si.symtab[i.toNat]? = some s := ⟨_, getElem?_eq_getElem hi⟩
  have hlib : si.getLookupLib = ⟨some t, si.strtab, si.symtab, si.versym, some si⟩ := by
    rw [getLookupLib, hgnu]
  have hlen : (UInt32.ofNat name.bytes.length).toNat = name.bytes.length := by
    rw [UInt32.toNat_ofNat']
    omega
  have hlen' : (UInt32.ofNat name.bytes.length + 1).toNat = name.bytes.length + 1 := by
    rw [UInt32.toNat_add, hlen, UInt32.toNat_one]
    omega
  have ht : (name.bytes ++ [0]).take (name.bytes.length + 1) = name.bytes ++ [0] :=
    take_of_length_le (by simp)
  have hcmp : (s.stName.toNat + name.bytes.length + 1 ≤ si.strtab.length ∧
      (si.strtab.drop s.stName.toNat).take (name.bytes.length + 1) = name.bytes ++ [0]) ↔
        stringAt si.strtab s.stName.toNat = some name.bytes := by
    rw [Lib.take_drop_eq_iff_stringAt]
    refine and_iff_right_of_imp fun h => ?_
    have := (Lib.stringAt_eq_some_iff.1 h).2.length_le
    rw [length_append, length_singleton, length_drop] at this
    omega
  unfold checkSymbol Soinfo.Provides
  simp only [hlib, hv, hs, bind, bind_some, hlen, hlen', ht, hcmp,
    ← hb, ← isSymbolGlobalAndDefined_iff]
  cases b with
  | false => exact ⟨false, rfl, by simp⟩
  | true =>
    by_cases heq : stringAt si.strtab s.stName.toNat = some name.bytes
    · exact ⟨isSymbolGlobalAndDefined s, by simp [heq], by simp [heq]⟩
    · exact ⟨false, by simp [heq], by simp [heq]⟩

end Checks

end Bionic.Linker
