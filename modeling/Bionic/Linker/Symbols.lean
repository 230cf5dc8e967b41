import Bionic.Lib.CString

namespace Bionic.Linker

open Lib (CString stringAt)

structure Sym where
  stName : UInt32
  stInfo : UInt8
  stShndx : UInt16
  deriving DecidableEq

def stbGlobal : UInt8 := 1
def stbWeak : UInt8 := 2
def shnUndef : UInt16 := 0

def Sym.bind (s : Sym) : UInt8 := s.stInfo >>> 4

def isSymbolGlobalAndDefined (s : Sym) : Bool :=
  if s.bind = stbGlobal ∨ s.bind = stbWeak then s.stShndx ≠ shnUndef else false

def gnuHashStep (h : UInt32) (c : UInt8) : UInt32 := h + ((h <<< 5) + c.toUInt32)

def gnuHash (name : List UInt8) : UInt32 := name.foldl gnuHashStep 5381

/-- `calculate_gnu_hash_simple`: the hash and, in 32 bits, the length. -/
def calculateGnuHash (name : CString) : UInt32 × UInt32 := (gnuHash name.bytes, UInt32.ofNat name.bytes.length)

def elfHashStep (h : UInt32) (c : UInt8) : UInt32 :=
  let h := (h <<< 4) + c.toUInt32
  let g := h &&& 0xf0000000
  h ^^^ g ^^^ (g >>> 24)

def calculateElfHash (name : List UInt8) : UInt32 := name.foldl elfHashStep 0

/-- The tables of `DT_GNU_HASH`. `maskwords` is one less than the header's, `chain` starts with symbol `symndx`. -/
structure GnuHash where
  symndx : Nat
  maskwords : UInt32
  shift2 : UInt32
  bloomFilter : List UInt64
  bucket : List UInt32
  chain : List UInt32

structure SysvHash where
  bucket : List UInt32
  chain : List UInt32

structure Verdef where
  vdVersion : UInt16
  vdFlags : UInt16
  vdNdx : UInt16
  vdCnt : UInt16
  vdHash : UInt32
  vdAux : UInt32
  vdNext : UInt32
  deriving DecidableEq

def verFlgBase : UInt16 := 1

def Verdef.isBase (d : Verdef) : Bool := d.vdFlags &&& verFlgBase ≠ 0

/-- The version definitions of a library: what lies at the offsets of the section, the `Verdef` records and the
`vda_name` of the `Verdaux` records. -/
structure VerdefSection where
  cnt : Nat
  verdefAt : Nat → Option Verdef
  verdauxAt : Nat → Option UInt32

/-- What `soinfo` holds for symbol lookups. A library without `FLAG_GNU_HASH` has no `gnu`. -/
structure Soinfo where
  strtab : List UInt8
  symtab : List Sym
  versym : Option (List UInt16)
  verdef : Option VerdefSection
  gnu : Option GnuHash
  sysv : SysvHash

structure VersionInfo where
  elfHash : UInt32
  name : CString
  deriving DecidableEq

def kVersymNotNeeded : UInt16 := 0
def kVersymGlobal : UInt16 := 1
def kVersymHiddenBit : UInt16 := 0x8000

def Soinfo.getString (si : Soinfo) (index : UInt32) : Option (List UInt8) :=
  if index.toNat ≥ si.strtab.length then none else stringAt si.strtab index.toNat

def VerdefSection.forEach {β : Type} (sec : VerdefSection) (functor : Verdef → UInt32 → Option (Option β)) :
    Nat → (offset : Nat) → Option (Option β)
  | 0, _ => some none
  | n + 1, offset => do
      let verdef ← sec.verdefAt offset
      let verdauxOffset := offset + verdef.vdAux.toNat
      let offset := offset + verdef.vdNext.toNat
      if verdef.vdVersion ≠ 1 then none
      else if verdef.isBase then sec.forEach functor n offset
      else if verdef.vdCnt = 0 then none
      else
        let vdaName ← sec.verdauxAt verdauxOffset
        match ← functor verdef vdaName with
        | some result => return some result
        | none => sec.forEach functor n offset

/-- `find_verdef_version_index`. An invalid section is a fatal error. -/
def Soinfo.findVerdefVersionIndex (si : Soinfo) : Option VersionInfo → Option UInt16
  | none => some kVersymNotNeeded
  | some vi =>
    match si.verdef with
    | none => some kVersymGlobal
    | some sec => do
        let result ← sec.forEach (fun verdef vdaName =>
          if verdef.vdHash = vi.elfHash then
            (si.getString vdaName).map fun name => if vi.name.bytes = name then some verdef.vdNdx else none
          else some none) sec.cnt 0
        return result.getD kVersymGlobal

def checkSymbolVersion (verTable : Option (List UInt16)) (symIdx : UInt32) (verneed : UInt16) : Option Bool :=
  match verTable with
  | none => some true
  | some verTable => do
      let verdef ← verTable[symIdx.toNat]?
      return if verneed = kVersymNotNeeded then verdef &&& kVersymHiddenBit = 0
        else verneed = verdef &&& ~~~kVersymHiddenBit

namespace GnuHash

variable (t : GnuHash) (hash : UInt32)

def kBloomMaskBits : UInt32 := 64

def bloomTest : Option Bool := do
  let wordNum := (hash / kBloomMaskBits) &&& t.maskwords
  let bloomWord ← t.bloomFilter[wordNum.toNat]?
  let h1 := hash % kBloomMaskBits
  let h2 := (hash >>> t.shift2) % kBloomMaskBits
  return 1 &&& (bloomWord >>> h1.toUInt64) &&& (bloomWord >>> h2.toUInt64) = 1

def bucketOf : Option UInt32 := t.bucket[hash.toNat % t.bucket.length]?

def chainFrom (n : UInt32) : List UInt32 := if n.toNat < t.symndx then [] else t.chain.drop (n.toNat - t.symndx)

def walk (same : UInt32 → Bool) (check : UInt32 → Option Bool) : List UInt32 → UInt32 → Option (Option UInt32)
  | [], _ => none
  | chainValue :: chain, n => do
      if same chainValue then
        if ← check n then return some n
      if chainValue &&& 1 = 0 then walk same check chain (n + 1) else return none

end GnuHash

namespace Soinfo

variable (si : Soinfo)

variable (name : CString) (vi : Option VersionInfo)

def checkSymbol (verneed : UInt16) (n : UInt32) : Option Bool := do
  if ← checkSymbolVersion si.versym n verneed then
    let s ← si.symtab[n.toNat]?
    if (← si.getString s.stName) = name.bytes then return isSymbolGlobalAndDefined s
  return false

def gnuLookup (t : GnuHash) (name : CString) (vi : Option VersionInfo) : Option (Option UInt32) := do
  let hash := gnuHash name.bytes
  if ← t.bloomTest hash then
    let n ← t.bucketOf hash
    if n = 0 then return none
    let verneed ← si.findVerdefVersionIndex vi
    GnuHash.walk (fun chainValue => (chainValue ^^^ hash) >>> 1 = 0) (si.checkSymbol name verneed) (t.chainFrom n) n
  else return none

@[simp] def elfLookupLoop (name : CString) (verneed : UInt16) : Nat → UInt32 → Option (Option UInt32)
  | 0, _ => none
  | fuel + 1, n => do
      if n = 0 then return none
      if ← si.checkSymbol name verneed n then return some n
      let next ← si.sysv.chain[n.toNat]?
      elfLookupLoop name verneed fuel next

def elfLookup : Option (Option UInt32) := do
  let hash := calculateElfHash name.bytes
  let verneed ← si.findVerdefVersionIndex vi
  let n ← si.sysv.bucket[hash.toNat % si.sysv.bucket.length]?
  si.elfLookupLoop name verneed (si.sysv.chain.length + 1) n

/-- `find_symbol_by_name`. The outer `none` is a read outside the tables, a chain without end or a fatal error;
the inner one is the source's null. -/
def findSymbolByName : Option (Option UInt32) :=
  match si.gnu with
  | some t => si.gnuLookup t name vi
  | none => si.elfLookup name vi

end Soinfo

/-- An entry of a `SymbolLookupList`; without a Bloom filter the library needs a SysV lookup. -/
structure SymbolLookupLib where
  gnu : Option GnuHash
  strtab : List UInt8
  symtab : List Sym
  versym : Option (List UInt16)
  si : Option Soinfo

namespace SymbolLookupLib

def empty : SymbolLookupLib := ⟨none, [], [], none, none⟩

variable (lib : SymbolLookupLib) (name : CString)

def needsSysvLookup : Bool := lib.si.isSome && lib.gnu.isNone

def calculateVerneed (vi : Option VersionInfo) (verneed : UInt16) (calculatedVerneed : Bool) :
    Option (UInt16 × Bool) :=
  if vi.isSome && !calculatedVerneed then do
    let si ← lib.si
    let verneed ← si.findVerdefVersionIndex vi
    return (verneed, true)
  else some (verneed, calculatedVerneed)

/-- The checks on a symbol with the hash: `memcmp` with the length of `calculate_gnu_hash`. -/
def checkSymbol (nameLen : UInt32) (verneed : UInt16) (symIdx : UInt32) : Option Bool := do
  if ← checkSymbolVersion lib.versym symIdx verneed then
    let sym ← lib.symtab[symIdx.toNat]?
    if sym.stName.toNat + nameLen.toNat + 1 ≤ lib.strtab.length ∧
        (lib.strtab.drop sym.stName.toNat).take (nameLen + 1).toNat = (name.bytes ++ [0]).take (nameLen + 1).toNat then
      return isSymbolGlobalAndDefined sym
  return false

def searchChain (name : CString) (hash nameLen : UInt32) (vi : Option VersionInfo) :
    List UInt32 → UInt32 → (verneed : UInt16) → (calculatedVerneed : Bool) → Option (Option UInt32)
  | [], _, _, _ => none
  | chainValue :: chain, symIdx, verneed, calculatedVerneed =>
    if chainValue >>> 1 = hash >>> 1 then do
      let (verneed, calculatedVerneed) ← lib.calculateVerneed vi verneed calculatedVerneed
      if ← lib.checkSymbol name nameLen verneed symIdx then return some symIdx
      if chainValue &&& 1 = 0 then
        searchChain name hash nameLen vi chain (symIdx + 1) verneed calculatedVerneed
      else return none
    else if chainValue &&& 1 = 0 then
      searchChain name hash nameLen vi chain (symIdx + 1) verneed calculatedVerneed
    else some none

def search (hash nameLen : UInt32) (vi : Option VersionInfo) : Option (Option UInt32) := do
  let t ← lib.gnu
  if ← t.bloomTest hash then
    let symIdx ← t.bucketOf hash
    if symIdx ≠ 0 then
      return ← lib.searchChain name hash nameLen vi (t.chainFrom symIdx) symIdx kVersymNotNeeded false
  return none

end SymbolLookupLib

def Soinfo.getLookupLib (si : Soinfo) : SymbolLookupLib :=
  match si.gnu with
  | none => { SymbolLookupLib.empty with si := some si }
  | some t => ⟨some t, si.strtab, si.symtab, si.versym, some si⟩

inductive LookupStart where
  | soleLib
  | libs (i : Nat)

structure SymbolLookupList where
  libs : List SymbolLookupLib
  soleLib : SymbolLookupLib
  start : LookupStart
  slowPathCount : Nat

namespace SymbolLookupList

variable (isLookupTracingEnabled : Bool)

def ofSoinfo (si : Soinfo) : SymbolLookupList where
  libs := []
  soleLib := si.getLookupLib
  start := .soleLib
  slowPathCount := isLookupTracingEnabled.toNat + si.getLookupLib.needsSysvLookup.toNat

variable (list : SymbolLookupList)

def pushBack (si : Soinfo) : SymbolLookupList :=
  { list with
    libs := list.libs ++ [si.getLookupLib]
    slowPathCount := list.slowPathCount + si.getLookupLib.needsSysvLookup.toNat }

def ofGroups (globalGroup localGroup : List Soinfo) : SymbolLookupList :=
  let list : SymbolLookupList := ⟨[.empty], .empty, .libs 1, isLookupTracingEnabled.toNat⟩
  localGroup.foldl pushBack (globalGroup.foldl pushBack list)

/-- `set_dt_symbolic_lib`, which checks that the list is one of groups. -/
def setDtSymbolicLib (lib : Option Soinfo) : Option SymbolLookupList :=
  match list.libs with
  | [] => none
  | first :: others =>
    let newFirst := (lib.map Soinfo.getLookupLib).getD .empty
    some { list with
      libs := newFirst :: others
      start := .libs (if lib.isSome then 0 else 1)
      slowPathCount := list.slowPathCount - first.needsSysvLookup.toNat + newFirst.needsSysvLookup.toNat }

def entries : List SymbolLookupLib :=
  match list.start with
  | .soleLib => [list.soleLib]
  | .libs i => list.libs.drop i

def needsSlowPath : Bool := list.slowPathCount > 0

end SymbolLookupList

def SymbolLookupLib.lookup (lib : SymbolLookupLib) (isGeneral : Bool) (name : CString) (vi : Option VersionInfo)
    (si : Soinfo) : Option (Option UInt32) :=
  let (hash, nameLen) := calculateGnuHash name
  if isGeneral && lib.needsSysvLookup then si.findSymbolByName name vi else lib.search name hash nameLen vi

/-- `soinfo_do_lookup_impl`, over the entries that are left: the library and the index of the symbol in it. -/
def soinfoDoLookupImpl (isGeneral : Bool) (name : CString) (vi : Option VersionInfo) :
    List SymbolLookupLib → Option (Option (Soinfo × UInt32))
  | [] => some none
  | lib :: libs => do
      let si ← lib.si
      match ← lib.lookup isGeneral name vi si with
      | some sym => return some (si, sym)
      | none => soinfoDoLookupImpl isGeneral name vi libs

def soinfoDoLookup (name : CString) (vi : Option VersionInfo) (lookupList : SymbolLookupList) :
    Option (Option (Soinfo × UInt32)) :=
  soinfoDoLookupImpl lookupList.needsSlowPath name vi lookupList.entries

end Bionic.Linker
