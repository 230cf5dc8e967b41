import Bionic.Lib.Align

namespace Bionic.Linker

open Bionic.Lib

variable (e : Extent) (x : UInt64) {phdr : Phdr} (phdrTable : List Phdr)

def pageStart : UInt64 := alignDown 12 x

def pageOffset : UInt64 := alignOffset 12 x

def pageEnd : UInt64 := alignUp 12 x

theorem toNat_pageStart : (pageStart x).toNat = x.toNat / 4096 * 4096 :=
  toNat_alignDown (by decide) x

theorem toNat_pageOffset : (pageOffset x).toNat = x.toNat % 4096 :=
  toNat_alignOffset (by decide) x

theorem toNat_pageEnd : (pageEnd x).toNat = (x.toNat + 4095) % 2 ^ 64 / 4096 * 4096 :=
  toNat_alignUp (by decide) x

def ptLoad : UInt32 := 1
def pfX : UInt32 := 1
def pfW : UInt32 := 2
def pfR : UInt32 := 4

def protRead : UInt32 := 1
def protWrite : UInt32 := 2
def protExec : UInt32 := 4

def maybeMapFlag (x source target : UInt32) : UInt32 := if x &&& source ≠ 0 then target else 0

def pflagsToProt (x : UInt32) : UInt32 :=
  maybeMapFlag x pfX protExec ||| maybeMapFlag x pfR protRead ||| maybeMapFlag x pfW protWrite

structure Phdr where
  pType : UInt32
  pFlags : UInt32
  pOffset : UInt64
  pVaddr : UInt64
  pFilesz : UInt64
  pMemsz : UInt64
  pAlign : UInt64
  deriving DecidableEq, Repr

structure Extent where
  minVaddr : UInt64
  maxVaddr : UInt64
  foundPtLoad : Bool
  deriving DecidableEq, Repr

def Extent.scan (phdr : Phdr) : Extent :=
  if phdr.pType ≠ ptLoad then e
  else
    { minVaddr := if phdr.pVaddr < e.minVaddr then phdr.pVaddr else e.minVaddr
      maxVaddr := if phdr.pVaddr + phdr.pMemsz > e.maxVaddr then phdr.pVaddr + phdr.pMemsz else e.maxVaddr
      foundPtLoad := true }

def tableExtent : Extent :=
  phdrTable.foldl Extent.scan { minVaddr := 0xffffffffffffffff, maxVaddr := 0, foundPtLoad := false }

structure LoadSize where
  size : UInt64
  minVaddr : UInt64
  maxVaddr : UInt64
  deriving DecidableEq, Repr

def phdrTableGetLoadSize : LoadSize :=
  let e := tableExtent phdrTable
  let minVaddr := pageStart (if e.foundPtLoad then e.minVaddr else 0)
  let maxVaddr := pageEnd e.maxVaddr
  { size := maxVaddr - minVaddr, minVaddr := minVaddr, maxVaddr := maxVaddr }

def Extent.Covers (phdr : Phdr) : Prop :=
  e.foundPtLoad ∧ e.minVaddr ≤ phdr.pVaddr ∧ phdr.pVaddr + phdr.pMemsz ≤ e.maxVaddr

theorem Extent.scan_covers_self (hl : phdr.pType = ptLoad) : (e.scan phdr).Covers phdr := by
  rw [Extent.scan, if_neg (not_not.2 hl)]
  refine ⟨rfl, ?_, ?_⟩
  · split
    · exact UInt64.le_refl _
    · rename_i h
      exact UInt64.not_lt.1 h
  · dsimp only
    split
    · exact UInt64.le_refl _
    · rename_i h
      exact UInt64.not_lt.1 h

theorem Extent.Covers.scan {e : Extent} (h : e.Covers phdr) (next : Phdr) : (e.scan next).Covers phdr := by
  rw [Extent.scan]
  split
  · exact h
  · refine ⟨rfl, ?_, ?_⟩
    · split
      · rename_i hlt
        exact UInt64.le_trans (UInt64.le_of_lt hlt) h.2.1
      · exact h.2.1
    · dsimp only
      split
      · rename_i hlt
        exact UInt64.le_trans h.2.2 (UInt64.le_of_lt hlt)
      · exact h.2.2

theorem Extent.foldl_covers (hl : phdr.pType = ptLoad) :
    ∀ (table : List Phdr) (e : Extent), e.Covers phdr ∨ phdr ∈ table →
      (table.foldl Extent.scan e).Covers phdr
  | [], _, h => by simpa using h
  | next :: rest, e, h => by
    refine Extent.foldl_covers hl rest (e.scan next) ?_
    rcases h with h | h
    · exact .inl (h.scan next)
    · rcases List.mem_cons.1 h with rfl | h
      · exact .inl (e.scan_covers_self hl)
      · exact .inr h

theorem tableExtent_covers {table : List Phdr} (hmem : phdr ∈ table)
    (hl : phdr.pType = ptLoad) : (tableExtent table).Covers phdr :=
  Extent.foldl_covers hl table _ (.inr hmem)

section Rounded

variable (table : List Phdr)

theorem minVaddr_aligned : (phdrTableGetLoadSize table).minVaddr.toNat % 4096 = 0 := by
  rw [phdrTableGetLoadSize, toNat_pageStart]
  omega

theorem maxVaddr_aligned : (phdrTableGetLoadSize table).maxVaddr.toNat % 4096 = 0 := by
  rw [phdrTableGetLoadSize, toNat_pageEnd]
  omega

theorem loadSize_aligned : (phdrTableGetLoadSize table).size.toNat % 4096 = 0 := by
  have hmin := minVaddr_aligned table
  have hmax := maxVaddr_aligned table
  have hs : (phdrTableGetLoadSize table).size.toNat = (2 ^ 64 - (phdrTableGetLoadSize table).minVaddr.toNat
      + (phdrTableGetLoadSize table).maxVaddr.toNat) % 2 ^ 64 := UInt64.toNat_sub ..
  omega

variable {table}

theorem minVaddr_le (hmem : phdr ∈ table) (hl : phdr.pType = ptLoad) :
    (phdrTableGetLoadSize table).minVaddr.toNat ≤ phdr.pVaddr.toNat := by
  obtain ⟨hf, hmin, -⟩ := tableExtent_covers hmem hl
  rw [phdrTableGetLoadSize, toNat_pageStart]
  simp only [hf, if_true]
  have := UInt64.le_iff_toNat_le.1 hmin
  omega

theorem le_maxVaddr (hmem : phdr ∈ table) (hl : phdr.pType = ptLoad)
    (hmax : (tableExtent table).maxVaddr.toNat + 4095 < 2 ^ 64) :
    (phdr.pVaddr + phdr.pMemsz).toNat ≤ (phdrTableGetLoadSize table).maxVaddr.toNat := by
  obtain ⟨-, -, hle⟩ := tableExtent_covers hmem hl
  rw [phdrTableGetLoadSize, toNat_pageEnd]
  have := UInt64.le_iff_toNat_le.1 hle
  omega

end Rounded

/-- What `ElfReader::LoadSegments` does to the address space and the process, one constructor per call. -/
inductive Effect where
  | mmapFile (addr length : UInt64) (prot : UInt32) (offset : UInt64)
  | madviseHugepage (addr length : UInt64)
  | memset (addr length : UInt64)
  | mmapZero (addr length : UInt64) (prot : UInt32)
  | setVmaName (addr length : UInt64)
  | addDlwarning
  deriving DecidableEq, Repr

/-- The addresses an effect maps with `MAP_FIXED` or zeroes. The kernel maps whole pages. -/
@[simp] def Effect.Touches : Effect → Nat → Prop
  | .mmapFile addr length _ _, a => addr.toNat ≤ a ∧ a < addr.toNat + (length.toNat + 4095) / 4096 * 4096
  | .memset addr length, a => addr.toNat ≤ a ∧ a < addr.toNat + length.toNat
  | .mmapZero addr length _, a => addr.toNat ≤ a ∧ a < addr.toNat + (length.toNat + 4095) / 4096 * 4096
  | .madviseHugepage _ _, _ => False
  | .setVmaName _ _, _ => False
  | .addDlwarning, _ => False

inductive LoadError where
  | invalidFileSize (fileSize : Int64)
  | pastEndOfFile (i : Nat) (pOffset pFilesz fileEnd : UInt64) (fileSize : Int64)
  | writableAndExecutable
  | couldNotMap (i : Nat)
  | couldNotZeroFill
  deriving DecidableEq, Repr

/-- The process the loader runs in. `mmap done e` says whether the kernel grants the mapping `e` when the
calls in `done` have been made; nothing is assumed about it. -/
structure Env where
  targetSdkVersion : Int
  hugepagesSupported : Bool
  mmap : List Effect → Effect → Bool

def grantingEnv : Env where
  targetSdkVersion := 31
  hugepagesSupported := true
  mmap _ _ := true

structure ElfReader where
  fileOffset : Int64
  fileSize : Int64
  phdrTable : List Phdr
  loadBias : UInt64

def kPmdSize : UInt64 := 0x200000

namespace ElfReader

variable (r : ElfReader) (phdr : Phdr)

def segStart : UInt64 := phdr.pVaddr + r.loadBias

def segEnd : UInt64 := r.segStart phdr + phdr.pMemsz

def segFileEnd : UInt64 := r.segStart phdr + phdr.pFilesz

end ElfReader

namespace Phdr

variable (phdr : Phdr)

def fileEnd : UInt64 := phdr.pOffset + phdr.pFilesz

def filePageStart : UInt64 := pageStart phdr.pOffset

def fileLength : UInt64 := phdr.fileEnd - phdr.filePageStart

def Writable : Prop := phdr.pFlags &&& pfW ≠ 0

instance : Decidable phdr.Writable := inferInstanceAs (Decidable (_ ≠ _))

end Phdr

variable (env : Env) (r : ElfReader) (a : Nat) (phdr : Phdr) (done : List Effect) (i : Nat)

def Phdr.WritableAndExecutable : Prop :=
  pflagsToProt phdr.pFlags &&& (protExec ||| protWrite) = protExec ||| protWrite

instance (phdr : Phdr) : Decidable phdr.WritableAndExecutable := inferInstanceAs (Decidable (_ = _))

def warnWritableAndExecutable : List Effect :=
  if phdr.WritableAndExecutable then done ++ [.addDlwarning] else done

def mapFile (phdr : Phdr) (done : List Effect) : Except LoadError (List Effect) :=
  if phdr.fileLength = 0 then .ok done
  else
    if phdr.WritableAndExecutable ∧ env.targetSdkVersion ≥ 26 then .error .writableAndExecutable
    else
      let done := warnWritableAndExecutable phdr done
      let segAddr := pageStart (r.segStart phdr)
      let map := .mmapFile segAddr phdr.fileLength (pflagsToProt phdr.pFlags)
        (r.fileOffset.toUInt64 + phdr.filePageStart)
      if env.mmap done map then
        if phdr.pFlags &&& pfX ≠ 0 ∧ phdr.pAlign = kPmdSize ∧ env.hugepagesSupported then
          .ok (done ++ [map] ++ [.madviseHugepage segAddr phdr.fileLength])
        else .ok (done ++ [map])
      else .error (.couldNotMap i)

def zeroTail : List Effect :=
  if phdr.Writable ∧ pageOffset (r.segFileEnd phdr) > 0 then
    done ++ [.memset (r.segFileEnd phdr) (4096 - pageOffset (r.segFileEnd phdr))]
  else done

def mapZero : Except LoadError (List Effect) :=
  let segPageEnd := pageEnd (r.segEnd phdr)
  let segFileEnd := pageEnd (r.segFileEnd phdr)
  if segPageEnd > segFileEnd then
    let zeromapSize := segPageEnd - segFileEnd
    let map := .mmapZero segFileEnd zeromapSize (pflagsToProt phdr.pFlags)
    if env.mmap done map then .ok (done ++ [map] ++ [.setVmaName segFileEnd zeromapSize])
    else .error .couldNotZeroFill
  else .ok done

def loadSegment (phdr : Phdr) (done : List Effect) : Except LoadError (List Effect) := do
  if r.fileSize ≤ 0 then throw (.invalidFileSize r.fileSize)
  if phdr.fileEnd > r.fileSize.toUInt64 then
    throw (.pastEndOfFile i phdr.pOffset phdr.pFilesz phdr.fileEnd r.fileSize)
  let done ← mapFile env r i phdr done
  mapZero env r phdr (zeroTail r phdr done)

def loadSegmentsFrom : Nat → List Phdr → List Effect → Except LoadError (List Effect)
  | _, [], done => .ok done
  | i, phdr :: rest, done =>
    if phdr.pType ≠ ptLoad then loadSegmentsFrom (i + 1) rest done
    else do
      let done ← loadSegment env r i phdr done
      loadSegmentsFrom (i + 1) rest done

/-- `ElfReader::LoadSegments`; on success the calls it made, in order. -/
def loadSegments : Except LoadError (List Effect) := loadSegmentsFrom env r 0 r.phdrTable []

def Touched (a : Nat) : Prop := ∃ e ∈ done, e.Touches a

@[simp] theorem not_touched_nil : ¬ Touched [] a := by
  simp [Touched]

@[simp] theorem touched_append (done more : List Effect) (a : Nat) :
    Touched (done ++ more) a ↔ Touched done a ∨ Touched more a := by
  simp [Touched, or_and_right, exists_or]

@[simp] theorem touched_cons (e : Effect) (done : List Effect) (a : Nat) :
    Touched (e :: done) a ↔ e.Touches a ∨ Touched done a := by
  simp [Touched]

section Touches

variable (phdr : Phdr) (a : Nat)

def FileTouches : Prop :=
  phdr.fileLength ≠ 0 ∧ (pageStart (r.segStart phdr)).toNat ≤ a ∧
    a < (pageStart (r.segStart phdr)).toNat + (phdr.fileLength.toNat + 4095) / 4096 * 4096

def TailTouches : Prop :=
  (phdr.Writable ∧ (r.segFileEnd phdr).toNat % 4096 ≠ 0) ∧ (r.segFileEnd phdr).toNat ≤ a ∧
    a < (r.segFileEnd phdr).toNat + (4096 - (r.segFileEnd phdr).toNat % 4096)

def ZeroTouches : Prop :=
  (pageEnd (r.segFileEnd phdr)).toNat ≤ a ∧ a < (pageEnd (r.segEnd phdr)).toNat

def SegmentTouches : Prop := FileTouches r phdr a ∨ TailTouches r phdr a ∨ ZeroTouches r phdr a

end Touches

variable {env r} {i : Nat} {phdr : Phdr} {done calls : List Effect}

@[simp] theorem touched_warnWritableAndExecutable :
    Touched (warnWritableAndExecutable phdr done) a ↔ Touched done a := by
  unfold warnWritableAndExecutable
  split <;> simp

theorem mapFile_ok (h : mapFile env r i phdr done = .ok calls) (a : Nat) :
    Touched calls a ↔ Touched done a ∨ FileTouches r phdr a := by
  unfold mapFile at h
  by_cases hlen : phdr.fileLength = 0
  · rw [if_pos hlen] at h
    cases h
    simp [FileTouches, hlen]
  · rw [if_neg hlen] at h
    dsimp only at h
    split at h
    · cases h
    · split at h
      · split at h <;> cases h <;> simp [FileTouches, hlen]
      · cases h

theorem touched_zeroTail : Touched (zeroTail r phdr done) a ↔ Touched done a ∨ TailTouches r phdr a := by
  have hoff := toNat_pageOffset (r.segFileEnd phdr)
  have hpos : pageOffset (r.segFileEnd phdr) > 0 ↔ (r.segFileEnd phdr).toNat % 4096 ≠ 0 := by
    rw [gt_iff_lt, UInt64.lt_iff_toNat_lt, hoff]
    exact Nat.pos_iff_ne_zero
  have hlen : (4096 - pageOffset (r.segFileEnd phdr)).toNat = 4096 - (r.segFileEnd phdr).toNat % 4096 := by
    rw [UInt64.toNat_sub]
    simp only [UInt64.reduceToNat]
    omega
  simp only [zeroTail, hpos]
  split
  · rename_i h
    simp [TailTouches, h, hlen]
  · rename_i h
    simp [TailTouches, h]

theorem mapZero_ok (h : mapZero env r phdr done = .ok calls) (a : Nat) :
    Touched calls a ↔ Touched done a ∨ ZeroTouches r phdr a := by
  have hs := toNat_pageEnd (r.segFileEnd phdr)
  have hend := toNat_pageEnd (r.segEnd phdr)
  unfold mapZero at h
  dsimp only at h
  split at h
  · rename_i hlt
    rw [gt_iff_lt, UInt64.lt_iff_toNat_lt] at hlt
    split at h
    · cases h
      have hlen := UInt64.toNat_sub_of_le _ _ (UInt64.le_iff_toNat_le.2 hlt.le)
      simp only [touched_append, touched_cons, not_touched_nil, Effect.Touches, hlen, or_false, ZeroTouches]
      have hr : ((pageEnd (r.segEnd phdr)).toNat - (pageEnd (r.segFileEnd phdr)).toNat + 4095) / 4096 * 4096
          = (pageEnd (r.segEnd phdr)).toNat - (pageEnd (r.segFileEnd phdr)).toNat := by
        omega
      rw [hr, Nat.add_sub_cancel' hlt.le]
    · cases h
  · rename_i hlt
    rw [gt_iff_lt, UInt64.lt_iff_toNat_lt] at hlt
    cases h
    simp only [ZeroTouches]
    refine (or_iff_left ?_).symm
    omega

theorem loadSegment_ok (h : loadSegment env r i phdr done = .ok calls) :
    (0 < r.fileSize ∧ phdr.fileEnd ≤ r.fileSize.toUInt64) ∧
      ∀ a, Touched calls a ↔ Touched done a ∨ SegmentTouches r phdr a := by
  unfold loadSegment at h
  by_cases hs : r.fileSize ≤ 0
  · simp only [hs, if_true] at h
    cases h
  by_cases hend : phdr.fileEnd > r.fileSize.toUInt64
  · simp only [hs, hend, if_true] at h
    cases h
  simp only [hs, hend, if_false] at h
  refine ⟨⟨Int64.not_le.1 hs, UInt64.not_lt.1 hend⟩, fun a => ?_⟩
  cases hmap : mapFile env r i phdr done with
  | error e =>
    rw [hmap] at h
    cases h
  | ok mapped =>
    rw [hmap] at h
    rw [mapZero_ok h, touched_zeroTail, mapFile_ok hmap, SegmentTouches, or_assoc, or_assoc]

theorem loadSegmentsFrom_ok {table : List Phdr} (h : loadSegmentsFrom env r i table done = .ok calls) :
    (∀ phdr ∈ table, phdr.pType = ptLoad → 0 < r.fileSize ∧ phdr.fileEnd ≤ r.fileSize.toUInt64) ∧
      ∀ a, Touched calls a ↔
        Touched done a ∨ ∃ phdr ∈ table, phdr.pType = ptLoad ∧ SegmentTouches r phdr a := by
  induction table generalizing i done with
  | nil =>
    cases h
    simp
  | cons phdr rest ih =>
    unfold loadSegmentsFrom at h
    split at h
    · rename_i hs
      obtain ⟨hf, ht⟩ := ih h
      simpa [hs] using ⟨hf, ht⟩
    · rename_i hl
      rw [not_not] at hl
      cases hseg : loadSegment env r i phdr done with
      | error e =>
        rw [hseg] at h
        cases h
      | ok loaded =>
        rw [hseg] at h
        obtain ⟨hf, ht⟩ := ih h
        obtain ⟨hone, hseg⟩ := loadSegment_ok hseg
        refine ⟨?_, fun a => ?_⟩
        · simpa [hone] using hf
        · rw [ht, hseg]
          simp [hl, or_assoc]

theorem loadSegments_ok (h : loadSegments env r = .ok calls) :
    (∀ phdr ∈ r.phdrTable, phdr.pType = ptLoad → 0 < r.fileSize ∧ phdr.fileEnd ≤ r.fileSize.toUInt64) ∧
      ∀ a, Touched calls a ↔ ∃ phdr ∈ r.phdrTable, phdr.pType = ptLoad ∧ SegmentTouches r phdr a := by
  simpa using loadSegmentsFrom_ok h

end Bionic.Linker
