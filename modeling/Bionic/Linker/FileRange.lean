import Bionic.Linker.LoadSegments

namespace Bionic.Linker

open Option

/-- `safe_add`, which its callers give a non-negative first summand. -/
def safeAdd (a : Int64) (b : UInt64) : Option Int64 :=
  if (Int64.maxValue - a).toUInt64 < b then none else some (a + b.toInt64)

theorem toInt_toInt64 (b : UInt64) : b.toInt64.toInt = (b.toNat : Int).bmod (2 ^ 64) :=
  BitVec.toInt_eq_toNat_bmod b.toBitVec

theorem toNat_toUInt64 {a : Int64} (ha : 0 ≤ a.toInt) : (a.toUInt64.toNat : Int) = a.toInt := by
  rw [Int64.toNat_toUInt64_of_le (Int64.le_iff_toInt_le.2 ha)]
  exact Int.toNat_of_nonneg ha

theorem safeAdd_eq_some_iff {a c : Int64} {b : UInt64} (ha : 0 ≤ a.toInt) :
    safeAdd a b = some c ↔ c.toInt = a.toInt + b.toNat := by
  have halt := a.toInt_lt
  have hr : (Int64.maxValue - a).toInt = Int64.maxValue.toInt - a.toInt := by
    rw [Int64.toInt_sub, Int64.toInt_maxValue]
    exact Int.bmod_eq_of_le (by omega) (by omega)
  rw [Int64.toInt_maxValue] at hr
  have hnat := toNat_toUInt64 (a := Int64.maxValue - a) (by omega)
  unfold safeAdd
  split
  · rename_i h
    have hlt := UInt64.lt_iff_toNat_lt.1 h
    have := c.toInt_lt
    simp only [reduceCtorEq, false_iff]
    omega
  · rename_i h
    have hle := UInt64.le_iff_toNat_le.1 (UInt64.not_lt.1 h)
    have hsum : (a + b.toInt64).toInt = a.toInt + b.toNat := by
      rw [Int64.toInt_add, toInt_toInt64, Int.add_bmod_bmod]
      exact Int.bmod_eq_of_le (by omega) (by omega)
    rw [some.injEq, ← Int64.toInt_inj, hsum, eq_comm]

theorem le_of_safeAdd_eq_none {a : Int64} {b : UInt64} (ha : 0 ≤ a.toInt) (h : safeAdd a b = none) :
    9223372036854775808 ≤ a.toInt + b.toNat := by
  by_contra hlt
  have hsum : (Int64.ofInt (a.toInt + b.toNat)).toInt = a.toInt + b.toNat :=
    Int64.toInt_ofInt_of_le (by omega) (by omega)
  rw [(safeAdd_eq_some_iff ha).2 hsum] at h
  cases h

namespace ElfReader

variable (r : ElfReader)

def checkFileRange (offset size alignment : UInt64) : Bool :=
  offset > 0 &&
    (safeAdd r.fileOffset offset).any fun rangeStart =>
      (safeAdd rangeStart size).any fun rangeEnd =>
        rangeStart < r.fileSize && rangeEnd ≤ r.fileSize && offset % alignment == 0

variable {r}

theorem checkFileRange_iff {offset size alignment : UInt64} (h : 0 ≤ r.fileOffset.toInt) :
    r.checkFileRange offset size alignment ↔
      0 < offset ∧ r.fileOffset.toInt + offset.toNat < r.fileSize.toInt ∧
        r.fileOffset.toInt + offset.toNat + size.toNat ≤ r.fileSize.toInt ∧ offset % alignment = 0 := by
  have hsi := r.fileSize.toInt_lt
  unfold checkFileRange
  cases hst : safeAdd r.fileOffset offset with
  | none =>
    have hl := le_of_safeAdd_eq_none h hst
    simp only [any_none, Bool.and_false, Bool.false_eq_true, false_iff]
    rintro ⟨-, hlt, -, -⟩
    omega
  | some rangeStart =>
    have hs := (safeAdd_eq_some_iff h).1 hst
    cases hend : safeAdd rangeStart size with
    | none =>
      have hl := le_of_safeAdd_eq_none (by omega) hend
      rw [any_some, hend]
      simp only [any_none, Bool.and_false, Bool.false_eq_true, false_iff]
      rintro ⟨-, -, hle, -⟩
      omega
    | some rangeEnd =>
      have he := (safeAdd_eq_some_iff (by omega)).1 hend
      rw [any_some, hend, any_some]
      rw [Bool.and_eq_true, Bool.and_eq_true, Bool.and_eq_true, decide_eq_true_eq, decide_eq_true_eq,
        decide_eq_true_eq, beq_iff_eq, Int64.lt_iff_toInt_lt, Int64.le_iff_toInt_le, he, hs, and_assoc]

def SegmentInFile (r : ElfReader) (phdr : Phdr) : Prop :=
  ∀ b : Int, r.fileOffset.toInt + phdr.pOffset.toNat ≤ b →
    b < r.fileOffset.toInt + phdr.pOffset.toNat + phdr.pFilesz.toNat → 0 ≤ b ∧ b < r.fileSize.toInt

def SegmentsInFile (r : ElfReader) : Prop :=
  ∀ phdr ∈ r.phdrTable, phdr.pType = ptLoad → SegmentInFile r phdr

/-- No PT_LOAD entry with bytes in the file has a sum `p_offset + p_filesz` that wraps. -/
def NoFileWrap (r : ElfReader) : Prop :=
  ∀ phdr ∈ r.phdrTable, phdr.pType = ptLoad →
    phdr.pFilesz = 0 ∨ phdr.pOffset.toNat + phdr.pFilesz.toNat < 2 ^ 64

variable {phdr : Phdr}

theorem segmentInFile_iff (hoff : 0 ≤ r.fileOffset.toInt) :
    SegmentInFile r phdr ↔ phdr.pFilesz.toNat = 0 ∨
      r.fileOffset.toInt + phdr.pOffset.toNat + phdr.pFilesz.toNat ≤ r.fileSize.toInt := by
  constructor
  · intro h
    by_cases hz : phdr.pFilesz.toNat = 0
    · exact .inl hz
    · have hl := h (r.fileOffset.toInt + phdr.pOffset.toNat + phdr.pFilesz.toNat - 1) (by omega) (by omega)
      exact .inr (by omega)
  · intro h b hlo hhi
    omega

theorem checkFileRange_segmentInFile {alignment : UInt64} (hoff : 0 ≤ r.fileOffset.toInt)
    (h : r.checkFileRange phdr.pOffset phdr.pFilesz alignment) : SegmentInFile r phdr :=
  (segmentInFile_iff hoff).2 (.inr ((checkFileRange_iff hoff).1 h).2.2.1)

end ElfReader

open ElfReader

theorem loadSegments_segmentsInFile_iff {env : Env} {r : ElfReader} {calls : List Effect} (hz : r.fileOffset = 0)
    (h : loadSegments env r = .ok calls) : r.SegmentsInFile ↔ r.NoFileWrap := by
  obtain ⟨hc, -⟩ := loadSegments_ok h
  refine forall₃_congr fun phdr hmem hl => ?_
  obtain ⟨hpos, hend⟩ := hc phdr hmem hl
  have hpos : 0 < r.fileSize.toInt := Int64.lt_iff_toInt_lt.1 hpos
  have hs := toNat_toUInt64 (Int.le_of_lt hpos)
  have hlt := r.fileSize.toInt_lt
  have hzero : r.fileOffset.toInt = 0 := by
    rw [hz, Int64.toInt_zero]
  rw [segmentInFile_iff (Int.le_of_eq hzero.symm), ← UInt64.toNat_inj, UInt64.toNat_zero, hzero]
  rw [Phdr.fileEnd, UInt64.le_iff_toNat_le, UInt64.toNat_add] at hend
  omega

def readOnlySegment (pOffset pFilesz : UInt64) : Phdr where
  pType := ptLoad
  pFlags := pfR
  pOffset := pOffset
  pVaddr := 0
  pFilesz := pFilesz
  pMemsz := pFilesz
  pAlign := 0x1000

def oneSegment (fileOffset fileSize : Int64) (phdr : Phdr) : ElfReader where
  fileOffset := fileOffset
  fileSize := fileSize
  phdrTable := [phdr]
  loadBias := 0x7f0000000000

variable {r : ElfReader} {phdr : Phdr} {i : Nat}

theorem mapFile_granted (hwx : ¬ phdr.WritableAndExecutable) (done : List Effect) :
    ∃ mapped, mapFile grantingEnv r i phdr done = .ok mapped := by
  unfold mapFile
  split
  · exact ⟨_, rfl⟩
  · rw [if_neg fun h => hwx h.1]
    dsimp only
    rw [if_pos (show grantingEnv.mmap _ _ = true from rfl)]
    split <;> exact ⟨_, rfl⟩

theorem mapZero_granted (done : List Effect) : ∃ calls, mapZero grantingEnv r phdr done = .ok calls := by
  unfold mapZero
  dsimp only
  split
  · rw [if_pos (show grantingEnv.mmap _ _ = true from rfl)]
    exact ⟨_, rfl⟩
  · exact ⟨_, rfl⟩

theorem loadSegment_granted (hs : 0 < r.fileSize) (hend : phdr.fileEnd ≤ r.fileSize.toUInt64)
    (hwx : ¬ phdr.WritableAndExecutable) (done : List Effect) :
    ∃ calls, loadSegment grantingEnv r i phdr done = .ok calls := by
  obtain ⟨mapped, hm⟩ := mapFile_granted (r := r) (i := i) hwx done
  obtain ⟨calls, hz⟩ : ∃ calls, mapZero grantingEnv r phdr (zeroTail r phdr mapped) = .ok calls := mapZero_granted _
  refine ⟨calls, ?_⟩
  unfold loadSegment
  rw [if_neg (Int64.not_le.2 hs), if_neg (UInt64.not_lt.2 hend), hm]
  exact hz

/-- The largest segment the comparison with the size of the whole file lets through. -/
theorem loadSegments_whole_file (fileOffset : Int64) {fileSize : Int64} (hs : 0 < fileSize) :
    ∃ calls, loadSegments grantingEnv
      (oneSegment fileOffset fileSize (readOnlySegment 0 fileSize.toUInt64)) = .ok calls := by
  have hend : (readOnlySegment 0 fileSize.toUInt64).fileEnd ≤ fileSize.toUInt64 :=
    UInt64.le_of_eq (UInt64.zero_add _)
  have hwx : ¬ (readOnlySegment 0 fileSize.toUInt64).WritableAndExecutable := by
    show ¬ pflagsToProt pfR &&& (protExec ||| protWrite) = protExec ||| protWrite
    decide
  obtain ⟨calls, h⟩ := loadSegment_granted (i := 0) (r := oneSegment fileOffset fileSize _) hs hend hwx []
  refine ⟨calls, ?_⟩
  show (do let done ← loadSegment _ _ 0 _ []; loadSegmentsFrom _ _ 1 [] done) = _
  rw [h]
  rfl

/-- For the library at `file_offset_` of a file of `file_size_` bytes, what `LoadSegments` has checked keeps the
segments of every accepted table without wrap inside the file only where the offset is zero. `CheckFileRange`,
which it does not call, would keep each segment there. -/
theorem loadSegments_segments_in_file_iff (fileOffset fileSize : Int64) (hoff : 0 ≤ fileOffset)
    (hs : 0 < fileSize) :
    ((∀ env (r : ElfReader) calls, r.fileOffset = fileOffset → r.fileSize = fileSize →
        loadSegments env r = .ok calls → (r.SegmentsInFile ↔ r.NoFileWrap)) ↔ fileOffset = 0) ∧
      ∀ (r : ElfReader) phdr alignment, r.fileOffset = fileOffset →
        r.checkFileRange phdr.pOffset phdr.pFilesz alignment → SegmentInFile r phdr := by
  have hoff : 0 ≤ fileOffset.toInt := Int64.le_iff_toInt_le.1 hoff
  refine ⟨⟨fun hall => ?_, ?_⟩, ?_⟩
  · obtain ⟨calls, h⟩ := loadSegments_whole_file fileOffset hs
    have hw : (oneSegment fileOffset fileSize (readOnlySegment 0 fileSize.toUInt64)).NoFileWrap := by
      intro phdr hmem _
      rw [List.mem_singleton.1 hmem]
      exact .inr (by simpa [readOnlySegment] using fileSize.toUInt64.toNat_lt)
    have hin := (hall _ _ calls rfl rfl h).2 hw _ (List.mem_singleton.2 rfl) rfl
    have hsize := toNat_toUInt64 (Int.le_of_lt (Int64.lt_iff_toInt_lt.1 hs))
    rw [segmentInFile_iff hoff] at hin
    have hlt := Int64.lt_iff_toInt_lt.1 hs
    rw [Int64.toInt_zero] at hlt
    apply Int64.toInt_inj.1
    rw [Int64.toInt_zero]
    simp only [oneSegment, readOnlySegment, UInt64.toNat_zero, hsize] at hin
    omega
  · rintro rfl env r calls hz - h
    exact loadSegments_segmentsInFile_iff hz h
  · rintro r phdr alignment rfl h
    exact checkFileRange_segmentInFile hoff h

/-- A segment of two pages in an archive of three, of which the library starts at the second. -/
theorem loadSegments_segments_in_file_archived :
    ((∀ env (r : ElfReader) calls, r.fileOffset = 0x1000 → r.fileSize = 0x3000 →
        loadSegments env r = .ok calls → (r.SegmentsInFile ↔ r.NoFileWrap)) ↔ (0x1000 : Int64) = 0) ∧
      SegmentInFile (oneSegment 0x1000 0x3000 (readOnlySegment 0x1000 0x1000)) (readOnlySegment 0x1000 0x1000) := by
  have h := loadSegments_segments_in_file_iff 0x1000 0x3000 (by decide) (by decide)
  exact ⟨h.1, h.2 _ _ 1 rfl (by decide)⟩

/-- The segment's end is compared with the size of the whole archive and passes. -/
theorem loadSegments_segment_past_end_of_file :
    (∃ calls, loadSegments grantingEnv (oneSegment 0x1000 0x3000 (readOnlySegment 0x1000 0x2000)) = .ok calls) ∧
      (oneSegment 0x1000 0x3000 (readOnlySegment 0x1000 0x2000)).NoFileWrap ∧
      ¬ (oneSegment 0x1000 0x3000 (readOnlySegment 0x1000 0x2000)).SegmentsInFile := by
  refine ⟨⟨[.mmapFile 0x7f0000000000 0x2000 1 0x2000], by decide +kernel⟩, ?_, fun h => ?_⟩
  · intro phdr hmem _
    rw [List.mem_singleton.1 hmem]
    exact .inr (by decide)
  · have hl := (h _ (List.mem_singleton.2 rfl) rfl 0x3000 (by decide) (by decide)).2
    exact absurd hl (by decide)

end Bionic.Linker
