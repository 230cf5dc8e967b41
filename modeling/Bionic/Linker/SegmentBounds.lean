import Bionic.Linker.LoadSegments

namespace Bionic.Linker

variable {table : List Phdr}

/-- Whole pages of the size `phdr_table_get_load_size` asks for. The upper half of the address space belongs to
the kernel. -/
structure Reservation (table : List Phdr) where
  loadStart : UInt64
  aligned : loadStart.toNat % 4096 = 0
  nonempty : (phdrTableGetLoadSize table).size ≠ 0
  fits : loadStart.toNat + (phdrTableGetLoadSize table).size.toNat ≤ 2 ^ 63

namespace Reservation

variable (v : Reservation table)

def reader (fileOffset fileSize : Int64) : ElfReader where
  fileOffset := fileOffset
  fileSize := fileSize
  phdrTable := table
  loadBias := v.loadStart - (phdrTableGetLoadSize table).minVaddr

def Contains (a : Nat) : Prop :=
  v.loadStart.toNat ≤ a ∧ a < v.loadStart.toNat + (phdrTableGetLoadSize table).size.toNat

end Reservation

def imageOffset (table : List Phdr) (x : UInt64) : UInt64 := x - (phdrTableGetLoadSize table).minVaddr

/-- What the fields of a segment must satisfy, in 64-bit words from the lowest page of the table. -/
structure SegmentFits (v : Reservation table) (phdr : Phdr) : Prop where
  file : pageOffset phdr.pOffset + phdr.pFilesz = 0 ∨
    (imageOffset table (pageStart phdr.pVaddr)).toNat + (pageOffset phdr.pOffset + phdr.pFilesz).toNat ≤
      (phdrTableGetLoadSize table).size.toNat
  tail : phdr.Writable → pageOffset (phdr.pVaddr + phdr.pFilesz) ≠ 0 →
    imageOffset table (phdr.pVaddr + phdr.pFilesz) < (phdrTableGetLoadSize table).size
  zero : pageEnd (v.loadStart + imageOffset table (phdr.pVaddr + phdr.pFilesz)) <
      pageEnd (v.loadStart + imageOffset table (phdr.pVaddr + phdr.pMemsz)) →
    pageEnd (imageOffset table (phdr.pVaddr + phdr.pFilesz)) <
        pageEnd (imageOffset table (phdr.pVaddr + phdr.pMemsz)) ∧
      pageEnd (imageOffset table (phdr.pVaddr + phdr.pMemsz)) ≤ (phdrTableGetLoadSize table).size

section Segment

variable (v : Reservation table) (fileOffset fileSize : Int64) (phdr : Phdr) (x : UInt64)

theorem segStart_eq : (v.reader fileOffset fileSize).segStart phdr = v.loadStart + imageOffset table phdr.pVaddr := by
  simp only [ElfReader.segStart, Reservation.reader, imageOffset]
  grind

theorem segEnd_eq : (v.reader fileOffset fileSize).segEnd phdr =
    v.loadStart + imageOffset table (phdr.pVaddr + phdr.pMemsz) := by
  simp only [ElfReader.segEnd, segStart_eq, imageOffset]
  grind

theorem segFileEnd_eq : (v.reader fileOffset fileSize).segFileEnd phdr =
    v.loadStart + imageOffset table (phdr.pVaddr + phdr.pFilesz) := by
  simp only [ElfReader.segFileEnd, segStart_eq, imageOffset]
  grind

theorem toNat_imageOffset : (imageOffset table x).toNat =
    (2 ^ 64 - (phdrTableGetLoadSize table).minVaddr.toNat + x.toNat) % 2 ^ 64 := by
  rw [imageOffset, UInt64.toNat_sub]

theorem imageOffset_mod : (imageOffset table x).toNat % 4096 = x.toNat % 4096 := by
  have hmin := minVaddr_aligned table
  rw [toNat_imageOffset]
  omega

theorem fileLength_eq : phdr.fileLength = pageOffset phdr.pOffset + phdr.pFilesz := by
  have hs : pageStart phdr.pOffset + pageOffset phdr.pOffset = phdr.pOffset := by
    apply UInt64.toNat_inj.1
    have := phdr.pOffset.toNat_lt
    rw [UInt64.toNat_add, toNat_pageStart, toNat_pageOffset]
    omega
  simp only [Phdr.fileLength, Phdr.fileEnd, Phdr.filePageStart]
  grind

theorem forall_range_iff {lo hi start stop : Nat} :
    (∀ a, lo ≤ a ∧ a < hi → start ≤ a ∧ a < stop) ↔ (lo < hi → start ≤ lo ∧ hi ≤ stop) := by
  refine ⟨fun h hlt => ?_, fun h a ha => ?_⟩
  · have hf := h lo ⟨le_rfl, hlt⟩
    have hl := h (hi - 1) (by omega)
    omega
  · omega

theorem fileTouches_inside_iff :
    (∀ a, FileTouches (v.reader fileOffset fileSize) phdr a → v.Contains a) ↔
      (pageOffset phdr.pOffset + phdr.pFilesz = 0 ∨
        (imageOffset table (pageStart phdr.pVaddr)).toNat + (pageOffset phdr.pOffset + phdr.pFilesz).toNat ≤
          (phdrTableGetLoadSize table).size.toNat) := by
  simp only [FileTouches, Reservation.Contains, segStart_eq, fileLength_eq]
  by_cases hlen : pageOffset phdr.pOffset + phdr.pFilesz = 0
  · simp [hlen]
  have hpos : (pageOffset phdr.pOffset + phdr.pFilesz).toNat ≠ 0 := fun h => hlen (UInt64.toNat_inj.1 h)
  have ha : (pageStart (v.loadStart + imageOffset table phdr.pVaddr)).toNat =
      (v.loadStart.toNat + (imageOffset table (pageStart phdr.pVaddr)).toNat) % 2 ^ 64 := by
    have hs := v.aligned
    have hmin := minVaddr_aligned table
    rw [toNat_pageStart, UInt64.toNat_add, toNat_imageOffset, toNat_imageOffset, toNat_pageStart]
    omega
  have hoff : (imageOffset table (pageStart phdr.pVaddr)).toNat % 4096 = 0 := by
    rw [imageOffset_mod, toNat_pageStart]
    omega
  simp only [hlen, ne_eq, not_false_eq_true, true_and, false_or]
  rw [forall_range_iff, ha]
  have hsi := loadSize_aligned table
  have hf := v.fits
  have := (imageOffset table (pageStart phdr.pVaddr)).toNat_lt
  omega

theorem tailTouches_inside_iff :
    (∀ a, TailTouches (v.reader fileOffset fileSize) phdr a → v.Contains a) ↔
      (phdr.Writable → pageOffset (phdr.pVaddr + phdr.pFilesz) ≠ 0 →
        imageOffset table (phdr.pVaddr + phdr.pFilesz) < (phdrTableGetLoadSize table).size) := by
  have hs := v.aligned
  have hf := v.fits
  have hsi := loadSize_aligned table
  have hmod := @imageOffset_mod table (phdr.pVaddr + phdr.pFilesz)
  have hlt := (imageOffset table (phdr.pVaddr + phdr.pFilesz)).toNat_lt
  have hend : (v.loadStart + imageOffset table (phdr.pVaddr + phdr.pFilesz)).toNat % 4096 =
      (phdr.pVaddr + phdr.pFilesz).toNat % 4096 := by
    rw [UInt64.toNat_add]
    omega
  have hne : pageOffset (phdr.pVaddr + phdr.pFilesz) ≠ 0 ↔ (phdr.pVaddr + phdr.pFilesz).toNat % 4096 ≠ 0 := by
    rw [ne_eq, ← UInt64.toNat_inj, toNat_pageOffset]
    exact Iff.rfl
  simp only [TailTouches, Reservation.Contains, segFileEnd_eq, hne, UInt64.lt_iff_toNat_lt, and_imp]
  rw [hend]
  by_cases hw : phdr.Writable ∧ (phdr.pVaddr + phdr.pFilesz).toNat % 4096 ≠ 0
  · obtain ⟨hw, hp⟩ := hw
    simp only [hw, hp, ne_eq, not_false_eq_true, true_imp_iff]
    simp only [← and_imp]
    rw [forall_range_iff, UInt64.toNat_add]
    omega
  · rw [not_and] at hw
    refine ⟨fun _ h hp => absurd hp (hw h), fun _ _ h hp => absurd hp (hw h)⟩

theorem zeroTouches_inside_iff :
    (∀ a, ZeroTouches (v.reader fileOffset fileSize) phdr a → v.Contains a) ↔
      (pageEnd (v.loadStart + imageOffset table (phdr.pVaddr + phdr.pFilesz)) <
          pageEnd (v.loadStart + imageOffset table (phdr.pVaddr + phdr.pMemsz)) →
        pageEnd (imageOffset table (phdr.pVaddr + phdr.pFilesz)) <
            pageEnd (imageOffset table (phdr.pVaddr + phdr.pMemsz)) ∧
          pageEnd (imageOffset table (phdr.pVaddr + phdr.pMemsz)) ≤ (phdrTableGetLoadSize table).size) := by
  have hs := v.aligned
  have hf := v.fits
  simp only [ZeroTouches, Reservation.Contains, segFileEnd_eq, segEnd_eq, UInt64.lt_iff_toNat_lt,
    UInt64.le_iff_toNat_le]
  rw [forall_range_iff]
  generalize imageOffset table (phdr.pVaddr + phdr.pFilesz) = x
  generalize imageOffset table (phdr.pVaddr + phdr.pMemsz) = y
  have hr (z : UInt64) : (pageEnd (v.loadStart + z)).toNat =
      (v.loadStart.toNat + (pageEnd z).toNat) % 2 ^ 64 := by
    rw [toNat_pageEnd, toNat_pageEnd, UInt64.toNat_add]
    omega
  rw [hr, hr]
  have hx := (pageEnd x).toNat_lt
  have hy := (pageEnd y).toNat_lt
  omega

theorem segmentTouches_inside_iff :
    (∀ a, SegmentTouches (v.reader fileOffset fileSize) phdr a → v.Contains a) ↔ SegmentFits v phdr := by
  simp only [SegmentTouches, or_imp, forall_and]
  rw [fileTouches_inside_iff, tailTouches_inside_iff, zeroTouches_inside_iff]
  constructor
  · rintro ⟨hf, ht, hz⟩
    exact ⟨hf, ht, hz⟩
  · intro h
    exact ⟨h.file, h.tail, h.zero⟩

end Segment

/-- No sum that sizes the reservation or a segment of the table exceeds 64 bits. -/
structure NoWrap (table : List Phdr) : Prop where
  maxVaddr : (tableExtent table).maxVaddr.toNat + 4095 < 2 ^ 64
  sums : ∀ phdr ∈ table, phdr.pType = ptLoad →
    phdr.pVaddr.toNat + phdr.pMemsz.toNat < 2 ^ 64 ∧ phdr.pVaddr.toNat + phdr.pFilesz.toNat < 2 ^ 64 ∧
      phdr.pOffset.toNat % 4096 + phdr.pFilesz.toNat < 2 ^ 64

/-- The file part of a segment ends by the end of the last page that any `p_memsz` reaches, and so does the
partial page of a writable segment. -/
structure FileFitsMemory (table : List Phdr) (phdr : Phdr) : Prop where
  file : phdr.pOffset.toNat % 4096 + phdr.pFilesz.toNat = 0 ∨
    phdr.pVaddr.toNat / 4096 * 4096 + phdr.pOffset.toNat % 4096 + phdr.pFilesz.toNat ≤
      (phdrTableGetLoadSize table).maxVaddr.toNat
  tail : phdr.Writable → (phdr.pVaddr.toNat + phdr.pFilesz.toNat) % 4096 ≠ 0 →
    phdr.pVaddr.toNat + phdr.pFilesz.toNat ≤ (phdrTableGetLoadSize table).maxVaddr.toNat

theorem imageOffset_of_le {x : UInt64} (h : (phdrTableGetLoadSize table).minVaddr.toNat ≤ x.toNat) :
    (imageOffset table x).toNat = x.toNat - (phdrTableGetLoadSize table).minVaddr.toNat :=
  UInt64.toNat_sub_of_le _ _ (UInt64.le_iff_toNat_le.2 h)

section NoWrap

variable {phdr : Phdr} (hwrap : NoWrap table) (hmem : phdr ∈ table) (hload : phdr.pType = ptLoad)
  (v : Reservation table)
include hwrap hmem hload

theorem toNat_memEnd : (phdr.pVaddr + phdr.pMemsz).toNat = phdr.pVaddr.toNat + phdr.pMemsz.toNat := by
  rw [UInt64.toNat_add, Nat.mod_eq_of_lt (hwrap.sums phdr hmem hload).1]

theorem toNat_fileEnd : (phdr.pVaddr + phdr.pFilesz).toNat = phdr.pVaddr.toNat + phdr.pFilesz.toNat := by
  rw [UInt64.toNat_add, Nat.mod_eq_of_lt (hwrap.sums phdr hmem hload).2.1]

theorem toNat_filePart : (pageOffset phdr.pOffset + phdr.pFilesz).toNat =
    phdr.pOffset.toNat % 4096 + phdr.pFilesz.toNat := by
  rw [UInt64.toNat_add, toNat_pageOffset, Nat.mod_eq_of_lt (hwrap.sums phdr hmem hload).2.2]

theorem minVaddr_add_loadSize :
    (phdrTableGetLoadSize table).minVaddr.toNat + (phdrTableGetLoadSize table).size.toNat =
      (phdrTableGetLoadSize table).maxVaddr.toNat := by
  have hmin := minVaddr_le hmem hload
  have hmax := le_maxVaddr hmem hload hwrap.maxVaddr
  rw [toNat_memEnd hwrap hmem hload] at hmax
  have hs : (phdrTableGetLoadSize table).size.toNat =
      (phdrTableGetLoadSize table).maxVaddr.toNat - (phdrTableGetLoadSize table).minVaddr.toNat :=
    UInt64.toNat_sub_of_le _ _ (UInt64.le_iff_toNat_le.2 (hmin.trans ((Nat.le_add_right _ _).trans hmax)))
  omega

theorem file_iff :
    (pageOffset phdr.pOffset + phdr.pFilesz = 0 ∨
      (imageOffset table (pageStart phdr.pVaddr)).toNat + (pageOffset phdr.pOffset + phdr.pFilesz).toNat ≤
        (phdrTableGetLoadSize table).size.toNat) ↔
    (phdr.pOffset.toNat % 4096 + phdr.pFilesz.toNat = 0 ∨
      phdr.pVaddr.toNat / 4096 * 4096 + phdr.pOffset.toNat % 4096 + phdr.pFilesz.toNat ≤
        (phdrTableGetLoadSize table).maxVaddr.toNat) := by
  have hmin := minVaddr_le hmem hload
  have ha := minVaddr_aligned table
  have hs := minVaddr_add_loadSize hwrap hmem hload
  have hp : (phdrTableGetLoadSize table).minVaddr.toNat ≤ (pageStart phdr.pVaddr).toNat := by
    rw [toNat_pageStart]
    omega
  rw [← UInt64.toNat_inj, toNat_filePart hwrap hmem hload, imageOffset_of_le hp, UInt64.toNat_zero]
  rw [toNat_pageStart] at hp ⊢
  omega

theorem tail_iff (hne : pageOffset (phdr.pVaddr + phdr.pFilesz) ≠ 0) :
    imageOffset table (phdr.pVaddr + phdr.pFilesz) < (phdrTableGetLoadSize table).size ↔
      phdr.pVaddr.toNat + phdr.pFilesz.toNat ≤ (phdrTableGetLoadSize table).maxVaddr.toNat := by
  have hmin := minVaddr_le hmem hload
  have ha := maxVaddr_aligned table
  have hs := minVaddr_add_loadSize hwrap hmem hload
  have hend := toNat_fileEnd hwrap hmem hload
  rw [ne_eq, ← UInt64.toNat_inj, toNat_pageOffset, UInt64.toNat_zero] at hne
  rw [UInt64.lt_iff_toNat_lt, imageOffset_of_le (by omega), hend]
  omega

theorem zero_of_file (hfi : phdr.pOffset.toNat % 4096 + phdr.pFilesz.toNat = 0 ∨
      phdr.pVaddr.toNat / 4096 * 4096 + phdr.pOffset.toNat % 4096 + phdr.pFilesz.toNat ≤
        (phdrTableGetLoadSize table).maxVaddr.toNat)
    (hlt : pageEnd (v.loadStart + imageOffset table (phdr.pVaddr + phdr.pFilesz)) <
      pageEnd (v.loadStart + imageOffset table (phdr.pVaddr + phdr.pMemsz))) :
    pageEnd (imageOffset table (phdr.pVaddr + phdr.pFilesz)) <
        pageEnd (imageOffset table (phdr.pVaddr + phdr.pMemsz)) ∧
      pageEnd (imageOffset table (phdr.pVaddr + phdr.pMemsz)) ≤ (phdrTableGetLoadSize table).size := by
  have hmin := minVaddr_le hmem hload
  have hmax := le_maxVaddr hmem hload hwrap.maxVaddr
  have hsi := minVaddr_add_loadSize hwrap hmem hload
  have hft := v.fits
  have hf := toNat_fileEnd hwrap hmem hload
  have hm := toNat_memEnd hwrap hmem hload
  have hfl : (imageOffset table (phdr.pVaddr + phdr.pFilesz)).toNat ≤
      (phdrTableGetLoadSize table).size.toNat + 4095 := by
    rw [imageOffset_of_le (by omega)]
    omega
  have hme : (imageOffset table (phdr.pVaddr + phdr.pMemsz)).toNat ≤
      (phdrTableGetLoadSize table).size.toNat := by
    rw [imageOffset_of_le (by omega)]
    omega
  clear hmin hmax hsi hf hm hfi
  generalize imageOffset table (phdr.pVaddr + phdr.pFilesz) = x at *
  generalize imageOffset table (phdr.pVaddr + phdr.pMemsz) = y at *
  have ha := v.aligned
  have hs := loadSize_aligned table
  rw [UInt64.lt_iff_toNat_lt, toNat_pageEnd, toNat_pageEnd, UInt64.toNat_add, UInt64.toNat_add] at hlt
  rw [UInt64.lt_iff_toNat_lt, UInt64.le_iff_toNat_le, toNat_pageEnd, toNat_pageEnd]
  omega

theorem segmentFits_iff : SegmentFits v phdr ↔ FileFitsMemory table phdr := by
  have hp : pageOffset (phdr.pVaddr + phdr.pFilesz) ≠ 0 ↔
      (phdr.pVaddr.toNat + phdr.pFilesz.toNat) % 4096 ≠ 0 := by
    rw [ne_eq, ← UInt64.toNat_inj, toNat_pageOffset, toNat_fileEnd hwrap hmem hload, UInt64.toNat_zero]
  refine ⟨fun h => ⟨?_, fun hw hne => ?_⟩, fun h => ⟨?_, fun hw hne => ?_, ?_⟩⟩
  · exact (file_iff hwrap hmem hload).1 h.file
  · exact (tail_iff hwrap hmem hload (hp.2 hne)).1 (h.tail hw (hp.2 hne))
  · exact (file_iff hwrap hmem hload).2 h.file
  · exact (tail_iff hwrap hmem hload hne).2 (h.tail hw (hp.1 hne))
  · exact zero_of_file hwrap hmem hload v h.file

end NoWrap

/-- `LoadSegments` maps and zeroes inside the reservation exactly for the tables whose loadable segments all
fit; where no sum wraps, that says that the file parts end within the pages of the table's `p_memsz`. -/
theorem loadSegments_inside_reservation_iff (env : Env) (v : Reservation table) (fileOffset fileSize : Int64)
    {calls : List Effect} (h : loadSegments env (v.reader fileOffset fileSize) = .ok calls) :
    ((∀ a, Touched calls a → v.Contains a) ↔ ∀ phdr ∈ table, phdr.pType = ptLoad → SegmentFits v phdr) ∧
      (NoWrap table → ((∀ a, Touched calls a → v.Contains a) ↔
        ∀ phdr ∈ table, phdr.pType = ptLoad → FileFitsMemory table phdr)) := by
  obtain ⟨-, ht⟩ := loadSegments_ok h
  have hiff : (∀ a, Touched calls a → v.Contains a) ↔
      ∀ phdr ∈ table, phdr.pType = ptLoad → SegmentFits v phdr := by
    simp only [ht, forall_exists_index, and_imp, ← segmentTouches_inside_iff v fileOffset fileSize]
    exact ⟨fun h phdr hmem hload a => h a phdr hmem hload, fun h a phdr hmem hload => h phdr hmem hload a⟩
  refine ⟨hiff, fun hwrap => hiff.trans ?_⟩
  exact forall₃_congr fun phdr hmem hload => segmentFits_iff hwrap hmem hload v

def textAndData : List Phdr :=
  [{ pType := ptLoad, pFlags := pfR ||| pfX, pOffset := 0, pVaddr := 0, pFilesz := 0x1800, pMemsz := 0x1800,
     pAlign := 0x1000 },
   { pType := ptLoad, pFlags := pfR ||| pfW, pOffset := 0x1800, pVaddr := 0x2800, pFilesz := 0x600,
     pMemsz := 0x2000, pAlign := 0x1000 }]

def textAndDataReservation : Reservation textAndData where
  loadStart := 0x7f0000000000
  aligned := by decide
  nonempty := by decide
  fits := by decide

def textAndDataCalls : List Effect :=
  [.mmapFile 0x7f0000000000 0x1800 5 0, .mmapFile 0x7f0000002000 0xe00 3 0x1000,
    .memset 0x7f0000002e00 0x200, .mmapZero 0x7f0000003000 0x2000 3, .setVmaName 0x7f0000003000 0x2000]

theorem loadSegments_inside_reservation_textAndData :
    loadSegments grantingEnv (textAndDataReservation.reader 0 0x1e00) = .ok textAndDataCalls ∧
      ((∀ a, Touched textAndDataCalls a → textAndDataReservation.Contains a) ↔
        ∀ phdr ∈ textAndData, phdr.pType = ptLoad → FileFitsMemory textAndData phdr) := by
  have h : loadSegments grantingEnv (textAndDataReservation.reader 0 0x1e00) = .ok textAndDataCalls := by
    decide +kernel
  refine ⟨h, (loadSegments_inside_reservation_iff grantingEnv textAndDataReservation 0 0x1e00 h).2 ⟨?_, ?_⟩⟩
  · decide +kernel
  · decide +kernel

def overlongFile : List Phdr :=
  [{ pType := ptLoad, pFlags := pfR, pOffset := 0, pVaddr := 0, pFilesz := 0x3000, pMemsz := 0x1000,
     pAlign := 0x1000 }]

def overlongFileReservation : Reservation overlongFile where
  loadStart := 0x7f0000000000
  aligned := by decide
  nonempty := by decide
  fits := by decide

theorem loadSegments_outside_reservation :
    ∃ calls, loadSegments grantingEnv (overlongFileReservation.reader 0 0x3000) = .ok calls ∧
      ∃ a, Touched calls a ∧ ¬ overlongFileReservation.Contains a := by
  refine ⟨[.mmapFile 0x7f0000000000 0x3000 1 0], by decide +kernel, 0x7f0000001000, ?_, ?_⟩
  · simp only [touched_cons, not_touched_nil, Effect.Touches]
    decide
  · simp only [Reservation.Contains]
    decide

end Bionic.Linker
