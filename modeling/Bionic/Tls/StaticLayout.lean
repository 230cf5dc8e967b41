import Bionic.Lib.Align
import Bionic.Lib.Regions

namespace Bionic.StaticTls

open Lib Nat

structure Target where
  arm : Bool
  lp64 : Bool
  sizeofBionicTls : Nat
  log2AlignofBionicTls : Nat
  size_lt : sizeofBionicTls < 2 ^ 32
  align_lt : log2AlignofBionicTls < 32

variable (g : Target)

def Target.bits : Nat := if g.lp64 then 64 else 32

def Target.sizeofPointer : Nat := if g.lp64 then 8 else 4

def Target.slotsBelow : Nat := if g.arm then 1 else 0

def Target.maxTlsSlot : Nat := if g.arm then 7 else 9

def Target.bionicTlsSlots : Nat := g.maxTlsSlot + g.slotsBelow + 1

def Target.sizeofBionicTcb : Nat := g.bionicTlsSlots * g.sizeofPointer

def roundUpPowerOf2 (value : Nat) : Nat := 1 <<< (value.log2 + 1)

structure TlsSegment (w : Nat) where
  size : BitVec w
  alignment : BitVec w
  power : ∃ k < w, alignment.toNat = 2 ^ k

structure StaticTlsLayout (w : Nat) where
  offset : BitVec w
  alignment : BitVec w
  overflowed : Bool
  offsetBionicTcb : BitVec w
  offsetBionicTls : BitVec w

def bionicAlign {w : Nat} (value alignment : BitVec w) : BitVec w := (value + alignment - 1) &&& ~~~(alignment - 1)

namespace StaticTlsLayout

variable {w : Nat} (l : StaticTlsLayout w)

def empty (w : Nat) : StaticTlsLayout w := ⟨0, 1, false, BitVec.allOnes w, BitVec.allOnes w⟩

def roundUpWithOverflowCheck (value alignment : BitVec w) : BitVec w × StaticTlsLayout w :=
  (bionicAlign value alignment,
    { l with overflowed := l.overflowed || decide (bionicAlign value alignment < value) })

def addOffset (size : BitVec w) : StaticTlsLayout w :=
  { l with offset := l.offset + size, overflowed := l.overflowed || decide (l.offset + size < l.offset) }

def reserve (size alignment : BitVec w) : BitVec w × StaticTlsLayout w :=
  let (result, l) := l.roundUpWithOverflowCheck l.offset alignment
  let l := addOffset { l with offset := result } size
  (result, { l with alignment := if alignment < l.alignment then l.alignment else alignment })

end StaticTlsLayout

section Target

variable (g : Target) (l : StaticTlsLayout g.bits) (exe : TlsSegment g.bits)

open StaticTlsLayout

def Target.sizeT (n : Nat) : BitVec g.bits := BitVec.ofNat g.bits n

def reserveTcb : StaticTlsLayout g.bits :=
  let (result, l) := l.reserve (g.sizeT g.sizeofBionicTcb) (g.sizeT g.sizeofPointer)
  { l with offsetBionicTcb := result }

def exeTpoff (alignment : BitVec g.bits) : BitVec g.bits := bionicAlign (g.sizeT (g.sizeofPointer * 2)) alignment

def minBionicAlignment : BitVec g.bits := g.sizeT (roundUpPowerOf2 g.maxTlsSlot * g.sizeofPointer)

/-- The ARM branch of reserve_exe_segment_and_tcb, `none` where it ends in async_safe_fatal. -/
def reserveArm : Option (BitVec g.bits × StaticTlsLayout g.bits) :=
  let (_, l) := l.reserve (g.sizeT g.sizeofBionicTcb) 1
  let (result, l) := l.reserve exe.size exe.alignment
  if exeTpoff g exe.alignment < minBionicAlignment g then none
  else
    some (result,
      { l with offsetBionicTcb := result - exeTpoff g exe.alignment - g.sizeT (g.slotsBelow * g.sizeofPointer) })

def reserveX86 : BitVec g.bits × StaticTlsLayout g.bits :=
  let (exeSize, l) := l.roundUpWithOverflowCheck exe.size exe.alignment
  let (_, l) := l.reserve exeSize 1
  let alignofTcb := g.sizeT g.sizeofPointer
  let maxAlign := if exe.alignment < alignofTcb then alignofTcb else exe.alignment
  let (result, l) := l.reserve (g.sizeT g.sizeofBionicTcb) maxAlign
  (result - exeSize, { l with offsetBionicTcb := result })

/-- Where the executable has no segment the result of the source is not used. -/
def reserveExeSegmentAndTcb :
    Option (TlsSegment g.bits) → Option (BitVec g.bits × StaticTlsLayout g.bits)
  | none => some (0, reserveTcb g l)
  | some exe => if g.arm then reserveArm g l exe else some (reserveX86 g l exe)

def reserveBionicTls : StaticTlsLayout g.bits :=
  let (result, l) := l.reserve (g.sizeT g.sizeofBionicTls) (g.sizeT (2 ^ g.log2AlignofBionicTls))
  { l with offsetBionicTls := result }

def reserveSolibSegment (segment : TlsSegment g.bits) : BitVec g.bits × StaticTlsLayout g.bits :=
  l.reserve segment.size segment.alignment

def reserveSolibSegments (l : StaticTlsLayout g.bits) :
    List (TlsSegment g.bits) → List (BitVec g.bits) × StaticTlsLayout g.bits
  | [] => ([], l)
  | segment :: segments =>
    let (result, l) := reserveSolibSegment g l segment
    let (results, l) := reserveSolibSegments l segments
    (result :: results, l)

def finishLayout : Option (StaticTlsLayout g.bits) :=
  let (offset, l) := l.roundUpWithOverflowCheck l.offset l.alignment
  if l.overflowed then none else some { l with offset := offset }

def offsetThreadPointer : BitVec g.bits :=
  l.offsetBionicTcb + g.sizeT (g.slotsBelow * g.sizeofPointer)

structure Placement where
  exe : BitVec g.bits
  solibs : List (BitVec g.bits)
  layout : StaticTlsLayout g.bits

def layOut (exe : Option (TlsSegment g.bits)) (solibs : List (TlsSegment g.bits)) : Option (Placement g) := do
  let (exeOffset, l) ← reserveExeSegmentAndTcb g (empty g.bits) exe
  let (offsets, l) := reserveSolibSegments g (reserveBionicTls g l) solibs
  let l ← finishLayout g l
  return ⟨exeOffset, offsets, l⟩

end Target

section Align

variable {w k : Nat} {value alignment : BitVec w}

theorem toNat_bionicAlign (value : BitVec w) (hk : k < w) (ha : alignment.toNat = 2 ^ k) :
    (bionicAlign value alignment).toNat = (value.toNat + (2 ^ k - 1)) % 2 ^ w / 2 ^ k * 2 ^ k := by
  have hone : (1 : BitVec w).toNat = 1 := BitVec.toNat_one (by omega)
  have hm : (alignment - 1).toNat = 2 ^ k - 1 := by
    have hle : (1 : BitVec w) ≤ alignment := by
      rw [BitVec.le_def, hone, ha]
      exact Nat.one_le_two_pow
    rw [BitVec.toNat_sub_of_le hle, ha, hone]
  have hsum : value + alignment - 1 = value + (alignment - 1) := by
    rw [BitVec.sub_eq_add_neg, BitVec.sub_eq_add_neg, BitVec.add_assoc]
  rw [bionicAlign, BitVec.toNat_and, BitVec.toNat_not, hsum, BitVec.toNat_add, hm]
  exact and_high_mask (Nat.le_of_lt hk) (Nat.mod_lt _ (Nat.two_pow_pos w))

/-- The source recognises a rounding that wraps around by a result below the value. -/
theorem toNat_bionicAlign_of_le (hk : k < w) (ha : alignment.toNat = 2 ^ k) (h : ¬ bionicAlign value alignment < value) :
    (bionicAlign value alignment).toNat = roundUp value.toNat (2 ^ k) := by
  have hval := toNat_bionicAlign value hk ha
  have hpos := Nat.two_pow_pos k
  by_cases hfit : value.toNat + (2 ^ k - 1) < 2 ^ w
  · rw [hval, roundUp, Nat.mod_eq_of_lt hfit]
  · have hv := value.isLt
    have hw : (value.toNat + (2 ^ k - 1)) % 2 ^ w < 2 ^ k := by
      rw [mod_eq_sub_mod (by omega), mod_eq_of_lt (by omega)]
      omega
    rw [div_eq_of_lt hw, zero_mul] at hval
    rw [BitVec.lt_def, hval] at h
    omega

theorem toNat_bionicAlign_of_fits (hk : k < w) (ha : alignment.toNat = 2 ^ k)
    (h : value.toNat + (2 ^ k - 1) < 2 ^ w) : (bionicAlign value alignment).toNat = roundUp value.toNat (2 ^ k) := by
  rw [toNat_bionicAlign value hk ha, roundUp, mod_eq_of_lt h]

end Align

section Reserve

variable {w : Nat} {l : StaticTlsLayout w} {size alignment : BitVec w} {rs : List Region}

/-- What is known of a layout that has not overflowed: the regions reserved so far lie below the offset, and every
alignment divides the one of the layout. -/
structure Fits (l : StaticTlsLayout w) (rs : List Region) : Prop where
  packed : Packed rs l.offset.toNat
  power : ∃ k < w, l.alignment.toNat = 2 ^ k
  covers : ∀ r ∈ rs, r.align ∣ l.alignment.toNat

def Laid (l : StaticTlsLayout w) (rs : List Region) : Prop := l.overflowed = false → Fits l rs

theorem Laid.congr {l' : StaticTlsLayout w} (h : Laid l rs) (ho : l'.offset = l.offset)
    (ha : l'.alignment = l.alignment) (hv : l'.overflowed = l.overflowed) : Laid l' rs := by
  intro hov
  obtain ⟨hp, hpo, hc⟩ := h (hv.symm.trans hov)
  refine ⟨?_, ?_, ?_⟩
  · rwa [ho]
  · rwa [ha]
  · rwa [ha]

theorem laid_empty (hw : 0 < w) : Laid (.empty w) [] := by
  intro _
  exact ⟨.nil _, ⟨0, hw, BitVec.toNat_one hw⟩, by simp⟩

theorem reserve_overflowed (h : (l.reserve size alignment).2.overflowed = false) :
    l.overflowed = false ∧ ¬ bionicAlign l.offset alignment < l.offset ∧
      ¬ bionicAlign l.offset alignment + size < bionicAlign l.offset alignment := by
  simp only [StaticTlsLayout.reserve, StaticTlsLayout.roundUpWithOverflowCheck, StaticTlsLayout.addOffset,
    Bool.or_eq_false_iff, decide_eq_false_iff_not] at h
  exact ⟨h.1.1, h.1.2, of_decide_eq_false h.2⟩

theorem toNat_add_of_le {x y : BitVec w} (h : ¬ x + y < x) : (x + y).toNat = x.toNat + y.toNat := by
  rw [BitVec.lt_def, BitVec.toNat_add] at h
  have hx := x.isLt
  have hy := y.isLt
  by_cases hfit : x.toNat + y.toNat < 2 ^ w
  · exact mod_eq_of_lt hfit
  · rw [mod_eq_sub_mod (by omega), mod_eq_of_lt (by omega)] at h
    omega

theorem reserve_result (ha : ∃ k < w, alignment.toNat = 2 ^ k) (h : (l.reserve size alignment).2.overflowed = false) :
    (l.reserve size alignment).1.toNat = roundUp l.offset.toNat alignment.toNat := by
  obtain ⟨k, hk, ha⟩ := ha
  rw [ha]
  exact toNat_bionicAlign_of_le hk ha (reserve_overflowed h).2.1

theorem reserve_offset (h : (l.reserve size alignment).2.overflowed = false) :
    (l.reserve size alignment).2.offset.toNat = (l.reserve size alignment).1.toNat + size.toNat :=
  toNat_add_of_le (reserve_overflowed h).2.2

theorem two_pow_dvd_total (i j : Nat) : 2 ^ i ∣ 2 ^ j ∨ 2 ^ j < 2 ^ i := by
  rcases Nat.lt_or_ge j i with h | h
  · exact .inr (Nat.pow_lt_pow_right (by decide) h)
  · exact .inl (Nat.pow_dvd_pow 2 h)

theorem reserve_alignment (size : BitVec w) (ha : ∃ k < w, alignment.toNat = 2 ^ k) (hl : ∃ k < w, l.alignment.toNat = 2 ^ k) :
    (∃ k < w, (l.reserve size alignment).2.alignment.toNat = 2 ^ k) ∧
      l.alignment.toNat ∣ (l.reserve size alignment).2.alignment.toNat ∧
      alignment.toNat ∣ (l.reserve size alignment).2.alignment.toNat := by
  obtain ⟨i, hi, ha⟩ := ha
  obtain ⟨j, hj, hl⟩ := hl
  have hmax : (l.reserve size alignment).2.alignment = if alignment < l.alignment then l.alignment else alignment := rfl
  rw [hmax]
  split
  case isTrue h =>
    rw [BitVec.lt_def, hl] at h
    rw [hl, ha]
    exact ⟨⟨j, hj, rfl⟩, dvd_refl _, (two_pow_dvd_total i j).resolve_right (by omega)⟩
  case isFalse h =>
    rw [BitVec.lt_def, ha, hl] at h
    rw [hl, ha]
    exact ⟨⟨i, hi, rfl⟩, (two_pow_dvd_total j i).resolve_right h, dvd_refl _⟩

def reserved (result size alignment : BitVec w) : Region := ⟨result.toNat, size.toNat, alignment.toNat⟩

theorem Laid.reserve (h : Laid l rs) (size : BitVec w) (ha : ∃ k < w, alignment.toNat = 2 ^ k) :
    Laid (l.reserve size alignment).2 (rs ++ [reserved (l.reserve size alignment).1 size alignment]) := by
  intro ho
  obtain ⟨hl, -⟩ := reserve_overflowed ho
  have hf := h hl
  have hre := reserve_result ha ho
  obtain ⟨hp, hold, hnew⟩ := reserve_alignment size ha hf.power
  have hpos : 0 < alignment.toNat := by
    obtain ⟨k, -, hk⟩ := ha
    rw [hk]
    exact Nat.two_pow_pos k
  refine ⟨?_, hp, ?_⟩
  · have hpu := hf.packed.push (r := reserved (l.reserve size alignment).1 size alignment)
      (by rw [reserved, hre]; exact le_roundUp _ hpos) (by rw [reserved, hre]; exact dvd_roundUp _ _)
    rw [reserve_offset ho]
    exact hpu
  · intro r hr
    rcases List.mem_append.1 hr with hr | hr
    · exact (hf.covers r hr).trans hold
    · rw [List.mem_singleton.1 hr]
      exact hnew

end Reserve

end Bionic.StaticTls
