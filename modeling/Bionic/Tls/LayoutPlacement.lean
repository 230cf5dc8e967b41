import Bionic.Tls.LayoutExe

namespace Bionic.StaticTls

open Lib

variable (g : Target) {l : StaticTlsLayout g.bits} {exe : Option (TlsSegment g.bits)} {offset : BitVec g.bits}
  {solibs : List (TlsSegment g.bits)} {p : Placement g} {seg : TlsSegment g.bits}

def LeastAligned (exe : Option (TlsSegment g.bits)) : Prop :=
  g.arm → ∀ seg ∈ exe, seg.alignment ≤ minBionicAlignment g

theorem slotsBelow_x86 (hx86 : ¬ g.arm) : g.slotsBelow * g.sizeofPointer = 0 := by
  rw [Target.slotsBelow, if_neg hx86]
  exact Nat.zero_mul _

theorem ArmNumbers.least (n : ArmNumbers g seg offset l) (harm : g.arm)
    (h : seg.alignment ≤ minBionicAlignment g) : seg.alignment.toNat = 8 * g.sizeofPointer := by
  rw [BitVec.le_def, toNat_minBionicAlignment g harm] at h
  exact Nat.le_antisymm h n.alignment_ge

section

variable (h : reserveExeSegmentAndTcb g (.empty g.bits) exe = some (offset, l))

include h

theorem reserveExe_laid (hc : LeastAligned g exe) : Laid l (tcbRegion g l :: exeRegions g exe offset) := by
  cases exe with
  | none =>
    cases h
    exact laid_reserveTcb g
  | some seg =>
    change (if g.arm then reserveArm g _ seg else some (reserveX86 g _ seg)) = some (offset, l) at h
    split at h
    case isTrue harm =>
      intro ho
      have n := reserveArm_numbers g harm h ho
      exact n.fits g harm (n.least g harm (hc harm seg rfl))
    case isFalse =>
      have he := Option.some.inj h
      have hl := laid_reserveX86 g seg
      rw [he] at hl
      exact hl

theorem reserveExe_exeAt (hc : LeastAligned g exe) (ho : l.overflowed = false) :
    ∀ seg ∈ exe, ExeAt g seg offset (offsetThreadPointer g l) := by
  intro seg hseg
  cases hseg
  change (if g.arm then reserveArm g _ seg else some (reserveX86 g _ seg)) = some (offset, l) at h
  rw [ExeAt, offsetThreadPointer]
  split at h
  case isTrue harm =>
    have n := reserveArm_numbers g harm h ho
    have hl := n.least g harm (hc harm seg rfl)
    obtain ⟨hr, htcb⟩ := n.tcb_of_least g hl
    have hbig := two_pow_32_le g
    have hpos : 0 < g.sizeofPointer := by
      rcases target_cases g with ⟨-, hp⟩ | ⟨-, hp⟩ <;> omega
    have htp : (l.offsetBionicTcb + g.sizeT g.sizeofPointer).toNat = 8 * g.sizeofPointer := by
      rw [BitVec.toNat_add, toNat_sizeofPointer, htcb, Nat.mod_eq_of_lt (by omega)]
      omega
    rw [if_pos harm, slotsBelow_arm g harm, htp, hr, hl, roundUp_of_le (by omega) (by omega)]
    omega
  case isFalse hx86 =>
    have he := Option.some.inj h
    obtain ⟨exeSize, maxAlign, top, n⟩ := reserveX86_numbers g seg (by rw [he]; exact ho)
    rw [he] at n
    have hle : exeSize ≤ top := by
      rw [n.top_eq]
      exact le_roundUp _ n.maxAlign_pos
    have hz : g.sizeT 0 = 0#g.bits := rfl
    rw [if_neg hx86, slotsBelow_x86 g hx86, hz, BitVec.add_zero, n.tcb_eq, n.result_eq, ← n.exeSize_eq]
    omega

end

/-- With a larger alignment the TCB starts one word before the block. -/
theorem reserveExe_tcb_below (harm : g.arm)
    (h : reserveExeSegmentAndTcb g (.empty g.bits) (some seg) = some (offset, l)) (ho : l.overflowed = false)
    (hl : ¬ seg.alignment ≤ minBionicAlignment g) :
    l.offsetBionicTcb.toNat = 2 ^ g.bits - g.sizeofPointer := by
  change (if g.arm then reserveArm g _ seg else some (reserveX86 g _ seg)) = some (offset, l) at h
  rw [if_pos harm] at h
  have n := reserveArm_numbers g harm h ho
  rw [BitVec.le_def, toNat_minBionicAlignment g harm] at hl
  exact n.tcb_of_larger g (Nat.lt_of_not_le hl)

theorem layOut_eq_some (h : layOut g exe solibs = some p) :
    ∃ l l', reserveExeSegmentAndTcb g (.empty g.bits) exe = some (p.exe, l) ∧
      finishLayout g (reserveSolibSegments g (reserveBionicTls g l) solibs).2 = some l' ∧
      p = ⟨p.exe, (reserveSolibSegments g (reserveBionicTls g l) solibs).1, l'⟩ := by
  obtain ⟨⟨offset, l⟩, hexe, h⟩ := Option.bind_eq_some_iff.1 h
  obtain ⟨l', hf, h⟩ := Option.bind_eq_some_iff.1 h
  cases h
  exact ⟨l, l', hexe, hf, rfl⟩

/-- A layout that is not given up is sound exactly if the executable's segment is aligned as little as allowed. -/
theorem static_tls_layout_sound_iff (h : layOut g exe solibs = some p) :
    Sound g exe solibs p ↔ LeastAligned g exe := by
  obtain ⟨l, l', hexe, hfi, hp⟩ := layOut_eq_some g h
  obtain ⟨htcb, htls, hle, ho⟩ := reserveSolibSegments_kept g (reserveBionicTls g l) solibs
  obtain ⟨hf, hsi, ha, htcb', htls'⟩ := finishLayout_spec g hfi
  have hl : l.overflowed = false := (reserve_overflowed (ho hf)).1
  have ht : p.layout.offsetBionicTcb = l.offsetBionicTcb := by
    rw [hp]
    exact htcb'.trans htcb
  constructor
  · intro hs harm seg hseg
    cases hseg
    by_contra hlr
    have hb := reserveExe_tcb_below g harm hexe hl hlr
    have hi := hs.packed.inside (tcbRegion g p.layout) (by simp [regions])
    rw [Region.stop, tcbRegion, ht, hb, sizeofBionicTcb_arm g harm] at hi
    change 2 ^ g.bits - g.sizeofPointer + 9 * g.sizeofPointer ≤ _ at hi
    have hlt := p.layout.offset.isLt
    omega
  · intro hc
    have hla := ((reserveExe_laid g hexe hc).reserveBionicTls g).reserveSolibSegments g solibs hf
    have hr : regions g exe solibs p =
        tcbRegion g l :: exeRegions g exe p.exe ++
          [⟨(reserveBionicTls g l).offsetBionicTls.toNat, g.sizeofBionicTls, 2 ^ g.log2AlignofBionicTls⟩] ++
          List.zipWith (fun offset seg => reserved offset seg.size seg.alignment)
            (reserveSolibSegments g (reserveBionicTls g l) solibs).1 solibs := by
      rw [regions, tcbRegion, ht, hp, htls', htls]
      rfl
    refine ⟨?_, ?_, ?_, ?_⟩
    · rw [hr, hp]
      exact hla.packed.mono hsi
    · rw [hr, hp, ha]
      exact hla.covers
    · rw [hp]
      exact hle
    · intro seg hseg
      rw [offsetThreadPointer, ht]
      exact reserveExe_exeAt g hexe hc hl seg hseg

def arm64 : Target := ⟨true, true, 12288, 3, by decide, by decide⟩

def smallSegment : TlsSegment arm64.bits := ⟨40#64, 64#64, 6, by decide, rfl⟩

def alignedSegment : TlsSegment arm64.bits := ⟨128#64, 128#64, 7, by decide, rfl⟩

theorem static_tls_layout_sound_iff_smallSegment :
    ∃ p, layOut arm64 (some smallSegment) [alignedSegment] = some p ∧
      Sound arm64 (some smallSegment) [alignedSegment] p := by
  refine ⟨_, rfl, (static_tls_layout_sound_iff arm64 rfl).2 ?_⟩
  intro _ seg hseg
  cases hseg
  decide

theorem static_tls_layout_unsound_alignedSegment :
    ∃ p, layOut arm64 (some alignedSegment) [] = some p ∧ ¬ Sound arm64 (some alignedSegment) [] p := by
  refine ⟨_, rfl, ?_⟩
  intro hs
  have hi := hs.packed.inside _ (List.mem_cons_self ..)
  revert hi
  decide

end Bionic.StaticTls
