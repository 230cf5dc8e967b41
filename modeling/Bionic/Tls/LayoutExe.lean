import Bionic.Tls.StaticLayout

namespace Bionic.StaticTls

open Lib

variable (g : Target) {l : StaticTlsLayout g.bits} {rs : List Region} (exe : Option (TlsSegment g.bits))

def tcbRegion (l : StaticTlsLayout g.bits) : Region := ⟨l.offsetBionicTcb.toNat, g.sizeofBionicTcb, g.sizeofPointer⟩

def exeRegions (offset : BitVec g.bits) : List Region :=
  exe.toList.map fun seg => reserved offset seg.size seg.alignment

def regions (solibs : List (TlsSegment g.bits)) (p : Placement g) : List Region :=
  tcbRegion g p.layout :: exeRegions g exe p.exe ++
    [⟨p.layout.offsetBionicTls.toNat, g.sizeofBionicTls, 2 ^ g.log2AlignofBionicTls⟩] ++
    List.zipWith (fun offset seg => reserved offset seg.size seg.alignment) p.solibs solibs

/-- Where the ABI wants the executable's segment, relative to the thread pointer `tp`. -/
def ExeAt (seg : TlsSegment g.bits) (exe tp : BitVec g.bits) : Prop :=
  if g.arm then exe.toNat = tp.toNat + roundUp (g.sizeofPointer * 2) seg.alignment.toNat
  else exe.toNat + roundUp seg.size.toNat seg.alignment.toNat = tp.toNat

structure Sound (exe : Option (TlsSegment g.bits)) (solibs : List (TlsSegment g.bits)) (p : Placement g) : Prop where
  packed : Packed (regions g exe solibs p) p.layout.offset.toNat
  covers : ∀ r ∈ regions g exe solibs p, r.align ∣ p.layout.alignment.toNat
  length : p.solibs.length = solibs.length
  exe_at : ∀ seg ∈ exe, ExeAt g seg p.exe (offsetThreadPointer g p.layout)

section Numbers

theorem target_cases : g.bits = 32 ∧ g.sizeofPointer = 4 ∨ g.bits = 64 ∧ g.sizeofPointer = 8 := by
  rw [Target.bits, Target.sizeofPointer]
  cases g.lp64 with
  | false => exact .inl ⟨rfl, rfl⟩
  | true => exact .inr ⟨rfl, rfl⟩

theorem two_pow_32_le : 2 ^ 32 ≤ 2 ^ g.bits := by
  apply Nat.pow_le_pow_right (by decide)
  rcases target_cases g with ⟨h, -⟩ | ⟨h, -⟩ <;> omega

theorem toNat_sizeT {n : Nat} (h : n < 2 ^ 32) : (g.sizeT n).toNat = n := by
  exact Nat.mod_eq_of_lt (h.trans_le (two_pow_32_le g))

theorem sizeofPointer_pow : ∃ k < g.bits, g.sizeofPointer = 2 ^ k := by
  rcases target_cases g with ⟨h, h'⟩ | ⟨h, h'⟩ <;> rw [h, h']
  · exact ⟨2, by decide, rfl⟩
  · exact ⟨3, by decide, rfl⟩

theorem sizeofPointer_le : g.sizeofPointer ≤ 8 := by
  rcases target_cases g with ⟨-, h⟩ | ⟨-, h⟩ <;> omega

theorem sizeofBionicTcb_lt : g.sizeofBionicTcb < 2 ^ 32 := by
  have h := sizeofPointer_le g
  rw [Target.sizeofBionicTcb, Target.bionicTlsSlots, Target.maxTlsSlot, Target.slotsBelow]
  cases g.arm <;> simp only [if_true, Bool.false_eq_true, if_false] <;> omega

theorem bits_pos : 0 < g.bits := by
  rcases target_cases g with ⟨h, -⟩ | ⟨h, -⟩ <;> omega

theorem toNat_sizeofPointer : (g.sizeT g.sizeofPointer).toNat = g.sizeofPointer :=
  toNat_sizeT g ((sizeofPointer_le g).trans_lt (by decide))

theorem toNat_sizeofBionicTcb : (g.sizeT g.sizeofBionicTcb).toNat = g.sizeofBionicTcb :=
  toNat_sizeT g (sizeofBionicTcb_lt g)

end Numbers

section Calls

theorem laid_reserveTcb :
    Laid (reserveTcb g (.empty g.bits))
      [tcbRegion g (reserveTcb g (.empty g.bits))] := by
  have hpow : ∃ k < g.bits, (g.sizeT g.sizeofPointer).toNat = 2 ^ k := by
    rw [toNat_sizeofPointer]
    exact sizeofPointer_pow g
  have h := (laid_empty (bits_pos g)).reserve (g.sizeT g.sizeofBionicTcb) hpow
  rw [reserved, toNat_sizeofPointer, toNat_sizeofBionicTcb] at h
  exact h.congr rfl rfl rfl

theorem Laid.reserveBionicTls (h : Laid l rs) :
    Laid (reserveBionicTls g l)
      (rs ++ [⟨(reserveBionicTls g l).offsetBionicTls.toNat, g.sizeofBionicTls, 2 ^ g.log2AlignofBionicTls⟩]) := by
  have hlt : 2 ^ g.log2AlignofBionicTls < 2 ^ 32 := Nat.pow_lt_pow_right (by decide) g.align_lt
  have hb : g.log2AlignofBionicTls < g.bits := by
    have := g.align_lt
    rcases target_cases g with ⟨h, -⟩ | ⟨h, -⟩ <;> omega
  have hpow : ∃ k < g.bits, (g.sizeT (2 ^ g.log2AlignofBionicTls)).toNat = 2 ^ k :=
    ⟨g.log2AlignofBionicTls, hb, toNat_sizeT g hlt⟩
  have hnew := h.reserve (g.sizeT g.sizeofBionicTls) hpow
  rw [reserved, toNat_sizeT g hlt, toNat_sizeT g g.size_lt] at hnew
  exact hnew.congr rfl rfl rfl

theorem Laid.reserveSolibSegments (h : Laid l rs) (solibs : List (TlsSegment g.bits)) :
    Laid (reserveSolibSegments g l solibs).2
      (rs ++ List.zipWith (fun offset seg => reserved offset seg.size seg.alignment)
        (reserveSolibSegments g l solibs).1 solibs) := by
  induction solibs generalizing l rs with
  | nil =>
    rw [List.zipWith_nil_right, List.append_nil]
    exact h
  | cons seg solibs ih =>
    have hs := ih (h.reserve seg.size seg.power)
    rw [List.append_assoc] at hs
    exact hs

theorem reserveSolibSegments_kept (l : StaticTlsLayout g.bits) (solibs : List (TlsSegment g.bits)) :
    (reserveSolibSegments g l solibs).2.offsetBionicTcb = l.offsetBionicTcb ∧
      (reserveSolibSegments g l solibs).2.offsetBionicTls = l.offsetBionicTls ∧
      (reserveSolibSegments g l solibs).1.length = solibs.length ∧
      ((reserveSolibSegments g l solibs).2.overflowed = false → l.overflowed = false) := by
  induction solibs generalizing l with
  | nil => exact ⟨rfl, rfl, rfl, id⟩
  | cons seg solibs ih =>
    obtain ⟨htcb, htls, hlen, ho⟩ := ih (reserveSolibSegment g l seg).2
    exact ⟨htcb, htls, congrArg (· + 1) hlen, fun h => (reserve_overflowed (ho h)).1⟩

theorem finishLayout_spec {l' : StaticTlsLayout g.bits} (h : finishLayout g l = some l') :
    l.overflowed = false ∧ l.offset.toNat ≤ l'.offset.toNat ∧ l'.alignment = l.alignment ∧
      l'.offsetBionicTcb = l.offsetBionicTcb ∧ l'.offsetBionicTls = l.offsetBionicTls := by
  change (if (l.roundUpWithOverflowCheck l.offset l.alignment).2.overflowed then none else some _) = some l' at h
  split at h
  case isTrue => cases h
  case isFalse ho =>
    rw [Bool.not_eq_true, StaticTlsLayout.roundUpWithOverflowCheck, Bool.or_eq_false_iff] at ho
    have hr := of_decide_eq_false ho.2
    cases h
    exact ⟨ho.1, Nat.le_of_not_lt hr, rfl, rfl, rfl⟩

end Calls

variable {seg : TlsSegment g.bits} {result : BitVec g.bits}

theorem one_pow (hw : 0 < g.bits) : ∃ k < g.bits, (1 : BitVec g.bits).toNat = 2 ^ k :=
  ⟨0, hw, BitVec.toNat_one hw⟩

theorem reserve_empty {size : BitVec g.bits} (l : StaticTlsLayout g.bits) (hl : l.offset = 0)
    (h : (l.reserve size 1).2.overflowed = false) : (l.reserve size 1).2.offset.toNat = size.toNat := by
  have hone : (1 : BitVec g.bits).toNat = 1 := BitVec.toNat_one (bits_pos g)
  rw [reserve_offset h, reserve_result (one_pow g (bits_pos g)) h, hl, hone, roundUp]
  simp

section X86

/-- What reserve_exe_segment_and_tcb computes on x86: the segment ends where the TCB starts, at `top`. -/
structure X86Numbers (seg : TlsSegment g.bits) (result : BitVec g.bits) (l : StaticTlsLayout g.bits)
    (exeSize maxAlign top : Nat) : Prop where
  exeSize_eq : exeSize = roundUp seg.size.toNat seg.alignment.toNat
  segment_dvd : seg.alignment.toNat ∣ maxAlign
  pointer_dvd : g.sizeofPointer ∣ maxAlign
  maxAlign_pos : 0 < maxAlign
  top_eq : top = roundUp exeSize maxAlign
  tcb_eq : l.offsetBionicTcb.toNat = top
  result_eq : result.toNat = top - exeSize
  offset_eq : l.offset.toNat = top + g.sizeofBionicTcb
  alignment_dvd : maxAlign ∣ l.alignment.toNat
  power : ∃ k < g.bits, l.alignment.toNat = 2 ^ k

theorem reserveX86_numbers (seg : TlsSegment g.bits) (h : (reserveX86 g (.empty g.bits) seg).2.overflowed = false) :
    ∃ exeSize maxAlign top : Nat,
      X86Numbers g seg (reserveX86 g (.empty g.bits) seg).1 (reserveX86 g (.empty g.bits) seg).2 exeSize maxAlign top := by
  obtain ⟨k, hk, hpow⟩ := seg.power
  obtain ⟨j, hj, hptr⟩ := sizeofPointer_pow g
  let l₁ := (StaticTlsLayout.empty g.bits).roundUpWithOverflowCheck seg.size seg.alignment
  let l₂ := l₁.2.reserve l₁.1 1
  let maxAlign := if seg.alignment < g.sizeT g.sizeofPointer then g.sizeT g.sizeofPointer else seg.alignment
  let l₃ := l₂.2.reserve (g.sizeT g.sizeofBionicTcb) maxAlign
  have h₃ : l₃.2.overflowed = false := h
  have h₂ : l₂.2.overflowed = false := (reserve_overflowed h₃).1
  have h₁ : l₁.2.overflowed = false := (reserve_overflowed h₂).1
  have hs : l₁.1.toNat = roundUp seg.size.toNat seg.alignment.toNat := by
    rw [hpow]
    have hr : decide (bionicAlign seg.size seg.alignment < seg.size) = false := h₁
    exact toNat_bionicAlign_of_le hk hpow (of_decide_eq_false hr)
  have ho : l₂.2.offset.toNat = l₁.1.toNat := reserve_empty g l₁.2 rfl h₂
  have hmax : (∃ i < g.bits, maxAlign.toNat = 2 ^ i) ∧ seg.alignment.toNat ∣ maxAlign.toNat ∧
      g.sizeofPointer ∣ maxAlign.toNat := by
    have hlt : seg.alignment < g.sizeT g.sizeofPointer ↔ 2 ^ k < 2 ^ j := by
      rw [BitVec.lt_def, toNat_sizeofPointer, hpow, hptr]
    by_cases hc : seg.alignment < g.sizeT g.sizeofPointer
    · have he : maxAlign = g.sizeT g.sizeofPointer := if_pos hc
      rw [he, toNat_sizeofPointer, hptr, hpow]
      exact ⟨⟨j, hj, rfl⟩, (two_pow_dvd_total k j).resolve_right (by have := hlt.1 hc; omega), Nat.dvd_refl _⟩
    · have he : maxAlign = seg.alignment := if_neg hc
      rw [he, hptr, hpow]
      exact ⟨⟨k, hk, rfl⟩, Nat.dvd_refl _, (two_pow_dvd_total j k).resolve_right (by rwa [← hlt])⟩
  have hpos : 0 < maxAlign.toNat := by
    obtain ⟨⟨i, -, hi⟩, -⟩ := hmax
    rw [hi]
    exact Nat.two_pow_pos i
  have htop : l₃.1.toNat = roundUp l₁.1.toNat maxAlign.toNat := by
    rw [← ho]
    exact reserve_result hmax.1 h₃
  have hle : l₁.1.toNat ≤ l₃.1.toNat := by
    rw [htop]
    exact le_roundUp _ hpos
  have hone : ∃ i < g.bits, l₁.2.alignment.toNat = 2 ^ i := one_pow g (bits_pos g)
  obtain ⟨hpow₂, -⟩ := reserve_alignment l₁.1 (one_pow g (bits_pos g)) hone
  obtain ⟨hpow₃, -, hdvd⟩ := reserve_alignment (g.sizeT g.sizeofBionicTcb) hmax.1 hpow₂
  refine ⟨l₁.1.toNat, maxAlign.toNat, l₃.1.toNat, hs, hmax.2.1, hmax.2.2, hpos, htop, rfl, ?_, ?_, hdvd, hpow₃⟩
  · exact BitVec.toNat_sub_of_le (BitVec.le_def.2 hle)
  · have hend := reserve_offset h₃
    rw [toNat_sizeofBionicTcb] at hend
    exact hend

theorem laid_reserveX86 (seg : TlsSegment g.bits) :
    Laid (reserveX86 g (.empty g.bits) seg).2
      [tcbRegion g (reserveX86 g (.empty g.bits) seg).2,
        reserved (reserveX86 g (.empty g.bits) seg).1 seg.size seg.alignment] := by
  intro h
  obtain ⟨exeSize, maxAlign, top, n⟩ := reserveX86_numbers g seg h
  have hle : exeSize ≤ top := by
    rw [n.top_eq]
    exact le_roundUp _ n.maxAlign_pos
  have hf : seg.size.toNat ≤ exeSize := by
    rw [n.exeSize_eq]
    exact le_roundUp _ (Nat.pos_of_dvd_of_pos n.segment_dvd n.maxAlign_pos)
  have htop : maxAlign ∣ top := by
    rw [n.top_eq]
    exact dvd_roundUp _ _
  have hs : seg.alignment.toNat ∣ exeSize := by
    rw [n.exeSize_eq]
    exact dvd_roundUp _ _
  refine ⟨Packed.pair (.inr ?_) ?_ ?_ ?_ ?_, n.power, ?_⟩
  · change BitVec.toNat _ + seg.size.toNat ≤ BitVec.toNat _
    rw [n.result_eq, n.tcb_eq]
    omega
  · change BitVec.toNat _ + g.sizeofBionicTcb ≤ _
    rw [n.tcb_eq, n.offset_eq]
  · change BitVec.toNat _ + seg.size.toNat ≤ _
    rw [n.result_eq, n.offset_eq]
    omega
  · change g.sizeofPointer ∣ BitVec.toNat _
    rw [n.tcb_eq]
    exact n.pointer_dvd.trans htop
  · change seg.alignment.toNat ∣ BitVec.toNat _
    rw [n.result_eq]
    exact Nat.dvd_sub (n.segment_dvd.trans htop) hs
  · intro r hr
    simp only [List.mem_cons, List.not_mem_nil, or_false] at hr
    rcases hr with rfl | rfl
    · exact n.pointer_dvd.trans n.alignment_dvd
    · exact n.segment_dvd.trans n.alignment_dvd

end X86

section Arm

section

variable (harm : g.arm)

include harm

theorem toNat_minBionicAlignment : (minBionicAlignment g).toNat = 8 * g.sizeofPointer := by
  have hle := sizeofPointer_le g
  have height : roundUpPowerOf2 g.maxTlsSlot = 8 := by
    rw [Target.maxTlsSlot, harm]
    decide
  rw [minBionicAlignment, height]
  exact toNat_sizeT g (by omega)

/-- Below eight words the distance to the thread pointer is too short, and the source stops there. -/
theorem exeTpoff_of_not_underaligned (h : ¬ exeTpoff g seg.alignment < minBionicAlignment g) :
    (exeTpoff g seg.alignment).toNat = seg.alignment.toNat ∧ 8 * g.sizeofPointer ≤ seg.alignment.toNat := by
  obtain ⟨k, hk, hpow⟩ := seg.power
  obtain ⟨j, -, hptr⟩ := sizeofPointer_pow g
  have hle := sizeofPointer_le g
  have htwo : (g.sizeT (g.sizeofPointer * 2)).toNat = g.sizeofPointer * 2 := toNat_sizeT g (by omega)
  have hh : 2 ^ k * 2 ≤ 2 ^ g.bits := by
    rw [← Nat.pow_succ]
    exact Nat.pow_le_pow_right (by decide) hk
  have hbig := two_pow_32_le g
  have hoff : (exeTpoff g seg.alignment).toNat = roundUp (g.sizeofPointer * 2) (2 ^ k) := by
    rw [exeTpoff, toNat_bionicAlign_of_fits hk hpow, htwo]
    omega
  rw [BitVec.lt_def, toNat_minBionicAlignment g harm, hoff] at h
  rw [hoff, hpow]
  rcases two_pow_dvd_total k (j + 1) with hdvd | hlt
  · rw [Nat.pow_succ, ← hptr] at hdvd
    rw [roundUp_of_dvd (Nat.two_pow_pos k) hdvd] at h
    have hpos : 0 < g.sizeofPointer := by
      rw [hptr]
      exact Nat.two_pow_pos j
    omega
  · rw [Nat.pow_succ, ← hptr] at hlt
    have hpos : 0 < g.sizeofPointer * 2 := by
      rw [hptr]
      exact Nat.mul_pos (Nat.two_pow_pos j) (by decide)
    rw [roundUp_of_le hpos (Nat.le_of_lt hlt)] at h ⊢
    exact ⟨rfl, Nat.le_of_not_lt h⟩

/-- What reserve_exe_segment_and_tcb computes on ARM. The TCB is placed from the segment downwards. -/
structure ArmNumbers (seg : TlsSegment g.bits) (result : BitVec g.bits) (l : StaticTlsLayout g.bits) : Prop where
  alignment_ge : 8 * g.sizeofPointer ≤ seg.alignment.toNat
  tpoff_eq : (exeTpoff g seg.alignment).toNat = seg.alignment.toNat
  result_eq : result.toNat = roundUp (9 * g.sizeofPointer) seg.alignment.toNat
  offset_eq : l.offset.toNat = result.toNat + seg.size.toNat
  tcb_eq : l.offsetBionicTcb = result - exeTpoff g seg.alignment - g.sizeT g.sizeofPointer
  alignment_dvd : seg.alignment.toNat ∣ l.alignment.toNat
  power : ∃ k < g.bits, l.alignment.toNat = 2 ^ k

theorem sizeofBionicTcb_arm : g.sizeofBionicTcb = 9 * g.sizeofPointer := by
  rw [Target.sizeofBionicTcb, Target.bionicTlsSlots, Target.maxTlsSlot, Target.slotsBelow, harm]
  rfl

theorem slotsBelow_arm : g.slotsBelow * g.sizeofPointer = g.sizeofPointer := by
  rw [Target.slotsBelow, harm]
  exact Nat.one_mul _

theorem reserveArm_numbers (h : reserveArm g (.empty g.bits) seg = some (result, l))
    (hov : l.overflowed = false) : ArmNumbers g seg result l := by
  let l₁ := (StaticTlsLayout.empty g.bits).reserve (g.sizeT g.sizeofBionicTcb) 1
  let l₂ := l₁.2.reserve seg.size seg.alignment
  change (if exeTpoff g seg.alignment < minBionicAlignment g then none else some (l₂.1, _)) = some (result, l) at h
  split at h
  case isTrue => cases h
  case isFalse hmin =>
    obtain ⟨ht, hge⟩ := exeTpoff_of_not_underaligned g harm hmin
    cases h
    have h₂ : l₂.2.overflowed = false := hov
    have h₁ : l₁.2.overflowed = false := (reserve_overflowed h₂).1
    have ho : l₁.2.offset.toNat = 9 * g.sizeofPointer := by
      rw [← sizeofBionicTcb_arm g harm, ← toNat_sizeofBionicTcb]
      exact reserve_empty g (.empty g.bits) rfl h₁
    have hr := reserve_result seg.power h₂
    rw [ho] at hr
    have hone : ∃ i < g.bits, (StaticTlsLayout.empty g.bits).alignment.toNat = 2 ^ i := one_pow g (bits_pos g)
    obtain ⟨hpow₁, -⟩ := reserve_alignment (g.sizeT g.sizeofBionicTcb) (one_pow g (bits_pos g)) hone
    obtain ⟨hpow₂, -, hdvd⟩ := reserve_alignment seg.size seg.power hpow₁
    have hs : g.sizeT (g.slotsBelow * g.sizeofPointer) = g.sizeT g.sizeofPointer := by rw [slotsBelow_arm g harm]
    exact ⟨hge, ht, hr, reserve_offset h₂, congrArg (l₂.1 - exeTpoff g seg.alignment - ·) hs, hdvd, hpow₂⟩

end

/-- With the alignment the source asks for at least, the TCB ends where the segment starts. -/
theorem ArmNumbers.tcb_of_least (n : ArmNumbers g seg result l) (h : seg.alignment.toNat = 8 * g.sizeofPointer) :
    result.toNat = 16 * g.sizeofPointer ∧ l.offsetBionicTcb.toNat = 7 * g.sizeofPointer := by
  have hr : result.toNat = 16 * g.sizeofPointer := by
    rw [n.result_eq, h]
    rcases target_cases g with ⟨-, hp⟩ | ⟨-, hp⟩ <;> rw [hp] <;> rfl
  have htp : exeTpoff g seg.alignment ≤ result := by
    rw [BitVec.le_def, n.tpoff_eq, h]
    omega
  have hb : g.sizeT g.sizeofPointer ≤ result - exeTpoff g seg.alignment := by
    rw [BitVec.le_def, BitVec.toNat_sub_of_le htp, toNat_sizeofPointer, n.tpoff_eq, h, hr]
    omega
  refine ⟨hr, ?_⟩
  rw [n.tcb_eq, BitVec.toNat_sub_of_le hb, BitVec.toNat_sub_of_le htp, toNat_sizeofPointer, n.tpoff_eq, h, hr]
  omega

/-- With any larger alignment the slot below the thread pointer falls out of the block. -/
theorem ArmNumbers.tcb_of_larger (n : ArmNumbers g seg result l) (h : 8 * g.sizeofPointer < seg.alignment.toNat) :
    l.offsetBionicTcb.toNat = 2 ^ g.bits - g.sizeofPointer := by
  obtain ⟨k, hk, hpow⟩ := seg.power
  obtain ⟨j, -, hptr⟩ := sizeofPointer_pow g
  have hpos : 0 < g.sizeofPointer := by
    rw [hptr]
    exact Nat.two_pow_pos j
  have hd : 16 * g.sizeofPointer ≤ seg.alignment.toNat := by
    have hlt : 2 ^ (j + 3) < 2 ^ k := by
      rw [Nat.pow_add, ← hptr, ← hpow]
      omega
    have hle : 2 ^ (j + 4) ≤ 2 ^ k := Nat.pow_le_pow_right (by decide) ((Nat.pow_lt_pow_iff_right (by decide)).1 hlt)
    rw [Nat.pow_add, ← hptr, ← hpow] at hle
    omega
  have hr : result = exeTpoff g seg.alignment := by
    apply BitVec.eq_of_toNat_eq
    rw [n.result_eq, n.tpoff_eq, roundUp_of_le (by omega) (by omega)]
  have hbig := two_pow_32_le g
  rw [n.tcb_eq, hr, BitVec.sub_self, BitVec.zero_sub, BitVec.toNat_neg, toNat_sizeofPointer]
  exact Nat.mod_eq_of_lt (by omega)

theorem ArmNumbers.fits (n : ArmNumbers g seg result l) (harm : g.arm)
    (h : seg.alignment.toNat = 8 * g.sizeofPointer) : Fits l [tcbRegion g l, reserved result seg.size seg.alignment] := by
  obtain ⟨hre, htcb⟩ := n.tcb_of_least g h
  have hs := sizeofBionicTcb_arm g harm
  refine ⟨Packed.pair (.inl ?_) ?_ ?_ ?_ ?_, n.power, ?_⟩
  · change l.offsetBionicTcb.toNat + g.sizeofBionicTcb ≤ result.toNat
    omega
  · change l.offsetBionicTcb.toNat + g.sizeofBionicTcb ≤ l.offset.toNat
    rw [n.offset_eq]
    omega
  · change result.toNat + seg.size.toNat ≤ l.offset.toNat
    rw [n.offset_eq]
  · change g.sizeofPointer ∣ l.offsetBionicTcb.toNat
    rw [htcb]
    exact Nat.dvd_mul_left _ _
  · change seg.alignment.toNat ∣ result.toNat
    rw [n.result_eq]
    exact dvd_roundUp _ _
  · intro r hr
    simp only [List.mem_cons, List.not_mem_nil, or_false] at hr
    rcases hr with rfl | rfl
    · have hptr : g.sizeofPointer ∣ seg.alignment.toNat := by
        rw [h]
        exact Nat.dvd_mul_left _ _
      exact hptr.trans n.alignment_dvd
    · exact n.alignment_dvd

end Arm

end Bionic.StaticTls
