import Bionic.Lib.System
import Mathlib.Algebra.Group.Nat.Defs
import Mathlib.Logic.Function.Basic

namespace Bionic.Cfi

open Function Nat

def kShadowGranularity : Nat := 18
def kCfiCheckGranularity : Nat := 12
def kShadowAlign : Nat := 2 ^ kShadowGranularity
def kCfiCheckAlign : Nat := 2 ^ kCfiCheckGranularity
def kMaxTargetAddr : Nat := 0xffffffffffff

def kShadowSize : Nat := (kMaxTargetAddr / 2 ^ (kShadowGranularity - 1) + 4095) / 4096 * 4096

def kInvalidShadow : UInt16 := 0
def kUncheckedShadow : UInt16 := 1
def kRegularShadowMin : UInt16 := 2

abbrev Shadow := Nat → UInt16

def memToShadowOffset (x : Nat) : Nat := x / 2 ^ kShadowGranularity * 2

def memToShadow (x : Nat) : Nat := memToShadowOffset x / 2

theorem memToShadow_eq (x : Nat) : memToShadow x = x / 2 ^ 18 := by
  simp [memToShadow, memToShadowOffset, kShadowGranularity]

namespace ShadowWrite

def alignedStart (shadowStart : Nat) : Nat := shadowStart * 2 / 4096 * 4096 / 2

def alignedEnd (shadowEnd : Nat) : Nat := (shadowEnd * 2 + 4095) / 4096 * 4096 / 2

/-- The side copy: fresh pages, with the entries before `shadow_start` and from `shadow_end` on copied. -/
def tmp (shadow : Shadow) (shadowStart shadowEnd : Nat) : Shadow :=
  fun i => if alignedStart shadowStart ≤ i ∧ i < shadowStart ∨ shadowEnd ≤ i ∧ i < alignedEnd shadowEnd
    then shadow i else 0

def remap (shadow tmp : Shadow) (shadowStart shadowEnd : Nat) : Shadow :=
  fun i => if alignedStart shadowStart ≤ i ∧ i < alignedEnd shadowEnd then tmp i else shadow i

end ShadowWrite

def fillConstant (v : UInt16) : (count i : Nat) → Shadow → Shadow
  | 0, _, tmp => tmp
  | count + 1, i, tmp => fillConstant v count (i + 1) (update tmp i v)

def addConstant (shadow : Shadow) (begin' end' : Nat) (v : UInt16) : Shadow :=
  let shadowBegin := memToShadow begin'
  let shadowEnd := memToShadow (end' - 1) + 1
  let tmp := ShadowWrite.tmp shadow shadowBegin shadowEnd
  ShadowWrite.remap shadow (fillConstant v (shadowEnd - shadowBegin) shadowBegin tmp) shadowBegin shadowEnd

def addUnchecked (shadow : Shadow) (begin' end' : Nat) : Shadow :=
  addConstant shadow begin' end' kUncheckedShadow

def addInvalid (shadow : Shadow) (begin' end' : Nat) : Shadow :=
  addConstant shadow begin' end' kInvalidShadow

def svStep : UInt16 := 64

def addLoop (svBegin : UInt16) : (count i : Nat) → (sv : UInt16) → Shadow → Shadow
  | 0, _, _, tmp => tmp
  | count + 1, i, sv, tmp =>
    if sv < svBegin then addLoop svBegin count (i + 1) sv (update tmp i kUncheckedShadow)
    else
      let s := if tmp i = kInvalidShadow then sv else kUncheckedShadow
      addLoop svBegin count (i + 1) (sv + svStep) (update tmp i s)

def addCheckedBegin (begin' cfiCheck : Nat) : Nat := max begin' cfiCheck / kShadowAlign * kShadowAlign

def svBegin (begin' cfiCheck : Nat) : UInt16 :=
  UInt16.ofNat ((begin' + kShadowAlign - cfiCheck) / 2 ^ kCfiCheckGranularity) + kRegularShadowMin

def add (shadow : Shadow) (begin' end' cfiCheck : Nat) : Shadow :=
  let begin' := addCheckedBegin begin' cfiCheck
  let shadowBegin := memToShadow begin'
  let shadowEnd := memToShadow (end' - 1) + 1
  let tmp := ShadowWrite.tmp shadow shadowBegin shadowEnd
  let sv := svBegin begin' cfiCheck
  ShadowWrite.remap shadow (addLoop sv (shadowEnd - shadowBegin) shadowBegin sv tmp) shadowBegin shadowEnd

/-- A loaded library. `cfiCheck` is what `soinfo_find_cfi_check` returns, 0 for a library without one. -/
structure Library where
  base : Nat
  size : Nat
  cfiCheck : Nat
  base_pos : 0 < base
  below_max : base + size ≤ kMaxTargetAddr + 1
  check_inside : cfiCheck ≠ 0 → base ≤ cfiCheck ∧ cfiCheck < base + size
  check_aligned : cfiCheck % kCfiCheckAlign = 0
  deriving DecidableEq

/-- `CFIShadowWriter::AddLibrary`; `none` is its `false`. -/
def addLibrary (shadow : Shadow) (si : Library) : Option Shadow :=
  if si.base = 0 ∨ si.size = 0 then some shadow
  else if si.cfiCheck = 0 then some (addUnchecked shadow si.base (si.base + si.size))
  else if si.cfiCheck % kCfiCheckAlign ≠ 0 then none
  else some (add shadow si.base (si.base + si.size) si.cfiCheck)

def beforeUnload (shadow : Shadow) (si : Library) : Shadow :=
  if si.base = 0 ∨ si.size = 0 then shadow else addInvalid shadow si.base (si.base + si.size)

def untagAddress (p : Nat) : Nat := p % 2 ^ 56

def shadowLoad (shadow : Shadow) (p : Nat) : UInt16 :=
  let addr := untagAddress p
  let ofs := memToShadowOffset addr
  if ofs > kShadowSize then kInvalidShadow else shadow (ofs / 2)

def cfiCheckAddr (v : UInt16) (addr : Nat) : Nat :=
  let alignedAddr := addr / kShadowAlign * kShadowAlign + kShadowAlign
  (alignedAddr + 2 ^ 64 - (v.toNat - 2) * 2 ^ kCfiCheckGranularity) % 2 ^ 64

structure State where
  shadow : Shadow
  live : List Library

def Library.Separate (a b : Library) : Prop :=
  a.base + a.size ≤ b.base ∨ b.base + b.size ≤ a.base

inductive Step : State → State → Prop where
  | load (s : State) (si : Library) (shadow : Shadow) (hsep : ∀ m ∈ s.live, si.Separate m)
      (hadd : addLibrary s.shadow si = some shadow) : Step s ⟨shadow, si :: s.live⟩
  | unload (s : State) (si : Library) (hlive : si ∈ s.live) :
      Step s ⟨beforeUnload s.shadow si, s.live.erase si⟩

def State.initial : State := ⟨fun _ => kInvalidShadow, []⟩

def LeadsToCheck (shadow : Shadow) (si : Library) (addr : Nat) : Prop :=
  shadowLoad shadow addr = kUncheckedShadow ∨
    shadowLoad shadow addr ≠ kInvalidShadow ∧ cfiCheckAddr (shadowLoad shadow addr) addr = si.cfiCheck

/-- Every address of a live CFI library at or above its check leads to that check, or to none. -/
def State.Sound (s : State) : Prop :=
  ∀ si ∈ s.live, si.cfiCheck ≠ 0 →
    ∀ addr, si.cfiCheck ≤ addr → addr < si.base + si.size → LeadsToCheck s.shadow si addr

section Write

variable {shadow : Shadow} {v : UInt16}

variable (svBegin : UInt16) (count i : Nat)

theorem fillConstant_apply (tmp : Shadow) (j : Nat) :
    fillConstant v count i tmp j = if i ≤ j ∧ j < i + count then v else tmp j := by
  induction count generalizing i tmp with
  | zero =>
    rw [fillConstant, if_neg (by omega)]
  | succ count ih =>
    rw [fillConstant, ih, update_apply]
    by_cases hj : j = i
    · subst hj
      simp
    · simp only [hj]
      congr 1
      simp only [eq_iff_iff]
      omega

theorem remap_apply {shadowStart shadowEnd : Nat} {written : Shadow} (hf : ∀ j, ¬ (shadowStart ≤ j ∧ j < shadowEnd) →
      written j = ShadowWrite.tmp shadow shadowStart shadowEnd j) (j : Nat) :
    ShadowWrite.remap shadow written shadowStart shadowEnd j =
      if shadowStart ≤ j ∧ j < shadowEnd then written j else shadow j := by
  have hs : ShadowWrite.alignedStart shadowStart ≤ shadowStart := by
    simp only [ShadowWrite.alignedStart]
    omega
  have hend : shadowEnd ≤ ShadowWrite.alignedEnd shadowEnd := by
    simp only [ShadowWrite.alignedEnd]
    omega
  unfold ShadowWrite.remap
  by_cases hin : shadowStart ≤ j ∧ j < shadowEnd
  · rw [if_pos hin, if_pos (by omega)]
  · split
    · rw [hf j hin, ShadowWrite.tmp, if_pos (by omega)]
    · rfl

theorem addConstant_apply {begin' end' : Nat} (hlt : begin' < end') (j : Nat) :
    addConstant shadow begin' end' v j =
      if memToShadow begin' ≤ j ∧ j < memToShadow (end' - 1) + 1 then v else shadow j := by
  have hle : memToShadow begin' ≤ memToShadow (end' - 1) := by
    rw [memToShadow_eq, memToShadow_eq]
    exact Nat.div_le_div_right (by omega)
  have hc : memToShadow begin' + (memToShadow (end' - 1) + 1 - memToShadow begin') =
      memToShadow (end' - 1) + 1 := by
    omega
  unfold addConstant
  rw [remap_apply]
  · rw [fillConstant_apply, hc]
    split <;> rfl
  · intro k hk
    rw [fillConstant_apply, hc, if_neg hk]

theorem addLoop_frame (sv : UInt16) (tmp : Shadow) {j : Nat}
    (hj : ¬ (i ≤ j ∧ j < i + count)) : addLoop svBegin count i sv tmp j = tmp j := by
  induction count generalizing i sv tmp with
  | zero => rfl
  | succ count ih =>
    have hne : j ≠ i := by omega
    rw [addLoop]
    split
    all_goals rw [ih _ _ _ (by omega), update_of_ne hne]

/-- The `m`th entry of the loop of `Add` is unchecked or compensates for `m` granules: a wrapped value is
noticed by its being below the first one. -/
theorem addLoop_apply (m : Nat) (sv : UInt16) (tmp : Shadow)
    (hf : ∀ j, i ≤ j → j < i + count → tmp j = kInvalidShadow)
    (hsv : sv.toNat = svBegin.toNat + 64 * m ∨ sv < svBegin ∨ count = 0)
    (hs : m + count ≤ 1024 ∨ 64 ≤ svBegin.toNat) (d : Nat) (hd : d < count) :
    addLoop svBegin count i sv tmp (i + d) = kUncheckedShadow ∨
      (addLoop svBegin count i sv tmp (i + d)).toNat = svBegin.toNat + 64 * (m + d) := by
  induction count generalizing i m sv tmp d with
  | zero => omega
  | succ count ih =>
    have hf' (v : UInt16) : ∀ j, i + 1 ≤ j → j < i + 1 + count →
        update tmp i v j = kInvalidShadow := by
      intro j hj hlt
      rw [update_of_ne (by omega)]
      exact hf j (by omega) (by omega)
    rw [addLoop]
    split
    · rename_i hw
      cases d with
      | zero =>
        rw [addLoop_frame _ _ _ _ _ (by omega), add_zero, update_self]
        exact .inl rfl
      | succ d =>
        have := ih (i + 1) (m + 1) sv _ (hf' kUncheckedShadow) (.inr (.inl hw)) (by omega) d (by omega)
        rwa [add_assoc i, add_assoc m, add_comm 1 d] at this
    · rename_i hnot
      have hval : sv.toNat = svBegin.toNat + 64 * m := by
        rcases hsv with h | h | h
        · exact h
        · exact absurd h hnot
        · omega
      rw [if_pos (hf i (Nat.le_refl i) (by omega))]
      cases d with
      | zero =>
        rw [addLoop_frame _ _ _ _ _ (by omega), Nat.add_zero, update_self]
        exact .inr hval
      | succ d =>
        have hn : (sv + svStep).toNat = svBegin.toNat + 64 * (m + 1) ∨ sv + svStep < svBegin ∨ count = 0 := by
          have hlt := sv.toNat_lt
          have hst : svStep.toNat = 64 := rfl
          rw [UInt16.lt_iff_toNat_lt, UInt16.toNat_add]
          omega
        have := ih (i + 1) (m + 1) (sv + svStep) _ (hf' sv) hn (by omega) d (by omega)
        rwa [add_assoc i, add_assoc m, add_comm 1 d] at this

/-- From a first value below the step the loop never sees a value below the first one: after 1024 entries the
values start again. -/
theorem addLoop_apply_mod (sv : UInt16) (tmp : Shadow)
    (hf : ∀ j, i ≤ j → j < i + count → tmp j = kInvalidShadow) (hs : svBegin.toNat < 64)
    (hsv : sv.toNat % 64 = svBegin.toNat) (d : Nat) (hd : d < count) :
    (addLoop svBegin count i sv tmp (i + d)).toNat = (sv.toNat + 64 * d) % 2 ^ 16 := by
  induction count generalizing i sv tmp d with
  | zero => omega
  | succ count ih =>
    have hnot : ¬ sv < svBegin := by
      rw [UInt16.lt_iff_toNat_lt]
      omega
    rw [addLoop, if_neg hnot, if_pos (hf i (Nat.le_refl i) (by omega))]
    cases d with
    | zero =>
      rw [addLoop_frame _ _ _ _ _ (by omega), Nat.add_zero, update_self]
      exact (mod_eq_of_lt sv.toNat_lt).symm
    | succ d =>
      have hst : (sv + svStep).toNat = (sv.toNat + 64) % 2 ^ 16 := UInt16.toNat_add sv svStep
      have hf' : ∀ j, i + 1 ≤ j → j < i + 1 + count → update tmp i sv j = kInvalidShadow := by
        intro j hj hlt
        rw [update_of_ne (by omega)]
        exact hf j (by omega) (by omega)
      have := ih (i + 1) (sv + svStep) _ hf' (by omega) d (by omega)
      rw [add_assoc i, add_comm 1 d] at this
      omega

theorem shadowLoad_eq {addr : Nat} (h : addr ≤ kMaxTargetAddr) :
    shadowLoad shadow addr = shadow (memToShadow addr) := by
  have hmax : addr < 2 ^ 48 := lt_succ_of_le h
  have hu : untagAddress addr = addr := mod_eq_of_lt (by omega)
  have hofs : ¬ memToShadowOffset addr > kShadowSize := by
    have hs : kShadowSize = 2 ^ 31 := rfl
    have hdef : memToShadowOffset addr = addr / 2 ^ 18 * 2 := rfl
    omega
  unfold shadowLoad
  rw [hu, if_neg hofs]
  rfl

end Write

section Library

variable (si : Library) (hcfi : si.cfiCheck ≠ 0) {shadow : Shadow}

def Library.granules : Nat := memToShadow (si.base + si.size - 1) + 1 - memToShadow si.cfiCheck

/-- A library that is not too large for the values of its entries, or one so large that `Add` notices. -/
def Library.FitsShadow : Prop := si.granules ≤ 1024 ∨ si.cfiCheck % kShadowAlign ≤ 0x2000

instance : Decidable si.FitsShadow := inferInstanceAs (Decidable (_ ∨ _))

include hcfi

theorem addCheckedBegin_eq : addCheckedBegin si.base si.cfiCheck = si.cfiCheck / 2 ^ 18 * 2 ^ 18 := by
  rw [addCheckedBegin, Nat.max_eq_right (si.check_inside hcfi).1]
  rfl

theorem memToShadow_addCheckedBegin :
    memToShadow (addCheckedBegin si.base si.cfiCheck) = memToShadow si.cfiCheck := by
  rw [addCheckedBegin_eq si hcfi, memToShadow_eq, memToShadow_eq]
  omega

theorem toNat_svBegin : (svBegin (addCheckedBegin si.base si.cfiCheck) si.cfiCheck).toNat =
    (2 ^ 18 - si.cfiCheck % 2 ^ 18) / 4096 + 2 := by
  have hk : (addCheckedBegin si.base si.cfiCheck + kShadowAlign - si.cfiCheck) / 2 ^ kCfiCheckGranularity =
      (2 ^ 18 - si.cfiCheck % 2 ^ 18) / 4096 := by
    rw [addCheckedBegin_eq si hcfi, kShadowAlign, kCfiCheckGranularity, kShadowGranularity]
    omega
  have hmin : kRegularShadowMin.toNat = 2 := rfl
  rw [svBegin, hk, UInt16.toNat_add, UInt16.toNat_ofNat']
  omega

theorem add_frame {j : Nat} (hj : ¬ (memToShadow si.cfiCheck ≤ j ∧ j < memToShadow (si.base + si.size - 1) + 1)) :
    add shadow si.base (si.base + si.size) si.cfiCheck j = shadow j := by
  unfold add
  rw [memToShadow_addCheckedBegin si hcfi, remap_apply, if_neg hj]
  intro k hk
  exact addLoop_frame _ _ _ _ _ (by omega)

theorem add_apply (hf : si.FitsShadow) {d : Nat} (hd : d < si.granules) :
    let entry := add shadow si.base (si.base + si.size) si.cfiCheck (memToShadow si.cfiCheck + d)
    entry = kUncheckedShadow ∨ entry.toNat = (2 ^ 18 - si.cfiCheck % 2 ^ 18) / 4096 + 2 + 64 * d := by
  have hsv := toNat_svBegin si hcfi
  unfold Library.granules at hd
  unfold add
  rw [memToShadow_addCheckedBegin si hcfi, remap_apply, if_pos (by omega)]
  · have hs : 0 + si.granules ≤ 1024 ∨
        64 ≤ (svBegin (addCheckedBegin si.base si.cfiCheck) si.cfiCheck).toNat := by
      unfold Library.FitsShadow at hf
      rw [kShadowAlign, kShadowGranularity] at hf
      rw [hsv]
      omega
    have := addLoop_apply (svBegin (addCheckedBegin si.base si.cfiCheck) si.cfiCheck) si.granules
      (memToShadow si.cfiCheck) 0 (svBegin (addCheckedBegin si.base si.cfiCheck) si.cfiCheck)
      (ShadowWrite.tmp shadow (memToShadow si.cfiCheck) (memToShadow (si.base + si.size - 1) + 1))
      (fun j hj hlt => by
        rw [Library.granules] at hlt
        rw [ShadowWrite.tmp, if_neg (by omega)]
        rfl)
      (.inl (add_zero _).symm) hs d hd
    rwa [hsv, zero_add] at this
  · intro k hk
    exact addLoop_frame _ _ _ _ _ (by omega)

theorem add_apply_mod (hlow : 0x2000 < si.cfiCheck % 2 ^ 18) {d : Nat} (hd : d < si.granules) :
    (add shadow si.base (si.base + si.size) si.cfiCheck (memToShadow si.cfiCheck + d)).toNat =
      ((2 ^ 18 - si.cfiCheck % 2 ^ 18) / 4096 + 2 + 64 * d) % 2 ^ 16 := by
  have hsv := toNat_svBegin si hcfi
  unfold Library.granules at hd
  unfold add
  rw [memToShadow_addCheckedBegin si hcfi, remap_apply, if_pos (by omega)]
  · rw [addLoop_apply_mod _ _ _ _ _ _ (by omega) (by omega) d hd, hsv]
    intro j hj hlt
    rw [ShadowWrite.tmp, if_neg (by omega)]
    rfl
  · intro k hk
    exact addLoop_frame _ _ _ _ _ (by omega)

theorem not_leadsToCheck_of_not_fits (hf : ¬ si.FitsShadow) :
    ∃ addr, si.cfiCheck ≤ addr ∧ addr < si.base + si.size ∧
      ¬ LeadsToCheck (add shadow si.base (si.base + si.size) si.cfiCheck) si addr := by
  obtain ⟨hs, hlow⟩ := not_or.1 hf
  rw [kShadowAlign, kShadowGranularity] at hlow
  have hmax : si.base + si.size ≤ 2 ^ 48 := si.below_max
  have he := @add_apply_mod si hcfi shadow (by omega) 1024 (by omega)
  rw [Library.granules, memToShadow_eq, memToShadow_eq] at hs
  have hi : memToShadow ((si.cfiCheck / 2 ^ 18 + 1024) * 2 ^ 18) = memToShadow si.cfiCheck + 1024 := by
    rw [memToShadow_eq, memToShadow_eq]
    omega
  refine ⟨(si.cfiCheck / 2 ^ 18 + 1024) * 2 ^ 18, by omega, by omega, ?_⟩
  unfold LeadsToCheck
  rw [shadowLoad_eq (by rw [kMaxTargetAddr]; omega), hi]
  rintro (hu | ⟨-, ha⟩)
  · have hone : kUncheckedShadow.toNat = 1 := rfl
    rw [hu] at he
    omega
  · rw [cfiCheckAddr, he, kShadowAlign, kShadowGranularity, kCfiCheckGranularity] at ha
    omega

theorem addLibrary_eq (shadow : Shadow) :
    addLibrary shadow si = some (add shadow si.base (si.base + si.size) si.cfiCheck) := by
  have hb := si.base_pos
  have hc := si.check_inside hcfi
  rw [addLibrary, if_neg (by omega), if_neg hcfi, if_neg (not_not.2 si.check_aligned)]

theorem not_sound_of_not_fits {shadow' : Shadow} {live : List Library}
    (hadd : addLibrary shadow si = some shadow') (hf : ¬ si.FitsShadow) :
    ¬ State.Sound ⟨shadow', si :: live⟩ := by
  intro hs
  obtain ⟨addr, hlo, hhi, hnot⟩ := @not_leadsToCheck_of_not_fits si hcfi shadow hf
  rw [addLibrary_eq si hcfi, Option.some.injEq] at hadd
  rw [hadd] at hnot
  exact hnot (hs si List.mem_cons_self hcfi addr hlo hhi)

end Library

end Bionic.Cfi
