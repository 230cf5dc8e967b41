import Bionic.Cfi.Shadow

namespace Bionic.Cfi

open List State

/-- Each entry of a CFI library at or above its check is unchecked or counts the distance to the check. -/
def Tracks (shadow : Shadow) (si : Library) : Prop :=
  ∀ d < si.granules, shadow (memToShadow si.cfiCheck + d) = kUncheckedShadow ∨
    (shadow (memToShadow si.cfiCheck + d)).toNat = (2 ^ 18 - si.cfiCheck % 2 ^ 18) / 4096 + 2 + 64 * d

variable {shadow : Shadow} {si : Library} {s : State}

theorem Tracks.leadsToCheck (h : Tracks shadow si) {addr : Nat}
    (hlo : si.cfiCheck ≤ addr) (hhi : addr < si.base + si.size) : LeadsToCheck shadow si addr := by
  have hmax : si.base + si.size ≤ 2 ^ 48 := si.below_max
  have ha : si.cfiCheck % 4096 = 0 := si.check_aligned
  obtain ⟨d, hd⟩ : ∃ d, addr / 2 ^ 18 = si.cfiCheck / 2 ^ 18 + d :=
    Nat.exists_eq_add_of_le (Nat.div_le_div_right hlo)
  have hl : shadowLoad shadow addr = shadow (memToShadow si.cfiCheck + d) := by
    rw [shadowLoad_eq (Nat.le_of_lt_succ (Nat.lt_of_lt_of_le hhi si.below_max)), memToShadow_eq, hd, memToShadow_eq]
  have hlt : d < si.granules := by
    rw [Library.granules, memToShadow_eq, memToShadow_eq]
    omega
  unfold LeadsToCheck
  rw [hl]
  rcases h d hlt with he | he
  · exact .inl he
  · refine .inr ⟨fun hinv => ?_, ?_⟩
    · rw [hinv] at he
      have hz : kInvalidShadow.toNat = 0 := rfl
      omega
    · rw [cfiCheckAddr, kShadowAlign, kShadowGranularity, kCfiCheckGranularity]
      omega

theorem Tracks.congr {shadow' : Shadow} (h : Tracks shadow si)
    (heq : ∀ j, memToShadow si.cfiCheck ≤ j → j < memToShadow (si.base + si.size - 1) + 1 →
      shadow' j = shadow j ∨ shadow' j = kUncheckedShadow) : Tracks shadow' si := by
  intro d hd
  have hold := h d hd
  rw [Library.granules] at hd
  rcases heq (memToShadow si.cfiCheck + d) (by omega) (by omega) with h' | h'
  · rw [h']
    exact hold
  · exact .inl h'

def GranulesApart (lo hi lo' hi' : Nat) : Prop :=
  memToShadow (hi - 1) < memToShadow lo' ∨ memToShadow (hi' - 1) < memToShadow lo

instance (lo hi lo' hi' : Nat) : Decidable (GranulesApart lo hi lo' hi') := inferInstanceAs (Decidable (_ ∨ _))

/-- A CFI library is loaded only where its checked part fits the shadow and shares no granule with the checked
part of a live CFI library. -/
def LoadAllowed (s : State) (si : Library) : Prop :=
  si.cfiCheck ≠ 0 → si.FitsShadow ∧ ∀ m ∈ s.live, m.cfiCheck ≠ 0 →
    GranulesApart si.cfiCheck (si.base + si.size) m.cfiCheck (m.base + m.size)

/-- A library is unloaded only where it shares no granule with the checked part of another CFI library. -/
def UnloadAllowed (s : State) (si : Library) : Prop :=
  si.size ≠ 0 → ∀ m ∈ s.live.erase si, m.cfiCheck ≠ 0 →
    GranulesApart si.base (si.base + si.size) m.cfiCheck (m.base + m.size)

inductive AllowedStep : State → State → Prop where
  | load (s : State) (si : Library) (shadow : Shadow) (hsep : ∀ m ∈ s.live, si.Separate m)
      (hadd : addLibrary s.shadow si = some shadow) (hallowed : LoadAllowed s si) :
      AllowedStep s ⟨shadow, si :: s.live⟩
  | unload (s : State) (si : Library) (hlive : si ∈ s.live) (hallowed : UnloadAllowed s si) :
      AllowedStep s ⟨beforeUnload s.shadow si, s.live.erase si⟩

open Lib (System)

def system : System State := ⟨fun s => s = initial, Step⟩

def allowedSystem : System State := ⟨fun s => s = initial, AllowedStep⟩

def State.Inv (s : State) : Prop := ∀ si ∈ s.live, si.cfiCheck ≠ 0 → Tracks s.shadow si

theorem Inv.load (hinv : s.Inv) (hadd : addLibrary s.shadow si = some shadow) (ha : LoadAllowed s si) :
    State.Inv ⟨shadow, si :: s.live⟩ := by
  intro m hm hcfi
  by_cases hc : si.cfiCheck = 0
  · have hm : m ∈ s.live := by
      rcases mem_cons.1 hm with rfl | hm
      · exact absurd hc hcfi
      · exact hm
    refine (hinv m hm hcfi).congr fun j _ _ => ?_
    unfold addLibrary at hadd
    split at hadd
    · cases hadd
      exact .inl rfl
    · rename_i hs
      cases hadd
      dsimp only [addUnchecked]
      rw [addConstant_apply (by omega)]
      split
      · exact .inr rfl
      · exact .inl rfl
  · obtain ⟨hf, hap⟩ := ha hc
    rw [addLibrary_eq si hc] at hadd
    cases hadd
    rcases mem_cons.1 hm with rfl | hm
    · exact fun d hd => add_apply m hcfi hf hd
    · refine (hinv m hm hcfi).congr fun j hlo hhi => .inl ?_
      have := hap m hm hcfi
      unfold GranulesApart at this
      exact add_frame si hc (by omega)

theorem Inv.unload (hinv : s.Inv) (ha : UnloadAllowed s si) :
    State.Inv ⟨beforeUnload s.shadow si, s.live.erase si⟩ := by
  intro m hm hcfi
  have ht := hinv m (mem_of_mem_erase hm) hcfi
  dsimp only [beforeUnload]
  split
  · exact ht
  · rename_i hne
    refine ht.congr fun j hlo hhi => .inl ?_
    have := ha (fun h => hne (.inr h)) m hm hcfi
    unfold GranulesApart at this
    rw [addInvalid, addConstant_apply (by omega), if_neg (by omega)]

theorem inv_invariant : allowedSystem.Invariant State.Inv where
  init s hs := by
    rw [show s = initial from hs]
    intro si hsi
    cases hsi
  step s s' hinv hst := by
    cases hst with
    | load si shadow hsep hadd ha => exact Inv.load hinv hadd ha
    | unload si hl ha => exact Inv.unload hinv ha

/-- While the checked parts of CFI libraries keep to granules of their own and no CFI library outgrows its
shadow values unnoticed, every address of a live one at or above its check leads to that check or is unchecked.
-/
theorem sound_of_allowed_run {s : State} (h : allowedSystem.Reachable s) : s.Sound := by
  intro si hsi hcfi addr hlo hhi
  exact (inv_invariant.reachable h si hsi hcfi).leadsToCheck hlo hhi

section Runs

def smallLibrary : Library where
  base := 0x7f0000000000
  size := 0x2000
  cfiCheck := 0x7f0000000000
  base_pos := by decide
  below_max := by decide
  check_inside := by decide
  check_aligned := by decide

def neighbour : Library where
  base := 0x7f0000002000
  size := 0x2000
  cfiCheck := 0x7f0000002000
  base_pos := by decide
  below_max := by decide
  check_inside := by decide
  check_aligned := by decide

def plainNeighbour : Library where
  base := 0x7f0000002000
  size := 0x2000
  cfiCheck := 0
  base_pos := by decide
  below_max := by decide
  check_inside := by decide
  check_aligned := by decide

def distantLibrary : Library where
  base := 0x7f0000040000
  size := 0x5000
  cfiCheck := 0x7f0000041000
  base_pos := by decide
  below_max := by decide
  check_inside := by decide
  check_aligned := by decide

def hugeLibrary : Library where
  base := 0x7f0000000000
  size := 1025 * 0x40000
  cfiCheck := 0x7f0000003000
  base_pos := by decide
  below_max := by decide
  check_inside := by decide
  check_aligned := by decide

theorem sound_of_allowed_run_distantLibrary : ∃ s, allowedSystem.Reachable s ∧ s.live = [smallLibrary] ∧ s.Sound := by
  let s₁ : State := ⟨add initial.shadow 0x7f0000000000 0x7f0000002000 0x7f0000000000, [smallLibrary]⟩
  let s₂ : State :=
    ⟨add s₁.shadow 0x7f0000040000 0x7f0000045000 0x7f0000041000, [distantLibrary, smallLibrary]⟩
  have h₁ : AllowedStep initial s₁ := by
    refine .load initial smallLibrary _ ?_ rfl fun _ => ⟨by decide, ?_⟩ <;> simp [initial]
  have h₂ : AllowedStep s₁ s₂ := by
    refine .load s₁ distantLibrary _ ?_ rfl fun _ => ⟨by decide, ?_⟩
    · simp only [s₁, mem_singleton, forall_eq]
      exact .inr (by decide)
    · decide
  have h₃ : AllowedStep s₂ ⟨beforeUnload s₂.shadow distantLibrary, [smallLibrary]⟩ := by
    refine .unload s₂ distantLibrary (by simp [s₂]) fun _ => ?_
    have he : s₂.live.erase distantLibrary = [smallLibrary] := by decide
    rw [he]
    simp only [mem_singleton, forall_eq]
    decide
  have hr := (((System.Reachable.of_init (S := allowedSystem) rfl).step h₁).step h₂).step h₃
  exact ⟨_, hr, rfl, sound_of_allowed_run hr⟩

theorem reachable_load (h : addLibrary initial.shadow si = some shadow) : system.Reachable ⟨shadow, [si]⟩ :=
  (System.Reachable.of_init (S := system) rfl).step (.load initial si shadow (by simp [initial]) h)

/-- A second CFI library in a granule takes it over, an unload clears the granule of a library that stays, and
the last granule of a library of 1025 leads elsewhere. -/
theorem allowed_conditions_needed :
    (∃ s, system.Reachable s ∧ s.live = [neighbour, smallLibrary] ∧ ¬ s.Sound) ∧
    (∃ s, system.Reachable s ∧ s.live = [smallLibrary] ∧ ¬ s.Sound) ∧
    (∃ s, system.Reachable s ∧ s.live = [hugeLibrary] ∧ ¬ s.Sound) := by
  let small := add initial.shadow 0x7f0000000000 0x7f0000002000 0x7f0000000000
  have hsm : system.Reachable ⟨small, [smallLibrary]⟩ := reachable_load rfl
  refine ⟨⟨⟨add small 0x7f0000002000 0x7f0000004000 0x7f0000002000, [neighbour, smallLibrary]⟩, ?_, rfl, ?_⟩,
    ⟨⟨beforeUnload (addUnchecked small 0x7f0000002000 0x7f0000004000) plainNeighbour, [smallLibrary]⟩,
      ?_, rfl, ?_⟩,
    ⟨⟨add initial.shadow hugeLibrary.base (hugeLibrary.base + hugeLibrary.size) hugeLibrary.cfiCheck,
      [hugeLibrary]⟩, reachable_load rfl, rfl, ?_⟩⟩
  · refine hsm.step (.load _ neighbour _ ?_ rfl)
    simp only [mem_singleton, forall_eq]
    exact .inr (by decide)
  · intro hs
    have := hs smallLibrary (by simp) (by decide) 0x7f0000001000 (by decide) (by decide)
    revert this
    unfold LeadsToCheck
    decide +kernel
  · have hl : Step ⟨small, [smallLibrary]⟩
        ⟨addUnchecked small 0x7f0000002000 0x7f0000004000, [plainNeighbour, smallLibrary]⟩ := by
      refine .load _ plainNeighbour _ ?_ rfl
      simp only [mem_singleton, forall_eq]
      exact .inr (by decide)
    refine (hsm.step hl).step ?_
    exact .unload ⟨_, [plainNeighbour, smallLibrary]⟩ plainNeighbour (by simp)
  · intro hs
    have := hs smallLibrary (by simp) (by decide) 0x7f0000001000 (by decide) (by decide)
    revert this
    unfold LeadsToCheck
    decide +kernel
  · exact not_sound_of_not_fits hugeLibrary (by decide) rfl (by decide)

end Runs

end Bionic.Cfi
