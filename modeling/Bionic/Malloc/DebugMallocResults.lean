import Bionic.Malloc.DebugMallocRuns
import Mathlib.Data.Finset.Basic

namespace Bionic.DebugMalloc


variable {c : Config} {g : Dispatch} {d : Debug} {live : Finset ℕ} {p : ℕ} {s : State} {bytes : UInt64}

def expandBytes (c : Config) : ℕ := if c.expandAlloc then c.expandAllocBytes else 0

/-- Without headers, the underlying allocator does not fail in a `realloc` that it is asked for. -/
def ReallocSucceeds (c : Config) (g : Dispatch) : Call → Prop
  | .realloc (some pointer) bytes => c.headerEnabled ∨ bytes.toNat = 0 ∨ maxSize < bytes.toNat ∨
      (g.realloc pointer (bytes.toNat + expandBytes c)).isSome
  | _ => True

theorem Inv.outcome (hi : Inv c d live) (ht : c.trackAllocs) {r : Option ℕ × Debug} (h : Outcome c d r) :
    Inv c r.2 (r.1.elim live fun p => insert p live) := by
  cases h with
  | fail h => exact hi.unchanged h
  | alloc h => exact (hi.allocate ht h).2

theorem Inv.regrow (hi : Inv c d live) (ht : c.trackAllocs) (hg : g.Sound d) (hp : p ∈ live) (bytes : ℕ) :
    match d.internalMalloc c g bytes with
    | (none, d') => Inv c d' live
    | (some q, d') => Inv c (d'.internalFree c p) (insert q (live.erase p)) := by
  cases hr : d.internalMalloc c g bytes with
  | mk q d' =>
    have h := internalMalloc_outcome (c := c) hi.holds.separate hg bytes
    rw [hr] at h
    cases h with
    | fail h => exact hi.unchanged h
    | @alloc _ q _ _ h =>
      obtain ⟨hnew, hi'⟩ := hi.allocate ht h
      have hne : q ≠ p := fun heq => hnew (heq.symm ▸ hp)
      have hf := hi'.internalFree ht (Finset.mem_insert_of_mem hp)
      rwa [Finset.erase_insert_of_ne hne] at hf

theorem realSize_eq {bytes : ℕ} (h : bytes ≤ maxSize) :
    (if c.expandAlloc then (bytes + c.expandAllocBytes) % 2 ^ 64 else bytes) = bytes + expandBytes c := by
  have he := c.expandAllocBytes_le
  rw [maxSize] at h
  rw [maxExpandBytes] at he
  rw [expandBytes]
  split
  · omega
  · rfl

theorem Inv.debugRealloc (hi : Inv c d live) (ht : c.trackAllocs) (hg : g.Sound d) (hp : p ∈ live)
    (hok : ReallocSucceeds c g (.realloc (some p) bytes)) :
    Inv c (d.debugRealloc c g (some p) bytes.toNat).2
      (held live (.realloc (some p) bytes) (d.debugRealloc c g (some p) bytes.toNat).1) := by
  have hv := (hi.verifyPointer_iff ht p).mpr hp
  have hn : bytes.toNat ≠ 0 → held live (.realloc (some p) bytes) none = live := by
    intro h
    exact if_neg fun heq => h (by rw [heq]; rfl)
  have hs : ∀ q, bytes.toNat ≠ 0 → held live (.realloc (some p) bytes) (some q) = insert q (live.erase p) := by
    intro q h
    exact if_neg fun heq => h (by rw [heq]; rfl)
  have hsa : insert p (live.erase p) = live := Finset.insert_erase hp
  rw [Debug.debugRealloc, if_neg (not_not.mpr hv)]
  by_cases hz : bytes.toNat = 0
  · have hb : bytes = 0 := UInt64.toNat_inj.mp hz
    rw [if_pos hz, held, if_pos hb]
    exact hi.internalFree ht hp
  rw [if_neg hz]
  dsimp only
  by_cases hmax : bytes.toNat > maxSize
  · rw [if_pos hmax, ite_self, hn hz]
    exact hi
  rw [realSize_eq (Nat.le_of_not_lt hmax), if_neg (by omega), if_neg hmax]
  by_cases hc : c.headerEnabled
  · rw [if_pos hc]
    split
    · rw [hs p hz, hsa]
      exact hi.readd ht hp _
    split
    · rw [hs p hz, hsa]
      exact hi.resize ht hp _
    · have hgr := hi.regrow ht hg hp bytes.toNat
      cases hr : d.internalMalloc c g bytes.toNat with
      | mk q d' =>
        rw [hr] at hgr
        cases q with
        | none =>
          rw [hn hz]
          exact hgr
        | some q =>
          rw [hs q hz]
          exact hgr
  · rw [if_neg hc]
    have ha : (g.realloc p (bytes.toNat + expandBytes c)).isSome :=
      ((hok.resolve_left hc).resolve_left hz).resolve_left hmax
    obtain ⟨⟨start, usable⟩, h⟩ := Option.isSome_iff_exists.mp ha
    rw [h, hs start hz]
    exact hi.moved ht hc hp (by omega) (hg.realloc _ _ _ _ h)

theorem Inv.next (hi : Inv c s.debug s.live) (ht : c.trackAllocs) (hg : g.Sound s.debug) {call : Call}
    (hp : ∀ p, call.pointer = some p → p ∈ s.live) (hok : ReallocSucceeds c g call) :
    Inv c (s.next c g call).debug (s.next c g call).live := by
  have hh : ∀ (call : Call) (r : Option ℕ), call.pointer = none → held s.live call r = r.elim s.live fun p => insert p s.live := by
    intro call r h
    cases call with
    | realloc pointer bytes | free pointer =>
      obtain rfl : pointer = none := h
      cases r <;> rfl
    | _ => cases r <;> rfl
  have hs := hi.holds.separate
  rw [State.next]
  cases call with
  | malloc size =>
    rw [hh _ _ rfl]
    exact hi.outcome ht (internalMalloc_outcome hs hg _)
  | calloc nmemb bytes =>
    rw [hh _ _ rfl]
    exact hi.outcome ht (debugCalloc_outcome hs hg _ _)
  | memalign alignment bytes =>
    rw [hh _ _ rfl]
    exact hi.outcome ht (debugMemalign_outcome hs hg alignment.toNat_lt _)
  | realloc pointer bytes =>
    cases pointer with
    | none =>
      rw [hh _ _ rfl]
      exact hi.outcome ht (internalMalloc_outcome hs hg _)
    | some p => exact hi.debugRealloc ht hg (hp p rfl) hok
  | free pointer =>
    cases pointer with
    | none => exact hi
    | some p =>
      have hv := (hi.verifyPointer_iff ht p).mpr (hp p rfl)
      show Inv c (s.debug.debugFree c (some p)) (s.live.erase p)
      rw [Debug.debugFree, if_pos hv]
      exact hi.internalFree ht (hp p rfl)

theorem inv_invariant (ht : c.trackAllocs) : (system c (ReallocSucceeds c)).Invariant fun s => Inv c s.debug s.live := by
  constructor
  · rintro s ⟨hs, hta, hf, hl⟩
    have he : ∀ p, p ∉ inUse s.debug s.live := by
      rintro p (h | h)
      · rw [hl] at h
        exact Finset.notMem_empty p h
      · rw [hf] at h
        exact List.not_mem_nil h
    refine ⟨fun p => ?_, ⟨hs, fun p h => absurd h (he p), fun p h => absurd h (he p)⟩, fun _ p h => ?_, ?_, ?_⟩
    · rw [hta p, hl]
      simp
    · exact absurd (.inl h) (he p)
    · rw [hf]
      exact List.nodup_nil
    · intro p h
      exact absurd (.inl h) (he p)
  · rintro s _ hi ⟨g, call, hg, hp, hok, rfl⟩
    exact hi.next ht hg hp hok

/-- Where the underlying `realloc` fails, the pointer has left the table for good. -/
theorem lost_of_failed_realloc (hi : Inv c s.debug s.live) (ht : c.trackAllocs) (hp : p ∈ s.live)
    (h : ¬ ReallocSucceeds c g (.realloc (some p) bytes)) :
    ((s.next c g (.realloc (some p) bytes)).debug.pointers p).isSome = false ∧
      p ∈ (s.next c g (.realloc (some p) bytes)).live := by
  obtain ⟨hc, hz, hmax, ha⟩ : ¬ c.headerEnabled ∧ bytes.toNat ≠ 0 ∧ ¬ maxSize < bytes.toNat ∧
      ¬ (g.realloc p (bytes.toNat + expandBytes c)).isSome := by
    simpa only [ReallocSucceeds, not_or] using h
  have hv := (hi.verifyPointer_iff ht p).mpr hp
  have hn : g.realloc p (bytes.toNat + expandBytes c) = none := by
    simpa using ha
  have hca : s.debug.debugRealloc c g (some p) bytes.toNat = (none, s.debug.remove c p) := by
    rw [Debug.debugRealloc, if_neg (not_not.mpr hv), if_neg hz]
    rw [realSize_eq (Nat.le_of_not_lt hmax), if_neg (by omega), if_neg hmax, if_neg hc, hn]
  have hb : bytes ≠ 0 := fun heq => hz (by rw [heq]; rfl)
  rw [State.next, Debug.call, hca, held, if_neg hb]
  refine ⟨?_, hp⟩
  have hr := remove_isSome ht s.debug p p
  simpa using hr

/-- As long as no underlying `realloc` fails, the table holds exactly the pointers of the program and the check
accepts exactly these; without headers the first failed `realloc` ends that. -/
theorem tracked_pointers (c : Config) (ht : c.trackAllocs) (s : State)
    (hs : (system c (ReallocSucceeds c)).Reachable s) :
    (∀ p, (s.debug.pointers p).isSome ↔ p ∈ s.live) ∧ (∀ p, s.debug.verifyPointer c p ↔ p ∈ s.live) ∧
      ∀ g call, g.Sound s.debug → (∀ p, call.pointer = some p → p ∈ s.live) →
        ((∀ p, ((s.next c g call).debug.pointers p).isSome ↔ p ∈ (s.next c g call).live) ↔ ReallocSucceeds c g call) := by
  have hi := (inv_invariant ht).reachable hs
  refine ⟨hi.table, hi.verifyPointer_iff ht, fun g call hg hp => ⟨fun h => ?_, fun hok => (hi.next ht hg hp hok).table⟩⟩
  apply Classical.byContradiction
  intro hf
  cases call with
  | realloc pointer bytes =>
    cases pointer with
    | none => exact hf trivial
    | some p =>
      have hl := lost_of_failed_realloc hi ht (hp p rfl) hf
      have hmem := (h p).mpr hl.2
      rw [hl.1] at hmem
      cases hmem
  | _ => exact hf trivial

/-- The pointers of the program and those kept back after their `free` have blocks of their own. -/
theorem pointers_apart (c : Config) (ht : c.trackAllocs) (s : State)
    (hs : (system c (ReallocSucceeds c)).Reachable s) :
    Holds c s.debug (inUse s.debug s.live) ∧ s.debug.freePointers.Nodup ∧ ∀ p ∈ s.live, p ∉ s.debug.freePointers := by
  have hi := (inv_invariant ht).reachable hs
  exact ⟨hi.holds, hi.nodup, hi.kept⟩

section Example

/-- Tracking without headers. -/
def leakTrack : Config where
  frontGuard := false
  rearGuard := false
  expandAlloc := false
  freeTrack := false
  trackAllocs := true
  frontGuardBytes := 0
  rearGuardBytes := 0
  expandAllocBytes := 0
  freeTrackAllocations := 0
  zygoteChild := false
  frontGuardBytes_le := Nat.zero_le _
  rearGuardBytes_le := Nat.zero_le _
  expandAllocBytes_le := Nat.zero_le _

/-- Tracking with headers, where freed pointers are kept back. -/
def guarded : Config :=
  { leakTrack with
    rearGuard := true
    rearGuardBytes := 16
    rearGuardBytes_le := by decide
    freeTrack := true
    freeTrackAllocations := 4 }

def start : State := ⟨⟨fun _ => none, fun _ => ⟨0, 0, 0, 0⟩, fun _ => none, []⟩, ∅⟩

/-- An allocator with one page left. -/
def page (a : ℕ) : Dispatch where
  malloc n := if n ≤ 4096 then some (a, n) else none
  calloc _ _ := none
  memalign _ n := if n ≤ 4096 then some (a, n) else none
  realloc _ _ := none

def exhausted : Dispatch := ⟨fun _ => none, fun _ _ => none, fun _ _ => none, fun _ _ => none⟩

theorem page_sound {a : ℕ} {d : Debug} (h : Fresh d.heap a 4096) : (page a).Sound d := by
  have hfresh {n b u : ℕ} (hn : (if n ≤ 4096 then some (a, n) else none) = some (b, u)) : Fresh d.heap b n := by
    split at hn
    next hle =>
      cases hn
      have hb := h.bound
      refine ⟨h.pos, by omega, fun b block hheap => ?_⟩
      have hapart := h.apart b block hheap
      omega
    next => cases hn
  exact ⟨fun n b u hn => hfresh hn, fun n b u hn => (by cases hn), fun k n b u hn => hfresh hn,
    fun p n b u hn => (by cases hn)⟩

theorem exhausted_sound (d : Debug) : exhausted.Sound d :=
  ⟨fun n a u h => (by cases h), fun n a u h => (by cases h), fun k n a u h => (by cases h),
    fun p n a u h => (by cases h)⟩

theorem start_init (c : Config) (allowed : Dispatch → Call → Prop) : (system c allowed).Init start :=
  ⟨⟨fun a block h => (by cases h), fun a b block block' _ h => (by cases h)⟩, fun _ => rfl, rfl, rfl⟩

def allocated (c : Config) : State := start.next c (page 4096) (.malloc 16)

theorem allocated_step {c : Config} {allowed : Dispatch → Call → Prop} (h : allowed (page 4096) (.malloc 16)) :
    (system c allowed).Reachable (allocated c) :=
  .step (.of_init (start_init c allowed))
    ⟨page 4096, .malloc 16, page_sound ⟨by decide, by decide, nofun⟩, fun p hp => (by cases hp), h, rfl⟩

/-- The first of two pointers is freed and kept back. -/
def keptBack : State :=
  ((allocated guarded).next guarded (page 8192) (.malloc 16)).next guarded exhausted (.free (some 4128))

theorem keptBack_reachable : (system guarded (ReallocSucceeds guarded)).Reachable keptBack := by
  have hfresh : Fresh (allocated guarded).debug.heap 8192 4096 := by
    refine ⟨by decide, by decide, fun b block hb => ?_⟩
    have heq : (allocated guarded).debug.heap = Function.update (fun _ => none) 4096 (some ⟨64, 64⟩) := rfl
    rw [heq, Function.update_apply] at hb
    split at hb
    next hb4 =>
      cases hb
      exact .inr (by rw [hb4]; decide)
    next => cases hb
  refine ((allocated_step trivial).step
    ⟨page 8192, .malloc 16, page_sound hfresh, fun p hp => (by cases hp), trivial, rfl⟩).step
    ⟨exhausted, .free (some 4128), exhausted_sound _, ?_, trivial, rfl⟩
  rintro p ⟨⟩
  decide

theorem tracked_pointers_keptBack : keptBack.debug.verifyPointer guarded 8224 ∧
    ¬keptBack.debug.verifyPointer guarded 4128 := by
  have h := (tracked_pointers guarded rfl keptBack keptBack_reachable).2.1
  exact ⟨(h 8224).mpr (by decide), fun hv => absurd ((h 4128).mp hv) (by decide)⟩

theorem pointers_apart_keptBack : keptBack.debug.freePointers = [4128] ∧
    (∃ block, Owned guarded keptBack.debug 8224 block) ∧ (∃ block, Owned guarded keptBack.debug 4128 block) ∧
      8224 ∉ keptBack.debug.freePointers := by
  have h := pointers_apart guarded rfl keptBack keptBack_reachable
  have hlive : 8224 ∈ keptBack.live := by decide
  exact ⟨rfl, h.1.owned 8224 (.inl hlive), h.1.owned 4128 (.inr (by decide)), h.2.2 8224 hlive⟩

/-- The underlying `realloc` fails, so the program keeps its pointer; but it is unknown from then on. -/
theorem failed_realloc_loses_pointer : ∃ s, (system leakTrack fun _ _ => True).Reachable s ∧ 4096 ∈ s.live ∧
    s.debug.verifyPointer leakTrack 4096 = false := by
  have hmem : ∀ p, (Call.realloc (some 4096) 32).pointer = some p → p ∈ (allocated leakTrack).live := by
    rintro p ⟨⟩
    decide
  exact ⟨(allocated leakTrack).next leakTrack exhausted (.realloc (some 4096) 32), .step (allocated_step trivial)
    ⟨exhausted, .realloc (some 4096) 32, exhausted_sound _, hmem, trivial, rfl⟩, by decide, by decide⟩

end Example

end Bionic.DebugMalloc
