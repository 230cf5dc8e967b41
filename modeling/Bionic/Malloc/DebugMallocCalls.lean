import Bionic.Malloc.DebugMalloc
import Mathlib.Data.Nat.Bitwise

namespace Bionic.DebugMalloc

open Function Nat Debug

variable {c : Config} {g : Dispatch} {d d' : Debug} {start header x alignment : ℕ} {size realSize usable : ℕ}
  {answer : Option (ℕ × ℕ)}

theorem Config.pointerOffset_le (c : Config) : c.pointerOffset ≤ 16416 := by
  have h := c.frontGuardBytes_le
  rw [maxGuardBytes] at h
  rw [pointerOffset]
  split
  · split <;> omega
  · omega

theorem Config.extraBytes_le (c : Config) : c.extraBytes ≤ 49184 := by
  have h := c.pointerOffset_le
  have hr := c.rearGuardBytes_le
  have he := c.expandAllocBytes_le
  rw [maxGuardBytes] at hr
  rw [maxExpandBytes] at he
  have hl : (if c.headerEnabled then c.pointerOffset + if c.rearGuard then c.rearGuardBytes else 0 else 0) ≤ 32800 := by
    split
    · split <;> omega
    · omega
  have hri : (if c.expandAlloc then c.expandAllocBytes else 0) ≤ 16384 := by
    split <;> omega
  rw [extraBytes]
  omega

theorem Config.pointerOffset_le_extraBytes (hc : c.headerEnabled) : c.pointerOffset ≤ c.extraBytes := by
  rw [extraBytes, if_pos hc, add_assoc]
  exact le_add_right _ _

theorem Config.getHeader_getPointer (c : Config) (h : header < 2 ^ 64) :
    c.getHeader (c.getPointer header) = header := by
  have hle := c.pointerOffset_le
  rw [getHeader, getPointer]
  omega

structure Unchanged (d d' : Debug) : Prop where
  heap_eq : d'.heap = d.heap
  frame : Frame d d'
  freePointers_eq : d'.freePointers = d.freePointers
  pointers_eq : d'.pointers = d.pointers

theorem Unchanged.refl (d : Debug) : Unchanged d d := ⟨rfl, .refl d, rfl, rfl⟩

inductive Outcome (c : Config) (d : Debug) : Option ℕ × Debug → Prop
  | fail {d' : Debug} (h : Unchanged d d') : Outcome c d (none, d')
  | alloc {d' : Debug} {p start : ℕ} {block : Block} (h : Allocates c d d' p start block) : Outcome c d (some p, d')

theorem Outcome.none (c : Config) (d : Debug) : Outcome c d (none, d) := .fail (.refl d)

@[simp]
theorem add_heap (c : Config) (d : Debug) (p size : ℕ) : (d.add c p size).heap = d.heap := by
  rw [add]
  split <;> rfl

@[simp]
theorem add_headers (c : Config) (d : Debug) (p size : ℕ) : (d.add c p size).headers = d.headers := by
  rw [add]
  split <;> rfl

@[simp]
theorem add_freePointers (c : Config) (d : Debug) (p size : ℕ) : (d.add c p size).freePointers = d.freePointers := by
  rw [add]
  split <;> rfl

theorem add_origPointer (c : Config) (d : Debug) (p size q : ℕ) :
    (d.add c p size).origPointer c q = d.origPointer c q := by
  rw [origPointer, origPointer, add_headers]

theorem add_isSome (hc : c.trackAllocs) (d : Debug) (p size q : ℕ) :
    ((d.add c p size).pointers q).isSome ↔ q = p ∨ (d.pointers q).isSome := by
  have hadd : (d.add c p size).pointers = update d.pointers p (some (getEncodedSize c size)) := by
    rw [add, if_pos hc]
  rw [hadd]
  by_cases h : q = p
  · rw [h, update_self]
    simp
  · simp [h]

theorem remove_isSome (hc : c.trackAllocs) (d : Debug) (p q : ℕ) :
    ((d.remove c p).pointers q).isSome ↔ q ≠ p ∧ (d.pointers q).isSome := by
  have hr : (d.remove c p).pointers = update d.pointers p none := by
    rw [remove, if_pos hc]
  rw [hr]
  by_cases h : q = p
  · rw [h, update_self]
    simp
  · simp [h]

@[simp]
theorem remove_heap (c : Config) (d : Debug) (p : ℕ) : (d.remove c p).heap = d.heap := by
  rw [remove]
  split <;> rfl

@[simp]
theorem remove_headers (c : Config) (d : Debug) (p : ℕ) : (d.remove c p).headers = d.headers := by
  rw [remove]
  split <;> rfl

@[simp]
theorem remove_freePointers (c : Config) (d : Debug) (p : ℕ) : (d.remove c p).freePointers = d.freePointers := by
  rw [remove]
  split <;> rfl

theorem frame_setHeader (hf : Fresh d.heap start realSize) (hle : start ≤ header)
    (hlt : header < start + realSize) {v : Header} (h : d'.headers = update d.headers header v) : Frame d d' := by
  intro b block a hb hba hab
  have ha := hf.apart b block hb
  rw [h]
  exact update_of_ne (by omega) _ _

theorem initHeader_outcome (hs : Separate d.heap) (hf : Fresh d.heap start realSize) (hpos : 0 < realSize)
    (hc : c.headerEnabled) (hle : start ≤ header) (hlt : header < start + realSize) :
    Outcome c d (added c size ((d.dispatchAlloc start ⟨realSize, usable⟩).initHeader c header start size)) := by
  have hb := hf.bound
  have hn := hf.heap_eq_none hs hpos
  have hu : (d.dispatchAlloc start ⟨realSize, usable⟩).mallocUsableSize start = usable := by
    show (update d.heap start (some ⟨realSize, usable⟩) start).elim 0 Block.usable = usable
    rw [update_self]
    rfl
  rw [initHeader, hu]
  split
  · refine .fail ⟨?_, frame_setHeader hf hle hlt rfl, rfl, rfl⟩
    show update (update d.heap start (some ⟨realSize, usable⟩)) start none = d.heap
    rw [update_idem, ← hn, update_eq_self]
  · have hh : c.getHeader (c.getPointer header) = header := c.getHeader_getPointer (by omega)
    refine .alloc (?_ : Allocates c d _ _ start ⟨realSize, usable⟩)
    refine ⟨hf, hpos, ?_, ?_, ?_, ?_, ?_, ?_⟩
    · rw [add_heap]
      rfl
    · exact frame_setHeader hf hle hlt (add_headers ..)
    · rw [add_origPointer, origPointer, if_pos hc, hh]
      show (update d.headers header _ header).origPointer = start
      rw [update_self]
    · intro _
      rw [hh, add_headers]
      refine ⟨hle, hlt, ?_⟩
      show (update d.headers header _ header).tag = debugTag
      rw [update_self]
    · rw [add_freePointers]
      rfl
    · intro ht q
      exact add_isSome ht _ _ _ q

theorem withHeader_outcome (hs : Separate d.heap) (hpos : 0 < realSize) (hc : c.headerEnabled)
    (hf : ∀ a u, answer = some (a, u) → Fresh d.heap a realSize) :
    Outcome c d (d.withHeader c size realSize answer) := by
  cases answer with
  | none => exact .none c d
  | some b => exact initHeader_outcome hs (hf b.1 b.2 rfl) hpos hc le_rfl (by omega)

theorem plain_outcome (hpos : 0 < realSize) (hc : ¬ c.headerEnabled)
    (hf : ∀ a u, answer = some (a, u) → Fresh d.heap a realSize) :
    Outcome c d (d.plain c size realSize answer) := by
  cases answer with
  | none => exact .none c d
  | some b =>
    refine .alloc (?_ : Allocates c d _ _ b.1 ⟨realSize, b.2⟩)
    refine ⟨hf b.1 b.2 rfl, hpos, ?_, ?_, ?_, fun h => absurd h hc, ?_, fun ht q => add_isSome ht _ _ _ q⟩
    · rw [add_heap]
      rfl
    · intro _ _ a _ _ _
      exact congrFun (add_headers ..) a
    · rw [origPointer, if_neg hc]
    · rw [add_freePointers]
      rfl

theorem internalMalloc_outcome (hs : Separate d.heap) (hg : g.Sound d) (size : ℕ) :
    Outcome c d (d.internalMalloc c g size) := by
  have hpos : 0 < if size = 0 then 1 else size := by
    split <;> omega
  rw [internalMalloc]
  generalize (if size = 0 then 1 else size) = size at hpos
  split
  · exact .none c d
  next hle =>
    split
    · exact .none c d
    · split
      next hc => exact withHeader_outcome hs (by omega) hc (hg.memalign _ _)
      next hc => exact plain_outcome (by omega) hc (hg.malloc _)

theorem debugCalloc_outcome (hs : Separate d.heap) (hg : g.Sound d) (nmemb bytes : ℕ) :
    Outcome c d (d.debugCalloc c g nmemb bytes) := by
  have hpos : 0 < if nmemb * bytes = 0 then 1 else nmemb * bytes := by
    split <;> omega
  rw [debugCalloc]
  generalize (if nmemb * bytes = 0 then 1 else nmemb * bytes) = size at hpos
  split
  · exact .none c d
  dsimp only
  split
  · exact .none c d
  split
  · exact .none c d
  split
  next hc => exact withHeader_outcome hs (by omega) hc (hg.memalign _ _)
  next hc => exact plain_outcome (by omega) hc (hg.calloc _)

theorem powerof2_le (hx : x < 2 ^ 64) (h : powerof2 x) : x ≤ 2 ^ 63 := by
  apply Classical.byContradiction
  intro hlt
  have hand : (x - 1) &&& x = 0 := of_decide_eq_true h
  have hbit : ((x - 1) &&& x).testBit 63 := by
    rw [testBit_and, testBit_eq_decide_div_mod_eq, testBit_eq_decide_div_mod_eq]
    have h₁ : (x - 1) / 2 ^ 63 % 2 = 1 := by omega
    have h₂ : x / 2 ^ 63 % 2 = 1 := by omega
    rw [h₁, h₂]
    rfl
  rw [hand] at hbit
  cases hbit

theorem roundUpPowerOf2_le (hx : x < 2 ^ 64) : roundUpPowerOf2 x ≤ 2 ^ 63 := by
  rw [roundUpPowerOf2]
  by_cases h : x = 0
  · rw [h]
    decide
  · have hlog := (log2_lt h).mpr hx
    by_cases hl : x.log2 + 1 = 64
    · rw [hl]
      exact Nat.zero_le _
    · exact (Nat.mod_le _ _).trans (Nat.pow_le_pow_right (by omega) (by omega))

theorem aligned_header {bytes : ℕ} (hc : c.headerEnabled) (ha : 0 < alignment) (hmax : alignment ≤ 2 ^ 63)
    (hb : bytes ≤ maxSize) (hbo : start + (alignment + bytes + c.extraBytes) % 2 ^ 64 ≤ 2 ^ 64) :
    ∃ r < alignment, c.getHeader (((start + c.pointerOffset) % 2 ^ 64 +
      (2 ^ 64 - (start + c.pointerOffset) % 2 ^ 64) % 2 ^ 64 % alignment) % 2 ^ 64) = start + r ∧
      alignment ≤ (alignment + bytes + c.extraBytes) % 2 ^ 64 := by
  have he := c.extraBytes_le
  have ho := Config.pointerOffset_le_extraBytes hc
  have hr := mod_lt ((2 ^ 64 - (start + c.pointerOffset) % 2 ^ 64) % 2 ^ 64) ha
  generalize (2 ^ 64 - (start + c.pointerOffset) % 2 ^ 64) % 2 ^ 64 % alignment = r at hr
  rw [maxSize] at hb
  refine ⟨r, hr, ?_, by omega⟩
  rw [Config.getHeader]
  omega

theorem debugMemalign_outcome (hs : Separate d.heap) (hg : g.Sound d) (ha : alignment < 2 ^ 64)
    (bytes : ℕ) : Outcome c d (d.debugMemalign c g alignment bytes) := by
  have hpos : 0 < if bytes = 0 then 1 else bytes := by
    split <;> omega
  rw [debugMemalign]
  generalize (if bytes = 0 then 1 else bytes) = bytes at hpos
  dsimp only
  split
  · exact .none c d
  next hmax =>
    split
    next hc =>
      have hro : (if powerof2 alignment then alignment else roundUpPowerOf2 alignment) ≤ 2 ^ 63 := by
        split
        next h => exact powerof2_le ha h
        next h => exact roundUpPowerOf2_le ha
      generalize (if powerof2 alignment then alignment else roundUpPowerOf2 alignment) = rounded at hro
      have hmin : (if rounded < minimumAlignmentBytes then minimumAlignmentBytes else rounded) ≤ 2 ^ 63 ∧
          0 < if rounded < minimumAlignmentBytes then minimumAlignmentBytes else rounded := by
        rw [minimumAlignmentBytes]
        split <;> omega
      generalize (if rounded < minimumAlignmentBytes then minimumAlignmentBytes else rounded) = alignment at hmin
      split
      · exact .none c d
      next hle =>
        split
        · exact .none c d
        next start usable h =>
          have hf := hg.malloc _ _ _ h
          obtain ⟨r, hr, hh, ha⟩ := aligned_header hc hmin.2 hmin.1 (Nat.le_of_not_lt hmax) hf.bound
          exact initHeader_outcome hs hf (by omega) hc (by omega) (by omega)
    next hc =>
      split
      · exact .none c d
      next hle => exact plain_outcome (by omega) hc (hg.memalign _ _)

end Bionic.DebugMalloc
