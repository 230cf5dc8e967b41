import Bionic.Lib.System
import Mathlib.Algebra.Order.Ring.Nat
import Mathlib.Data.Finset.Erase
import Mathlib.Data.Finset.Insert

namespace Bionic.DebugMalloc

open Lib Function

def maxGuardBytes : ℕ := 16384

def maxExpandBytes : ℕ := 16384

def minimumAlignmentBytes : ℕ := 16

def debugTag : UInt32 := 0x1ee7d00d

def debugFreeTag : UInt32 := 0x1cc7dccd

/-- The options that decide what is allocated and tracked, with the bounds that their parser enforces. -/
structure Config where
  frontGuard : Bool
  rearGuard : Bool
  expandAlloc : Bool
  freeTrack : Bool
  trackAllocs : Bool
  frontGuardBytes : ℕ
  rearGuardBytes : ℕ
  expandAllocBytes : ℕ
  freeTrackAllocations : ℕ
  zygoteChild : Bool
  frontGuardBytes_le : frontGuardBytes ≤ maxGuardBytes
  rearGuardBytes_le : rearGuardBytes ≤ maxGuardBytes
  expandAllocBytes_le : expandAllocBytes ≤ maxExpandBytes

namespace Config

variable (c : Config)

def headerEnabled : Bool := c.frontGuard || c.rearGuard

/-- The header is `32` bytes long, with its padding. -/
def pointerOffset : ℕ :=
  if c.headerEnabled then 32 + if c.frontGuard then c.frontGuardBytes else 0 else 0

def extraBytes : ℕ :=
  (if c.headerEnabled then c.pointerOffset + if c.rearGuard then c.rearGuardBytes else 0 else 0) +
    if c.expandAlloc then c.expandAllocBytes else 0

def getPointer (header : ℕ) : ℕ := (header + c.pointerOffset) % 2 ^ 64

def getHeader (pointer : ℕ) : ℕ := (pointer + 2 ^ 64 - c.pointerOffset) % 2 ^ 64

end Config

structure Header where
  tag : UInt32
  origPointer : ℕ
  size : ℕ
  usableSize : ℕ

/-- What the underlying allocator was asked for, and the usable size it reports. -/
structure Block where
  size : ℕ
  usable : ℕ

/-- The blocks of the underlying allocator by their start, the headers in memory by their address, and the
tables of `PointerData`. -/
structure Debug where
  heap : ℕ → Option Block
  headers : ℕ → Header
  pointers : ℕ → Option ℕ
  freePointers : List ℕ

/-- The answers of the underlying allocator: a null pointer, or the start of a block and its usable size. -/
structure Dispatch where
  malloc : ℕ → Option (ℕ × ℕ)
  calloc : ℕ → ℕ → Option (ℕ × ℕ)
  memalign : ℕ → ℕ → Option (ℕ × ℕ)
  realloc : ℕ → ℕ → Option (ℕ × ℕ)

def maxSize : ℕ := 2 ^ 31 - 1

def powerof2 (x : ℕ) : Bool := (x - 1) &&& x = 0

def roundUpPowerOf2 (value : ℕ) : ℕ := 2 ^ (value.log2 + 1) % 2 ^ 64

namespace Debug

variable (c : Config) (g : Dispatch) (d : Debug) (start : ℕ)

def dispatchAlloc (block : Block) : Debug := { d with heap := update d.heap start (some block) }

def dispatchFree : Debug := { d with heap := update d.heap start none }

def mallocUsableSize : ℕ := (d.heap start).elim 0 Block.usable

variable (pointer size realSize : ℕ)

def getEncodedSize : ℕ := if c.zygoteChild then size ||| 2 ^ 31 else size

def add : Debug :=
  if c.trackAllocs then { d with pointers := update d.pointers pointer (some (getEncodedSize c size)) } else d

def remove : Debug :=
  if c.trackAllocs then { d with pointers := update d.pointers pointer none } else d

/-- `PointerData::AddFreed`, with the pointer it pushes out. -/
def addFreed : Option ℕ × Debug :=
  if d.freePointers.length = c.freeTrackAllocations then
    (d.freePointers.head?, { d with freePointers := d.freePointers.tail ++ [pointer] })
  else (none, { d with freePointers := d.freePointers ++ [pointer] })

def verifyPointer : Bool :=
  (!c.headerEnabled || (d.headers (c.getHeader pointer)).tag == debugTag) &&
    (!c.trackAllocs || (d.pointers pointer).isSome)

def setHeader (address : ℕ) (header : Header) : Debug :=
  { d with headers := update d.headers address header }

def initHeader (header origPointer size : ℕ) : Option ℕ × Debug :=
  let usable := d.mallocUsableSize origPointer
  if usable = 0 then (none, (d.setHeader header ⟨debugTag, origPointer, size, 0⟩).dispatchFree origPointer)
  else
    let rest := (usable + 2 ^ 64 - (c.pointerOffset + header - origPointer)) % 2 ^ 64
    (some (c.getPointer header),
      d.setHeader header ⟨debugTag, origPointer, size, if c.rearGuard then size else rest⟩)

def added : Option ℕ × Debug → Option ℕ × Debug
  | (none, d) => (none, d)
  | (some pointer, d) => (some pointer, d.add c pointer size)

def withHeader : Option (ℕ × ℕ) → Option ℕ × Debug
  | none => (none, d)
  | some (start, usable) => added c size ((d.dispatchAlloc start ⟨realSize, usable⟩).initHeader c start start size)

def plain : Option (ℕ × ℕ) → Option ℕ × Debug
  | none => (none, d)
  | some (start, usable) => added c size (some start, d.dispatchAlloc start ⟨realSize, usable⟩)

def internalMalloc : Option ℕ × Debug :=
  let size := if size = 0 then 1 else size
  let realSize := (size + c.extraBytes) % 2 ^ 64
  if realSize < size then (none, d)
  else if size > maxSize then (none, d)
  else if c.headerEnabled then d.withHeader c size realSize (g.memalign minimumAlignmentBytes realSize)
  else d.plain c size realSize (g.malloc realSize)

def debugMalloc : Option ℕ × Debug := d.internalMalloc c g size

/-- The pointer whose block `free` gives back to the underlying allocator. -/
def origPointer : ℕ :=
  if c.headerEnabled then (d.headers (c.getHeader pointer)).origPointer else pointer

def markFreed : Debug :=
  if c.headerEnabled then
    d.setHeader (c.getHeader pointer) { d.headers (c.getHeader pointer) with tag := debugFreeTag }
  else d

def internalFree : Debug :=
  let freePointer := d.origPointer c pointer
  let d := (d.markFreed c pointer).remove c pointer
  if c.freeTrack then
    match d.addFreed c pointer with
    | (none, d) => d
    | (some last, d) => d.dispatchFree (d.origPointer c last)
  else d.dispatchFree freePointer

def debugFree : Option ℕ → Debug
  | none => d
  | some pointer => if d.verifyPointer c pointer then d.internalFree c pointer else d

def debugMemalign (alignment bytes : ℕ) : Option ℕ × Debug :=
  let bytes := if bytes = 0 then 1 else bytes
  if bytes > maxSize then (none, d)
  else if c.headerEnabled then
    let alignment := if powerof2 alignment then alignment else roundUpPowerOf2 alignment
    let alignment := if alignment < minimumAlignmentBytes then minimumAlignmentBytes else alignment
    let realSize := (alignment + bytes + c.extraBytes) % 2 ^ 64
    if realSize < bytes then (none, d)
    else
      match g.malloc realSize with
      | none => (none, d)
      | some (start, usable) =>
        let value := (start + c.pointerOffset) % 2 ^ 64
        let value := (value + (2 ^ 64 - value) % 2 ^ 64 % alignment) % 2 ^ 64
        added c bytes ((d.dispatchAlloc start ⟨realSize, usable⟩).initHeader c (c.getHeader value) start bytes)
  else
    let realSize := (bytes + c.extraBytes) % 2 ^ 64
    if realSize < bytes then (none, d) else d.plain c bytes realSize (g.memalign alignment realSize)

def resize : Debug :=
  let header := d.headers (c.getHeader pointer)
  let usableSize := if c.rearGuard then realSize else header.usableSize
  ((d.setHeader (c.getHeader pointer) { header with size := realSize, usableSize := usableSize }).remove c pointer).add c
    pointer realSize

def debugRealloc (pointer : Option ℕ) (bytes : ℕ) : Option ℕ × Debug :=
  match pointer with
  | none => d.internalMalloc c g bytes
  | some pointer =>
    if ¬ d.verifyPointer c pointer then (none, d)
    else if bytes = 0 then (none, d.internalFree c pointer)
    else
      let realSize := if c.expandAlloc then (bytes + c.expandAllocBytes) % 2 ^ 64 else bytes
      if realSize < bytes then (none, d)
      else if bytes > maxSize then (none, d)
      else if c.headerEnabled then
        let header := d.headers (c.getHeader pointer)
        if realSize = header.size then (some pointer, (d.remove c pointer).add c pointer realSize)
        else if realSize < header.usableSize then (some pointer, d.resize c pointer realSize)
        else
          match d.internalMalloc c g bytes with
          | (none, d) => (none, d)
          | (some newPointer, d) => (some newPointer, d.internalFree c pointer)
      else
        let d := d.remove c pointer
        match g.realloc pointer realSize with
        | none => (none, d)
        | some (start, usable) =>
          (some start, ((d.dispatchFree pointer).dispatchAlloc start ⟨realSize, usable⟩).add c start realSize)

def debugCalloc (nmemb bytes : ℕ) : Option ℕ × Debug :=
  if 2 ^ 64 ≤ nmemb * bytes then (none, d)
  else
    let size := if nmemb * bytes = 0 then 1 else nmemb * bytes
    let realSize := size + c.extraBytes
    if 2 ^ 64 ≤ realSize then (none, d)
    else if realSize > maxSize then (none, d)
    else if c.headerEnabled then d.withHeader c size realSize (g.memalign minimumAlignmentBytes realSize)
    else d.plain c size realSize (g.calloc 1 realSize)

end Debug

inductive Call
  | malloc (size : UInt64)
  | calloc (nmemb bytes : UInt64)
  | memalign (alignment bytes : UInt64)
  | realloc (pointer : Option ℕ) (bytes : UInt64)
  | free (pointer : Option ℕ)

def Debug.call (c : Config) (g : Dispatch) (d : Debug) : Call → Option ℕ × Debug
  | .malloc size => d.debugMalloc c g size.toNat
  | .calloc nmemb bytes => d.debugCalloc c g nmemb.toNat bytes.toNat
  | .memalign alignment bytes => d.debugMemalign c g alignment.toNat bytes.toNat
  | .realloc pointer bytes => d.debugRealloc c g pointer bytes.toNat
  | .free pointer => (none, d.debugFree c pointer)

/-- The pointers the program holds after a call, going by what the call returns. -/
def held (live : Finset ℕ) : Call → Option ℕ → Finset ℕ
  | .realloc (some pointer) bytes, result =>
    if bytes = 0 then live.erase pointer
    else
      match result with
      | none => live
      | some newPointer => insert newPointer (live.erase pointer)
  | .free (some pointer), _ => live.erase pointer
  | _, none => live
  | _, some newPointer => insert newPointer live

def Call.pointer : Call → Option ℕ
  | .realloc pointer _ => pointer
  | .free pointer => pointer
  | _ => none

structure State where
  debug : Debug
  live : Finset ℕ

structure Fresh (heap : ℕ → Option Block) (start size : ℕ) : Prop where
  pos : 0 < start
  bound : start + size ≤ 2 ^ 64
  apart : ∀ b block, heap b = some block → start + size ≤ b ∨ b + block.size ≤ start

structure Separate (heap : ℕ → Option Block) : Prop where
  pos : ∀ a block, heap a = some block → 0 < block.size
  apart : ∀ a b block block', a ≠ b → heap a = some block → heap b = some block' →
    a + block.size ≤ b ∨ b + block'.size ≤ a

/-- The underlying allocator hands out only blocks that are not in use. It may fail at any call. -/
structure Dispatch.Sound (g : Dispatch) (d : Debug) : Prop where
  malloc : ∀ n a u, g.malloc n = some (a, u) → Fresh d.heap a n
  calloc : ∀ n a u, g.calloc 1 n = some (a, u) → Fresh d.heap a n
  memalign : ∀ k n a u, g.memalign k n = some (a, u) → Fresh d.heap a n
  realloc : ∀ p n a u, g.realloc p n = some (a, u) → Fresh (update d.heap p none) a n

def State.next (c : Config) (g : Dispatch) (s : State) (call : Call) : State :=
  ⟨(s.debug.call c g call).2, held s.live call (s.debug.call c g call).1⟩

def system (c : Config) (allowed : Dispatch → Call → Prop) : System State where
  Init s := Separate s.debug.heap ∧ (∀ p, s.debug.pointers p = none) ∧ s.debug.freePointers = [] ∧ s.live = ∅
  Step s s' := ∃ g call, g.Sound s.debug ∧ (∀ p, call.pointer = some p → p ∈ s.live) ∧ allowed g call ∧
    s' = s.next c g call

variable {c : Config} {d d' : Debug} {p q start : ℕ} {block : Block} {held held' : Set ℕ}

theorem Fresh.heap_eq_none {n : ℕ} (hf : Fresh d.heap start n) (hs : Separate d.heap) (hpos : 0 < n) :
    d.heap start = none := by
  cases h : d.heap start with
  | none => rfl
  | some block' =>
    have hpos' := hs.pos start block' h
    have ha := hf.apart start block' h
    omega

theorem Separate.insert (hs : Separate d.heap) (hf : Fresh d.heap start block.size) (hpos : 0 < block.size) :
    Separate (update d.heap start (some block)) := by
  constructor
  · intro a block' h
    rw [update_apply] at h
    split_ifs at h
    · rwa [← Option.some.inj h]
    · exact hs.pos a block' h
  · intro a b block₁ block₂ hab h₁ h₂
    by_cases ha : a = start
    · have hb : b ≠ start := fun hb => hab (ha.trans hb.symm)
      rw [ha, update_self] at h₁
      rw [update_of_ne hb] at h₂
      rw [ha, ← Option.some.inj h₁]
      exact hf.apart b block₂ h₂
    · rw [update_of_ne ha] at h₁
      by_cases hb : b = start
      · rw [hb, update_self] at h₂
        rw [hb, ← Option.some.inj h₂]
        exact (hf.apart a block₁ h₁).symm
      · rw [update_of_ne hb] at h₂
        exact hs.apart a b block₁ block₂ hab h₁ h₂

theorem Separate.erase {heap : ℕ → Option Block} (hs : Separate heap) (start : ℕ) :
    Separate (update heap start none) := by
  have hold : ∀ a block, update heap start none a = some block → heap a = some block := by
    intro a block h
    rw [update_apply] at h
    split_ifs at h
    exact h
  exact ⟨fun a block h => hs.pos a block (hold a block h),
    fun a b block block' hab h h' => hs.apart a b block block' hab (hold a block h) (hold b block' h')⟩

/-- The pointer has its own block of the underlying allocator, with its header in it if there are headers. -/
structure Owned (c : Config) (d : Debug) (p : ℕ) (block : Block) : Prop where
  heap_eq : d.heap (d.origPointer c p) = some block
  header : c.headerEnabled → d.origPointer c p ≤ c.getHeader p ∧ c.getHeader p < d.origPointer c p + block.size

structure Holds (c : Config) (d : Debug) (held : Set ℕ) : Prop where
  separate : Separate d.heap
  owned : ∀ p ∈ held, ∃ block, Owned c d p block
  injective : ∀ p ∈ held, ∀ q ∈ held, d.origPointer c p = d.origPointer c q → p = q

section

variable (h : Holds c d held)

include h

theorem Holds.mono (hsub : held' ⊆ held) : Holds c d held' :=
  ⟨h.separate, fun p hp => h.owned p (hsub hp), fun p hp q hq => h.injective p (hsub hp) q (hsub hq)⟩

theorem Holds.congr (hh : d'.heap = d.heap)
    (ho : ∀ p ∈ held, d'.origPointer c p = d.origPointer c p) : Holds c d' held := by
  refine ⟨hh ▸ h.separate, fun p hp => ?_, fun p hp q hq hpq => ?_⟩
  · obtain ⟨block, hb, hhe⟩ := h.owned p hp
    refine ⟨block, ?_, ?_⟩
    · rw [ho p hp, hh]
      exact hb
    · rw [ho p hp]
      exact hhe
  · rw [ho p hp, ho q hq] at hpq
    exact h.injective p hp q hq hpq

theorem Holds.getHeader_ne (hp : p ∈ held) (hq : q ∈ held) (hne : p ≠ q)
    (hc : c.headerEnabled) : c.getHeader p ≠ c.getHeader q := by
  obtain ⟨block, hb, hh⟩ := h.owned p hp
  obtain ⟨block', hb', hh'⟩ := h.owned q hq
  have ho : d.origPointer c p ≠ d.origPointer c q := fun heq => hne (h.injective p hp q hq heq)
  have ha := h.separate.apart _ _ block block' ho hb hb'
  have hin := hh hc
  have hin' := hh' hc
  omega

theorem Holds.free (hq : q ∈ held) : Holds c (d.dispatchFree (d.origPointer c q)) (held \ {q}) := by
  refine ⟨h.separate.erase _, fun p hp => ?_, fun p hp p' hp' hpp' => h.injective p hp.1 p' hp'.1 hpp'⟩
  obtain ⟨block, hb, hh⟩ := h.owned p hp.1
  have hne : d.origPointer c p ≠ d.origPointer c q := fun heq => hp.2 (h.injective p hp.1 q hq heq)
  refine ⟨block, ?_, hh⟩
  exact (update_of_ne hne none d.heap).trans hb

end

def Frame (d d' : Debug) : Prop :=
  ∀ b block a, d.heap b = some block → b ≤ a → a < b + block.size → d'.headers a = d.headers a

theorem Frame.refl (d : Debug) : Frame d d := fun _ _ _ _ _ _ => rfl

section

variable (h : Holds c d held)

include h

theorem Holds.frame (hf : Frame d d') (hp : p ∈ held) (hc : c.headerEnabled) :
    d'.headers (c.getHeader p) = d.headers (c.getHeader p) := by
  obtain ⟨block, hb, hh⟩ := h.owned p hp
  exact hf _ block _ hb (hh hc).1 (hh hc).2

theorem Holds.origPointer_eq (hf : Frame d d') (hp : p ∈ held) : d'.origPointer c p = d.origPointer c p := by
  by_cases hc : c.headerEnabled
  · rw [Debug.origPointer, Debug.origPointer, if_pos hc, if_pos hc, h.frame hf hp hc]
  · rw [Debug.origPointer, Debug.origPointer, if_neg hc, if_neg hc]

structure Allocates (c : Config) (d d' : Debug) (p start : ℕ) (block : Block) : Prop where
  fresh : Fresh d.heap start block.size
  pos : 0 < block.size
  heap_eq : d'.heap = update d.heap start (some block)
  frame : Frame d d'
  orig : d'.origPointer c p = start
  header : c.headerEnabled → start ≤ c.getHeader p ∧ c.getHeader p < start + block.size ∧
    (d'.headers (c.getHeader p)).tag = debugTag
  freePointers_eq : d'.freePointers = d.freePointers
  pointers : c.trackAllocs → ∀ q, (d'.pointers q).isSome ↔ q = p ∨ (d.pointers q).isSome

theorem Allocates.not_mem (ha : Allocates c d d' p start block) : p ∉ held := by
  intro hp
  obtain ⟨block', hb, -⟩ := h.owned p hp
  rw [← h.origPointer_eq ha.frame hp, ha.orig, ha.fresh.heap_eq_none h.separate ha.pos] at hb
  cases hb

theorem Holds.allocate (ha : Allocates c d d' p start block) : Holds c d' (insert p held) := by
  have hn := ha.fresh.heap_eq_none h.separate ha.pos
  have hold : ∀ q ∈ held, d.origPointer c q ≠ start := by
    intro q hq heq
    obtain ⟨block', hb, -⟩ := h.owned q hq
    rw [heq, hn] at hb
    cases hb
  refine ⟨?_, ?_, ?_⟩
  · rw [ha.heap_eq]
    exact h.separate.insert ha.fresh ha.pos
  · rintro q (rfl | hq)
    · refine ⟨block, ?_, fun hc => ?_⟩
      · rw [ha.orig, ha.heap_eq, update_self]
      · rw [ha.orig]
        exact ⟨(ha.header hc).1, (ha.header hc).2.1⟩
    · obtain ⟨block', hb, hh⟩ := h.owned q hq
      refine ⟨block', ?_, fun hc => ?_⟩
      · rw [h.origPointer_eq ha.frame hq, ha.heap_eq, update_of_ne (hold q hq)]
        exact hb
      · rw [h.origPointer_eq ha.frame hq]
        exact hh hc
  · rintro q (rfl | hq) q' (rfl | hq') heq
    · rfl
    · rw [ha.orig, h.origPointer_eq ha.frame hq'] at heq
      exact absurd heq.symm (hold q' hq')
    · rw [ha.orig, h.origPointer_eq ha.frame hq] at heq
      exact absurd heq (hold q hq)
    · rw [h.origPointer_eq ha.frame hq, h.origPointer_eq ha.frame hq'] at heq
      exact h.injective q hq q' hq' heq

end

end Bionic.DebugMalloc
