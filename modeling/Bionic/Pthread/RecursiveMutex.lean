import Bionic.Lib.BitField
import Bionic.Pthread.NormalMutex

namespace Bionic.RecursiveMutex

open Lib Function
open NormalMutex (mutexTypeMask mutexSharedMask)

variable {T : Type} [DecidableEq T] (v : UInt16)

def mutexTypeBitsRecursive : UInt16 := 0x4000

def mutexTypeBitsErrorcheck : UInt16 := 0x8000

def mutexStateMask : UInt16 := 3

def mutexStateBitsUnlocked : UInt16 := 0

def mutexStateBitsLockedUncontended : UInt16 := 1

def mutexStateBitsLockedContended : UInt16 := 2

def isUnlocked : Prop := v &&& mutexStateMask = mutexStateBitsUnlocked

def isLockedUncontended : Prop := v &&& mutexStateMask = mutexStateBitsLockedUncontended

def isLockedContended : Prop := v &&& mutexStateMask = mutexStateBitsLockedContended

instance (v : UInt16) : Decidable (isLockedUncontended v) := inferInstanceAs (Decidable (_ = _))

instance (v : UInt16) : Decidable (isLockedContended v) := inferInstanceAs (Decidable (_ = _))

def flipContention : UInt16 :=
  v ^^^ (mutexStateBitsLockedContended ^^^ mutexStateBitsLockedUncontended)

def mutexCounterMask : UInt16 := 0x1ffc

def mutexCounterBitsOne : UInt16 := 4

/-- The number in the counter field, which starts at MUTEX_COUNTER_SHIFT. -/
def counter : Nat := ((v &&& mutexCounterMask) >>> 2).toNat

def counterBitsWillOverflow : Prop := v &&& mutexCounterMask = mutexCounterMask

def counterBitsIsZero : Prop := v &&& mutexCounterMask = 0

instance (v : UInt16) : Decidable (counterBitsWillOverflow v) := inferInstanceAs (Decidable (_ = _))

instance (v : UInt16) : Decidable (counterBitsIsZero v) := inferInstanceAs (Decidable (_ = _))

/-- The type and process-shared bits of a state, as the locals `mtype` and `shared` keep them. -/
def bitsOf : UInt16 := (v &&& mutexTypeMask) ||| (v &&& mutexSharedMask)

def unlocked (bits : UInt16) : UInt16 := bits ||| mutexStateBitsUnlocked

def lockedUncontended (bits : UInt16) : UInt16 := bits ||| mutexStateBitsLockedUncontended

def lockedContended (bits : UInt16) : UInt16 := bits ||| mutexStateBitsLockedContended

inductive Call
  | lock
  | trylock
  | unlock
  deriving DecidableEq

inductive Result
  | zero
  | eagain
  | ebusy
  | edeadlk
  | eperm
  deriving DecidableEq

/-- The next atomic operation of a thread, with its locals: `bits` for `mtype` and `shared`, `old` for
`old_state`, and `value` for what futex_wait shall find. -/
inductive Pc
  | out (last : Option (Call × Result))
  | check
  | load (c : Call)
  | owner (c : Call) (old : UInt16)
  | add (c : Call)
  | cas (c : Call) (bits : UInt16)
  | loopCas (bits : UInt16)
  | loopFlip (bits old : UInt16)
  | waitOwner (bits old : UInt16)
  | futexWait (bits : UInt16) (value : UInt32)
  | sleep (bits : UInt16)
  | loopLoad (bits : UInt16)
  | store (c : Call)
  | sub
  | clear (bits : UInt16)
  | exchange (bits : UInt16)
  | wake (bits : UInt16)
  deriving DecidableEq

/-- `held t` counts the locks of `t` that have succeeded and are not undone, `started t` is its value when the
last call began. No step reads them. -/
structure State (T : Type) where
  state : UInt16
  ownerTid : UInt32
  pc : T → Pc
  held : T → Nat
  started : T → Nat

/-- The ids that the kernel gives to the threads. On 32-bit devices, where `owner_tid` has 16 bits, libc stops a process
whose id does not fit. -/
structure Ids (T : Type) where
  lp64 : Bool
  tid : T → UInt32
  tid_ne_zero : ∀ t, tid t ≠ 0
  tid_injective : Injective tid
  tid_fits : lp64 = false → ∀ t, tid t < 0x10000

def Ids.stored (ids : Ids T) (t : T) : UInt32 := if ids.lp64 then ids.tid t else ids.tid t &&& 0xffff

variable (lp64 : Bool) (s : State T) (t : T)

/-- The 32 bits at the address of `state`. On 32-bit devices these are `state` and `owner_tid`. -/
def futexWord (state : UInt16) (ownerTid : UInt32) : UInt32 :=
  if lp64 then state.toUInt32 else (ownerTid <<< 16) ||| state.toUInt32

@[simp] def State.goto (p : Pc) : State T := { s with pc := update s.pc t p }

def State.return (c : Call) (r : Result) : State T := s.goto t (.out (some (c, r)))

@[simp] def State.setHeld (n : Nat) : State T := { s with held := update s.held t n }

def enter : Call → Pc
  | .lock => .check
  | c => .load c

def lockOwned (c : Call) (old : UInt16) : Pc :=
  if old &&& mutexTypeMask = mutexTypeBitsErrorcheck then
    .out (some (c, if c = .lock then .edeadlk else .ebusy))
  else if counterBitsWillOverflow old then .out (some (c, .eagain))
  else .add c

def recursiveOrErrorcheckMutexWait (bits old : UInt16) : Pc :=
  if lp64 then .futexWait bits (futexWord true old 0) else .waitOwner bits old

def lockLoop (bits old : UInt16) : Pc :=
  if old = unlocked bits then .loopCas bits
  else if isLockedUncontended old then .loopFlip bits old
  else recursiveOrErrorcheckMutexWait lp64 bits old

/-- Another thread than the owner tries to lock: `lock` only if it has seen the mutex unlocked. -/
def lockFree (c : Call) (old : UInt16) : Pc :=
  if c = .lock ∧ old ≠ unlocked (bitsOf old) then lockLoop lp64 (bitsOf old) old else .cas c (bitsOf old)

def unlockOwned (old : UInt16) : Pc := if counterBitsIsZero old then .clear (bitsOf old) else .sub

def afterOwner (own : Bool) (old : UInt16) : Call → Pc
  | .unlock => if own then unlockOwned old else .out (some (.unlock, .eperm))
  | c => if own then lockOwned c old else lockFree lp64 c old

def cas (c : Call) (bits : UInt16) : State T :=
  if s.state = unlocked bits then
    (State.goto { s with state := lockedUncontended bits } t (.store c)).setHeld t 1
  else if c = .lock then s.goto t (lockLoop lp64 bits s.state)
  else s.return t c .ebusy

def acquireContended (bits : UInt16) : State T :=
  (State.goto { s with state := lockedContended bits } t (.store .lock)).setHeld t 1

def flip (bits old : UInt16) : State T :=
  State.goto { s with state := flipContention old } t (recursiveOrErrorcheckMutexWait lp64 bits (flipContention old))

def futexWait (bits : UInt16) (value : UInt32) : State T :=
  s.goto t (if futexWord lp64 s.state s.ownerTid = value then .sleep bits else .loopLoad bits)

def unlockExchange (bits : UInt16) : State T :=
  (State.goto { s with state := unlocked bits } t
    (if isLockedContended s.state then .wake bits else .out (some (.unlock, .zero)))).setHeld t (s.held t - 1)

/-- A mutex that is neither normal nor of priority inheritance, nor destroyed. -/
def isRecursiveOrErrorcheck : Prop :=
  v &&& mutexTypeMask = mutexTypeBitsRecursive ∨ v &&& mutexTypeMask = mutexTypeBitsErrorcheck

/-- One atomic operation of a thread, for the kinds of mutex modelled here. A weak compare-exchange may fail
whatever the state is. -/
inductive Exec (ids : Ids T) (s : State T) (t : T) : State T → Prop
  | call (last c) (hp : s.pc t = .out last) :
      Exec ids s t { s.goto t (enter c) with started := update s.started t (s.held t) }
  | check (hp : s.pc t = .check) (hk : isRecursiveOrErrorcheck s.state) : Exec ids s t (s.goto t (.load .lock))
  | load (c) (hp : s.pc t = .load c) (hk : isRecursiveOrErrorcheck s.state) : Exec ids s t (s.goto t (.owner c s.state))
  | owner (c old) (hp : s.pc t = .owner c old) :
      Exec ids s t (s.goto t (afterOwner ids.lp64 (ids.tid t = s.ownerTid) old c))
  | add (c) (hp : s.pc t = .add c) :
      Exec ids s t ((State.return { s with state := s.state + mutexCounterBitsOne } t c .zero).setHeld t (s.held t + 1))
  | cas (c bits) (hp : s.pc t = .cas c bits) : Exec ids s t (cas ids.lp64 s t c bits)
  | acquire (bits) (hp : s.pc t = .loopCas bits) (hold : s.state = unlocked bits) : Exec ids s t (acquireContended s t bits)
  | acquireRetry (bits) (hp : s.pc t = .loopCas bits) : Exec ids s t (s.goto t (lockLoop ids.lp64 bits s.state))
  | flip (bits old) (hp : s.pc t = .loopFlip bits old) (hold : s.state = old) : Exec ids s t (flip ids.lp64 s t bits old)
  | flipRetry (bits old) (hp : s.pc t = .loopFlip bits old) : Exec ids s t (s.goto t (lockLoop ids.lp64 bits s.state))
  | waitOwner (bits old) (hp : s.pc t = .waitOwner bits old) :
      Exec ids s t (s.goto t (.futexWait bits (futexWord false old s.ownerTid)))
  | futexWait (bits value) (hp : s.pc t = .futexWait bits value) : Exec ids s t (futexWait ids.lp64 s t bits value)
  | spurious (bits) (hp : s.pc t = .sleep bits) : Exec ids s t (s.goto t (.loopLoad bits))
  | loopLoad (bits) (hp : s.pc t = .loopLoad bits) : Exec ids s t (s.goto t (lockLoop ids.lp64 bits s.state))
  | store (c) (hp : s.pc t = .store c) : Exec ids s t (State.return { s with ownerTid := ids.stored t } t c .zero)
  | sub (hp : s.pc t = .sub) :
      Exec ids s t
        ((State.return { s with state := s.state - mutexCounterBitsOne } t .unlock .zero).setHeld t (s.held t - 1))
  | clear (bits) (hp : s.pc t = .clear bits) : Exec ids s t (State.goto { s with ownerTid := 0 } t (.exchange bits))
  | exchange (bits) (hp : s.pc t = .exchange bits) : Exec ids s t (unlockExchange s t bits)
  | wakeOne (bits u bits') (hp : s.pc t = .wake bits) (hu : s.pc u = .sleep bits')
      (hshared : bits' &&& mutexSharedMask = bits &&& mutexSharedMask) :
      Exec ids s t ((s.goto u (.loopLoad bits')).return t .unlock .zero)
  | wakeNone (bits) (hp : s.pc t = .wake bits)
      (hn : ∀ u bits', s.pc u = .sleep bits' → bits' &&& mutexSharedMask ≠ bits &&& mutexSharedMask) :
      Exec ids s t (s.return t .unlock .zero)

def initialState (errorcheck shared : Bool) : UInt16 :=
  (if shared then mutexSharedMask else 0) ||| (if errorcheck then mutexTypeBitsErrorcheck else mutexTypeBitsRecursive)

def Init (errorcheck shared : Bool) (s : State T) : Prop :=
  s.state = initialState errorcheck shared ∧ s.ownerTid = 0 ∧ (∀ t, s.pc t = .out none) ∧ ∀ t, s.held t = 0

def system (ids : Ids T) (errorcheck shared : Bool) : System (State T) :=
  ⟨Init errorcheck shared, fun s s' => ∃ t, Exec ids s t s'⟩

def level (v : UInt16) : Nat := v.toNat % 4

theorem toNat_and_typeMask (v : UInt16) : (v &&& mutexTypeMask).toNat = v.toNat / 16384 * 16384 := by
  have hv := v.toNat_lt
  have h : v.toNat &&& mutexTypeMask.toNat = v.toNat / 16384 % 4 * 16384 := and_fieldMask v.toNat 14 2
  rw [UInt16.toNat_and, h]
  omega

theorem toNat_and_sharedMask (v : UInt16) : (v &&& mutexSharedMask).toNat = v.toNat / 8192 % 2 * 8192 := by
  exact and_fieldMask v.toNat 13 1

theorem toNat_and_stateMask (v : UInt16) : (v &&& mutexStateMask).toNat = level v := by
  have h : v.toNat &&& mutexStateMask.toNat = v.toNat / 1 % 4 * 1 := and_fieldMask v.toNat 0 2
  rw [UInt16.toNat_and, level]
  omega

theorem toNat_and_counterMask (v : UInt16) : (v &&& mutexCounterMask).toNat = v.toNat / 4 % 2048 * 4 := by
  exact and_fieldMask v.toNat 2 11

theorem counter_eq (v : UInt16) : counter v = v.toNat / 4 % 2048 := by
  have h := toNat_and_counterMask v
  rw [counter, UInt16.toNat_shiftRight, Nat.shiftRight_eq_div_pow, h]
  change v.toNat / 4 % 2048 * 4 / 4 = _
  omega

theorem toNat_bitsOf (v : UInt16) : (bitsOf v).toNat = v.toNat / 8192 * 8192 := by
  have hlow : v.toNat / 8192 % 2 * 8192 < 2 ^ 14 := by omega
  have hh : v.toNat / 16384 * 16384 % 2 ^ 14 = 0 := by omega
  rw [bitsOf, UInt16.toNat_or, toNat_and_typeMask, toNat_and_sharedMask, or_low hlow hh]
  omega

theorem toNat_eq (v : UInt16) : v.toNat = (bitsOf v).toNat + 4 * counter v + level v := by
  have hb := toNat_bitsOf v
  have hc := counter_eq v
  rw [level]
  omega

theorem isUnlocked_iff (v : UInt16) : isUnlocked v ↔ level v = 0 := by
  rw [isUnlocked, ← UInt16.toNat_inj, toNat_and_stateMask]
  rfl

theorem isLockedUncontended_iff (v : UInt16) : isLockedUncontended v ↔ level v = 1 := by
  rw [isLockedUncontended, ← UInt16.toNat_inj, toNat_and_stateMask]
  rfl

theorem isLockedContended_iff (v : UInt16) : isLockedContended v ↔ level v = 2 := by
  rw [isLockedContended, ← UInt16.toNat_inj, toNat_and_stateMask]
  rfl

theorem counterBitsWillOverflow_iff (v : UInt16) : counterBitsWillOverflow v ↔ counter v = 2047 := by
  have h : mutexCounterMask.toNat = 2047 * 4 := rfl
  rw [counterBitsWillOverflow, ← UInt16.toNat_inj, toNat_and_counterMask, counter_eq]
  omega

theorem counterBitsIsZero_iff (v : UInt16) : counterBitsIsZero v ↔ counter v = 0 := by
  rw [counterBitsIsZero, ← UInt16.toNat_inj, toNat_and_counterMask, counter_eq]
  change _ * 4 = 0 ↔ _
  omega

/-- A word with the type and process-shared bits `bits` and the other fields as given. -/
structure Fields (bits : UInt16) (c l : Nat) (v : UInt16) : Prop where
  bits_eq : bitsOf v = bits
  counter_eq : counter v = c
  level_eq : level v = l

variable {bits v : UInt16} {c l : Nat}

theorem Fields.of_toNat (hb : bits.toNat % 8192 = 0) (hc : c < 2048) (hl : l < 4)
    (h : v.toNat = bits.toNat + 4 * c + l) : Fields bits c l v := by
  refine ⟨?_, ?_, ?_⟩
  · rw [← UInt16.toNat_inj, toNat_bitsOf]
    omega
  · rw [RecursiveMutex.counter_eq]
    omega
  · rw [level]
    omega

section

variable (h : Fields bits c l v)
include h

theorem Fields.toNat_eq : v.toNat = bits.toNat + 4 * c + l := by
  rw [RecursiveMutex.toNat_eq v, h.bits_eq, h.counter_eq, h.level_eq]

theorem Fields.bits_low : bits.toNat % 8192 = 0 := by
  have hb := toNat_bitsOf v
  rw [h.bits_eq] at hb
  omega

theorem Fields.counter_lt : c < 2048 := by
  have hc := RecursiveMutex.counter_eq v
  rw [h.counter_eq] at hc
  omega

theorem Fields.level_lt : l < 4 := by
  have hl := h.level_eq
  rw [level] at hl
  omega

theorem Fields.add (hc : c + 1 < 2048) : Fields bits (c + 1) l (v + mutexCounterBitsOne) := by
  have hv := h.toNat_eq
  have hb := h.bits_low
  have hlt := bits.toNat_lt
  have hl := h.level_lt
  refine .of_toNat hb hc hl ?_
  change (v.toNat + 4) % 65536 = _
  omega

end

theorem Fields.sub (h : Fields bits (c + 1) l v) : Fields bits c l (v - mutexCounterBitsOne) := by
  have hv := h.toNat_eq
  have hc := h.counter_lt
  have hle : mutexCounterBitsOne ≤ v := by
    change 4 ≤ v.toNat
    omega
  refine .of_toNat h.bits_low (by omega) h.level_lt ?_
  rw [UInt16.toNat_sub_of_le _ _ hle]
  change v.toNat - 4 = _
  omega

theorem Fields.flip (h : Fields bits c 1 v) : Fields bits c 2 (flipContention v) := by
  have hv := h.toNat_eq
  have hb := h.bits_low
  have hf : (flipContention v).toNat = 4 * (v.toNat / 4) + (v.toNat % 4 ^^^ 3) := by
    exact xor_low (s := 2) (by decide)
  have hlow : v.toNat % 4 = 1 := h.level_eq
  rw [hlow] at hf
  refine .of_toNat hb h.counter_lt (by decide) ?_
  rw [hf]
  change 4 * (v.toNat / 4) + 2 = _
  omega

section

variable (hb : bits.toNat % 8192 = 0)
include hb

theorem fields_or {l : UInt16} (hl : l.toNat < 4) : Fields bits 0 l.toNat (bits ||| l) := by
  refine .of_toNat hb (by decide) hl ?_
  rw [UInt16.toNat_or]
  exact or_low (s := 2) hl (by omega)

theorem fields_unlocked : Fields bits 0 0 (unlocked bits) :=
  fields_or hb (l := mutexStateBitsUnlocked) (by decide)

theorem fields_lockedUncontended : Fields bits 0 1 (lockedUncontended bits) :=
  fields_or hb (l := mutexStateBitsLockedUncontended) (by decide)

theorem fields_lockedContended : Fields bits 0 2 (lockedContended bits) :=
  fields_or hb (l := mutexStateBitsLockedContended) (by decide)

end

theorem Fields.inj {w : UInt16} (hv : Fields bits c l v) (hw : Fields bits c l w) : v = w := by
  rw [← UInt16.toNat_inj, hv.toNat_eq, hw.toNat_eq]

theorem toUInt16_futexWord (lp64 : Bool) (state : UInt16) (ownerTid : UInt32) :
    (futexWord lp64 state ownerTid).toUInt16 = state := by
  cases lp64 with
  | true => simp [futexWord]
  | false =>
    rw [← UInt16.toNat_inj]
    have hlow : state.toNat < 2 ^ 16 := state.toNat_lt
    have hh : (ownerTid <<< 16).toNat % 2 ^ 16 = 0 := by
      rw [UInt32.toNat_shiftLeft]
      change ownerTid.toNat <<< 16 % 2 ^ 32 % 2 ^ 16 = 0
      rw [Nat.shiftLeft_eq]
      omega
    have hor : (ownerTid <<< 16 ||| state.toUInt32).toNat = (ownerTid <<< 16).toNat + state.toNat := by
      exact or_low hlow hh
    simp only [futexWord, Bool.false_eq_true, if_false, UInt32.toNat_toUInt16, hor]
    omega

end Bionic.RecursiveMutex
