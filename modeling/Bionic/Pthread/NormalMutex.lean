import Bionic.Lib.System
import Mathlib.Logic.Function.Basic

namespace Bionic.NormalMutex

open Lib Function

variable {T : Type} [DecidableEq T]

def mutexTypeMask : UInt16 := 0xc000

def mutexTypeBitsNormal : UInt16 := 0

def mutexSharedMask : UInt16 := 0x2000

def unlocked (shared : UInt16) : UInt16 := shared ||| 0

def lockedUncontended (shared : UInt16) : UInt16 := shared ||| 1

def lockedContended (shared : UInt16) : UInt16 := shared ||| 2

/-- The next atomic operation of a thread, with its own copy of the shared bit. `sleep` is inside the kernel;
`idle` is outside the calls. -/
inductive Pc
  | idle
  | lockLoad
  | lockFast (shared : UInt16)
  | lockReload
  | lockCas (shared : UInt16)
  | lockExchange (shared : UInt16)
  | lockWait (shared : UInt16)
  | sleep (shared : UInt16)
  | tryLoad
  | tryCas (shared : UInt16)
  | unlockLoad
  | unlockExchange (shared : UInt16)
  | unlockWake
  deriving DecidableEq

/-- `held t` records that `t` has acquired the mutex and has not released it. No step reads it,
except that only a holder may call unlock. -/
structure State (T : Type) where
  state : UInt16
  pc : T → Pc
  held : T → Bool

variable (s : State T)

section

variable (t : T) (word : UInt16)

@[simp] def State.goto (p : Pc) : State T := { s with pc := update s.pc t p }

@[simp] def State.acquire : State T :=
  ⟨word, update s.pc t .idle, update s.held t true⟩

@[simp] def State.release (p : Pc) : State T :=
  ⟨word, update s.pc t p, update s.held t false⟩

section

variable (shared : UInt16)

def normalMutexTryLock (busy : Pc) : State T :=
  if s.state = unlocked shared then s.acquire t (lockedUncontended shared) else s.goto t busy

def normalMutexLockExchange : State T :=
  if s.state = unlocked shared then s.acquire t (lockedContended shared)
  else { s with state := lockedContended shared, pc := update s.pc t (.lockWait shared) }

/-- The kernel sleeps only if the word still has the expected value; otherwise it returns EAGAIN
and the loop goes back to the exchange. -/
def futexWait : State T :=
  if s.state = lockedContended shared then s.goto t (.sleep shared) else s.goto t (.lockExchange shared)

def normalMutexUnlockExchange : State T :=
  if s.state = lockedContended shared then s.release t (unlocked shared) .unlockWake
  else s.release t (unlocked shared) .idle

end

def loadThen (p : UInt16 → Pc) : State T :=
  s.goto t (p (s.state &&& mutexSharedMask))

end

/-- Steps of a thread that depend on the word alone. A load is followed by the branch for a normal
mutex, so it asks for the type bits of one. -/
inductive Exec (s : State T) (t : T) : State T → Prop
  | lockLoad (hp : s.pc t = .lockLoad) (hn : s.state &&& mutexTypeMask = mutexTypeBitsNormal) :
      Exec s t (loadThen s t .lockFast)
  | lockFast (shared) (hp : s.pc t = .lockFast shared) : Exec s t (normalMutexTryLock s t shared .lockReload)
  | lockReload (hp : s.pc t = .lockReload) (hn : s.state &&& mutexTypeMask = mutexTypeBitsNormal) :
      Exec s t (loadThen s t .lockCas)
  | lockCas (shared) (hp : s.pc t = .lockCas shared) :
      Exec s t (normalMutexTryLock s t shared (.lockExchange shared))
  | lockExchange (shared) (hp : s.pc t = .lockExchange shared) :
      Exec s t (normalMutexLockExchange s t shared)
  | lockWait (shared) (hp : s.pc t = .lockWait shared) : Exec s t (futexWait s t shared)
  | tryLoad (hp : s.pc t = .tryLoad) (hn : s.state &&& mutexTypeMask = mutexTypeBitsNormal) :
      Exec s t (loadThen s t .tryCas)
  | tryCas (shared) (hp : s.pc t = .tryCas shared) : Exec s t (normalMutexTryLock s t shared .idle)
  | unlockLoad (hp : s.pc t = .unlockLoad) (hn : s.state &&& mutexTypeMask = mutexTypeBitsNormal) :
      Exec s t (loadThen s t .unlockExchange)
  | unlockExchange (shared) (hp : s.pc t = .unlockExchange shared) :
      Exec s t (normalMutexUnlockExchange s t shared)

inductive Step (s : State T) : State T → Prop
  | lock (t) (hp : s.pc t = .idle) : Step s (s.goto t .lockLoad)
  | trylock (t) (hp : s.pc t = .idle) : Step s (s.goto t .tryLoad)
  | unlock (t) (hp : s.pc t = .idle) (hh : s.held t) : Step s (s.goto t .unlockLoad)
  | exec (t) (s') (h : Exec s t s') : Step s s'
  | wakeOne (t u) (shared) (hp : s.pc t = .unlockWake) (hu : s.pc u = .sleep shared) :
      Step s ((s.goto t .idle).goto u (.lockExchange shared))
  | wakeNone (t) (hp : s.pc t = .unlockWake) (hn : ∀ u shared, s.pc u ≠ .sleep shared) :
      Step s (s.goto t .idle)
  | spurious (u) (shared) (hu : s.pc u = .sleep shared) : Step s (s.goto u (.lockExchange shared))

/-- pthread_mutex_init of a normal mutex, private or shared between processes. -/
def Init : Prop :=
  (s.state = 0 ∨ s.state = mutexSharedMask) ∧ (∀ t, s.pc t = .idle) ∧ ∀ t, s.held t = false

def system (T : Type) [DecidableEq T] : System (State T) := ⟨Init, Step⟩

end Bionic.NormalMutex
