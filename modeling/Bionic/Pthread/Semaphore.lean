import Bionic.Lib.System
import Mathlib.Logic.Function.Basic

namespace Bionic.Semaphore

open Lib

variable {T : Type} [DecidableEq T] (sval : UInt32) (pshared : Int) (value : UInt32)

def semValueMax : Int := 0x3fffffff

def semcountSharedMask : UInt32 := 1

def semcountValueMask : UInt32 := 0xfffffffe

def semcountFromValue (val : UInt32) : UInt32 := (val <<< 1) &&& semcountValueMask

def semcountToValue : Int := (sval.toBitVec.sshiftRight 1).toInt

def semcountOne : UInt32 := semcountFromValue 1

def semcountMinusOne : UInt32 := semcountFromValue 0xffffffff

def semcountDecrement : UInt32 := (sval - (1 : UInt32) <<< 1) &&& semcountValueMask

def semcountIncrement : UInt32 := (sval + (1 : UInt32) <<< 1) &&& semcountValueMask

def semcountPosted (old shared : UInt32) : UInt32 :=
  if semcountToValue old < 0 then semcountOne ||| shared else semcountIncrement old ||| shared

inductive Errno
  | eagain
  | eintr
  | einval
  | eoverflow
  | etimedout
  deriving DecidableEq

structure Timespec where
  tvSec : Int
  tvNsec : Int
  deriving DecidableEq

def checkTimespec (ts : Timespec) : Option Errno :=
  if ts.tvNsec < 0 ∨ ts.tvNsec ≥ 1000000000 then some .einval
  else if ts.tvSec < 0 then some .etimedout
  else none

/-- `wait` carries the target SDK version of the application, which decides whether a signal ends it. -/
inductive Call
  | wait (targetSdkVersion : Nat)
  | timedwait (absTimeout : Timespec)
  | trywait
  | post
  deriving DecidableEq

/-- The next atomic operation of a thread, with its locals: the `shared` bits and `old_value`. `out` is outside
all calls. -/
inductive Pc
  | out (result : Option Errno)
  | getShared (c : Call)
  | decLoad (c : Call) (shared : UInt32)
  | decCas (c : Call) (shared decShared old : UInt32)
  | trydecLoad (c : Call)
  | trydecCas (c : Call) (decShared old : UInt32)
  | futexWait (c : Call) (shared : UInt32)
  | sleep (c : Call) (shared : UInt32)
  | incLoad (shared : UInt32)
  | incCas (shared incShared old : UInt32)
  | wake (shared : UInt32)
  deriving DecidableEq

/-- `posts` and `waits` count the calls that have returned 0; no step reads them. -/
structure State (T : Type) where
  count : UInt32
  pc : T → Pc
  posts : Nat
  waits : Nat

variable (s : State T) (t : T)

@[simp] def State.goto (p : Pc) : State T := { s with pc := Function.update s.pc t p }

def State.waited : State T := { s.goto t (.out none) with waits := s.waits + 1 }

@[simp] def State.posted : State T := { s.goto t (.out none) with posts := s.posts + 1 }

def enter : Call → Pc
  | .wait v => .getShared (.wait v)
  | .timedwait absTimeout => .trydecLoad (.timedwait absTimeout)
  | .trywait => .trydecLoad .trywait
  | .post => .getShared .post

section

variable (shared : UInt32) (c : Call)

def afterShared : Call → Pc
  | .post => .incLoad shared
  | c => .decLoad c shared

def semDec (shared decShared old : UInt32) : Pc :=
  if semcountToValue old < 0 then .futexWait c shared else .decCas c shared decShared old

def semDecExchange (shared decShared old : UInt32) : State T :=
  let s' := { s with count := semcountDecrement old ||| decShared }
  if semcountToValue old > 0 then s'.waited t else s'.goto t (.futexWait c shared)

def trydecFailed : Call → Pc
  | .timedwait absTimeout =>
    match checkTimespec absTimeout with
    | none => .getShared (.timedwait absTimeout)
    | some e => .out (some e)
  | _ => .out (some .eagain)

def semTrydec (decShared old : UInt32) : Pc :=
  if semcountToValue old ≤ 0 then trydecFailed c else .trydecCas c decShared old

def semInc (incShared old : UInt32) : Pc :=
  if semcountToValue old = semValueMax then .out (some .eoverflow) else .incCas shared incShared old

def semIncExchange (incShared old : UInt32) : State T :=
  let s' := { s with count := semcountPosted old incShared }
  if semcountToValue old < 0 then s'.goto t (.wake shared) else s'.posted t

def futexWait (shared : UInt32) : State T :=
  if s.count = shared ||| semcountMinusOne then s.goto t (.sleep c shared) else s.goto t (.decLoad c shared)

def interrupted : Call → Pc
  | .wait v => if v ≥ 24 then .out (some .eintr) else .decLoad (.wait v) shared
  | _ => .out (some .eintr)

def Pc.woken : Pc → Pc
  | .sleep c shared' => if shared' = shared then .decLoad c shared' else .sleep c shared'
  | p => p

def wakeAll : State T := { s with pc := fun u => (s.pc u).woken shared }

end

/-- One atomic operation of a thread. A weak compare-exchange may fail whatever the word is. -/
inductive Exec (s : State T) (t : T) : State T → Prop
  | call (r) (c) (hp : s.pc t = .out r) : Exec s t (s.goto t (enter c))
  | getShared (c) (hp : s.pc t = .getShared c) : Exec s t (s.goto t (afterShared (s.count &&& semcountSharedMask) c))
  | decLoad (c shared) (hp : s.pc t = .decLoad c shared) :
      Exec s t (s.goto t (semDec c shared (s.count &&& semcountSharedMask) s.count))
  | decExchange (c shared decShared old) (hp : s.pc t = .decCas c shared decShared old) (hold : s.count = old) :
      Exec s t (semDecExchange s t c shared decShared old)
  | decRetry (c shared decShared old) (hp : s.pc t = .decCas c shared decShared old) :
      Exec s t (s.goto t (semDec c shared decShared s.count))
  | trydecLoad (c) (hp : s.pc t = .trydecLoad c) :
      Exec s t (s.goto t (semTrydec c (s.count &&& semcountSharedMask) s.count))
  | trydecExchange (c decShared old) (hp : s.pc t = .trydecCas c decShared old) (hold : s.count = old) :
      Exec s t (State.waited { s with count := semcountDecrement old ||| decShared } t)
  | trydecRetry (c decShared old) (hp : s.pc t = .trydecCas c decShared old) :
      Exec s t (s.goto t (semTrydec c decShared s.count))
  | futexWait (c shared) (hp : s.pc t = .futexWait c shared) : Exec s t (futexWait s t c shared)
  | expired (absTimeout shared) (hp : s.pc t = .futexWait (.timedwait absTimeout) shared) :
      Exec s t (s.goto t (.out (some .etimedout)))
  | timeout (absTimeout shared) (hp : s.pc t = .sleep (.timedwait absTimeout) shared) :
      Exec s t (s.goto t (.out (some .etimedout)))
  | interrupted (c shared) (hp : s.pc t = .sleep c shared) : Exec s t (s.goto t (interrupted shared c))
  | spurious (c shared) (hp : s.pc t = .sleep c shared) : Exec s t (s.goto t (.decLoad c shared))
  | incLoad (shared) (hp : s.pc t = .incLoad shared) :
      Exec s t (s.goto t (semInc shared (s.count &&& semcountSharedMask) s.count))
  | incExchange (shared incShared old) (hp : s.pc t = .incCas shared incShared old) (hold : s.count = old) :
      Exec s t (semIncExchange s t shared incShared old)
  | incRetry (shared incShared old) (hp : s.pc t = .incCas shared incShared old) :
      Exec s t (s.goto t (semInc shared incShared s.count))
  | wake (shared) (hp : s.pc t = .wake shared) : Exec s t ((wakeAll s shared).posted t)

/-- The word that sem_init stores, or none for EINVAL. -/
def semInit : Option UInt32 :=
  if (value.toNat : Int) > semValueMax then none
  else some (if pshared ≠ 0 then semcountFromValue value ||| semcountSharedMask else semcountFromValue value)

def Init : Prop :=
  semInit pshared value = some s.count ∧ (∀ t, s.pc t = .out none) ∧ s.posts = 0 ∧ s.waits = 0

def system (T : Type) [DecidableEq T] (pshared : Int) (value : UInt32) : System (State T) :=
  ⟨Init pshared value, fun s s' => ∃ t, Exec s t s'⟩

end Bionic.Semaphore
