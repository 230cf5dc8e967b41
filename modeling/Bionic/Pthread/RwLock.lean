import Bionic.Lib.FutexLock
import Bionic.Lib.System

namespace Bionic.RwLock

open Lib Function

variable {T : Type} [DecidableEq T] (state oldState : UInt32) (preferred : Bool) (k : Side)

def stateHavePendingReadersFlag : UInt32 := 1

def stateHavePendingWritersFlag : UInt32 := 2

def stateReaderCountChangeStep : UInt32 := 4

def stateOwnedByWriterFlag : UInt32 := 0x80000000

/-- `state` is an int: a negative one has bit 31 set. -/
def stateOwnedByWriter : Bool := stateOwnedByWriterFlag ≤ state

def stateOwnedByReaders : Bool :=
  stateReaderCountChangeStep ≤ state ∧ state < stateOwnedByWriterFlag

def stateOwnedByReadersOrWriter : Bool := stateOwnedByWriter state || stateOwnedByReaders state

def stateAddWriterFlag : UInt32 := state ||| stateOwnedByWriterFlag

def stateIsLastReader : Bool := state >>> 2 = 1

def stateHavePendingWriters : Bool := state &&& stateHavePendingWritersFlag ≠ 0

def stateHavePendingReadersOrWriters : Bool :=
  state &&& (stateHavePendingReadersFlag ||| stateHavePendingWritersFlag) ≠ 0

/-- The read and the write functions differ in their flag, count and serial, and in the three functions that
follow. -/
inductive Side
  | reader
  | writer
  deriving DecidableEq

def Side.flag : Side → UInt32
  | .reader => stateHavePendingReadersFlag
  | .writer => stateHavePendingWritersFlag

def canAcquireReadLock (writerNonrecursivePreferred : Bool) : Bool :=
  !(stateOwnedByWriter oldState || (writerNonrecursivePreferred && stateHavePendingWriters oldState))

def canAcquireWriteLock : Bool := !stateOwnedByReadersOrWriter oldState

def canAcquire : Side → UInt32 → Bool
  | .reader, oldState => canAcquireReadLock oldState preferred
  | .writer, oldState => canAcquireWriteLock oldState

def newState : Side → UInt32 → UInt32
  | .reader, oldState => oldState + stateReaderCountChangeStep
  | .writer, oldState => stateAddWriterFlag oldState

/-- The test of `new_state`, on a sum that wraps. -/
def overflows : Side → UInt32 → Bool
  | .reader, oldState => !stateOwnedByReaders (newState .reader oldState)
  | .writer, _ => false

inductive Result
  | zero
  | eperm
  | eagain
  | ebusy
  | einval
  | edeadlk
  | etimedout
  deriving DecidableEq

/-- `abs_timeout_or_null`, as far as check_timespec distinguishes it. -/
inductive Timeout
  | null
  | valid
  | badNanoseconds
  | negative
  deriving DecidableEq

/-- A timeout that passes is null (`false`) or a deadline (`true`). -/
def checkTimespec : Timeout → Except Result Bool
  | .null => .ok false
  | .valid => .ok true
  | .badNanoseconds => .error .einval
  | .negative => .error .etimedout

def Timeout.ofTimed : Bool → Timeout
  | false => .null
  | true => .valid

/-- Who called __pthread_rwlock_tryrdlock or trywrlock: the try function, the fast path of the plain lock function,
or the loop of the timed one. -/
inductive Caller
  | tryLock
  | fast
  | loop (timeout : Timeout)
  deriving DecidableEq

inductive Call
  | lock (k : Side)
  | unlock
  deriving DecidableEq

/-- The critical sections on pending_lock: before and after the futex wait, and the one of unlock. -/
inductive Section
  | pend (k : Side) (timed : Bool)
  | unpend (k : Side) (timed : Bool) (timedOut : Bool)
  | choose
  deriving DecidableEq

inductive After
  | unpend (k : Side) (timed : Bool)
  | wait (k : Side) (timed : Bool) (oldSerial : UInt32)
  | retry (k : Side) (timed : Bool)
  | timedOut (k : Side)
  | wake (k : Side)
  | done
  deriving DecidableEq

/-- The next atomic operation of a thread. At `lock sec ph` it is in pending_lock.lock(), with `ph` `held` once
it has the lock; at `unlocking` and `waking` in pending_lock.unlock(). -/
inductive Pc
  | out (last : Option (Call × Result))
  | tidLoad (k : Side) (timeout : Timeout)
  | tryLoad (k : Side) (caller : Caller)
  | tryCas (k : Side) (caller : Caller) (oldState : UInt32)
  | storeTid (caller : Caller)
  | recheck (k : Side) (timed : Bool)
  | lock (sec : Section) (ph : FutexLock.Phase)
  | mark (k : Side) (timed : Bool)
  | unmark (k : Side) (timed : Bool) (timedOut : Bool)
  | unlocking (next : After)
  | waking (next : After)
  | futexWait (k : Side) (timed : Bool) (oldSerial : UInt32)
  | asleep (k : Side) (timed : Bool)
  | unlockLoad
  | unlockTid
  | unlockClear
  | unlockAnd
  | unlockSub
  | wake (k : Side)
  deriving DecidableEq

/-- Thread ids are not zero, the writer_tid of a lock without a writer. -/
structure Ids (T : Type) where
  tid : T → UInt32
  tid_ne_zero : ∀ t, tid t ≠ 0
  tid_injective : Injective tid

/-- `reads t` and `writes t` record what `t` has acquired and not released. No step reads them, except that only
a holder calls unlock. -/
structure State (T : Type) where
  writerNonrecursivePreferred : Bool
  state : UInt32
  writerTid : UInt32
  pendingLock : FutexLock.Word
  pendingCount : Side → UInt32
  wakeupSerial : Side → UInt32
  pc : T → Pc
  reads : T → Nat
  writes : T → Bool

variable (s : State T)

section

variable (t : T)

def State.goto (p : Pc) : State T := { s with pc := update s.pc t p }

def tryResult (r : Result) : Caller → Pc
  | .tryLock => .out (some (.lock k, r))
  | .fast => if r = .zero then .out (some (.lock k, r)) else .tidLoad k .null
  | .loop timeout =>
    if r = .zero ∨ r = .eagain then .out (some (.lock k, r))
    else match checkTimespec timeout with
      | .error e => .out (some (.lock k, e))
      | .ok timed => .recheck k timed

/-- One round of `__pthread_rwlock_tryrdlock` or `trywrlock`. An int that overflows is undefined: the program tests
the sum that wrapped (`tested`), or a compiler that takes the sum to be positive has dropped the test. -/
def tryLoop (tested : Bool) (caller : Caller) (oldState : UInt32) : Pc :=
  if canAcquire preferred k oldState then
    if tested && overflows k oldState then tryResult k .eagain caller else .tryCas k caller oldState
  else tryResult k .ebusy caller

def State.acquire (k : Side) (caller : Caller) : State T :=
  match k with
  | .reader =>
    { s with
      state := newState .reader s.state
      pc := update s.pc t (tryResult .reader .zero caller)
      reads := update s.reads t (s.reads t + 1) }
  | .writer =>
    { s with
      state := newState .writer s.state
      pc := update s.pc t (.storeTid caller)
      writes := update s.writes t true }

def State.lockNext (sec : Section) (ph : FutexLock.Phase) : State T :=
  { s with
    pendingLock := (FutexLock.next s.pendingLock ph).1
    pc := update s.pc t (.lock sec (FutexLock.next s.pendingLock ph).2) }

def After.place : After → Pc
  | .unpend k timed => .lock (.unpend k timed false) .out
  | .wait k timed oldSerial => .futexWait k timed oldSerial
  | .retry k timed => .tryLoad k (.loop (.ofTimed timed))
  | .timedOut k => .out (some (.lock k, .etimedout))
  | .wake k => .wake k
  | .done => .out (some (.unlock, .zero))

def State.unlockNext (a : After) : State T :=
  { s with
    pendingLock := (FutexLock.next s.pendingLock .held).1
    pc := update s.pc t
      (if (FutexLock.next s.pendingLock .held).2 = .wake then .waking a else a.place) }

def State.pend (k : Side) (timed : Bool) : State T :=
  { s with
    pendingCount := update s.pendingCount k (s.pendingCount k + 1)
    pc := update s.pc t (.mark k timed) }

def State.mark (k : Side) (timed : Bool) : State T :=
  { s with
    state := s.state ||| k.flag
    pc := update s.pc t (.unlocking
      (if canAcquire s.writerNonrecursivePreferred k s.state then .unpend k timed
      else .wait k timed (s.wakeupSerial k))) }

def afterUnpend (timed : Bool) (timedOut : Bool) : After :=
  if timedOut then .timedOut k else .retry k timed

def State.unpend (k : Side) (timed : Bool) (timedOut : Bool) : State T :=
  { s with
    pendingCount := update s.pendingCount k (s.pendingCount k - 1)
    pc := update s.pc t
      (if s.pendingCount k - 1 = 0 then .unmark k timed timedOut
      else .unlocking (afterUnpend k timed timedOut)) }

def State.unmark (k : Side) (timed : Bool) (timedOut : Bool) : State T :=
  { s with
    state := s.state &&& ~~~k.flag
    pc := update s.pc t (.unlocking (afterUnpend k timed timedOut)) }

/-- The kernel sleeps only if the serial is still the one that was read. -/
def State.futexWait (k : Side) (timed : Bool) (oldSerial : UInt32) : State T :=
  s.goto t (if s.wakeupSerial k = oldSerial then .asleep k timed else .lock (.unpend k timed false) .out)

def unlockBranch : Pc :=
  if stateOwnedByWriter oldState then .unlockTid
  else if stateOwnedByReaders oldState then .unlockSub
  else .out (some (.unlock, .eperm))

def State.unlockAnd : State T :=
  { s with
    state := s.state &&& ~~~stateOwnedByWriterFlag
    pc := update s.pc t
      (if stateHavePendingReadersOrWriters s.state then .lock .choose .out else .out (some (.unlock, .zero)))
    writes := update s.writes t false }

def State.unlockSub : State T :=
  { s with
    state := s.state - stateReaderCountChangeStep
    pc := update s.pc t
      (if stateIsLastReader s.state && stateHavePendingReadersOrWriters s.state then .lock .choose .out
      else .out (some (.unlock, .zero)))
    reads := update s.reads t (s.reads t - 1) }

def State.announce (k : Side) : State T :=
  { s with
    wakeupSerial := update s.wakeupSerial k (s.wakeupSerial k + 1)
    pc := update s.pc t (.unlocking (.wake k)) }

/-- Whom unlock wakes: one pending writer before all pending readers. -/
def State.choose : State T :=
  if s.pendingCount .writer ≠ 0 then s.announce t .writer
  else if s.pendingCount .reader ≠ 0 then s.announce t .reader
  else s.goto t (.unlocking .done)

end

/-- FUTEX_WAKE of all the readers that are asleep. -/
def Pc.woken : Pc → Pc
  | .asleep .reader timed => .lock (.unpend .reader timed false) .out
  | p => p

/-- Steps of a thread that depend on the lock alone. A failing compare-exchange reloads the state; being weak, it
may fail for no reason. -/
inductive Exec (ids : Ids T) (s : State T) (t : T) : State T → Prop
  | tidLoad (k timeout) (hp : s.pc t = .tidLoad k timeout) :
      Exec ids s t (s.goto t (if s.writerTid = ids.tid t then .out (some (.lock k, .edeadlk))
        else .tryLoad k (.loop timeout)))
  | tryLoad (k caller tested) (hp : s.pc t = .tryLoad k caller) :
      Exec ids s t (s.goto t (tryLoop s.writerNonrecursivePreferred k tested caller s.state))
  | tryExchange (k caller oldState) (hp : s.pc t = .tryCas k caller oldState) (hold : s.state = oldState) :
      Exec ids s t (s.acquire t k caller)
  | tryRetry (k caller oldState tested) (hp : s.pc t = .tryCas k caller oldState) :
      Exec ids s t (s.goto t (tryLoop s.writerNonrecursivePreferred k tested caller s.state))
  | storeTid (caller) (hp : s.pc t = .storeTid caller) :
      Exec ids s t { s with
        writerTid := ids.tid t, pc := update s.pc t (tryResult .writer .zero caller) }
  | recheck (k timed) (hp : s.pc t = .recheck k timed) :
      Exec ids s t (s.goto t (if canAcquire s.writerNonrecursivePreferred k s.state then .tryLoad k (.loop (.ofTimed timed))
        else .lock (.pend k timed) .out))
  | lock (sec ph) (hp : s.pc t = .lock sec ph) (hph : ph = .out ∨ ph = .exchange ∨ ph = .futexWait) :
      Exec ids s t (s.lockNext t sec ph)
  | pend (k timed) (hp : s.pc t = .lock (.pend k timed) .held) : Exec ids s t (s.pend t k timed)
  | mark (k timed) (hp : s.pc t = .mark k timed) : Exec ids s t (s.mark t k timed)
  | unpend (k timed timedOut) (hp : s.pc t = .lock (.unpend k timed timedOut) .held) :
      Exec ids s t (s.unpend t k timed timedOut)
  | unmark (k timed timedOut) (hp : s.pc t = .unmark k timed timedOut) :
      Exec ids s t (s.unmark t k timed timedOut)
  | unlocking (a) (hp : s.pc t = .unlocking a) : Exec ids s t (s.unlockNext t a)
  | futexWait (k timed oldSerial) (hp : s.pc t = .futexWait k timed oldSerial) :
      Exec ids s t (s.futexWait t k timed oldSerial)
  | unlockLoad (hp : s.pc t = .unlockLoad) : Exec ids s t (s.goto t (unlockBranch s.state))
  | unlockTid (hp : s.pc t = .unlockTid) :
      Exec ids s t (s.goto t (if s.writerTid = ids.tid t then .unlockClear else .out (some (.unlock, .eperm))))
  | unlockClear (hp : s.pc t = .unlockClear) :
      Exec ids s t { s with writerTid := 0, pc := update s.pc t .unlockAnd }
  | unlockAnd (hp : s.pc t = .unlockAnd) : Exec ids s t (s.unlockAnd t)
  | unlockSub (hp : s.pc t = .unlockSub) : Exec ids s t (s.unlockSub t)
  | choose (hp : s.pc t = .lock .choose .held) : Exec ids s t (s.choose t)

/-- What a caller or the kernel decides. A signal ends any wait; a timeout ends a wait that has one, also before
the thread is asleep. -/
inductive Outside (s : State T) : State T → Prop
  | tryLock (t last k) (hp : s.pc t = .out last) : Outside s (s.goto t (.tryLoad k .tryLock))
  | plainLock (t last k) (hp : s.pc t = .out last) : Outside s (s.goto t (.tryLoad k .fast))
  | timedLock (t last k timeout) (hp : s.pc t = .out last) : Outside s (s.goto t (.tidLoad k timeout))
  | unlock (t last) (hp : s.pc t = .out last) (hh : s.reads t ≠ 0 ∨ s.writes t) :
      Outside s (s.goto t .unlockLoad)
  | timeout (t k oldSerial) (hp : s.pc t = .futexWait k true oldSerial) :
      Outside s (s.goto t (.lock (.unpend k true true) .out))
  | timeoutAsleep (t k) (hp : s.pc t = .asleep k true) : Outside s (s.goto t (.lock (.unpend k true true) .out))
  | interrupt (t k timed) (hp : s.pc t = .asleep k timed) :
      Outside s (s.goto t (.lock (.unpend k timed false) .out))
  | interruptLock (t sec) (hp : s.pc t = .lock sec .sleep) : Outside s (s.goto t (.lock sec .exchange))

inductive Wakes (s : State T) (t : T) : State T → Prop
  | writer (u timed) (hp : s.pc t = .wake .writer) (hu : s.pc u = .asleep .writer timed) :
      Wakes s t ((s.goto u (.lock (.unpend .writer timed false) .out)).goto t (.out (some (.unlock, .zero))))
  | noWriter (hp : s.pc t = .wake .writer) (hn : ∀ u timed, s.pc u ≠ .asleep .writer timed) :
      Wakes s t (s.goto t (.out (some (.unlock, .zero))))
  | readers (hp : s.pc t = .wake .reader) :
      Wakes s t (State.goto { s with pc := fun u => (s.pc u).woken } t (.out (some (.unlock, .zero))))
  | lock (u a sec) (hp : s.pc t = .waking a) (hu : s.pc u = .lock sec .sleep) :
      Wakes s t ((s.goto u (.lock sec .exchange)).goto t a.place)
  | noLock (a) (hp : s.pc t = .waking a) (hn : ∀ u sec, s.pc u ≠ .lock sec .sleep) :
      Wakes s t (s.goto t a.place)

inductive Step (ids : Ids T) (s : State T) : State T → Prop
  | exec (t s') (h : Exec ids s t s') : Step ids s s'
  | outside (s') (h : Outside s s') : Step ids s s'
  | wakes (t s') (h : Wakes s t s') : Step ids s s'

/-- pthread_rwlock_init, with either kind. The memset leaves all counts and serials zero. -/
def initial (T : Type) (preferred : Bool) : State T where
  writerNonrecursivePreferred := preferred
  state := 0
  writerTid := 0
  pendingLock := .unlocked
  pendingCount := fun _ => 0
  wakeupSerial := fun _ => 0
  pc := fun _ => .out none
  reads := fun _ => 0
  writes := fun _ => false

def system (ids : Ids T) : System (State T) := ⟨fun s => ∃ preferred, s = initial T preferred, Step ids⟩

section Bounded

def stateReaderCount : Nat := state.toNat / 4 % 2 ^ 29

def readerCountMax : Nat := 2 ^ 29 - 1

def Pc.triesRead : Pc → Bool
  | .tryLoad .reader _ | .tryCas .reader _ _ => true
  | _ => false

def HasRoom (t : T) : Prop := (s.pc t).triesRead → stateReaderCount s.state < readerCountMax

/-- A step that is not an attempt to read at the maximal reader count. -/
inductive BoundedStep (ids : Ids T) (s : State T) : State T → Prop
  | exec (t s') (h : Exec ids s t s') (hr : HasRoom s t) : BoundedStep ids s s'
  | outside (s') (h : Outside s s') : BoundedStep ids s s'
  | wakes (t s') (h : Wakes s t s') : BoundedStep ids s s'

def boundedSystem (ids : Ids T) : System (State T) := ⟨(system ids).Init, BoundedStep ids⟩

end Bounded

end Bionic.RwLock
