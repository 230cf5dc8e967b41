import Bionic.Lib.System
import Bionic.Lib.Threads
import Bionic.Pthread.ThreadList

namespace Bionic.Thread

open Lib Function

variable {C V N : Type} [DecidableEq C] [DecidableEq N] (mmapSize : Nat)

inductive JoinState
  | notJoined
  | exitedNotJoined
  | joined
  | detached
  deriving DecidableEq, Repr

/-- Who called pthread_join: a program, with or without a place for the value, or pthread_detach. -/
inductive Origin
  | join (wantsValue : Bool)
  | detach
  deriving DecidableEq, Repr

def Origin.wantsValue : Origin → Bool
  | .join w => w
  | .detach => false

inductive Result (V : Type)
  | success (value : Option V)
  | detached
  | einval

inductive CallPc (V : Type)
  | notYet
  | find (o : Origin)
  | exchange (o : Origin) (old : JoinState)
  | readTid (o : Origin)
  | waitTest (o : Origin) (tid : Nat)
  | wait (o : Origin) (tid : Nat)
  | sleep (o : Origin) (tid : Nat)
  | deliver (o : Origin)
  | remove (o : Origin) (value : Option V)
  | free (o : Origin) (value : Option V)
  | detachFind
  | detachExchange
  | done (o : Origin) (r : Result V)

/-- The next operation of the thread itself in pthread_exit. `exit` and `gone` have the `old_state` it found. -/
inductive ExitPc
  | running
  | exchange
  | setTidAddress
  | remove
  | teardown
  | exit (old : JoinState)
  | gone (old : JoinState)
  deriving DecidableEq, Repr

/-- The block of one thread, the list, the thread and the calls about it. `given` is the argument of
pthread_exit; `removals` and `releases` record who took it off the list and who unmapped its block, `none` for
the thread itself. -/
structure State (C V N : Type) where
  joinState : JoinState
  tid : Nat
  returnValue : V
  clearTid : Bool
  list : ThreadList N
  exit : ExitPc
  call : C → CallPc V
  given : Option V
  removals : List (Option C)
  releases : List (Option C)

def CallPc.asleep : CallPc V → Bool
  | .sleep _ _ => true
  | _ => false

namespace State

variable (s : State C V N) (woken : Option C) (c : C) (old : JoinState) (o : Origin) (tid : Nat)

def goto (p : CallPc V) : State C V N := { s with call := update s.call c p }

def afterExchange : ExitPc := if old = .detached then .setTidAddress else .exit old

def exitLoop : ExitPc := if old = .notJoined then .exchange else afterExchange old

/-- The head of the loop of pthread_join and what follows it when it ends without an exchange. -/
def joinLoop (old : JoinState) : State C V N :=
  match old with
  | .notJoined | .exitedNotJoined => s.goto c (.exchange o old)
  | .detached | .joined => s.goto c (.done o .einval)

def detachLoop : State C V N :=
  match old with
  | .notJoined => s.goto c .detachExchange
  | .exitedNotJoined => s.goto c (.find .detach)
  | .detached | .joined => s.goto c (.done .detach .einval)

def whileTid : State C V N :=
  if s.tid ≠ 0 then s.goto c (.wait o tid) else s.goto c (.deliver o)

def futexWait : State C V N :=
  if s.tid = tid then s.goto c (.sleep o tid) else s.goto c (.waitTest o tid)

def awake : CallPc V → CallPc V
  | .sleep o tid => .waitTest o tid
  | p => p

/-- The kernel clears the tid and wakes one call, if there is one. -/
def clear : State C V N :=
  match woken with
  | some c => { s.goto c (awake (s.call c)) with tid := 0 }
  | none => { s with tid := 0 }

def kernelExit : State C V N := if s.clearTid then s.clear woken else s

/-- The call the kernel wakes sleeps, and there is one unless nobody sleeps. -/
def Wakes : Prop :=
  (∀ c ∈ woken, (s.call c).asleep) ∧ (woken = none → ∀ c, (s.call c).asleep = false)

/-- __pthread_internal_remove by the call `who` or by the thread. -/
def removeFromList (thread : N) (who : Option C) : State C V N :=
  { s with list := s.list.remove thread, removals := s.removals ++ [who] }

def release (mmapSize : Nat) (who : Option C) : State C V N :=
  if mmapSize ≠ 0 then { s with releases := s.releases ++ [who] } else s

end State

/-- A call finds the thread on the list, and its exchanges happen before the block is released. The exchanges
are weak ones: they may fail for no reason. -/
inductive Step (thread : N) (mmapSize : Nat) (s : State C V N) : State C V N → Prop
  | pthreadExit (v) (hp : s.exit = .running) :
      Step thread mmapSize s { s with exit := .exchange, returnValue := v, given := some v }
  | exitExchange (hp : s.exit = .exchange) (hw : s.joinState = .notJoined) :
      Step thread mmapSize s { s with joinState := .exitedNotJoined, exit := State.afterExchange .notJoined }
  | exitExchangeFails (hp : s.exit = .exchange) : Step thread mmapSize s { s with exit := State.exitLoop s.joinState }
  | setTidAddress (hp : s.exit = .setTidAddress) : Step thread mmapSize s { s with exit := .remove, clearTid := false }
  | exitRemove (hp : s.exit = .remove) :
      Step thread mmapSize s
        { s.removeFromList thread none with exit := if mmapSize ≠ 0 then .teardown else .exit .detached }
  | teardown (woken) (hp : s.exit = .teardown) (hwoken : s.Wakes woken) :
      Step thread mmapSize s { State.kernelExit (s.release mmapSize none) woken with exit := .gone .detached }
  | exit (old) (woken) (hp : s.exit = .exit old) (hwoken : s.Wakes woken) :
      Step thread mmapSize s { s.kernelExit woken with exit := .gone old }
  | join (c) (wantsValue) (hp : s.call c = .notYet) : Step thread mmapSize s (s.goto c (.find (.join wantsValue)))
  | detach (c) (hp : s.call c = .notYet) : Step thread mmapSize s (s.goto c .detachFind)
  | find (c) (o) (hp : s.call c = .find o) (hfind : s.list.Finds thread) :
      Step thread mmapSize s (s.goto c (.exchange o .notJoined))
  | exchange (c) (o) (old) (hp : s.call c = .exchange o old) (hblock : s.releases = []) (hw : s.joinState = old) :
      Step thread mmapSize s { s.goto c (.readTid o) with joinState := .joined }
  | exchangeFails (c) (o) (old) (hp : s.call c = .exchange o old) (hblock : s.releases = []) :
      Step thread mmapSize s (s.joinLoop c o s.joinState)
  | readTid (c) (o) (hp : s.call c = .readTid o) : Step thread mmapSize s (s.goto c (.waitTest o s.tid))
  | waitTest (c) (o) (tid) (hp : s.call c = .waitTest o tid) : Step thread mmapSize s (s.whileTid c o tid)
  | wait (c) (o) (tid) (hp : s.call c = .wait o tid) : Step thread mmapSize s (s.futexWait c o tid)
  | spurious (c) (o) (tid) (hp : s.call c = .sleep o tid) : Step thread mmapSize s (s.goto c (.waitTest o tid))
  | deliver (c) (o) (hp : s.call c = .deliver o) :
      Step thread mmapSize s (s.goto c (.remove o (if o.wantsValue then some s.returnValue else none)))
  | remove (c) (o) (value) (hp : s.call c = .remove o value) :
      Step thread mmapSize s (State.goto (s.removeFromList thread (some c)) c (.free o value))
  | free (c) (o) (value) (hp : s.call c = .free o value) :
      Step thread mmapSize s (State.goto (s.release mmapSize (some c)) c (.done o (.success value)))
  | detachFind (c) (hp : s.call c = .detachFind) (hfind : s.list.Finds thread) :
      Step thread mmapSize s (s.goto c .detachExchange)
  | detachExchange (c) (hp : s.call c = .detachExchange) (hblock : s.releases = []) (hw : s.joinState = .notJoined) :
      Step thread mmapSize s { s.goto c (.done .detach .detached) with joinState := .detached }
  | detachExchangeFails (c) (hp : s.call c = .detachExchange) (hblock : s.releases = []) :
      Step thread mmapSize s (s.detachLoop c s.joinState)
  | otherAdded (b) (hb : b ≠ thread) (hnew : ¬s.list.Finds b) : Step thread mmapSize s { s with list := s.list.add b }
  | otherRemoved (b) (hb : b ≠ thread) (hold : s.list.Finds b) : Step thread mmapSize s { s with list := s.list.remove b }

def Init (thread : N) (s : State C V N) : Prop :=
  (s.joinState = .notJoined ∨ s.joinState = .detached) ∧ s.tid ≠ 0 ∧ s.clearTid ∧
  (∃ l, s.list.Represents l ∧ thread ∈ l) ∧ s.exit = .running ∧ (∀ c, s.call c = .notYet) ∧ s.given = none ∧
  s.removals = [] ∧ s.releases = []

def system (C V : Type) {N : Type} [DecidableEq C] [DecidableEq N] (thread : N) (mmapSize : Nat) :
    System (State C V N) :=
  ⟨Init thread, Step thread mmapSize⟩

/-- What a call has done to the block: nothing, won it by its exchange, taken it off the list, freed it. -/
inductive Role
  | outside
  | owner
  | remover
  | releaser
  deriving DecidableEq

def CallPc.role : CallPc V → Role
  | .readTid _ | .waitTest _ _ | .wait _ _ | .sleep _ _ | .deliver _ | .remove _ _ => .owner
  | .free _ _ => .remover
  | .done _ (.success _) => .releaser
  | _ => .outside

@[simp] def CallPc.won (p : CallPc V) : Prop := p.role ≠ .outside

@[simp] def CallPc.removed (p : CallPc V) : Prop := p.role = .remover ∨ p.role = .releaser

def CallPc.released (p : CallPc V) : Prop := p.role = .releaser

def CallPc.Fits (joinState : JoinState) (tid : Nat) (given : Option V) : CallPc V → Prop
  | .exchange _ old => old = .notJoined ∨ old = .exitedNotJoined
  | .waitTest _ t => t = 0 → tid = 0
  | .wait _ t => t ≠ 0
  | .sleep _ t => t ≠ 0 ∧ tid ≠ 0
  | .deliver _ => tid = 0
  | .remove o v | .free o v | .done o (.success v) => tid = 0 ∧ v = if o.wantsValue then given else none
  | .done _ .detached => joinState = .detached
  | .done _ .einval => joinState = .joined ∨ joinState = .detached
  | _ => True

@[simp] def ExitPc.removed : ExitPc → Prop
  | .teardown | .exit .detached | .gone .detached => True
  | _ => False

@[simp] def ExitPc.released : ExitPc → Prop
  | .gone .detached => True
  | _ => False

def State.ExitFits (s : State C V N) : Prop :=
  match s.exit with
  | .running | .exchange => s.joinState ≠ .exitedNotJoined ∧ s.clearTid ∧ s.tid ≠ 0
  | .setTidAddress => s.joinState = .detached ∧ s.clearTid ∧ s.tid ≠ 0
  | .remove => s.joinState = .detached ∧ s.clearTid = false ∧ s.tid ≠ 0
  | .teardown => s.joinState = .detached ∧ s.clearTid = false ∧ s.tid ≠ 0 ∧ mmapSize ≠ 0
  | .exit old =>
    if old = .detached then s.joinState = .detached ∧ s.clearTid = false ∧ s.tid ≠ 0 ∧ mmapSize = 0
    else (s.joinState = .exitedNotJoined ∨ s.joinState = .joined) ∧ s.clearTid ∧ s.tid ≠ 0
  | .gone old =>
    if old = .detached then s.joinState = .detached ∧ s.clearTid = false ∧ s.tid ≠ 0
    else (s.joinState = .exitedNotJoined ∨ s.joinState = .joined) ∧ s.tid = 0

@[simp] def State.Removed (s : State C V N) : Option C → Prop
  | none => s.exit.removed
  | some c => (s.call c).removed

@[simp] def State.Released (s : State C V N) : Option C → Prop
  | none => s.exit.released ∧ mmapSize ≠ 0
  | some c => (s.call c).released ∧ mmapSize ≠ 0

structure Inv (thread : N) (mmapSize : Nat) (s : State C V N) : Prop where
  sole : Sole CallPc.won (s.joinState = .joined) s.call
  fits : ∀ c, (s.call c).Fits s.joinState s.tid s.given
  exitFits : s.ExitFits mmapSize
  given : s.exit ≠ .running → s.given = some s.returnValue
  removals : Ledger s.Removed s.removals
  releases : Ledger (s.Released mmapSize) s.releases
  list : ∃ l, s.list.Represents l ∧ (thread ∈ l ↔ s.removals = [])

variable {thread : N} {mmapSize : Nat} {s : State C V N} {c : C}

omit [DecidableEq C] [DecidableEq N] in
theorem Inv.start (h : Init thread s) : Inv thread mmapSize s := by
  obtain ⟨hs, htid, hcl, ⟨l, hl, ht⟩, he, hca, hg, hr, hre⟩ := h
  have hrm : ∀ a, ¬s.Removed a := by
    rintro (_ | c)
    · simp [he]
    · simp [hca c, CallPc.role]
  have hrl : ∀ a, ¬s.Released mmapSize a := by
    rintro (_ | c)
    · simp [he]
    · simp [hca c, CallPc.released, CallPc.role]
  refine ⟨⟨iff_of_false ?_ ?_, ?_⟩, ?_, ?_, ?_, ⟨?_, ?_⟩, ⟨?_, ?_⟩, l, hl, ?_⟩
  · rcases hs with hs | hs <;> simp [hs]
  · rintro ⟨c, hc⟩
    simp [hca c, CallPc.role] at hc
  · intro c d hc
    simp [hca c, CallPc.role] at hc
  · intro c
    rw [hca c]
    trivial
  · rcases hs with hs | hs <;> simp [State.ExitFits, he, hs, hcl, htid]
  · exact fun hne => absurd he hne
  · simpa [hr] using hrm
  · simp [hr]
  · simpa [hre] using hrl
  · simp [hre]
  · simp [ht, hr]

variable {p : CallPc V}

theorem fits_update {js js' : JoinState} {tid tid' : Nat} {given given' : Option V} {call : C → CallPc V}
    (h : ∀ d, (call d).Fits js tid given) (hp : p.Fits js' tid' given')
    (hk : ∀ d, d ≠ c → (call d).Fits js tid given → (call d).Fits js' tid' given') (d : C) :
    (update call c p d).Fits js' tid' given' := by
  rw [update_apply]
  split_ifs with hd
  · exact hp
  · exact hk d hd (h d)

omit [DecidableEq N] in
theorem removed_goto (hp : p.removed ↔ (s.call c).removed) (a : Option C) : (s.goto c p).Removed a ↔ s.Removed a := by
  cases a with
  | none => exact Iff.rfl
  | some d =>
    show (update s.call c p d).removed ↔ _
    rw [update_apply]
    split_ifs with hd
    · rwa [hd]
    · exact Iff.rfl

omit [DecidableEq N] in
theorem released_goto (hp : p.released ↔ (s.call c).released) (a : Option C) :
    (s.goto c p).Released mmapSize a ↔ s.Released mmapSize a := by
  cases a with
  | none => exact Iff.rfl
  | some d =>
    show (update s.call c p d).released ∧ _ ↔ _
    rw [update_apply]
    split_ifs with hd
    · rw [hd, hp]
      exact Iff.rfl
    · exact Iff.rfl

omit [DecidableEq N] in
theorem Inv.goto (h : Inv thread mmapSize s) (hf : p.Fits s.joinState s.tid s.given)
    (hr : p.role = (s.call c).role) : Inv thread mmapSize (s.goto c p) where
  sole := h.sole.move Iff.rfl (by rw [CallPc.won, CallPc.won, hr])
  fits := fits_update h.fits hf fun _ _ hd => hd
  exitFits := h.exitFits
  given := h.given
  removals := h.removals.congr (removed_goto (by rw [CallPc.removed, CallPc.removed, hr]))
  releases := h.releases.congr (released_goto (by rw [CallPc.released, CallPc.released, hr]))
  list := h.list

end Bionic.Thread
