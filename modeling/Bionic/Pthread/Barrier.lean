import Bionic.Lib.System
import Bionic.Lib.Threads

namespace Bionic.Barrier

open Lib

variable {T : Type} [DecidableEq T] [Fintype T] (h : History)

inductive BarrierState
  | wait
  | release
  deriving DecidableEq

inductive Result
  | zero
  | serialThread
  | einval
  deriving DecidableEq

/-- The next atomic operation of a thread, with `prev_wait_count` and `result`. `enterSleep` and `waitSleep` are
inside the kernel; `out` is outside the call. -/
inductive Pc
  | out (result : Result)
  | enterLoad
  | enterWait
  | enterSleep
  | countLoad
  | countCas (prev : UInt32)
  | storeRelease (prev : UInt32)
  | wakeWaiters (prev : UInt32)
  | waitLoad
  | waitFutex
  | waitSleep
  | leave (result : Result)
  | storeWait (result : Result)
  | wakeEntrants (result : Result)
  deriving DecidableEq

/-- How often a thread has added itself, taken itself off and returned, and which of its waits returned
PTHREAD_BARRIER_SERIAL_THREAD. No step reads it. -/
structure History where
  joined : Nat
  left : Nat
  returned : Nat
  serial : Nat → Bool

def History.join : History := { h with joined := h.joined + 1 }

def History.leave : History := { h with left := h.left + 1 }

def History.return (result : Result) : History :=
  { h with
    returned := h.returned + 1
    serial := Function.update h.serial (h.returned + 1) (result = .serialThread) }

structure State (T : Type) where
  initCount : UInt32
  state : BarrierState
  waitCount : UInt32
  pc : T → Pc
  history : T → History

variable (s : State T) (count : UInt32) (t : T)

@[simp] def State.goto (p : Pc) : State T := { s with pc := Function.update s.pc t p }

@[simp] def State.record (f : History → History) : State T :=
  { s with history := Function.update s.history t (f (s.history t)) }

def State.finish (result : Result) : State T :=
  (s.goto t (.out result)).record t fun h => h.return result

def enterCount (initCount prev : UInt32) : Pc :=
  if prev ≥ initCount then .out .einval else .countCas prev

def afterJoin (initCount prev : UInt32) : Pc :=
  if prev + 1 = initCount then
    if prev ≠ 0 then .storeRelease prev else .leave .serialThread
  else .waitLoad

def join (s : State T) (t : T) (prev : UInt32) : State T :=
  (State.goto { s with waitCount := prev + 1 } t (afterJoin s.initCount prev)).record t History.join

def leave (s : State T) (t : T) (result : Result) : State T :=
  let s' := State.record { s with waitCount := s.waitCount - 1 } t History.leave
  if s.waitCount = 1 then s'.goto t (.storeWait result) else s'.finish t result

def Pc.asleep : Pc → Bool
  | .enterSleep | .waitSleep => true
  | _ => false

def Pc.woken : Pc → Pc
  | .enterSleep => .enterLoad
  | .waitSleep => .waitLoad
  | p => p

def State.sleepers : Finset T := {u | (s.pc u).asleep = true}

def State.wake (woken : Finset T) : State T :=
  { s with pc := fun u => if u ∈ woken then (s.pc u).woken else s.pc u }

/-- FUTEX_WAKE picks any sleepers, as many as it is asked for or all. -/
def Wakes (woken : Finset T) : Prop :=
  woken ⊆ s.sleepers ∧ woken.card = min count.toNat s.sleepers.card

/-- One atomic operation of a thread. A weak compare-exchange may fail whatever the count is. -/
inductive Exec (s : State T) (t : T) : State T → Prop
  | call (r) (hp : s.pc t = .out r) : Exec s t (s.goto t .enterLoad)
  | enterLoad (hp : s.pc t = .enterLoad) :
      Exec s t (s.goto t (if s.state = .release then .enterWait else .countLoad))
  | enterWait (hp : s.pc t = .enterWait) :
      Exec s t (s.goto t (if s.state = .release then .enterSleep else .enterLoad))
  | countLoad (hp : s.pc t = .countLoad) : Exec s t (s.goto t (enterCount s.initCount s.waitCount))
  | countExchange (prev) (hp : s.pc t = .countCas prev) (hprev : s.waitCount = prev) : Exec s t (join s t prev)
  | countRetry (prev) (hp : s.pc t = .countCas prev) : Exec s t (s.goto t (enterCount s.initCount s.waitCount))
  | storeRelease (prev) (hp : s.pc t = .storeRelease prev) :
      Exec s t (State.goto { s with state := .release } t (.wakeWaiters prev))
  | wakeWaiters (prev woken) (hp : s.pc t = .wakeWaiters prev) (hw : Wakes s prev woken) :
      Exec s t ((s.wake woken).goto t (.leave .serialThread))
  | waitLoad (hp : s.pc t = .waitLoad) :
      Exec s t (s.goto t (if s.state = .wait then .waitFutex else .leave .zero))
  | waitFutex (hp : s.pc t = .waitFutex) :
      Exec s t (s.goto t (if s.state = .wait then .waitSleep else .waitLoad))
  | spurious (hp : (s.pc t).asleep) : Exec s t (s.goto t (s.pc t).woken)
  | leave (r) (hp : s.pc t = .leave r) : Exec s t (leave s t r)
  | storeWait (r) (hp : s.pc t = .storeWait r) :
      Exec s t (State.goto { s with state := .wait } t (.wakeEntrants r))
  | wakeEntrants (r woken) (hp : s.pc t = .wakeEntrants r) (hw : Wakes s s.initCount woken) :
      Exec s t ((s.wake woken).finish t r)

/-- pthread_barrier_init, which refuses a count of 0. -/
def Init (s : State T) : Prop :=
  count ≠ 0 ∧ s.initCount = count ∧ s.state = .wait ∧ s.waitCount = 0 ∧ (∀ t, s.pc t = .out .zero) ∧
    ∀ t, s.history t = ⟨0, 0, 0, fun _ => false⟩

def system (T : Type) [DecidableEq T] [Fintype T] (count : UInt32) : System (State T) :=
  ⟨Init count, fun s s' => ∃ t, Exec s t s'⟩

def Pc.inside : Pc → Nat
  | .storeRelease _ | .wakeWaiters _ | .waitLoad | .waitFutex | .waitSleep | .leave _ => 1
  | .out _ | .enterLoad | .enterWait | .enterSleep | .countLoad | .countCas _ | .storeWait _ | .wakeEntrants _ => 0

def Pc.finishing : Pc → Nat
  | .storeWait _ | .wakeEntrants _ => 1
  | .out _ | .enterLoad | .enterWait | .enterSleep | .countLoad | .countCas _ | .storeRelease _ | .wakeWaiters _
  | .waitLoad | .waitFutex | .waitSleep | .leave _ => 0

def Pc.serial : Pc → Bool
  | .storeRelease _ | .wakeWaiters _ => true
  | .leave r | .storeWait r | .wakeEntrants r => r = .serialThread
  | .out _ | .enterLoad | .enterWait | .enterSleep | .countLoad | .countCas _ | .waitLoad | .waitFutex
  | .waitSleep => false

theorem Pc.inside_le_one (p : Pc) : p.inside ≤ 1 := by
  cases p <;> simp [inside]

/-- Both places stand at the same point of the thread's wait, as far as it can be seen from its history. -/
structure SameRole (p q : Pc) : Prop where
  inside : p.inside = q.inside
  finishing : p.finishing = q.finishing
  serial : p.serial = q.serial

theorem SameRole.congr {p q r : Pc} (h : SameRole q r) (h' : SameRole p q) : SameRole p r :=
  ⟨h'.inside.trans h.inside, h'.finishing.trans h.finishing, h'.serial.trans h.serial⟩

theorem sameRole_woken (p : Pc) : SameRole p.woken p := by
  cases p <;> exact ⟨rfl, rfl, rfl⟩

variable {T : Type} [DecidableEq T] [Fintype T]

/-- The counts of the threads' histories against the places of the threads and `wait_count`. -/
structure Book (s : State T) : Prop where
  waitCount : s.waitCount.toNat = total Pc.inside s.pc
  joined : ∀ t, (s.history t).joined = (s.history t).left + (s.pc t).inside
  left : ∀ t, (s.history t).left = (s.history t).returned + (s.pc t).finishing

/-- Each of the first `full` cycles has elected one thread, which returns or has returned the special value. -/
structure Election (elected : Nat → Option T) (full : Nat) (s : State T) : Prop where
  cycles : ∀ k, (elected k).isSome ↔ 1 ≤ k ∧ k ≤ full
  carries : ∀ t, (s.pc t).serial ↔
    (s.history t).returned < (s.history t).joined ∧ elected (s.history t).joined = some t
  returned : ∀ t k, (s.history t).serial k ↔ 1 ≤ k ∧ k ≤ (s.history t).returned ∧ elected k = some t

section Ghost

variable {s s' : State T} {t : T} {p : Pc} {elected : Nat → Option T} {full : Nat} {h : History}

omit [DecidableEq T] in
theorem Book.congr (hb : Book s) (hc : s'.waitCount = s.waitCount) (hh : s'.history = s.history)
    (hr : ∀ u, SameRole (s'.pc u) (s.pc u)) : Book s' := by
  refine ⟨?_, ?_, ?_⟩
  · have hs : total Pc.inside s'.pc = total Pc.inside s.pc := by
      simp only [total, (hr _).inside]
    rw [hc, hs, hb.waitCount]
  · intro u
    rw [hh, (hr u).inside, hb.joined]
  · intro u
    rw [hh, (hr u).finishing, hb.left]

omit [DecidableEq T] [Fintype T] in
theorem Election.congr (he : Election elected full s) (hh : s'.history = s.history)
    (hr : ∀ u, SameRole (s'.pc u) (s.pc u)) : Election elected full s' := by
  refine ⟨he.cycles, ?_, ?_⟩
  · intro u
    rw [hh, (hr u).serial, he.carries]
  · intro u k
    rw [hh, he.returned]

omit [Fintype T] in
theorem sameRole_goto (hr : SameRole p (s.pc t)) (u : T) : SameRole ((s.goto t p).pc u) (s.pc u) := by
  by_cases hu : u = t
  · subst hu
    simpa using hr
  · have hs : (s.goto t p).pc u = s.pc u := Function.update_of_ne hu _ _
    rw [hs]
    exact ⟨rfl, rfl, rfl⟩

omit [Fintype T] in
theorem sameRole_wake (woken : Finset T) (u : T) : SameRole ((s.wake woken).pc u) (s.pc u) := by
  rw [State.wake]
  dsimp only
  split
  · exact sameRole_woken _
  · exact ⟨rfl, rfl, rfl⟩

theorem Book.update (hb : Book s) (hpc : s'.pc = Function.update s.pc t p)
    (hh : s'.history = Function.update s.history t h) (hj : h.joined = h.left + p.inside)
    (hl : h.left = h.returned + p.finishing)
    (hc : s'.waitCount.toNat + (s.pc t).inside = s.waitCount.toNat + p.inside) : Book s' := by
  refine ⟨?_, ?_, ?_⟩
  · have ht := total_update Pc.inside s.pc t p
    have hco := hb.waitCount
    rw [hpc]
    omega
  · intro u
    rw [hpc, hh]
    by_cases hu : u = t
    · subst hu
      simpa using hj
    · simpa [hu] using hb.joined u
  · intro u
    rw [hpc, hh]
    by_cases hu : u = t
    · subst hu
      simpa using hl
    · simpa [hu] using hb.left u

omit [Fintype T] in
theorem Election.update (he : Election elected full s) (hpc : s'.pc = Function.update s.pc t p)
    (hh : s'.history = Function.update s.history t h)
    (hc : p.serial ↔ h.returned < h.joined ∧ elected h.joined = some t)
    (hr : ∀ k, h.serial k ↔ 1 ≤ k ∧ k ≤ h.returned ∧ elected k = some t) :
    Election elected full s' := by
  refine ⟨he.cycles, ?_, ?_⟩
  · intro u
    rw [hpc, hh]
    by_cases hu : u = t
    · subst hu
      simpa using hc
    · simpa [hu] using he.carries u
  · intro u k
    rw [hh]
    by_cases hu : u = t
    · subst hu
      simpa using hr k
    · simpa [hu] using he.returned u k

omit [DecidableEq T] [Fintype T] in
theorem Election.eq_none (he : Election elected full s) : elected (full + 1) = none := by
  have h := he.cycles (full + 1)
  rw [Option.isSome_iff_ne_none] at h
  by_contra hne
  have := (h.1 hne).2
  omega

omit [Fintype T] in
theorem Election.elect (he : Election elected full s) (hpc : s'.pc = Function.update s.pc t p)
    (hh : s'.history = Function.update s.history t (s.history t).join) (hj : (s.history t).joined = full)
    (hr : ∀ u, (s.history u).returned ≤ full) (hse : p.serial) :
    Election (Function.update elected (full + 1) (some t)) (full + 1) s' := by
  have hn := he.eq_none
  refine ⟨?_, ?_, ?_⟩
  · intro k
    by_cases hk : k = full + 1
    · subst hk
      simp
    · have hc := he.cycles k
      rw [Function.update_of_ne hk, hc]
      omega
  · intro u
    rw [hpc, hh]
    by_cases hu : u = t
    · subst hu
      have hle := hr u
      simp only [Function.update_self, hse, History.join, hj, true_iff, and_true]
      omega
    · rw [Function.update_of_ne hu, Function.update_of_ne hu, he.carries u]
      by_cases hk : (s.history u).joined = full + 1
      · rw [hk, hn]
        simp [Ne.symm hu]
      · rw [Function.update_of_ne hk]
  · intro u k
    have hs : (s'.history u).returned = (s.history u).returned ∧ (s'.history u).serial = (s.history u).serial := by
      rw [hh]
      by_cases hu : u = t
      · subst hu
        simp [History.join]
      · simp [hu]
    have hle := hr u
    rw [hs.1, hs.2, he.returned u k]
    by_cases hk : k = full + 1
    · subst hk
      simp only [hn]
      constructor
      · rintro ⟨-, -, h⟩
        cases h
      · rintro ⟨-, h, -⟩
        omega
    · rw [Function.update_of_ne hk]

theorem Book.finish (hb : Book s) (hf : (s.pc t).finishing = 1) (hi : (s.pc t).inside = 0) (r : Result) :
    Book (s.finish t r) := by
  have hj := hb.joined t
  have hl := hb.left t
  refine hb.update rfl rfl ?_ ?_ ?_
  · show (s.history t).joined = (s.history t).left + 0
    omega
  · show (s.history t).left = (s.history t).returned + 1 + 0
    omega
  · show s.waitCount.toNat + _ = s.waitCount.toNat + 0
    omega

theorem Election.finish (he : Election elected full s) (hb : Book s) (hf : (s.pc t).finishing = 1)
    (hi : (s.pc t).inside = 0) {r : Result} (hs : (s.pc t).serial ↔ r = .serialThread) :
    Election elected full (s.finish t r) := by
  have hj : (s.history t).joined = (s.history t).returned + 1 := by
    have h₁ := hb.joined t
    have h₂ := hb.left t
    omega
  have hc := he.carries t
  rw [hs, hj] at hc
  refine he.update rfl rfl ?_ ?_
  · show false ↔ (s.history t).returned + 1 < (s.history t).joined ∧ _
    rw [hj]
    simp
  · intro k
    show Function.update (s.history t).serial ((s.history t).returned + 1) (decide (r = .serialThread)) k ↔
      1 ≤ k ∧ k ≤ (s.history t).returned + 1 ∧ elected k = some t
    by_cases hk : k = (s.history t).returned + 1
    · subst hk
      rw [Function.update_self, decide_eq_true_iff, hc]
      simp
    · rw [Function.update_of_ne hk, he.returned t k]
      constructor
      all_goals
        rintro ⟨h₁, h₂, h₃⟩
        exact ⟨h₁, by omega, h₃⟩

end Ghost

inductive Phase
  | gather
  | full
  | drain
  | reset
  deriving DecidableEq

def Pc.AllowedIn (n : Nat) (p : Pc) : Phase → Prop
  | .gather =>
    match p with
    | .out r | .wakeEntrants r => r ≠ .einval
    | .enterLoad | .enterWait | .enterSleep | .countLoad | .countCas _ | .waitLoad | .waitFutex | .waitSleep => True
    | .storeRelease _ | .wakeWaiters _ | .leave _ | .storeWait _ => False
  | .full =>
    match p with
    | .storeRelease prev => prev.toNat + 1 = n
    | .waitLoad | .waitFutex | .waitSleep => True
    | .out _ | .wakeEntrants _ | .enterLoad | .enterWait | .enterSleep | .countLoad | .countCas _
    | .wakeWaiters _ | .leave _ | .storeWait _ => False
  | .drain =>
    match p with
    | .out r | .leave r => r ≠ .einval
    | .wakeWaiters prev => prev.toNat + 1 = n
    | .enterLoad | .enterWait | .enterSleep | .waitLoad | .waitFutex | .waitSleep => True
    | .countLoad | .countCas _ | .wakeEntrants _ | .storeRelease _ | .storeWait _ => False
  | .reset =>
    match p with
    | .out r | .storeWait r => r ≠ .einval
    | .enterLoad | .enterWait | .enterSleep => True
    | .countLoad | .countCas _ | .wakeEntrants _ | .storeRelease _ | .wakeWaiters _ | .waitLoad | .waitFutex
    | .waitSleep | .leave _ => False

/-- What holds in a phase of the cycle after the first `c`. A barrier for one thread is never opened. -/
def PhaseOk (n c : Nat) (s : State T) : Phase → Prop
  | .gather => s.state = .wait ∧ (∀ t, (s.history t).left = c) ∧ total Pc.inside s.pc < n ∧
      ∀ t, s.pc t = .enterSleep → ∃ u r, s.pc u = .wakeEntrants r
  | .full => s.state = .wait ∧ (∀ t, (s.history t).joined = c + 1) ∧
      ∃ t prev, s.pc t = .storeRelease prev ∧ ∀ u prev', u ≠ t → s.pc u ≠ .storeRelease prev'
  | .drain => (s.state = .release ∨ ∀ t, s.pc t = .leave .serialThread) ∧ (∀ t, (s.history t).joined = c + 1) ∧
      0 < total Pc.inside s.pc ∧ ∀ t, s.pc t = .waitSleep → ∃ u prev, s.pc u = .wakeWaiters prev
  | .reset => (∀ t, (s.history t).joined = c + 1) ∧ total Pc.inside s.pc = 0 ∧
      ∃ t r, s.pc t = .storeWait r ∧ (∀ u r', u ≠ t → s.pc u ≠ .storeWait r') ∧ (s.state = .release ∨ ∀ u, u = t)

def Phase.fullCycles (c : Nat) : Phase → Nat
  | .gather => c
  | .full | .drain | .reset => c + 1

structure Inv (count : UInt32) (elected : Nat → Option T) (c : Nat) (ph : Phase) (s : State T) : Prop where
  initCount : s.initCount = count
  book : Book s
  election : Election elected (ph.fullCycles c) s
  allowed : ∀ t, (s.pc t).AllowedIn count.toNat ph
  phase : PhaseOk count.toNat c s ph

end Bionic.Barrier
