import Bionic.Lib.Threads
import Bionic.Pthread.NormalMutex

namespace Bionic.NormalMutex

open Lib Pc Function

variable {T : Type} [DecidableEq T] (x : UInt16)

def Pc.copy : Pc → Option UInt16
  | .lockFast x | .lockCas x | .lockExchange x | .lockWait x | .sleep x | .tryCas x | .unlockExchange x => some x
  | .idle | .lockLoad | .lockReload | .tryLoad | .unlockLoad | .unlockWake => none

def Pc.asleep : Pc → Bool
  | .sleep _ => true
  | _ => false

/-- The thread is awake and bound to put the contended word back, or to wake a sleeper that will. -/
def Pc.rescuer : Pc → Bool
  | .lockExchange _ | .lockWait _ | .unlockWake => true
  | _ => false

def Pc.unlocking : Pc → Bool
  | .unlockLoad | .unlockExchange _ => true
  | _ => false

@[simp] theorem Pc.rescuer_lockExchange : (lockExchange x).rescuer := rfl

@[simp] theorem Pc.rescuer_lockWait : (lockWait x).rescuer := rfl

@[simp] theorem Pc.rescuer_unlockWake : unlockWake.rescuer := rfl

@[simp] theorem Pc.rescuer_idle : idle.rescuer = false := rfl

@[simp] theorem Pc.rescuer_sleep : (sleep x).rescuer = false := rfl

def Shared (shared : UInt16) : Prop := shared = 0 ∨ shared = mutexSharedMask

structure Inv (shared : UInt16) (s : State T) : Prop where
  word : s.state = unlocked shared ∨ s.state = lockedUncontended shared ∨ s.state = lockedContended shared
  free : s.state = unlocked shared ↔ ∀ t, s.held t = false
  unique : ∀ t u, s.held t → s.held u → t = u
  copies : ∀ t x, (s.pc t).copy = some x → x = shared
  unlocker : ∀ t, (s.pc t).unlocking → s.held t
  rescue : ∀ t, (s.pc t).asleep → s.state = lockedContended shared ∨ ∃ u, (s.pc u).rescuer

variable {shared : UInt16}

theorem words_ne (h : Shared shared) :
    unlocked shared ≠ lockedUncontended shared ∧ unlocked shared ≠ lockedContended shared ∧
      lockedUncontended shared ≠ lockedContended shared := by
  rcases h with rfl | rfl <;> decide

variable {s s' : State T} {x : UInt16} {t u : T}

omit [DecidableEq T] in
theorem word_normal (h : Shared shared) (hi : Inv shared s) : s.state &&& mutexTypeMask = mutexTypeBitsNormal := by
  rcases h with rfl | rfl <;> rcases hi.word with he | he | he <;> rw [he] <;> decide

omit [DecidableEq T] in
theorem word_shared (h : Shared shared) (hi : Inv shared s) : s.state &&& mutexSharedMask = shared := by
  rcases h with rfl | rfl <;> rcases hi.word with he | he | he <;> rw [he] <;> decide

omit [DecidableEq T] in
theorem Inv.covered (hi : Inv shared s) :
    Covered (fun p : Pc => p.asleep) (fun p => p.rescuer) (s.state = lockedContended shared) s.pc := hi.rescue

theorem Inv.copies_update (hi : Inv shared s) (t : T) {p : Pc} (hc : ∀ x, p.copy = some x → x = shared) :
    ∀ u x, (update s.pc t p u).copy = some x → x = shared :=
  (forall_update_iff s.pc fun _ q => ∀ x, q.copy = some x → x = shared).mpr ⟨hc, fun u _ => hi.copies u⟩

/-- A thread moves while the word and the holders stay. Only a rescuer that gives up needs an excuse:
a contended word, another rescuer, or nobody else asleep. -/
theorem Inv.goto (hi : Inv shared s) (t : T) (p : Pc)
    (hc : ∀ x, p.copy = some x → x = shared) (hu : p.unlocking → s.held t)
    (hs : p.asleep → s.state = lockedContended shared)
    (hr : (s.pc t).rescuer → s.state = lockedContended shared ∨ p.rescuer ∨
      (∃ v, v ≠ t ∧ (s.pc v).rescuer) ∨ ∀ v, v ≠ t → ¬(s.pc v).asleep) :
    Inv shared (s.goto t p) := by
  refine ⟨hi.word, hi.free, hi.unique, hi.copies_update t hc, ?_, ?_⟩
  · exact (forall_update_iff s.pc fun u q => q.unlocking → s.held u).mpr ⟨hu, fun u _ => hi.unlocker u⟩
  · exact hi.covered.update t p hs fun h => h.elim .inl hr

/-- The word was free, so nobody held the mutex; whoever was to rescue a sleeper is not the new
holder, unless the new word is the contended one. -/
theorem Inv.acquire (h : Shared shared) (hi : Inv shared s) (t : T) (word : UInt16) (hf : s.state = unlocked shared)
    (hw : word = lockedContended shared ∨ word = lockedUncontended shared ∧ (s.pc t).rescuer = false) :
    Inv shared (s.acquire t word) := by
  have hne := words_ne h
  have hn := hi.free.1 hf
  have hh (u : T) (hu : (s.acquire t word).held u) : u = t := by
    by_contra he
    simp [he, hn u] at hu
  refine ⟨?_, ?_, ?_, hi.copies_update t nofun, ?_, ?_⟩
  · rcases hw with rfl | ⟨rfl, -⟩
    · exact .inr (.inr rfl)
    · exact .inr (.inl rfl)
  · constructor
    · intro hz
      rcases hw with rfl | ⟨rfl, -⟩
      · exact absurd hz.symm hne.2.1
      · exact absurd hz.symm hne.1
    · intro hz
      have := hz t
      simp at this
  · intro u v hu hv
    rw [hh u hu, hh v hv]
  · refine (forall_update_iff s.pc fun u q => q.unlocking → update s.held t true u).mpr ⟨nofun, fun u _ hx => ?_⟩
    have hx' := hi.unlocker u hx
    rw [hn u] at hx'
    cases hx'
  · refine hi.covered.update t .idle nofun ?_
    rintro (hc | hr')
    · exact absurd (hf.symm.trans hc) hne.2.1
    · rcases hw with rfl | ⟨-, hr⟩
      · exact .inl rfl
      · rw [hr] at hr'
        cases hr'

theorem Inv.tryLock (h : Shared shared) (hi : Inv shared s) (t : T) (busy : Pc)
    (hr : (s.pc t).rescuer = false) (hc : ∀ x, busy.copy = some x → x = shared)
    (hb : busy.unlocking = false ∧ busy.asleep = false) :
    Inv shared (normalMutexTryLock s t shared busy) := by
  unfold normalMutexTryLock
  split
  case isTrue hf => exact hi.acquire h t _ hf (.inr ⟨rfl, hr⟩)
  case isFalse => exact hi.goto t busy hc (by simp [hb.1]) (by simp [hb.2]) (by simp [hr])

theorem Inv.lockExchange (h : Shared shared) (hi : Inv shared s) (t : T) :
    Inv shared (normalMutexLockExchange s t shared) := by
  have hne := words_ne h
  unfold normalMutexLockExchange
  split
  case isTrue hf => exact hi.acquire h t _ hf (.inl rfl)
  case isFalse hb =>
    -- The word was locked already, so swapping in the contended value changes no owner.
    have hset : Inv shared { s with state := lockedContended shared } := by
      refine ⟨.inr (.inr rfl), ?_, hi.unique, hi.copies, hi.unlocker, fun _ _ => .inl rfl⟩
      constructor
      · intro hz
        exact absurd hz.symm hne.2.1
      · intro hz
        exact absurd (hi.free.2 hz) hb
    exact hset.goto t (.lockWait shared) (by simp [copy]) (by simp [unlocking]) (by simp)
      (by simp)

theorem Inv.wait (hi : Inv shared s) (t : T) : Inv shared (futexWait s t shared) := by
  unfold futexWait
  split
  case isTrue hc =>
    exact hi.goto t (.sleep shared) (by simp [copy]) (by simp [unlocking]) (fun _ => hc) (fun _ => .inl hc)
  case isFalse =>
    exact hi.goto t (.lockExchange shared) (by simp [copy]) (by simp [unlocking]) (by simp [asleep])
      (by simp)

theorem Inv.release (hi : Inv shared s) (t : T) (p : Pc)
    (hh : s.held t) (hp : p = .unlockWake ∨ p = .idle ∧ s.state ≠ lockedContended shared)
    (hr : (s.pc t).rescuer = false) : Inv shared (s.release t (unlocked shared) p) := by
  have hn (u : T) : (s.release t (unlocked shared) p).held u = false := by
    by_cases he : u = t
    · simp [he]
    · cases hu : s.held u with
      | false => simpa [he] using hu
      | true => exact absurd (hi.unique u t hu hh) he
  refine ⟨.inl rfl, ⟨fun _ => hn, fun _ => rfl⟩, ?_, ?_, ?_, ?_⟩
  · intro u v hu
    rw [hn u] at hu
    cases hu
  · refine hi.copies_update t ?_
    rcases hp with rfl | ⟨rfl, -⟩ <;> exact nofun
  · refine (forall_update_iff s.pc fun u q => q.unlocking → update s.held t false u).mpr ⟨?_, fun u he hx => ?_⟩
    · rcases hp with rfl | ⟨rfl, -⟩ <;> exact nofun
    · exact absurd (hi.unique u t (hi.unlocker u hx) hh) he
  · refine hi.covered.update t p ?_ ?_
    · rcases hp with rfl | ⟨rfl, -⟩ <;> exact nofun
    · rintro (hc | hr')
      · rcases hp with rfl | ⟨-, hnc⟩
        · exact .inr (.inl rfl)
        · exact absurd hc hnc
      · rw [hr] at hr'
        cases hr'

theorem Inv.loadThen (h : Shared shared) (hi : Inv shared s) (t : T)
    (p : UInt16 → Pc) (hr : (s.pc t).rescuer = false) (hc : (p shared).copy = some shared)
    (hu : (p shared).unlocking → s.held t) (hs : (p shared).asleep = false) :
    Inv shared (loadThen s t p) := by
  unfold NormalMutex.loadThen
  rw [word_shared h hi]
  exact hi.goto t _ (by simp [hc]) hu (by simp [hs]) (by simp [hr])

theorem Inv.exec (h : Shared shared) (hi : Inv shared s) (hs : Exec s t s') : Inv shared s' := by
  have hco (x : UInt16) (hx : (s.pc t).copy = some x) : x = shared := hi.copies t x hx
  cases hs with
  | lockLoad hp | lockReload hp | tryLoad hp =>
    exact hi.loadThen h t _ (by rw [hp]; rfl) rfl (fun he => by cases he) rfl
  | unlockLoad hp =>
    exact hi.loadThen h t _ (by rw [hp]; rfl) rfl (fun _ => hi.unlocker t (by rw [hp]; rfl)) rfl
  | lockFast x hp | lockCas x hp | tryCas x hp =>
    obtain rfl := hco x (by rw [hp]; rfl)
    exact hi.tryLock h t _ (by rw [hp]; rfl) (by simp [copy]) ⟨rfl, rfl⟩
  | lockExchange x hp =>
    obtain rfl := hco x (by rw [hp]; rfl)
    exact hi.lockExchange h t
  | lockWait x hp =>
    obtain rfl := hco x (by rw [hp]; rfl)
    exact hi.wait t
  | unlockExchange x hp =>
    obtain rfl := hco x (by rw [hp]; rfl)
    have hh := hi.unlocker t (by rw [hp]; rfl)
    unfold normalMutexUnlockExchange
    split
    case isTrue => exact hi.release t _ hh (.inl rfl) (by rw [hp]; rfl)
    case isFalse hc => exact hi.release t _ hh (.inr ⟨rfl, hc⟩) (by rw [hp]; rfl)

theorem Inv.awaken (hi : Inv shared s) (hu : s.pc u = .sleep x) : Inv shared (s.goto u (.lockExchange x)) := by
  obtain rfl := hi.copies u x (by rw [hu]; rfl)
  exact hi.goto u _ (by simp [copy]) (by simp [unlocking]) (by simp [asleep]) (by simp)

/-- The sleeper that is woken takes over from the waker, so it is moved first. -/
theorem Inv.wakeOne (hi : Inv shared s) (hp : s.pc t = .unlockWake) (hu : s.pc u = .sleep x) :
    Inv shared ((s.goto t .idle).goto u (.lockExchange x)) := by
  have hut : u ≠ t := by
    rintro rfl
    rw [hp] at hu
    cases hu
  have hs : (s.goto t .idle).goto u (.lockExchange x) = (s.goto u (.lockExchange x)).goto t .idle := by
    simp [update_comm hut]
  rw [hs]
  exact (hi.awaken hu).goto t .idle (by simp [copy]) (by simp [unlocking]) (by simp [asleep])
    (fun _ => .inr (.inr (.inl ⟨u, hut, by simp⟩)))

theorem Inv.wakeNone (hi : Inv shared s) (hn : ∀ u x, s.pc u ≠ .sleep x) : Inv shared (s.goto t .idle) := by
  refine hi.goto t .idle (by simp [copy]) (by simp [unlocking]) (by simp [asleep])
    fun _ => .inr (.inr (.inr fun u _ => ?_))
  cases hpc : s.pc u with
  | sleep x => exact absurd hpc (hn u x)
  | _ => exact nofun

theorem Inv.step (h : Shared shared) (hi : Inv shared s) (hs : Step s s') : Inv shared s' := by
  cases hs with
  | lock t hp | trylock t hp =>
    exact hi.goto t _ (by simp [copy]) (by simp [unlocking]) (by simp [asleep])
      (by rw [hp]; simp)
  | unlock t hp hh =>
    exact hi.goto t _ (by simp [copy]) (fun _ => hh) (by simp [asleep]) (by rw [hp]; simp)
  | exec t _ he => exact hi.exec h he
  | wakeOne t u x hp hu => exact hi.wakeOne hp hu
  | wakeNone t hp hn => exact hi.wakeNone hn
  | spurious u x hu => exact hi.awaken hu

omit [DecidableEq T] in
theorem Inv.of_init (h : Init s) : ∃ shared, Shared shared ∧ Inv shared s := by
  obtain ⟨hw, hp, hh⟩ := h
  refine ⟨s.state, hw, ⟨.inl (by simp [unlocked]), ?_, ?_, ?_, ?_, ?_⟩⟩
  · exact ⟨fun _ => hh, fun _ => by simp [unlocked]⟩
  · intro t u ht
    rw [hh t] at ht
    cases ht
  · intro t x hx
    simp [hp t, copy] at hx
  · intro t hx
    simp [hp t, unlocking] at hx
  · intro t hx
    simp [hp t, asleep] at hx

theorem inv_invariant : (system T).Invariant (fun s => ∃ shared, Shared shared ∧ Inv shared s) where
  init := fun _ h => Inv.of_init h
  step := by
    rintro s s' ⟨shared, hsh, hi⟩ hs
    exact ⟨shared, hsh, hi.step hsh hs⟩

/-- The branch for a normal mutex is the one every load takes, so no thread of the model is stuck at
a load. -/
theorem load_takes_normal (hs : (system T).Reachable s) : s.state &&& mutexTypeMask = mutexTypeBitsNormal := by
  obtain ⟨shared, hsh, hi⟩ := inv_invariant.reachable hs
  exact word_normal hsh hi

def stateBitsIsUnlocked (state : UInt16) : Prop := state &&& 3 = 0

def Pc.outside : Pc → Bool
  | .idle | .tryLoad | .tryCas _ => true
  | _ => false

/-- No thread is between two steps of lock or unlock; threads asleep in the kernel are not. -/
def Quiescent (s : State T) : Prop := ∀ t, (s.pc t).outside ∨ (s.pc t).asleep

theorem Pc.not_rescuer {p : Pc} (h : p.outside ∨ p.asleep) : ¬p.rescuer := by
  intro hr
  cases p <;> cases hr
  all_goals exact h.elim nofun nofun

omit [DecidableEq T] in
theorem word_unlocked (h : Shared shared) (hi : Inv shared s)
    (hw : stateBitsIsUnlocked s.state) : s.state = unlocked shared := by
  rcases hi.word with he | he | he
  · exact he
  all_goals
    rw [he] at hw
    rcases h with rfl | rfl <;> exact absurd hw (by unfold stateBitsIsUnlocked; decide)

theorem exclusive_and_no_lost_wakeup {s : State T} (hs : (system T).Reachable s) :
    (∀ t u, s.held t = true → s.held u = true → t = u) ∧
      ¬(stateBitsIsUnlocked s.state ∧ Quiescent s ∧ ∃ t, (s.pc t).asleep = true) := by
  obtain ⟨shared, hsh, hi⟩ := inv_invariant.reachable hs
  refine ⟨hi.unique, ?_⟩
  rintro ⟨hw, hq, t, ht⟩
  rcases hi.rescue t ht with hc | ⟨u, hu⟩
  · exact (words_ne hsh).2.1 ((word_unlocked hsh hi hw).symm.trans hc)
  · exact Pc.not_rescuer (hq u) hu

/-- One thread has the mutex through the fast path and the other one sleeps behind it. -/
theorem exclusive_and_no_lost_wakeup_contended :
    ∃ s : State Bool, (system Bool).Reachable s ∧ s.held true = true ∧ (s.pc false).asleep = true ∧
      (∀ t u, s.held t = true → s.held u = true → t = u) ∧
      ¬(stateBitsIsUnlocked s.state ∧ Quiescent s ∧ ∃ t, (s.pc t).asleep = true) := by
  have h₀ : (system Bool).Reachable ⟨0, fun _ => .idle, fun _ => false⟩ :=
    .of_init ⟨.inl rfl, fun _ => rfl, fun _ => rfl⟩
  have h₁ := (h₀.step (.lock true rfl)).step (.exec true _ (.lockLoad rfl rfl))
    |>.step (.exec true _ (.lockFast 0 rfl))
    |>.step (.lock false rfl)
    |>.step (.exec false _ (.lockLoad rfl rfl))
    |>.step (.exec false _ (.lockFast 0 rfl))
    |>.step (.exec false _ (.lockReload rfl rfl))
    |>.step (.exec false _ (.lockCas 0 rfl))
    |>.step (.exec false _ (.lockExchange 0 rfl))
    |>.step (.exec false _ (.lockWait 0 rfl))
  exact ⟨_, h₁, rfl, rfl, exclusive_and_no_lost_wakeup h₁⟩

end Bionic.NormalMutex
