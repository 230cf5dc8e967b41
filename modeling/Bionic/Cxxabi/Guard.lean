import Bionic.Pthread.OnceProgress

namespace Bionic.Guard

open Lib Function

variable {T : Type} [DecidableEq T]

inductive Word
  | notYetStarted
  | complete
  | underwayWithoutWaiter
  | underwayWithWaiter
  deriving DecidableEq, Repr

/-- The next atomic operation of a thread. `inside` is from the return of 1 by __cxa_guard_acquire to the
release or the abort; `idle` is outside both. -/
inductive Pc
  | idle
  | load
  | acquire
  | announce
  | wait
  | sleep
  | inside
  | wake
  deriving DecidableEq, Repr

/-- The guard and the threads. `released` says that __cxa_guard_release was called, `returnedZero` that some acquire
returned 0. No step reads the two. -/
structure State (T : Type) where
  word : Word
  pc : T → Pc
  released : Bool
  returnedZero : Bool

namespace State

variable (s : State T) (t : T)

@[simp] def goto (p : Pc) : State T := { s with pc := update s.pc t p }

def loopHead (old : Word) : State T :=
  match old with
  | .complete => { s.goto t .idle with returnedZero := true }
  | .notYetStarted => s.goto t .acquire
  | .underwayWithoutWaiter => s.goto t .announce
  | .underwayWithWaiter => s.goto t .wait

def futexWait : State T :=
  if s.word = .underwayWithWaiter then s.goto t .sleep else s.goto t .load

def exchange (w : Word) : State T :=
  { s.goto t (if s.word = .underwayWithWaiter then .wake else .idle) with word := w }

def woken (pc : T → Pc) (t : T) : Pc := if pc t = .sleep then .load else pc t

def wake : State T := goto { s with pc := woken s.pc } t .idle

end State

inductive Act (s : State T) : State T → Prop
  | call (t) (hp : s.pc t = .idle) : Act s (s.goto t .load)
  | load (t) (hp : s.pc t = .load) : Act s (s.loopHead t s.word)
  | acquire (t) (hp : s.pc t = .acquire) (hw : s.word = .notYetStarted) :
      Act s { s.goto t .inside with word := .underwayWithoutWaiter }
  | acquireFails (t) (hp : s.pc t = .acquire) (hw : s.word ≠ .notYetStarted) : Act s (s.loopHead t s.word)
  | announce (t) (hp : s.pc t = .announce) (hw : s.word = .underwayWithoutWaiter) :
      Act s { s.goto t .wait with word := .underwayWithWaiter }
  | announceFails (t) (hp : s.pc t = .announce) (hw : s.word ≠ .underwayWithoutWaiter) : Act s (s.loopHead t s.word)
  | wait (t) (hp : s.pc t = .wait) : Act s (s.futexWait t)
  | release (t) (hp : s.pc t = .inside) : Act s { s.exchange t .complete with released := true }
  | abort (t) (hp : s.pc t = .inside) : Act s (s.exchange t .notYetStarted)
  | wake (t) (hp : s.pc t = .wake) : Act s (s.wake t)

/-- With the failures of the weak compare-exchanges and the wakeups that have no cause. -/
inductive Step (s : State T) : State T → Prop
  | act {s'} (h : Act s s') : Step s s'
  | weakAcquire (t) (hp : s.pc t = .acquire) : Step s (s.loopHead t s.word)
  | weakAnnounce (t) (hp : s.pc t = .announce) : Step s (s.loopHead t s.word)
  | spuriousWakeup (t) (hp : s.pc t = .sleep) : Step s (s.goto t .load)

def Init (s : State T) : Prop :=
  s.word = .notYetStarted ∧ (∀ t, s.pc t = .idle) ∧ s.released = false ∧ s.returnedZero = false

def system (T : Type) [DecidableEq T] : System (State T) := ⟨Init, Step⟩

@[simp] def Word.underway (w : Word) : Prop := w = .underwayWithoutWaiter ∨ w = .underwayWithWaiter

structure Inv (s : State T) : Prop where
  sole : Sole (· = .inside) s.word.underway s.pc
  released : s.released ↔ s.word = .complete
  returnedZero : s.returnedZero → s.word = .complete
  rescue : Covered (· = .sleep) (· = .wake) (s.word = .underwayWithWaiter) s.pc

variable {s s' : State T} {t u : T}

omit [DecidableEq T] in
theorem Inv.start (h : Init s) : Inv s := by
  obtain ⟨hw, hpc, hr, hre⟩ := h
  refine ⟨⟨?_, ?_⟩, ?_, ?_, ?_⟩
  · refine iff_of_false (by simp [hw]) ?_
    rintro ⟨t, ht⟩
    simp [hpc t] at ht
  · intro t u ht
    simp [hpc t] at ht
  · simp [hr, hw]
  · simp [hre]
  · apply Covered.of_awake
    intro t ht
    simp [hpc t] at ht

section

variable (h : Inv s)
include h

theorem Inv.goto {p : Pc} (hp : p ≠ .inside) (hin : s.pc t ≠ .inside)
    (hs : p = .sleep → s.word = .underwayWithWaiter) (hw : s.pc t ≠ .wake) : Inv (s.goto t p) where
  sole := h.sole.move Iff.rfl (iff_of_false hp hin)
  released := h.released
  returnedZero := h.returnedZero
  rescue := h.rescue.update t p hs fun hold => .inl (hold.resolve_right hw)

theorem Inv.loopHead (hin : s.pc t ≠ .inside) (hw : s.pc t ≠ .wake) : Inv (s.loopHead t s.word) := by
  have hg : ∀ p, p ≠ .inside → p ≠ .sleep → Inv (s.goto t p) := by
    intro p hp hs
    exact h.goto hp hin (fun heq => absurd heq hs) hw
  cases hwo : s.word with
  | complete =>
    have hi := hg .idle (by simp) (by simp)
    exact ⟨hi.sole, hi.released, fun _ => hwo, hi.rescue⟩
  | notYetStarted => exact hg .acquire (by simp) (by simp)
  | underwayWithoutWaiter => exact hg .announce (by simp) (by simp)
  | underwayWithWaiter => exact hg .wait (by simp) (by simp)

theorem Inv.acquire (hp : s.pc t = .acquire) (hw : s.word = .notYetStarted) :
    Inv { s.goto t .inside with word := .underwayWithoutWaiter } where
  sole := h.sole.enter (by simp [hw]) rfl (.inl rfl)
  released := h.released.trans (iff_of_false (by simp [hw]) (by simp))
  returnedZero hr := by
    have := h.returnedZero hr
    simp [hw] at this
  rescue := h.rescue.update t .inside (by simp) fun hold => by simp [hw, hp] at hold

theorem Inv.announce (hp : s.pc t = .announce) (hw : s.word = .underwayWithoutWaiter) :
    Inv { s.goto t .wait with word := .underwayWithWaiter } where
  sole := h.sole.move (by simp [hw]) (iff_of_false (by simp) (by simp [hp]))
  released := h.released.trans (iff_of_false (by simp [hw]) (by simp))
  returnedZero hr := by
    have := h.returnedZero hr
    simp [hw] at this
  rescue := h.rescue.update t .wait (by simp) fun _ => .inl rfl

omit [DecidableEq T] in
theorem Inv.underway (hp : s.pc t = .inside) : s.word.underway := h.sole.taken_iff.mpr ⟨t, hp⟩

/-- Both ways out hand the sleepers to the thread that leaves. -/
theorem Inv.exchange (hp : s.pc t = .inside) {w : Word} (hw : ¬w.underway) :
    Sole (· = .inside) w.underway (s.exchange t w).pc ∧
    Covered (· = .sleep) (· = .wake) (w = .underwayWithWaiter) (s.exchange t w).pc := by
  constructor
  · apply h.sole.leave hp _ hw
    split <;> simp
  · refine h.rescue.update t _ ?_ fun hold => ?_
    · split <;> simp
    · have hwa : s.word = .underwayWithWaiter := hold.resolve_right (by simp [hp])
      simp [hwa]

omit [DecidableEq T] in
theorem Inv.not_complete (hp : s.pc t = .inside) : s.word ≠ .complete := by
  rcases h.underway hp with hw | hw <;> simp [hw]

theorem Inv.release (hp : s.pc t = .inside) : Inv { s.exchange t .complete with released := true } := by
  obtain ⟨hs, hr⟩ := h.exchange hp (w := .complete) (by simp)
  exact ⟨hs, iff_of_true rfl rfl, fun _ => rfl, hr⟩

theorem Inv.abort (hp : s.pc t = .inside) : Inv (s.exchange t .notYetStarted) := by
  obtain ⟨hs, hrs⟩ := h.exchange hp (w := .notYetStarted) (by simp)
  refine ⟨hs, iff_of_false ?_ (by simp [State.exchange]), fun hr => ?_, hrs⟩
  · exact fun hre => h.not_complete hp (h.released.mp hre)
  · exact absurd (h.returnedZero hr) (h.not_complete hp)

end

omit [DecidableEq T] in
theorem State.woken_cases (pc : T → Pc) (u : T) :
    pc u = .sleep ∧ State.woken pc u = .load ∨ pc u ≠ .sleep ∧ State.woken pc u = pc u := by
  by_cases hu : pc u = .sleep
  · exact .inl ⟨hu, if_pos hu⟩
  · exact .inr ⟨hu, if_neg hu⟩

theorem Inv.wake (h : Inv s) (hp : s.pc t = .wake) : Inv (s.wake t) := by
  have hpc : State.woken s.pc t = .wake := by simp [State.woken, hp]
  refine ⟨?_, h.released, h.returnedZero, Covered.of_awake fun u => ?_⟩
  · have hso : Sole (· = .inside) s.word.underway (State.woken s.pc) := by
      refine h.sole.congr Iff.rfl fun u => ?_
      rcases State.woken_cases s.pc u with ⟨hs, heq⟩ | ⟨_, heq⟩
      · simp [heq, hs]
      · simp [heq]
    exact hso.move Iff.rfl (iff_of_false (by simp) (by simp [hpc]))
  · show update (State.woken s.pc) t .idle u ≠ .sleep
    rw [update_apply]
    split_ifs
    · simp
    · rcases State.woken_cases s.pc u with ⟨_, heq⟩ | ⟨hs, heq⟩
      · simp [heq]
      · rwa [heq]

theorem Inv.act (h : Inv s) (hs : Act s s') : Inv s' := by
  cases hs with
  | call t hp => exact h.goto (by simp) (by simp [hp]) (by simp) (by simp [hp])
  | load t hp | acquireFails t hp hw | announceFails t hp hw => exact h.loopHead (by simp [hp]) (by simp [hp])
  | acquire t hp hw => exact h.acquire hp hw
  | announce t hp hw => exact h.announce hp hw
  | wait t hp =>
    rw [State.futexWait]
    split
    · rename_i hwo
      exact h.goto (by simp) (by simp [hp]) (fun _ => hwo) (by simp [hp])
    · exact h.goto (by simp) (by simp [hp]) (by simp) (by simp [hp])
  | release t hp => exact h.release hp
  | abort t hp => exact h.abort hp
  | wake t hp => exact h.wake hp

theorem Inv.step (h : Inv s) (hs : Step s s') : Inv s' := by
  cases hs with
  | act ha => exact h.act ha
  | weakAcquire t hp | weakAnnounce t hp => exact h.loopHead (by simp [hp]) (by simp [hp])
  | spuriousWakeup t hp => exact h.goto (by simp) (by simp [hp]) (by simp) (by simp [hp])

theorem inv_invariant : (system T).Invariant Inv := ⟨fun _ => Inv.start, fun _ _ => Inv.step⟩

omit [DecidableEq T] in
theorem Inv.safe (h : Inv s) :
    (∀ t u, s.pc t = .inside → s.pc u = .inside → t = u) ∧
    (s.released → ∀ t, s.pc t ≠ .inside) ∧
    (s.returnedZero → s.released) ∧
    ∀ t, s.pc t = .sleep → ∃ u, s.pc u = .inside ∨ s.pc u = .wake := by
  refine ⟨h.sole.unique, ?_, ?_, ?_⟩
  · intro hr t ht
    exact h.not_complete ht (h.released.mp hr)
  · exact fun hre => h.released.mpr (h.returnedZero hre)
  · intro t ht
    rcases h.rescue t ht with hw | ⟨u, hu⟩
    · obtain ⟨u, hu⟩ := h.sole.taken_iff.mp (.inr hw)
      exact ⟨u, .inl hu⟩
    · exact ⟨u, .inr hu⟩

def Pc.waiting (p : Pc) : Prop := p ≠ .idle ∧ p ≠ .inside ∧ p ≠ .wake

def Quiet (s s' : State T) : Prop := Act s s' ∧ ∀ u, s'.pc u ≠ .inside

/-- With nobody inside meanwhile, the code can come to `t` being inside. -/
def TakesNext (t : T) (s : State T) : Prop :=
  ∃ s₁ s₂, Relation.ReflTransGen Quiet s s₁ ∧ Act s₁ s₂ ∧ s₂.pc t = .inside

theorem TakesNext.head (h : TakesNext t s') (hs : Act s s') (hn : ∀ u, s'.pc u ≠ .inside) : TakesNext t s := by
  obtain ⟨s₁, s₂, hq, hact, hp⟩ := h
  exact ⟨s₁, s₂, hq.head ⟨hs, hn⟩, hact, hp⟩

theorem State.goto_ne_inside (hn : ∀ u, s.pc u ≠ .inside) {p : Pc} (hp : p ≠ .inside) (u : T) :
    (s.goto t p).pc u ≠ .inside := by
  rw [State.goto]
  by_cases hu : u = t
  · simpa [hu] using hp
  · simpa [update_of_ne hu] using hn u

theorem takesNext_of_acquire (hw : s.word = .notYetStarted) (hp : s.pc t = .acquire) : TakesNext t s :=
  ⟨s, _, .refl, .acquire t hp hw, by simp⟩

theorem takesNext_of_loopHead (hw : s.word = .notYetStarted) (hn : ∀ u, s.pc u ≠ .inside)
    (hs : Act s (s.loopHead t s.word)) : TakesNext t s := by
  have hh : s.loopHead t s.word = s.goto t .acquire := by rw [hw, State.loopHead]
  rw [hh] at hs
  apply TakesNext.head _ hs (State.goto_ne_inside hn (by simp))
  exact takesNext_of_acquire hw (by simp)

theorem takesNext_of_load (hw : s.word = .notYetStarted) (hn : ∀ u, s.pc u ≠ .inside) (hp : s.pc t = .load) :
    TakesNext t s :=
  takesNext_of_loopHead hw hn (.load t hp)

theorem takesNext_of_sleep (h : Inv s) (hw : s.word = .notYetStarted) (hn : ∀ u, s.pc u ≠ .inside)
    (hp : s.pc t = .sleep) : TakesNext t s := by
  obtain ⟨u, hu⟩ : ∃ u, s.pc u = .wake := (h.rescue t hp).resolve_left (by simp [hw])
  have hne : t ≠ u := by
    rintro rfl
    simp [hu] at hp
  have hn' : ∀ v, (s.wake u).pc v ≠ .inside := by
    apply State.goto_ne_inside _ (by simp)
    intro v
    rcases State.woken_cases s.pc v with ⟨_, heq⟩ | ⟨_, heq⟩
    · simp [heq]
    · simpa [heq] using hn v
  apply TakesNext.head _ (.wake u hu) hn'
  refine takesNext_of_load (s := s.wake u) hw hn' ?_
  show update (State.woken s.pc) u .idle t = .load
  rw [update_of_ne hne]
  exact if_pos hp

theorem Inv.takesNext (h : Inv s) (hw : s.word = .notYetStarted) (ht : (s.pc t).waiting) : TakesNext t s := by
  have hn : ∀ u, s.pc u ≠ .inside := by
    intro u hu
    rcases h.underway hu with hwo | hwo <;> simp [hw] at hwo
  cases hp : s.pc t with
  | idle => exact absurd hp ht.1
  | inside => exact absurd hp ht.2.1
  | wake => exact absurd hp ht.2.2
  | load => exact takesNext_of_load hw hn hp
  | acquire => exact takesNext_of_acquire hw hp
  | announce => exact takesNext_of_loopHead hw hn (.announceFails t hp (by simp [hw]))
  | wait =>
    have hact := Act.wait t hp
    rw [State.futexWait, if_neg (by simp [hw])] at hact
    have hn' : ∀ u, (s.goto t .load).pc u ≠ .inside := State.goto_ne_inside hn (by simp)
    apply TakesNext.head _ hact hn'
    exact takesNext_of_load hw hn' (by simp)
  | sleep => exact takesNext_of_sleep h hw hn hp

theorem Inv.takesNext_of_abort (h : Inv s) (hu : s.pc u = .inside) (ht : (s.pc t).waiting) :
    TakesNext t (s.exchange u .notYetStarted) := by
  have hne : t ≠ u := by
    rintro rfl
    exact ht.2.1 hu
  apply (h.abort hu).takesNext rfl
  simpa [State.exchange, update_of_ne hne] using ht

/-- One-time initialisation, by pthread_once and by a guard, for any threads and any interleaving. Once a thread has
called pthread_once, and if no compare-exchange fails for no reason, all calls return after one run of the routine. -/
theorem initialised_once (T : Type) [DecidableEq T] :
    (∀ s, (Once.system T).Reachable s →
      (∀ t u, s.pc t = .init → s.pc u = .init → t = u) ∧ s.runs ≤ 1 ∧
      (s.returned = true → s.runs = 1 ∧ s.finished = true) ∧
      (∀ t, s.pc t = .sleep → ∃ u, s.pc u = .init ∨ s.pc u = .store ∨ s.pc u = .wake) ∧
      ∀ [Fintype T], (∃ t, s.pc t ≠ .idle) →
        Inevitably Once.Act (fun s' => (∀ t, s'.pc t = .idle) ∧ s'.runs = 1 ∧ s'.finished = true) s) ∧
    (∀ s, (system T).Reachable s →
      (∀ t u, s.pc t = .inside → s.pc u = .inside → t = u) ∧
      (s.released = true → ∀ t, s.pc t ≠ .inside) ∧
      (s.returnedZero = true → s.released = true) ∧
      (∀ t u, s.pc u = .inside → (s.pc t).waiting → TakesNext t (s.exchange u .notYetStarted)) ∧
      ∀ t, s.pc t = .sleep → ∃ u, s.pc u = .inside ∨ s.pc u = .wake) := by
  constructor
  · intro s hs
    have h := Once.inv_invariant.reachable hs
    obtain ⟨hso, hr, hre, hsl⟩ := h.safe
    exact ⟨hso, hr, hre, hsl, h.completes⟩
  · intro s hs
    have h := inv_invariant.reachable hs
    obtain ⟨hso, hr, hre, hsl⟩ := h.safe
    exact ⟨hso, hr, hre, fun t u hu ht => h.takesNext_of_abort hu ht, hsl⟩

/-- A thread waits for the other, in pthread_once and at a guard. -/
theorem initialised_once_contended :
    (∃ s : Once.State Bool, (Once.system Bool).Reachable s ∧ s.pc false = .init ∧ s.pc true = .sleep ∧
      Inevitably Once.Act (fun s' => (∀ t, s'.pc t = .idle) ∧ s'.runs = 1 ∧ s'.finished = true) s) ∧
    ∃ s : State Bool, (system Bool).Reachable s ∧ s.pc false = .inside ∧ s.pc true = .sleep ∧
      TakesNext true (s.exchange false .notYetStarted) := by
  constructor
  · have hst : (Once.system Bool).Reachable ⟨.notYetStarted, fun _ => .idle, 0, false, false⟩ :=
      .of_init ⟨rfl, fun _ => rfl, rfl, rfl, rfl⟩
    have hi := ((hst.step (.call false rfl)).step (.act (.load false rfl))).step
      (.act (.exchange false .notYetStarted rfl rfl))
    have hw := ((hi.step (.call true rfl)).step (.act (.load true rfl))).step
      (.act (.exchange true .underway rfl rfl))
    have hs := hw.step (.act (.wait true .underway rfl))
    exact ⟨_, hs, rfl, rfl, ((initialised_once Bool).1 _ hs).2.2.2.2 ⟨false, by decide⟩⟩
  · have hst : (system Bool).Reachable ⟨.notYetStarted, fun _ => .idle, false, false⟩ :=
      .of_init ⟨rfl, fun _ => rfl, rfl, rfl⟩
    have hi := ((hst.step (.act (.call false rfl))).step (.act (.load false rfl))).step
      (.act (.acquire false rfl rfl))
    have hw := ((hi.step (.act (.call true rfl))).step (.act (.load true rfl))).step
      (.act (.announce true rfl rfl))
    have hs := hw.step (.act (.wait true rfl))
    refine ⟨_, hs, rfl, rfl, ((initialised_once Bool).2 _ hs).2.2.2.1 true false rfl ?_⟩
    simp [Pc.waiting, State.futexWait]

end Bionic.Guard
