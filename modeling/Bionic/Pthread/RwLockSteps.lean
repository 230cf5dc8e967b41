import Bionic.Pthread.RwLockSafety

namespace Bionic.RwLock

open Lib Function

variable {T : Type} [Fintype T] [DecidableEq T] {s s' : State T} {t : T} {preferred writes : Bool} {reads : Nat}
  {k : Side} {Q : Pc → Prop} {caller : Caller} {p q : Pc}

section Try

structure Pc.Plain (p : Pc) : Prop where
  phase : p.phase = .out
  role : p.role = (none, none, none)

/-- Where a try ends. -/
theorem tryResult_rec (hout : ∀ r, Q (.out (some (.lock k, r))))
    (hfast : Q (.tidLoad k .null)) (hloop : ∀ timed, Q (.recheck k timed)) (r : Result) (caller : Caller) :
    Q (tryResult k r caller) := by
  cases caller with
  | tryLock => exact hout r
  | fast =>
    rw [tryResult]
    split
    · exact hout r
    · exact hfast
  | loop timeout =>
    rw [tryResult]
    split
    · exact hout r
    · split
      · exact hout _
      · exact hloop _

theorem tryLoop_rec {tested : Bool} {oldState : UInt32} (hres : ∀ r, Q (tryResult k r caller))
    (hcas : canAcquire preferred k oldState → Q (.tryCas k caller oldState)) :
    Q (tryLoop preferred k tested caller oldState) := by
  rw [tryLoop]
  split
  case isTrue hc =>
    split
    case isTrue => exact hres _
    case isFalse => exact hcas hc
  case isFalse => exact hres _

theorem tryResult_plain (k : Side) (r : Result) (caller : Caller) : (tryResult k r caller).Plain :=
  tryResult_rec (fun _ => ⟨rfl, rfl⟩) ⟨rfl, rfl⟩ (fun _ => ⟨rfl, rfl⟩) r caller

theorem tryResult_ok (k : Side) (r : Result) (caller : Caller) : (tryResult k r caller).Ok preferred reads writes :=
  tryResult_rec (fun _ => trivial) trivial (fun _ => trivial) r caller

theorem tryLoop_plain (preferred : Bool) (k : Side) (tested : Bool) (caller : Caller) (oldState : UInt32) :
    (tryLoop preferred k tested caller oldState).Plain :=
  tryLoop_rec (fun _ => tryResult_plain ..) fun _ => ⟨rfl, rfl⟩

theorem tryLoop_ok (preferred : Bool) (k : Side) (tested : Bool) (caller : Caller) (oldState : UInt32) :
    (tryLoop preferred k tested caller oldState).Ok preferred reads writes :=
  tryLoop_rec (fun _ => tryResult_ok ..) fun hc => hc

theorem Inv.goPlain (hi : Inv s) (hq : s.pc t = q) (hpl : q.Plain) (hp : p.Plain)
    (hok : p.Ok s.writerNonrecursivePreferred (s.reads t) (s.writes t)) : Inv (s.goto t p) :=
  hi.goto hq (hp.phase.trans hpl.phase.symm) (hp.role.trans hpl.role.symm) hok

/-- The holder fields of one thread change with the state; the others rely on nothing of it. -/
theorem Inv.own (hi : Inv s) {state : UInt32} {reads : T → Nat} {writes : T → Bool}
    (hq : s.pc t = q) (hpl : q.Plain) (hp : p.Plain) (hown : Owned state reads writes)
    (hbit : ∀ k, pendingBit k state = pendingBit k s.state)
    (hr : ∀ u, u ≠ t → reads u = s.reads u) (hw : ∀ u, u ≠ t → writes u = s.writes u)
    (hok : p.Ok s.writerNonrecursivePreferred (reads t) (writes t)) :
    Inv { s with state := state, pc := update s.pc t p, reads := reads, writes := writes } := by
  subst hq
  refine ⟨hi.lock_update (hp.phase.trans hpl.phase.symm), hown,
    hi.pending.congr hbit (role_update (hp.role.trans hpl.role.symm)), ?_⟩
  apply forall_update (Q := fun v q => q.Ok s.writerNonrecursivePreferred (reads v) (writes v)) hok
  intro u hu
  rw [hr u hu, hw u hu]
  exact hi.ok u

theorem Inv.acquire (hi : Inv s) (hr : HasRoom s t) (hp : s.pc t = .tryCas k caller s.state) :
    Inv (s.acquire t k caller) := by
  have hc := hi.ok_at hp
  rw [HasRoom, hp] at hr
  cases k with
  | reader =>
    exact hi.own hp ⟨rfl, rfl⟩ (tryResult_plain ..) (hi.owned.acquire_reader hc (hr rfl)) (fun j => pendingBit_newState .reader j _)
      (fun u hu => update_of_ne hu ..) (fun _ _ => rfl) (tryResult_ok ..)
  | writer =>
    exact hi.own hp ⟨rfl, rfl⟩ ⟨rfl, rfl⟩ (hi.owned.acquire_writer hc) (fun j => pendingBit_newState .writer j _)
      (fun _ _ => rfl) (fun u hu => update_of_ne hu ..) (update_self ..)

theorem Inv.unlockAnd (hi : Inv s) (hp : s.pc t = .unlockAnd) : Inv (s.unlockAnd t) := by
  apply hi.own hp ⟨rfl, rfl⟩ _ (hi.owned.release_writer (hi.ok_at hp)) (fun j => pendingBit_and_not_writerFlag j _) (fun _ _ => rfl)
    (fun u hu => update_of_ne hu ..)
  · split <;> trivial
  · split <;> exact ⟨rfl, rfl⟩

theorem Inv.unlockSub (hi : Inv s) (hp : s.pc t = .unlockSub) : Inv (s.unlockSub t) := by
  have hr := hi.ok_at hp
  apply hi.own hp ⟨rfl, rfl⟩ _ (hi.owned.release_reader hr) (pendingBit_sub_step (hi.owned.owners_ne_zero hr))
    (fun u hu => update_of_ne hu ..) (fun _ _ => rfl)
  · split <;> trivial
  · split <;> exact ⟨rfl, rfl⟩

/-- The holder of the lock finds in the state whether it reads or writes. -/
theorem Inv.unlockBranch (hi : Inv s) (hp : s.pc t = .unlockLoad) : Inv (s.goto t (unlockBranch s.state)) := by
  have hh := hi.ok_at hp
  have hwo := hi.owned.word
  rw [RwLock.unlockBranch]
  split
  case isTrue hw =>
    rw [stateOwnedByWriter_iff] at hw
    apply hi.goPlain hp ⟨rfl, rfl⟩ ⟨rfl, rfl⟩
    rcases hh with hr | hw'
    · have := hi.owned.reads_le hr
      have := hi.owned.exclusive
      omega
    · exact hw'
  case isFalse =>
    split
    case isTrue hr =>
      rw [stateOwnedByReaders_iff] at hr
      apply hi.goPlain hp ⟨rfl, rfl⟩ ⟨rfl, rfl⟩
      rcases hh with hr' | hw'
      · exact hr'
      · have := hi.owned.writer_only hw'
        omega
    case isFalse =>
      exact hi.goPlain hp ⟨rfl, rfl⟩ ⟨rfl, rfl⟩ trivial

end Try

section Steps

theorem Inv.exec {ids : Ids T} (hi : Inv s) (hr : HasRoom s t) (he : Exec ids s t s') : Inv s' := by
  cases he with
  | tidLoad k timeout hp | recheck k timed hp =>
    apply hi.goPlain hp ⟨rfl, rfl⟩
    · split <;> exact ⟨rfl, rfl⟩
    · split <;> trivial
  | tryLoad k caller tested hp | tryRetry k caller oldState tested hp =>
    exact hi.goPlain hp ⟨rfl, rfl⟩ (tryLoop_plain ..) (tryLoop_ok ..)
  | tryExchange k caller oldState hp hold => exact hi.acquire hr (hold ▸ hp)
  | storeTid caller hp =>
    have h := hi.goPlain hp ⟨rfl, rfl⟩ (tryResult_plain .writer .zero caller) (tryResult_ok ..)
    exact ⟨h.lock, h.owned, h.pending, h.ok⟩
  | lock sec ph hp => exact hi.lockNext hp
  | pend k timed hp => exact hi.pend ids hp
  | mark k timed hp => exact hi.mark hp
  | unpend k timed timedOut hp => exact hi.unpend hp
  | unmark k timed timedOut hp => exact hi.unmark hp
  | unlocking a hp => exact hi.unlockNext hp
  | futexWait k timed oldSerial hp =>
    apply hi.goto hp
    · split <;> rfl
    · split <;> rfl
    · split <;> trivial
  | unlockLoad hp => exact hi.unlockBranch hp
  | unlockTid hp =>
    have hw := hi.ok_at hp
    apply hi.goPlain hp ⟨rfl, rfl⟩
    · split <;> exact ⟨rfl, rfl⟩
    · split
      · exact hw
      · trivial
  | unlockClear hp =>
    have hw := hi.ok_at hp
    have h := hi.goPlain (p := .unlockAnd) hp ⟨rfl, rfl⟩ ⟨rfl, rfl⟩ hw
    exact ⟨h.lock, h.owned, h.pending, h.ok⟩
  | unlockAnd hp => exact hi.unlockAnd hp
  | unlockSub hp => exact hi.unlockSub hp
  | choose hp => exact hi.choose hp

theorem Inv.interruptLock (hi : Inv s) {sec : Section} (hp : s.pc t = .lock sec .sleep) :
    Inv (s.goto t (.lock sec .exchange)) := by
  apply hi.lockMove (hi.lock.awaken (by rw [comp_apply, hp]; rfl))
  · rw [hp]
    cases sec <;> rfl
  · trivial

theorem Inv.outside (hi : Inv s) (ho : Outside s s') : Inv s' := by
  cases ho with
  | tryLock t last k hp | plainLock t last k hp | timedLock t last k timeout hp =>
    exact hi.goPlain hp ⟨rfl, rfl⟩ ⟨rfl, rfl⟩ trivial
  | unlock t last hp hh => exact hi.goPlain hp ⟨rfl, rfl⟩ ⟨rfl, rfl⟩ hh
  | timeout t k oldSerial hp | timeoutAsleep t k hp | interrupt t k timed hp =>
    exact hi.goto hp rfl rfl trivial
  | interruptLock t sec hp => exact hi.interruptLock hp

theorem Pc.woken_same (p : Pc) : p.woken.phase = p.phase ∧ p.woken.role = p.role := by
  unfold Pc.woken
  split <;> exact ⟨rfl, rfl⟩

theorem Pc.woken_ok (h : p.Ok preferred reads writes) : p.woken.Ok preferred reads writes := by
  unfold Pc.woken
  split
  · trivial
  · exact h

omit [DecidableEq T] in
theorem Inv.woken (hi : Inv s) : Inv { s with pc := fun u => (s.pc u).woken } := by
  refine ⟨?_, hi.owned, hi.pending.congr (fun _ => rfl) fun u => (s.pc u).woken_same.2, fun u => Pc.woken_ok (hi.ok u)⟩
  have hp : (Pc.phase ∘ fun u => (s.pc u).woken) = Pc.phase ∘ s.pc := by
    funext u
    exact (s.pc u).woken_same.1
  rw [hp]
  exact hi.lock

theorem Inv.wakes (hi : Inv s) (hw : Wakes s t s') : Inv s' := by
  cases hw with
  | writer u timed hp hu =>
    have h := hi.goto (p := .lock (.unpend .writer timed false) .out) hu rfl rfl trivial
    exact h.goPlain (State.goto_pc_other hp hu nofun) ⟨rfl, rfl⟩ ⟨rfl, rfl⟩ trivial
  | noWriter hp hn => exact hi.goPlain hp ⟨rfl, rfl⟩ ⟨rfl, rfl⟩ trivial
  | readers hp =>
    exact hi.woken.goPlain (congrArg Pc.woken hp) ⟨rfl, rfl⟩ ⟨rfl, rfl⟩ trivial
  | lock u a sec hp hu =>
    have htu : u ≠ t := by
      rintro rfl
      cases hp.symm.trans hu
    have hpc := State.goto_pc_other (p := .lock sec .exchange) hp hu nofun
    have h := hi.interruptLock hu
    apply h.lockMove _ (by rw [hpc, a.place_role]; rfl) a.place_ok
    rw [a.place_phase]
    apply h.lock.waked
    · rw [comp_apply, hpc]
      rfl
    · refine .inl ⟨u, htu, ?_⟩
      rw [comp_apply, State.goto_pc_self]
      trivial
  | noLock a hp hn =>
    apply hi.lockMove _ (by rw [hp, a.place_role]; rfl) a.place_ok
    rw [a.place_phase]
    apply hi.lock.waked
    · rw [comp_apply, hp]
      rfl
    · refine .inr fun u hu => ?_
      rw [FutexLock.Asleep, comp_apply] at hu
      cases hpc : s.pc u with
      | lock sec ph =>
        rw [hpc] at hu
        exact hn u sec (hu ▸ hpc)
      | _ =>
        rw [hpc] at hu
        cases hu

omit [Fintype T] in
theorem BoundedStep.step {ids : Ids T} (h : BoundedStep ids s s') : Step ids s s' := by
  cases h with
  | exec t _ he => exact .exec t _ he
  | outside _ ho => exact .outside _ ho
  | wakes t _ hw => exact .wakes t _ hw

theorem inv_invariant (ids : Ids T) : (boundedSystem ids).Invariant Inv where
  init := by
    rintro s ⟨preferred, rfl⟩
    exact initial_inv preferred
  step := by
    intro s s' hi hs
    cases hs with
    | exec t _ he hr => exact hi.exec hr he
    | outside _ ho => exact hi.outside ho
    | wakes t _ hw => exact hi.wakes hw

end Steps

end Bionic.RwLock
