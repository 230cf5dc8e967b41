import Bionic.Pthread.BarrierClose

namespace Bionic.Barrier

open Lib State Fintype

variable {T : Type} [DecidableEq T] [Fintype T]

section Runs

variable {count : UInt32} {elected : Nat → Option T} {c : Nat} {ph : Phase} {s s' : State T} {t : T}

theorem Inv.exec (hi : Inv count elected c ph s) (hc : card T = count.toNat) (hs : Exec s t s') :
    ∃ elected' c' ph', Inv count elected' c' ph' s' := by
  have ha := hi.allowed t
  cases hs with
  | call r hp => exact ⟨_, _, _, hi.call hp⟩
  | enterLoad hp => exact ⟨_, _, _, hi.enterLoad hp⟩
  | enterWait hp => exact ⟨_, _, _, hi.enterWait hp⟩
  | countLoad hp => exact ⟨_, _, _, hi.enterCount (.inl hp)⟩
  | countRetry prev hp => exact ⟨_, _, _, hi.enterCount (.inr ⟨prev, hp⟩)⟩
  | countExchange prev hp hpr =>
    rw [hp] at ha
    cases ph with
    | gather =>
      obtain ⟨elected', ph', h⟩ := hi.join hc hp hpr
      exact ⟨elected', c, ph', h⟩
    | _ => exact ha.elim
  | storeRelease prev hp =>
    rw [hp] at ha
    cases ph with
    | full => exact ⟨_, _, _, hi.storeRelease hp⟩
    | _ => exact ha.elim
  | wakeWaiters prev w hp hw =>
    rw [hp] at ha
    cases ph with
    | drain => exact ⟨_, _, _, hi.wakeWaiters hc hp hw⟩
    | _ => exact ha.elim
  | waitLoad hp => exact ⟨_, _, _, hi.waitLoad hp⟩
  | waitFutex hp => exact ⟨_, _, _, hi.waitFutex hp⟩
  | spurious hp => exact ⟨_, _, _, hi.spurious hp⟩
  | leave r hp =>
    rw [hp] at ha
    cases ph with
    | drain =>
      obtain ⟨ph', h⟩ := hi.leave hp
      exact ⟨elected, c, ph', h⟩
    | _ => exact ha.elim
  | storeWait r hp =>
    rw [hp] at ha
    cases ph with
    | reset => exact ⟨_, _, _, hi.storeWait hc hp⟩
    | _ => exact ha.elim
  | wakeEntrants r w hp hw =>
    rw [hp] at ha
    cases ph with
    | gather => exact ⟨_, _, _, hi.wakeEntrants hc hp hw⟩
    | _ => exact ha.elim

omit [DecidableEq T] in
theorem Inv.of_init (hs : Init count s) : Inv count (fun _ => none) 0 .gather s := by
  obtain ⟨hc, hi, hst, hw, hpc, hh⟩ := hs
  have hz : total Pc.inside s.pc = 0 := by
    rw [total_eq_zero_iff]
    intro t
    rw [hpc]
    rfl
  refine ⟨hi, ⟨?_, ?_, ?_⟩, ⟨?_, ?_, ?_⟩, ?_, hst, ?_, ?_, ?_⟩
  · rw [hw, hz]
    rfl
  · intro t
    rw [hpc, hh]
    rfl
  · intro t
    rw [hpc, hh]
    rfl
  · intro k
    simp [Phase.fullCycles]
    omega
  · intro t
    simp [hpc, Pc.serial]
  · intro t k
    simp [hh]
  · intro t
    rw [hpc]
    exact nofun
  · intro t
    rw [hh]
  · rw [hz]
    exact Nat.pos_of_ne_zero fun h => hc (UInt32.toNat_inj.1 h)
  · intro t ht
    rw [hpc] at ht
    cases ht

theorem inv_invariant (hca : card T = count.toNat) :
    (system T count).Invariant fun s => count ≠ 0 ∧ ∃ elected c ph, Inv count elected c ph s where
  init := by
    intro s hs
    exact ⟨hs.1, _, _, _, Inv.of_init hs⟩
  step := by
    rintro s s' ⟨hc, elected, c, ph, hi⟩ ⟨t, ht⟩
    exact ⟨hc, hi.exec hca ht⟩

section

omit [DecidableEq T]

section

variable (hi : Inv count elected c ph s)

include hi

end

end

theorem Exec.joined (hs : Exec s t s') :
    (s'.history t).joined = (s.history t).joined ∨ ∀ u, (s'.history u).left = (s.history u).left := by
  cases hs with
  | countExchange prev hp hpr =>
    refine .inr fun u => ?_
    by_cases hu : u = t
    · subst hu
      simp [join, History.join]
    · simp [join, hu]
  | leave r hp =>
    refine .inl ?_
    rw [Barrier.leave]
    split <;> simp [finish, History.leave, History.return]
  | wakeEntrants r w hp hw => exact .inl (by simp [finish, wake, History.return])
  | _ => exact .inl rfl

end Runs

end Bionic.Barrier
