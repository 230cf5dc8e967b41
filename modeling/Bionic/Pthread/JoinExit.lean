import Bionic.Pthread.JoinSteps

namespace Bionic.Thread

open State CallPc

variable {C V N : Type} [DecidableEq C]
variable {thread : N} {mmapSize : Nat} {s s' : State C V N} {c : C} {p : CallPc V}

section

variable (h : Inv thread mmapSize s)
include h

section

omit [DecidableEq C]

theorem Inv.exitGoto (hru : s.exit ≠ .running) {e : ExitPc} {b : Bool}
    (hf : State.ExitFits mmapSize { s with exit := e, clearTid := b }) (hre : e.removed ↔ s.exit.removed)
    (hr : e.released ∧ mmapSize ≠ 0 ↔ s.exit.released ∧ mmapSize ≠ 0) :
    Inv thread mmapSize { s with exit := e, clearTid := b } where
  sole := h.sole
  fits := h.fits
  exitFits := hf
  given _ := h.given hru
  removals := h.removals.congr fun a => by
    cases a with
    | none => exact hre
    | some d => exact Iff.rfl
  releases := h.releases.congr fun a => by
    cases a with
    | none => exact hr
    | some d => exact Iff.rfl
  list := h.list

theorem Inv.pthreadExit (hp : s.exit = .running) (v : V) :
    Inv thread mmapSize { s with exit := .exchange, returnValue := v, given := some v } := by
  have hf := h.exitFits
  simp only [State.ExitFits, hp] at hf
  refine ⟨h.sole, fun c => ?_, hf, fun _ => rfl, h.removals.congr ?_, h.releases.congr ?_, h.list⟩
  · have hc := h.fits c
    cases hca : s.call c with
    | remove o w | free o w =>
      rw [hca] at hc
      exact absurd hc.1 hf.2.2
    | done o r =>
      rw [hca] at hc
      cases r with
      | success w => exact absurd hc.1 hf.2.2
      | detached | einval => exact hc
    | _ =>
      rw [hca] at hc
      exact hc
  · rintro (_ | d)
    · simp [hp]
    · exact Iff.rfl
  · rintro (_ | d)
    · simp [hp]
    · exact Iff.rfl

theorem Inv.exitExchange (hp : s.exit = .exchange) (hw : s.joinState = .notJoined) :
    Inv thread mmapSize { s with joinState := .exitedNotJoined, exit := afterExchange .notJoined } := by
  have hf := h.exitFits
  simp only [State.ExitFits, hp] at hf
  refine ⟨?_, fun c => ?_, ?_, fun _ => h.given (by simp [hp]), h.removals.congr ?_, h.releases.congr ?_, h.list⟩
  · exact h.sole.congr (by simp [hw]) fun _ => Iff.rfl
  · have hc := h.fits c
    cases hca : s.call c with
    | done o r =>
      rw [hca] at hc
      cases r with
      | success w => exact hc
      | detached | einval => simp [CallPc.Fits, hw] at hc
    | _ =>
      rw [hca] at hc
      exact hc
  · exact ⟨.inl rfl, hf.2⟩
  · rintro (_ | d)
    · simp [hp, afterExchange]
    · exact Iff.rfl
  · rintro (_ | d)
    · simp [hp, afterExchange]
    · exact Iff.rfl

end

section

omit [DecidableEq C]

theorem Inv.exitExchangeFails (hp : s.exit = .exchange) :
    Inv thread mmapSize { s with exit := exitLoop s.joinState } := by
  have hf := h.exitFits
  simp only [State.ExitFits, hp] at hf
  have hg : ∀ e : ExitPc, State.ExitFits mmapSize { s with exit := e } → ¬e.removed → ¬e.released →
      Inv thread mmapSize { s with exit := e } := fun e he hrm hre =>
    h.exitGoto (b := s.clearTid) (by simp [hp]) he (iff_of_false hrm (by simp [hp]))
      (iff_of_false (fun hr => hre hr.1) (by simp [hp]))
  by_cases hfr : s.joinState = .notJoined
  · rw [exitLoop, if_pos hfr]
    exact hg .exchange hf id id
  rw [exitLoop, if_neg hfr, afterExchange]
  split
  · rename_i hst
    exact hg .setTidAddress ⟨hst, hf.2⟩ id id
  · rename_i hst
    have hj : s.joinState = .joined := by
      cases hs : s.joinState with
      | notJoined => exact absurd hs hfr
      | exitedNotJoined => exact absurd hs hf.1
      | joined => rfl
      | detached => exact absurd hs hst
    have hex : ExitPc.exit s.joinState = .exit .joined := by rw [hj]
    rw [hex]
    exact hg (.exit .joined) ⟨.inr hj, hf.2⟩ id id

theorem Inv.setTidAddress (hp : s.exit = .setTidAddress) :
    Inv thread mmapSize { s with exit := .remove, clearTid := false } := by
  have hf := h.exitFits
  simp only [State.ExitFits, hp] at hf
  exact h.exitGoto (by simp [hp]) ⟨hf.1, rfl, hf.2.2⟩ (by simp [hp]) (by simp [hp])

theorem Inv.not_won_of_detached (hs : s.joinState = .detached) (c : C) : (s.call c).role = .outside := by
  by_contra hc
  have := hs.symm.trans (h.joined_of_won hc)
  cases this

theorem Inv.exitRemove [DecidableEq N] (hp : s.exit = .remove) :
    Inv thread mmapSize
      { s.removeFromList thread none with exit := if mmapSize ≠ 0 then .teardown else .exit .detached } := by
  have hf := h.exitFits
  simp only [State.ExitFits, hp] at hf
  have hc : ∀ d, ¬(s.call d).removed := fun d => by
    simp [h.not_won_of_detached hf.1 d]
  have hn : ∀ a, ¬s.Removed a := by
    rintro (_ | d)
    · simp [hp]
    · exact hc d
  refine ⟨h.sole, h.fits, ?_, fun _ => h.given (by simp [hp]), h.removals.record hn ?_, h.releases.congr ?_,
    h.list_remove hn none⟩
  · by_cases hs : mmapSize = 0
    all_goals simpa [State.ExitFits, removeFromList, hs] using hf
  · rintro (_ | d)
    · by_cases hs : mmapSize = 0 <;> simp [hs]
    · exact iff_of_false (hc d) (by simp)
  · rintro (_ | d)
    · by_cases hs : mmapSize = 0 <;> simp [hs, hp]
    · exact Iff.rfl

end

theorem Inv.teardown (hp : s.exit = .teardown) (woken : Option C) :
    Inv thread mmapSize { kernelExit (s.release mmapSize none) woken with exit := .gone .detached } := by
  have hf := h.exitFits
  simp only [State.ExitFits, hp] at hf
  obtain ⟨hs, hc, htid, hsi⟩ := hf
  have hca : ∀ d, ¬(s.call d).released := fun d => by
    simp [released, h.not_won_of_detached hs d]
  have hn : ∀ a, ¬s.Released mmapSize a := by
    rintro (_ | d)
    · simp [hp]
    · exact fun hd => hca d hd.1
  have hk : kernelExit (s.release mmapSize none) woken = { s with releases := s.releases ++ [none] } := by
    simp [kernelExit, release, hsi, hc]
  rw [hk]
  refine ⟨h.sole, h.fits, ⟨hs, hc, htid⟩, fun _ => h.given (by simp [hp]), h.removals.congr ?_,
    h.releases.record hn ?_, h.list⟩
  · rintro (_ | d)
    · simp [hp]
    · exact Iff.rfl
  · rintro (_ | d)
    · simp [hsi]
    · exact iff_of_false (fun hd => hca d hd.1) (by simp)

end

omit [DecidableEq C] in
theorem role_awake (p : CallPc V) : (awake p).role = p.role := by
  cases p <;> rfl

theorem call_clear (s : State C V N) (woken : Option C) (d : C) :
    (s.clear woken).call d = awake (s.call d) ∨ woken ≠ some d ∧ (s.clear woken).call d = s.call d := by
  cases woken with
  | none => exact .inr ⟨by simp, rfl⟩
  | some c =>
    by_cases hd : d = c
    · subst hd
      exact .inl (Function.update_self ..)
    · refine .inr ⟨by simpa using Ne.symm hd, ?_⟩
      exact Function.update_of_ne hd ..

theorem role_clear (s : State C V N) (woken : Option C) (d : C) : ((s.clear woken).call d).role = (s.call d).role := by
  rcases call_clear s woken d with heq | ⟨_, heq⟩
  · rw [heq, role_awake]
  · rw [heq]

omit [DecidableEq C] in
theorem CallPc.asleep_iff : p.asleep ↔ ∃ o tid, p = .sleep o tid := by
  cases p <;> simp [asleep]

omit [DecidableEq C] in
theorem Inv.asleep_unique (h : Inv thread mmapSize s) {d : C} (hc : (s.call c).asleep)
    (hd : (s.call d).asleep) : c = d := by
  have hwon : ∀ e, (s.call e).asleep → (s.call e).won := by
    intro e he
    obtain ⟨o, tid, hpc⟩ := asleep_iff.mp he
    simp [role, hpc]
  exact h.sole.unique c d (hwon c hc) (hwon d hd)

variable {js : JoinState} {tid : Nat} {given : Option V} {woken : Option C}

section

omit [DecidableEq C]

theorem CallPc.Fits.clear (h : p.Fits js tid given) (hp : p.asleep = false) : p.Fits js 0 given := by
  cases p with
  | sleep o t => cases hp
  | waitTest o t => exact fun _ => rfl
  | deliver o => rfl
  | remove o v | free o v => exact ⟨rfl, h.2⟩
  | done o r =>
    cases r with
    | success v => exact ⟨rfl, h.2⟩
    | detached | einval => exact h
  | _ => exact h

theorem CallPc.Fits.awake (h : p.Fits js tid given) : (awake p).Fits js 0 given := by
  cases p with
  | sleep o t => exact fun _ => rfl
  | _ => exact h.clear rfl

end

theorem Inv.fits_clear (h : Inv thread mmapSize s) (hw : s.Wakes woken) (d : C) :
    ((s.clear woken).call d).Fits s.joinState 0 s.given := by
  rcases call_clear s woken d with heq | ⟨hne, heq⟩
  · rw [heq]
    exact (h.fits d).awake
  · rw [heq]
    apply (h.fits d).clear
    cases woken with
    | none => exact hw.2 rfl d
    | some c =>
      by_contra hd
      exact hne (congrArg some (h.asleep_unique (hw.1 c rfl) (Bool.not_eq_false _ ▸ hd)))

theorem clear_eq (s : State C V N) (woken : Option C) : s.clear woken = { s with tid := 0, call := (s.clear woken).call } := by
  cases woken <;> rfl

theorem Inv.exit (h : Inv thread mmapSize s) {old : JoinState} (hp : s.exit = .exit old)
    (hw : s.Wakes woken) : Inv thread mmapSize { s.kernelExit woken with exit := .gone old } := by
  have hf := h.exitFits
  simp only [State.ExitFits, hp] at hf
  by_cases hold : old = .detached
  · subst hold
    obtain ⟨hs, hc, htid, hsi⟩ := hf
    have hk : s.kernelExit woken = s := by simp [kernelExit, hc]
    rw [hk]
    exact h.exitGoto (b := s.clearTid) (by simp [hp]) ⟨hs, hc, htid⟩ (by simp [hp])
      (by simp [hsi])
  · rw [if_neg hold] at hf
    obtain ⟨hs, hc, _⟩ := hf
    have hre : ¬ExitPc.removed (.exit old) ∧ ¬ExitPc.removed (.gone old) := by
      cases old <;> first | exact ⟨id, id⟩ | exact absurd rfl hold
    have hrl : ¬ExitPc.released (.gone old) := fun hr => hre.2 (ExitPc.removed_of_released hr)
    rw [kernelExit, if_pos hc, clear_eq]
    refine ⟨?_, h.fits_clear hw, ?_, fun _ => h.given (by simp [hp]), h.removals.congr ?_, h.releases.congr ?_, h.list⟩
    · refine h.sole.congr Iff.rfl fun d => ?_
      rw [won, won, role_clear]
    · simpa only [State.ExitFits, if_neg hold, and_true] using hs
    · rintro (_ | d)
      · exact iff_of_false hre.2 (by simpa only [State.Removed, hp] using hre.1)
      · show ((s.clear woken).call d).removed ↔ (s.call d).removed
        rw [removed, removed, role_clear]
    · rintro (_ | d)
      · exact iff_of_false (fun hr => hrl hr.1) (by simp [hp])
      · show ((s.clear woken).call d).released ∧ _ ↔ (s.call d).released ∧ _
        rw [released, released, role_clear]

theorem Inv.step [DecidableEq N] (h : Inv thread mmapSize s) (hs : Step thread mmapSize s s') :
    Inv thread mmapSize s' := by
  cases hs with
  | pthreadExit v hp => exact h.pthreadExit hp v
  | exitExchange hp hw => exact h.exitExchange hp hw
  | exitExchangeFails hp => exact h.exitExchangeFails hp
  | setTidAddress hp => exact h.setTidAddress hp
  | exitRemove hp => exact h.exitRemove hp
  | teardown woken hp _ => exact h.teardown hp woken
  | exit old woken hp hwo => exact h.exit hp hwo
  | join c w hp | detach c hp | detachFind c hp _ => exact h.goto trivial (by rw [hp]; rfl)
  | find c o hp _ => exact h.goto (.inl rfl) (by rw [hp]; rfl)
  | exchange c o old hp _ hw => exact h.exchange hp hw
  | exchangeFails c o old hp _ => exact h.joinLoop (by rw [hp]; rfl)
  | readTid c o hp => exact h.goto id (by rw [hp]; rfl)
  | waitTest c o tid hp => exact h.whileTid hp
  | wait c o tid hp => exact h.futexWait hp
  | spurious c o tid hp =>
    have hf := h.fits c
    rw [hp] at hf
    exact h.goto (fun h0 => absurd h0 hf.1) (by rw [hp]; rfl)
  | deliver c o hp => exact h.deliver hp
  | remove c o value hp => exact h.remove hp
  | free c o value hp => exact h.free hp
  | detachExchange c hp _ hw => exact h.detachExchange hp hw
  | detachExchangeFails c hp _ => exact h.detachLoop (by rw [hp]; rfl)
  | otherAdded b hb hnew =>
    obtain ⟨l, hl, hmem⟩ := h.list
    refine ⟨h.sole, h.fits, h.exitFits, h.given, h.removals, h.releases, b :: l, ?_, ?_⟩
    · exact hl.add fun hbl => hnew (hl.finds_iff.mpr hbl)
    · rw [List.mem_cons, or_iff_right hb.symm]
      exact hmem
  | otherRemoved b hb hold =>
    obtain ⟨l, hl, hmem⟩ := h.list
    obtain ⟨l', hl', hmem'⟩ := hl.exists_remove (hl.finds_iff.mp hold)
    refine ⟨h.sole, h.fits, h.exitFits, h.given, h.removals, h.releases, l', hl', ?_⟩
    rw [hmem', and_iff_left hb.symm]
    exact hmem

theorem inv_invariant [DecidableEq N] (thread : N) (mmapSize : Nat) :
    (system C V thread mmapSize).Invariant (Inv thread mmapSize) :=
  ⟨fun _ => Inv.start, fun _ _ => Inv.step⟩

end Bionic.Thread
