import Bionic.Pthread.Join

namespace Bionic.Thread

open Function CallPc

variable {C V N : Type} [DecidableEq C]
variable {thread : N} {mmapSize : Nat} {s : State C V N} {c : C}

variable {o : Origin} {value : Option V}

theorem Inv.joinLoop (h : Inv thread mmapSize s) (hc : (s.call c).role = .outside) :
    Inv thread mmapSize (s.joinLoop c o s.joinState) := by
  cases hs : s.joinState with
  | notJoined => exact h.goto (.inl rfl) hc.symm
  | exitedNotJoined => exact h.goto (.inr rfl) hc.symm
  | detached => exact h.goto (.inr hs) hc.symm
  | joined => exact h.goto (.inl hs) hc.symm

theorem Inv.detachLoop (h : Inv thread mmapSize s) (hc : (s.call c).role = .outside) :
    Inv thread mmapSize (s.detachLoop c s.joinState) := by
  cases hs : s.joinState with
  | notJoined | exitedNotJoined => exact h.goto trivial hc.symm
  | detached => exact h.goto (.inr hs) hc.symm
  | joined => exact h.goto (.inl hs) hc.symm

section

omit [DecidableEq C]

theorem State.ExitFits.joined (h : s.ExitFits mmapSize)
    (hf : s.joinState = .notJoined ∨ s.joinState = .exitedNotJoined) :
    State.ExitFits mmapSize { s with joinState := .joined } := by
  have hd : s.joinState ≠ .detached := by rcases hf with hs | hs <;> simp [hs]
  cases he : s.exit <;> simp only [State.ExitFits, he] at h ⊢
  case running | exchange => exact ⟨by simp, h.2⟩
  case setTidAddress | remove | teardown => exact absurd h.1 hd
  case exit | gone =>
    split at h
    · exact absurd h.1 hd
    · rename_i hold
      rw [if_neg hold]
      exact ⟨by simp, h.2⟩

theorem State.ExitFits.detached (h : s.ExitFits mmapSize) (hf : s.joinState = .notJoined) :
    State.ExitFits mmapSize { s with joinState := .detached } := by
  cases he : s.exit <;> simp only [State.ExitFits, he, hf] at h ⊢
  case running | exchange => exact ⟨by simp, h.2⟩
  case setTidAddress | remove | teardown => cases h.1
  case exit | gone =>
    split at h
    · cases h.1
    · simp at h

end

section

variable (h : Inv thread mmapSize s) {tid : Nat}
include h

theorem Inv.exchange {old : JoinState} (hp : s.call c = .exchange o old)
    (hw : s.joinState = old) : Inv thread mmapSize { s.goto c (.readTid o) with joinState := .joined } := by
  have hf : s.joinState = .notJoined ∨ s.joinState = .exitedNotJoined := by
    have hfi := h.fits c
    rw [hp] at hfi
    rwa [hw]
  refine ⟨?_, ?_, h.exitFits.joined hf, h.given, ?_, ?_, h.list⟩
  · refine h.sole.enter ?_ (p := .readTid o) (by simp [role]) rfl
    rcases hf with hs | hs <;> simp [hs]
  · refine fits_update h.fits trivial fun d _ hd => ?_
    cases hc : s.call d with
    | done o r =>
      rw [hc] at hd
      cases r with
      | success v => exact hd
      | detached =>
        have hde : s.joinState = .detached := hd
        simp [hde] at hf
      | einval => exact .inl rfl
    | _ =>
      rw [hc] at hd
      exact hd
  · exact h.removals.congr (removed_goto (s := s) (c := c) (p := .readTid o) (by simp [hp, role]))
  · exact h.releases.congr (released_goto (s := s) (c := c) (p := .readTid o) (by simp [hp, released, role]))

theorem Inv.detachExchange (hp : s.call c = .detachExchange) (hw : s.joinState = .notJoined) :
    Inv thread mmapSize { s.goto c (.done .detach .detached) with joinState := .detached } := by
  have hr : (done (V := V) .detach .detached).role = (s.call c).role := by rw [hp]; rfl
  refine ⟨?_, ?_, h.exitFits.detached hw, h.given, ?_, ?_, h.list⟩
  · exact h.sole.move (by simp [hw]) (by rw [won, won, hr])
  · refine fits_update h.fits rfl fun d _ hd => ?_
    cases hc : s.call d with
    | done o r =>
      rw [hc] at hd
      cases r with
      | success v => exact hd
      | detached => rfl
      | einval => exact .inr rfl
    | _ =>
      rw [hc] at hd
      exact hd
  · exact h.removals.congr (removed_goto (s := s) (by rw [removed, removed, hr]))
  · exact h.releases.congr (released_goto (s := s) (by rw [released, released, hr]))

theorem Inv.whileTid (hp : s.call c = .waitTest o tid) : Inv thread mmapSize (s.whileTid c o tid) := by
  have hf := h.fits c
  rw [hp] at hf
  rw [State.whileTid]
  split
  · rename_i htid
    exact h.goto (fun h0 => htid (hf h0)) (by rw [hp]; rfl)
  · rename_i htid
    exact h.goto (not_not.mp htid) (by rw [hp]; rfl)

theorem Inv.futexWait (hp : s.call c = .wait o tid) : Inv thread mmapSize (s.futexWait c o tid) := by
  have hf : tid ≠ 0 := by
    have hf := h.fits c
    rwa [hp] at hf
  rw [State.futexWait]
  split
  · rename_i htid
    exact h.goto ⟨hf, htid ▸ hf⟩ (by rw [hp]; rfl)
  · exact h.goto (fun h0 => absurd h0 hf) (by rw [hp]; rfl)

omit [DecidableEq C] in
theorem Inv.given_of_tid (htid : s.tid = 0) : s.given = some s.returnValue := by
  apply h.given
  intro he
  have := h.exitFits
  simp only [State.ExitFits, he] at this
  exact this.2.2 htid

theorem Inv.deliver (hp : s.call c = .deliver o) :
    Inv thread mmapSize (s.goto c (.remove o (if o.wantsValue then some s.returnValue else none))) := by
  have htid : s.tid = 0 := by
    have hf := h.fits c
    rwa [hp] at hf
  exact h.goto ⟨htid, by rw [h.given_of_tid htid]⟩ (by rw [hp]; rfl)

omit [DecidableEq C] in
theorem Inv.joined_of_won (hc : (s.call c).won) : s.joinState = .joined :=
  h.sole.taken_iff.mpr ⟨c, hc⟩

end

omit [DecidableEq C] in
theorem State.ExitFits.detached_of_removed (h : s.ExitFits mmapSize) (he : s.exit.removed) :
    s.joinState = .detached := by
  cases hpc : s.exit with
  | teardown =>
    simp only [State.ExitFits, hpc] at h
    exact h.1
  | exit old | gone old =>
    cases old with
    | detached =>
      simp only [State.ExitFits, hpc] at h
      exact h.1
    | _ =>
      rw [hpc] at he
      exact he.elim
  | _ =>
    rw [hpc] at he
    exact he.elim

omit [DecidableEq C] in
theorem Inv.not_removed (h : Inv thread mmapSize s) (hc : (s.call c).role = .owner) (a : Option C) : ¬s.Removed a := by
  have hwon : (s.call c).won := by simp [hc]
  cases a with
  | none =>
    intro he
    have := (h.joined_of_won hwon).symm.trans (h.exitFits.detached_of_removed he)
    cases this
  | some d =>
    intro hd
    have hd' : (s.call d).won := by
      rcases hd with hd | hd <;> simp [hd]
    cases h.sole.unique d c hd' hwon
    simp [hc] at hd

theorem ExitPc.removed_of_released {e : ExitPc} (h : e.released) : e.removed := by
  cases e with
  | gone old =>
    cases old with
    | detached => trivial
    | _ => exact h.elim
  | _ => exact h.elim

section

omit [DecidableEq C]

theorem Inv.not_released (h : Inv thread mmapSize s) (hc : (s.call c).role = .remover) (a : Option C) :
    ¬s.Released mmapSize a := by
  have hwon : (s.call c).won := by simp [hc]
  cases a with
  | none =>
    intro he
    have := (h.joined_of_won hwon).symm.trans (h.exitFits.detached_of_removed (ExitPc.removed_of_released he.1))
    cases this
  | some d =>
    intro hd
    have hr : (s.call d).role = .releaser := hd.1
    cases h.sole.unique d c (by simp [hr]) hwon
    rw [hc] at hr
    cases hr

theorem Inv.list_remove [DecidableEq N] (h : Inv thread mmapSize s) (hn : ∀ a, ¬s.Removed a) (who : Option C) :
    ∃ l, (s.list.remove thread).Represents l ∧ (thread ∈ l ↔ s.removals ++ [who] = []) := by
  obtain ⟨l, hl, hmem⟩ := h.list
  obtain ⟨l', hl', hmem'⟩ := hl.exists_remove (hmem.mpr (h.removals.eq_nil hn))
  exact ⟨l', hl', by simp [hmem']⟩

end

theorem Inv.remove [DecidableEq N] (h : Inv thread mmapSize s) (hp : s.call c = .remove o value) :
    Inv thread mmapSize (State.goto (s.removeFromList thread (some c)) c (.free o value)) := by
  have hr : (s.call c).role = .owner := by rw [hp]; rfl
  have hf := h.fits c
  rw [hp] at hf
  have hn := h.not_removed hr
  refine ⟨?_, ?_, h.exitFits, h.given, h.removals.record hn ?_, ?_, h.list_remove hn _⟩
  · exact h.sole.move Iff.rfl (by simp [role, hp])
  · exact fits_update h.fits hf fun _ _ hd => hd
  · rintro (_ | d)
    · exact iff_of_false (hn none) (by simp)
    · show (update s.call c (.free o value) d).removed ↔ _
      by_cases hd : d = c
      · simp [hd, role]
      · rw [update_of_ne hd]
        exact iff_of_false (hn (some d)) (by simpa using hd)
  · exact h.releases.congr (released_goto (s := s) (p := .free o value) (by simp [released, role, hp]))

theorem Inv.released_iff (hn : ∀ a, ¬s.Released mmapSize a) (hs : mmapSize ≠ 0) {p : CallPc V} (hp : p.released)
    (a : Option C) : (s.goto c p).Released mmapSize a ↔ a = some c := by
  cases a with
  | none => exact iff_of_false (hn none) (by simp)
  | some d =>
    show (update s.call c p d).released ∧ _ ↔ _
    by_cases hd : d = c
    · simp [hd, hp, hs]
    · rw [update_of_ne hd]
      exact iff_of_false (hn (some d)) (by simpa using hd)

theorem Inv.free (h : Inv thread mmapSize s) (hp : s.call c = .free o value) :
    Inv thread mmapSize (State.goto (s.release mmapSize (some c)) c (.done o (.success value))) := by
  have hro : (s.call c).role = .remover := by rw [hp]; rfl
  have hf := h.fits c
  rw [hp] at hf
  have hso := h.sole.move (t := c) (p := .done o (.success value)) Iff.rfl (by simp [role, hp])
  have hr := removed_goto (s := s) (c := c) (p := .done o (.success value)) (by simp [role, hp])
  rw [State.release]
  split
  · rename_i hs
    refine ⟨hso, fits_update h.fits hf fun _ _ hd => hd, h.exitFits, h.given, h.removals.congr hr, ?_, h.list⟩
    exact h.releases.record (h.not_released hro) (Inv.released_iff (h.not_released hro) hs rfl)
  · rename_i hs
    refine ⟨hso, fits_update h.fits hf fun _ _ hd => hd, h.exitFits, h.given, h.removals.congr hr, ?_, h.list⟩
    refine h.releases.congr ?_
    rintro (_ | d)
    · exact Iff.rfl
    · exact iff_of_false (fun hd => hs hd.2) fun hd => hs hd.2

end Bionic.Thread
