import Bionic.Pthread.RwLockWakeups

namespace Bionic.RwLock

open Function Pc

variable {T : Type} [Fintype T] [DecidableEq T] {ids : Ids T} {s s' : State T} {t : T}

theorem Live.exec (h : Live s) (hi : Inv s) (he : Exec ids s t s') (hg : ¬GivesUp s t) (ho : ¬Overtakes s t) :
    Live s' := by
  cases he with
  | tidLoad k timeout hp =>
    apply h.goto hp
    split
    · exact .of_eq rfl rfl
    · refine .of_awake rfl ?_ (by rintro st ⟨⟩)
      cases timeout with
      | null | valid => exact .inr ⟨k, rfl⟩
      | badNanoseconds | negative => exact .inl rfl
  | tryLoad k caller tested hp | tryRetry k caller oldState tested hp =>
    exact h.goto hp (tryLoop_calm rfl rfl)
  | tryExchange k caller oldState hp hold =>
    have hok := hi.ok_at hp
    rw [← hold] at hok
    apply Live.of_held
    cases k with
    | reader =>
      have hlt := (canAcquire_reader_iff.1 hok).1
      change owners (newState .reader s.state) ≠ 0
      rw [owners_newState_reader hlt]
      omega
    | writer =>
      have hf := canAcquire_writer_iff.1 hok
      change owners (newState .writer s.state) ≠ 0
      rw [owners_newState_writer hf]
      omega
  | storeTid caller hp =>
    refine h.move hp rfl rfl id (.of_eq ?_ (tryResult_errand ..))
    cases caller <;> rfl
  | recheck k timed hp =>
    apply h.goto hp
    split
    · cases timed <;> exact .of_eq rfl rfl
    · exact .of_eq rfl rfl
  | lock sec ph hp =>
    refine h.move hp rfl rfl id ?_
    cases sec <;> exact .of_eq rfl rfl
  | pend k timed hp =>
    exact h.move hp rfl rfl id (.of_eq rfl rfl)
  | mark k timed hp => exact h.mark hi hp
  | unpend k timed timedOut hp => exact h.unpend hi hp hg
  | unmark k timed timedOut hp =>
    refine h.move hp rfl rfl (fun h0 => (owners_and_not_flag k s.state).symm.trans h0) ?_
    cases timedOut <;> exact .of_eq rfl rfl
  | unlocking a hp =>
    refine h.move hp rfl rfl id ?_
    split
    · exact .of_eq rfl rfl
    · exact .of_eq a.place_stand a.place_errand
  | futexWait k timed oldSerial hp =>
    apply h.goto hp
    split
    case isTrue hs =>
      refine ⟨fun j => ⟨by rintro e ⟨⟩, by rintro x ⟨⟩, ?_⟩, by rintro ⟨⟩, ?_⟩
      · rintro ⟨⟩
        rw [← hs]
        exact .inl rfl
      · rintro st ⟨⟩
        exact ⟨.asleep, rfl⟩
    case isFalse => exact .of_waiting rfl rfl (by simp) rfl fun j => awake_of_committed rfl
  | unlockLoad hp =>
    apply h.goto hp
    rw [unlockBranch]
    split
    · exact .of_eq rfl rfl
    · split <;> exact .of_eq rfl rfl
  | unlockTid hp =>
    apply h.goto hp
    split <;> exact .of_eq rfl rfl
  | unlockClear hp => exact h.move hp rfl rfl id (.of_eq rfl rfl)
  | unlockAnd hp => exact .unlockAnd hi
  | unlockSub hp => exact .unlockSub hi hp
  | choose hp => exact .choose hi hp ho

omit [Fintype T] in
theorem Live.outside (h : Live s) (ho : Outside s s') : Live s' := by
  cases ho with
  | tryLock t last k hp | plainLock t last k hp | unlock t last hp | timedLock t last k timeout hp =>
    exact h.goto hp (.of_eq rfl rfl)
  | timeout t k oldSerial hp | timeoutAsleep t k hp =>
    exact h.goto hp (.of_waiting rfl rfl (by simp) rfl fun j => awake_of_leaving rfl)
  | interrupt t k timed hp => exact h.goto hp (.of_waiting rfl rfl (by simp) rfl fun j => awake_of_committed rfl)
  | interruptLock t sec hp =>
    apply h.goto hp
    cases sec <;> exact .of_eq rfl rfl

section Wakes

variable {free : Prop} {serial : Side → UInt32} {pc : T → Pc} {k : Side} {p : Pc}

omit [Fintype T] in
theorem HasErrand.done {e : Errand} (h : HasErrand e pc) (he : (pc t).errand = some (.wake k))
    (hne : Errand.wake k ≠ e) : HasErrand e (Function.update pc t p) :=
  h.update fun hu => absurd (Option.some.inj (he.symm.trans hu)) hne

omit [Fintype T] in
theorem WriterLive.done (h : WriterLive free serial pc) (he : (pc t).errand = some (.wake k))
    (hs : (pc t).stand = none) (hp : p.stand = none)
    (hw : k = .reader ∨ Committed pc ∨ ∀ u, (pc u).stand ≠ some (.writer, .asleep)) :
    WriterLive free serial (update pc t p) := by
  have hl {st : Side × Stand} (hst : (pc t).stand = some st) : p.stand = some st := by cases hs.symm.trans hst
  refine ⟨fun hf u hu => (h.drowsy hf u (stand_of_update hp hu)).done he nofun, fun hf u hu => ?_⟩
  rcases hw with rfl | hc | hn
  · rcases h.asleep hf u (stand_of_update hp hu) with h' | h' | h'
    · exact .inl (h'.done he nofun)
    · exact .inr (.inl (h'.done he nofun))
    · exact .inr (.inr (h'.update hl))
  · exact .inr (.inr (hc.update hl))
  · exact absurd (stand_of_update hp hu) (hn u)

omit [Fintype T] in
theorem ReaderLive.done (h : ReaderLive free serial pc) (he : (pc t).errand = some (.wake k))
    (hs : (pc t).stand = none) (hp : p.stand = none)
    (hr : k = .writer ∨ ∀ u, (pc u).stand ≠ some (.reader, .asleep)) :
    ReaderLive free serial (update pc t p) := by
  have hpr (h' : PresentWriter pc) : PresentWriter (update pc t p) := by
    apply h'.update
    intro st hst
    cases hs.symm.trans hst
  refine ⟨fun hf u hu => (h.drowsy hf u (stand_of_update hp hu)).imp (·.done he nofun) hpr, fun hf u hu => ?_⟩
  rcases hr with rfl | hn
  · rcases h.asleep hf u (stand_of_update hp hu) with h' | h' | h'
    · exact .inl (h'.done he nofun)
    · exact .inr (.inl (h'.done he nofun))
    · exact .inr (.inr (hpr h'))
  · exact absurd (stand_of_update hp hu) (hn u)

theorem Pc.woken_errand (p : Pc) : p.woken.errand = p.errand := by
  unfold woken
  split <;> rfl

theorem Pc.woken_stand {j : Side} {st : Stand} (h : (j, st) ≠ (.reader, .asleep))
    (hc : (j, st) ≠ (.reader, .committed)) : p.woken.stand = some (j, st) ↔ p.stand = some (j, st) := by
  unfold woken
  split
  · constructor
    · rintro ⟨⟩
      exact absurd rfl hc
    · rintro ⟨⟩
      exact absurd rfl h
  · rfl

theorem Pc.woken_not_asleep (p : Pc) : p.woken.stand ≠ some (.reader, .asleep) := by
  intro h
  obtain ⟨timed, hp⟩ := asleep_of_stand h
  unfold woken at hp
  split at hp
  · cases hp
  · rename_i hne
    exact hne timed hp

omit [Fintype T] [DecidableEq T] in
theorem Live.woken (h : Live s) : Live { s with pc := fun u => (s.pc u).woken } := by
  have he {e : Errand} (h' : HasErrand e s.pc) : HasErrand e fun u => (s.pc u).woken := by
    obtain ⟨u, hu⟩ := h'
    exact ⟨u, (woken_errand _).trans hu⟩
  refine ⟨⟨fun hf u hu => ?_, fun hf u hu => ?_⟩, ⟨fun hf u hu => ?_, fun _ u hu => ?_⟩⟩
  · exact he (h.writer.drowsy hf u ((woken_stand (by simp) (by simp)).1 hu))
  · rcases h.writer.asleep hf u ((woken_stand (by simp) (by simp)).1 hu) with h' | h' | ⟨v, hv⟩
    · exact .inl (he h')
    · exact .inr (.inl (he h'))
    · exact .inr (.inr ⟨v, (woken_stand (by simp) (by simp)).2 hv⟩)
  · rcases h.reader.drowsy hf u ((woken_stand (by simp) (by simp)).1 hu) with h' | ⟨v, st, hv⟩
    · exact .inl (he h')
    · exact .inr ⟨v, st, (woken_stand (by simp) (by simp)).2 hv⟩
  · exact absurd hu (woken_not_asleep _)

omit [Fintype T] in
theorem Live.wakes (h : Live s) (hw : Wakes s t s') : Live s' := by
  cases hw with
  | writer u timed hp hu =>
    have h' : Live (s.goto u (.lock (.unpend .writer timed false) .out)) :=
      h.goto hu (.of_waiting rfl rfl (by simp) rfl fun j => awake_of_committed rfl)
    have hpc := State.goto_pc_other (p := .lock (.unpend .writer timed false) .out) hp hu nofun
    have hc : Committed (s.goto u (.lock (.unpend .writer timed false) .out)).pc := by
      refine ⟨u, ?_⟩
      rw [State.goto_pc_self]
      rfl
    exact ⟨h'.writer.done (by rw [hpc]; rfl) (by rw [hpc]; rfl) rfl (.inr (.inl hc)),
      h'.reader.done (by rw [hpc]; rfl) (by rw [hpc]; rfl) rfl (.inl rfl)⟩
  | noWriter hp hn =>
    have ha (u : T) : (s.pc u).stand ≠ some (.writer, .asleep) := by
      intro hu
      obtain ⟨timed, hu'⟩ := asleep_of_stand hu
      exact hn u timed hu'
    exact ⟨h.writer.done (by rw [hp]; rfl) (by rw [hp]; rfl) rfl (.inr (.inr ha)),
      h.reader.done (by rw [hp]; rfl) (by rw [hp]; rfl) rfl (.inl rfl)⟩
  | readers hp =>
    have he : (s.pc t).woken.errand = some (.wake .reader) := by rw [hp]; rfl
    have hs : (s.pc t).woken.stand = none := by rw [hp]; rfl
    exact ⟨h.woken.writer.done he hs rfl (.inl rfl),
      h.woken.reader.done he hs rfl (.inr fun u => woken_not_asleep _)⟩
  | lock u a sec hp hu =>
    have h' : Live (s.goto u (.lock sec .exchange)) := by
      apply h.goto hu
      cases sec <;> exact .of_eq rfl rfl
    exact h'.goto (State.goto_pc_other hp hu nofun) (.of_eq a.place_stand a.place_errand)
  | noLock a hp hn => exact h.goto hp (.of_eq a.place_stand a.place_errand)

end Wakes

section Runs

omit [Fintype T] in
theorem CarefulStep.bounded (h : CarefulStep ids s s') : BoundedStep ids s s' := by
  cases h with
  | exec t _ he hr => exact .exec t _ he hr
  | outside _ ho => exact .outside _ ho
  | wakes t _ hw => exact .wakes t _ hw

omit [DecidableEq T] [Fintype T] in
theorem initial_live (preferred : Bool) : Live (initial T preferred) := by
  have hn (k : Side) (u : T) : ¬Waits (initial T preferred).wakeupSerial k ((initial T preferred).pc u) := by
    rintro (h | h) <;> cases h
  exact ⟨.of_none (hn .writer), .of_none (hn .reader)⟩

theorem live_invariant (ids : Ids T) : (carefulSystem ids).Invariant fun s => Inv s ∧ Live s where
  init := by
    rintro s ⟨preferred, rfl⟩
    exact ⟨initial_inv preferred, initial_live preferred⟩
  step := by
    rintro s s' ⟨hi, h⟩ hs
    refine ⟨(inv_invariant ids).step s s' hi hs.bounded, ?_⟩
    cases hs with
    | exec t _ he hr hg ho => exact h.exec hi he hg ho
    | outside _ ho => exact h.outside ho
    | wakes t _ hw => exact h.wakes hw

def Pc.sleeping : Pc → Bool
  | .asleep .. | .lock _ .sleep => true
  | _ => false

/-- No thread is in the middle of an operation, other than asleep. -/
def Quiescent (s : State T) : Prop := ∀ t, (∃ last, s.pc t = .out last) ∨ (s.pc t).sleeping

omit [DecidableEq T] in
theorem Inv.quiescent (hi : Inv s) (hq : Quiescent s) (t : T) :
    (∃ last, s.pc t = .out last) ∨ ∃ k timed, s.pc t = .asleep k timed := by
  have hph (u : T) : (s.pc u).phase = .out ∨ (s.pc u).phase = .sleep := by
    rcases hq u with ⟨last, hu⟩ | hu
    · rw [hu]
      exact .inl rfl
    · cases hp : s.pc u with
      | asleep => exact .inl rfl
      | lock sec ph =>
        rw [hp] at hu
        cases ph <;> first | exact .inr rfl | cases hu
      | _ =>
        rw [hp] at hu
        cases hu
  rcases hq t with h | h
  · exact .inl h
  · cases hp : s.pc t with
    | asleep k timed => exact .inr ⟨k, timed, rfl⟩
    | lock sec ph =>
      rw [hp] at h
      have ha := hi.lock.nobody_asleep hph t
      rw [comp_apply, hp] at ha
      cases ph <;> first | exact absurd rfl ha | cases h
    | _ =>
      rw [hp] at h
      cases h

omit [Fintype T] [DecidableEq T] in
/-- With nobody awake there is no errand, and a sleeping writer would need one. -/
theorem Live.nobody_asleep (h : Live s) (hfree : owners s.state = 0)
    (hq : ∀ t, (∃ last, s.pc t = .out last) ∨ ∃ k timed, s.pc t = .asleep k timed) (t : T) (k : Side) (timed : Bool) :
    s.pc t ≠ .asleep k timed := by
  have herrand (e : Errand) : ¬HasErrand e s.pc := by
    rintro ⟨u, hu⟩
    rcases hq u with ⟨last, h'⟩ | ⟨j, timed', h'⟩ <;> rw [h'] at hu <;> cases hu
  have hwriter (u : T) (timed : Bool) : s.pc u ≠ .asleep .writer timed := by
    intro hu
    rcases h.writer.asleep hfree u (by rw [hu]; rfl) with h' | h' | ⟨v, hv⟩
    · exact herrand _ h'
    · exact herrand _ h'
    · rcases hq v with ⟨last, h'⟩ | ⟨j, timed', h'⟩ <;> rw [h'] at hv <;> cases hv
  cases k with
  | writer => exact hwriter t timed
  | reader =>
    intro ht
    rcases h.reader.asleep hfree t (by rw [ht]; rfl) with h' | h' | ⟨u, st, hu⟩
    · exact herrand _ h'
    · exact herrand _ h'
    · rcases hq u with ⟨last, h'⟩ | ⟨j, timed', h'⟩
      · rw [h'] at hu
        cases hu
      · cases j with
        | writer => exact hwriter u timed' h'
        | reader =>
          rw [h'] at hu
          cases hu

/-- In a run in which no timed-out writer gives up at the wrong moment, no serial comes round under a waiter and
nobody tries to read at the maximal reader count, nobody is left asleep on a free lock. -/
theorem rwlock_no_lost_wakeup (ids : Ids T) {s : State T} (hs : (carefulSystem ids).Reachable s) :
    ¬(stateOwnedByReadersOrWriter s.state = false ∧ Quiescent s ∧ ∃ t, (s.pc t).sleeping = true) := by
  obtain ⟨hi, h⟩ := (live_invariant ids).reachable hs
  rintro ⟨hf, hq, t, ht⟩
  have hf' : owners s.state = 0 := by
    by_contra hne
    cases hf.symm.trans (stateOwnedByReadersOrWriter_iff.2 hne)
  have hq' := hi.quiescent hq
  rcases hq' t with ⟨last, h'⟩ | ⟨k, timed, h'⟩
  · rw [h'] at ht
    cases ht
  · exact h.nobody_asleep hf' hq' t k timed h'

end Runs

section Party

omit [Fintype T] in
theorem CarefulStep.easy (t : T) (h : Exec ids s t s') (hr : stateReaderCount s.state < readerCountMax)
    (hp : (s.pc t).stand ≠ some (.writer, .leaving) ∧ (s.pc t).errand ≠ some .choose) : CarefulStep ids s s' := by
  obtain ⟨hs, he⟩ := hp
  refine .exec t s' h (fun _ => hr) ?_ ?_
  · rintro ⟨⟨timed, hp⟩, -⟩
    rw [hp] at hs
    exact hs rfl
  · rintro ⟨hp, -⟩
    rw [hp] at he
    exact he rfl

/-- A writer that holds the lock, a writer with a timeout and a reader. -/
inductive Party
  | owner
  | timed
  | reader
  deriving DecidableEq

def partyTid : Party → UInt32
  | .owner => 1
  | .timed => 2
  | .reader => 3

def partyIds : Ids Party where
  tid := partyTid
  tid_ne_zero := by
    intro p
    cases p <;> decide
  tid_injective := by
    intro p q h
    cases p <;> cases q <;> first | rfl | exact absurd h (by decide)

instance : Fintype Party where
  elems := {Party.owner, Party.timed, Party.reader}
  complete := by
    intro p
    cases p <;> simp

/-- The reader sleeps behind the owner. -/
theorem rwlock_no_lost_wakeup_behind_owner :
    ∃ s : State Party, (carefulSystem partyIds).Reachable s ∧ s.writes .owner = true ∧
      s.pc .reader = .asleep .reader false ∧
      ¬(stateOwnedByReadersOrWriter s.state = false ∧ Quiescent s ∧ ∃ t, (s.pc t).sleeping = true) := by
  have h₀ : (carefulSystem partyIds).Reachable (initial Party false) := .of_init ⟨false, rfl⟩
  have h₁ := h₀.step (.outside _ (.tryLock .owner _ .writer rfl))
    |>.step (.easy .owner (.tryLoad .writer .tryLock true rfl) (by decide) (by decide))
    |>.step (.easy .owner (.tryExchange .writer .tryLock 0 rfl rfl) (by decide) (by decide))
    |>.step (.easy .owner (.storeTid .tryLock rfl) (by decide) (by decide))
    |>.step (.outside _ (.timedLock .reader _ .reader .null rfl))
    |>.step (.easy .reader (.tidLoad .reader .null rfl) (by decide) (by decide))
    |>.step (.easy .reader (.tryLoad .reader (.loop .null) true rfl) (by decide) (by decide))
    |>.step (.easy .reader (.recheck .reader false rfl) (by decide) (by decide))
    |>.step (.easy .reader (.lock (.pend .reader false) .out rfl (.inl rfl)) (by decide) (by decide))
    |>.step (.easy .reader (.pend .reader false rfl) (by decide) (by decide))
    |>.step (.easy .reader (.mark .reader false rfl) (by decide) (by decide))
    |>.step (.easy .reader (.unlocking (.wait .reader false 0) rfl) (by decide) (by decide))
    |>.step (.easy .reader (.futexWait .reader false 0 rfl) (by decide) (by decide))
  exact ⟨_, h₁, rfl, rfl, rwlock_no_lost_wakeup partyIds h₁⟩

/-- The owner unlocks while the timed writer, which has timed out, is still counted. It wakes writers only, and
the reader sleeps on behind a free lock. -/
theorem rwlock_lost_wakeup_timed_writer :
    ∃ s : State Party, (system partyIds).Reachable s ∧ stateOwnedByReadersOrWriter s.state = false ∧
      Quiescent s ∧ s.pc .reader = .asleep .reader false ∧
      s.pc .owner = .out (some (.unlock, .zero)) ∧ s.pc .timed = .out (some (.lock .writer, .etimedout)) := by
  have h₀ : (system partyIds).Reachable (initial Party false) := .of_init ⟨false, rfl⟩
  -- The owner takes the lock.
  have h₁ := h₀.step (.outside _ (.tryLock .owner _ .writer rfl))
    |>.step (.exec .owner _ (.tryLoad .writer .tryLock true rfl))
    |>.step (.exec .owner _ (.tryExchange .writer .tryLock 0 rfl rfl))
    |>.step (.exec .owner _ (.storeTid .tryLock rfl))
  -- The timed writer and the reader fall asleep.
  have h₂ := h₁.step (.outside _ (.timedLock .timed _ .writer .valid rfl))
    |>.step (.exec .timed _ (.tidLoad .writer .valid rfl))
    |>.step (.exec .timed _ (.tryLoad .writer (.loop .valid) true rfl))
    |>.step (.exec .timed _ (.recheck .writer true rfl))
    |>.step (.exec .timed _ (.lock (.pend .writer true) .out rfl (.inl rfl)))
    |>.step (.exec .timed _ (.pend .writer true rfl))
    |>.step (.exec .timed _ (.mark .writer true rfl))
    |>.step (.exec .timed _ (.unlocking (.wait .writer true 0) rfl))
    |>.step (.exec .timed _ (.futexWait .writer true 0 rfl))
    |>.step (.outside _ (.timedLock .reader _ .reader .null rfl))
    |>.step (.exec .reader _ (.tidLoad .reader .null rfl))
    |>.step (.exec .reader _ (.tryLoad .reader (.loop .null) true rfl))
    |>.step (.exec .reader _ (.recheck .reader false rfl))
    |>.step (.exec .reader _ (.lock (.pend .reader false) .out rfl (.inl rfl)))
    |>.step (.exec .reader _ (.pend .reader false rfl))
    |>.step (.exec .reader _ (.mark .reader false rfl))
    |>.step (.exec .reader _ (.unlocking (.wait .reader false 0) rfl))
    |>.step (.exec .reader _ (.futexWait .reader false 0 rfl))
  -- The writer times out, and the owner unlocks before it is uncounted.
  have h₃ := h₂.step (.outside _ (.timeoutAsleep .timed .writer rfl))
    |>.step (.outside _ (.unlock .owner (some (.lock .writer, .zero)) rfl (.inr rfl)))
    |>.step (.exec .owner _ (.unlockLoad rfl))
    |>.step (.exec .owner _ (.unlockTid rfl))
    |>.step (.exec .owner _ (.unlockClear rfl))
    |>.step (.exec .owner _ (.unlockAnd rfl))
    |>.step (.exec .owner _ (.lock .choose .out rfl (.inl rfl)))
    |>.step (.exec .owner _ (.choose rfl))
    |>.step (.exec .owner _ (.unlocking (.wake .writer) rfl))
    |>.step (.wakes .owner _ (.noWriter rfl (by intro p timed; cases p <;> rintro ⟨⟩)))
    |>.step (.exec .timed _ (.lock (.unpend .writer true true) .out rfl (.inl rfl)))
    |>.step (.exec .timed _ (.unpend .writer true true rfl))
    |>.step (.exec .timed _ (.unmark .writer true true rfl))
    |>.step (.exec .timed _ (.unlocking (.timedOut .writer) rfl))
  refine ⟨_, h₃, rfl, ?_, rfl, rfl, rfl⟩
  intro p
  cases p with
  | owner | timed => exact .inl ⟨_, rfl⟩
  | reader => exact .inr rfl

end Party

end Bionic.RwLock
