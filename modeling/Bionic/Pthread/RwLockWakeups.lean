import Bionic.Pthread.RwLockLive

namespace Bionic.RwLock

open Lib Function

variable {T : Type} [Fintype T] [DecidableEq T] {s s' : State T} {t : T} {caller : Caller} {p : Pc}
  (k : Side) (r : Result) (a : After)

/-- A writer whose wait timed out gives up as the last pending writer, while nobody holds the lock and readers
are pending. -/
def GivesUp (s : State T) (t : T) : Prop :=
  (∃ timed, s.pc t = .lock (.unpend .writer timed true) .held) ∧ s.pendingCount .writer = 1 ∧
    s.pendingCount .reader ≠ 0 ∧ stateOwnedByReadersOrWriter s.state = false

/-- An unlock is about to bring a wakeup serial back to a value that a waiter has read and not yet passed to
futex_wait. -/
def Overtakes (s : State T) (t : T) : Prop :=
  s.pc t = .lock .choose .held ∧ ∃ u k, (s.pc u).stand = some (k, .drowsy (s.wakeupSerial k + 1))

inductive CarefulStep (ids : Ids T) (s : State T) : State T → Prop
  | exec (t : T) (s' : State T) (h : Exec ids s t s') (hr : HasRoom s t) (hg : ¬GivesUp s t) (ho : ¬Overtakes s t) :
      CarefulStep ids s s'
  | outside (s' : State T) (h : Outside s s') : CarefulStep ids s s'
  | wakes (t : T) (s' : State T) (h : Wakes s t s') : CarefulStep ids s s'

def carefulSystem (ids : Ids T) : System (State T) := ⟨(system ids).Init, CarefulStep ids⟩

section Places

theorem tryResult_errand (caller : Caller) : (tryResult k r caller).errand = none :=
  tryResult_rec (Q := (·.errand = none)) (fun _ => rfl) rfl (fun _ => rfl) r caller

theorem tryResult_stand (caller : Caller) :
    (tryResult k r caller).stand = none ∨ (tryResult k r caller).stand = some (k, .committed) :=
  tryResult_rec (Q := fun p => p.stand = none ∨ p.stand = some (k, .committed)) (fun _ => .inl rfl) (.inl rfl)
    (fun _ => .inr rfl) r caller

theorem tryResult_ebusy_stand (hc : caller.patient) : (tryResult k .ebusy caller).stand = some (k, .committed) := by
  cases caller with
  | tryLock | fast => cases hc
  | loop timeout =>
    cases timeout with
    | null | valid => rfl
    | badNanoseconds | negative => cases hc

/-- A writer in the loop stays committed, for its count cannot overflow. -/
theorem tryLoop_calm {serial : Side → UInt32} {preferred : Bool} {k : Side}
    {tested : Bool} {oldState : UInt32} (he : p.errand = none) (hp : p.stand = if caller.patient then some (k, .committed) else none) :
    Calm serial p (tryLoop preferred k tested caller oldState) := by
  have hcas : (Pc.tryCas k caller oldState).stand = none ∨
      (Pc.tryCas k caller oldState).stand = some (k, .committed) := by
    change (if caller.patient then some (k, Stand.committed) else none) = none ∨ _
    cases h : caller.patient
    · exact .inl rfl
    · refine .inr ?_
      change (if caller.patient then some (k, Stand.committed) else none) = _
      rw [h]
      rfl
  apply Calm.of_awake he
  · exact tryLoop_rec (Q := fun p => p.stand = none ∨ ∃ k, p.stand = some (k, .committed))
      (fun r => (tryResult_stand k r caller).imp_right fun h => ⟨k, h⟩) fun _ => hcas.imp_right fun h => ⟨k, h⟩
  · intro st hst
    rw [hp] at hst
    cases hc : caller.patient with
    | false =>
      rw [hc] at hst
      cases hst
    | true =>
      rw [hc] at hst
      cases hst
      rw [tryLoop]
      split
      · have ho : (tested && overflows .writer oldState) = false := Bool.and_false _
        rw [ho]
        change (if caller.patient then some (Side.writer, Stand.committed) else none) = _
        rw [hc]
        rfl
      · exact tryResult_ebusy_stand .writer hc

theorem After.place_stand : a.place.stand = a.stand := by
  cases a with
  | retry k timed => cases timed <;> rfl
  | _ => rfl

theorem After.place_errand : a.place.errand = a.errand := by cases a <;> rfl

end Places

section Steps

/-- An unlock that leaves the lock free goes to choose whom to wake if anybody waits, for a waiter's flag is set. -/
theorem Live.of_release (hi : Inv s) (hpc : s'.pc = update s.pc t p)
    (hs : s'.wakeupSerial = s.wakeupSerial) (hp : p.stand = none)
    (hc : owners s'.state = 0 → stateHavePendingReadersOrWriters s.state → p.errand = some .choose) :
    Live s' := by
  by_cases hf : owners s'.state = 0
  · cases hpe : stateHavePendingReadersOrWriters s.state with
    | true =>
      apply Live.of_choose
      refine ⟨t, ?_⟩
      rw [hpc, update_self]
      exact hc hf hpe
    | false =>
      have hn (k : Side) (u : T) : ¬Waits s'.wakeupSerial k (s'.pc u) := by
        rw [hpc, hs]
        refine not_waits_update hp (fun v hv => ?_) u
        have hbit := hi.pending.bit_of_marked k v hv.marked
        cases hpe.symm.trans (stateHavePendingReadersOrWriters_of_bit hbit)
      exact ⟨.of_none (hn .writer), .of_none (hn .reader)⟩
  · exact Live.of_held hf

theorem Live.unlockAnd (hi : Inv s) : Live (s.unlockAnd t) := by
  refine Live.of_release hi rfl rfl ?_ ?_
  · split <;> rfl
  · intro _ hp
    rw [hp]
    rfl

theorem Live.unlockSub (hi : Inv s) (hp : s.pc t = .unlockSub) : Live (s.unlockSub t) := by
  have hr := hi.ok_at hp
  refine Live.of_release hi rfl rfl ?_ ?_
  · split <;> rfl
  · intro hf hpe
    have hne := hi.owned.owners_ne_zero hr
    have hl : stateIsLastReader s.state := by
      rw [stateIsLastReader_iff]
      change owners (s.state - stateReaderCountChangeStep) = 0 at hf
      rw [owners_sub_step hne] at hf
      omega
    rw [hl, hpe]
    rfl

omit [DecidableEq T] in
theorem Inv.present_of_count (hi : Inv s) (h : s.pendingCount .writer ≠ 0) : PresentWriter s.pc := by
  obtain ⟨u, hu⟩ := hi.pending.exists_pending h
  exact ⟨u, stand_of_pending hu⟩

variable {k : Side} {timed : Bool} (count : UInt32)

/-- A thread that is about to wait saw the lock held, or a preferred writer pending. -/
theorem Live.mark (h : Live s) (hi : Inv s) (hp : s.pc t = .mark k timed) : Live (s.mark t k timed) := by
  have hf : owners (s.state ||| k.flag) = 0 → owners s.state = 0 := by
    rw [owners_or_flag]
    exact id
  rw [State.mark]
  cases hc : canAcquire s.writerNonrecursivePreferred k s.state with
  | true => exact h.move hp rfl rfl hf (.of_eq rfl rfl)
  | false =>
    by_cases hh : owners s.state = 0
    · cases k with
      | writer =>
        rw [← Bool.not_eq_true, canAcquire_writer_iff] at hc
        exact absurd hh hc
      | reader =>
        -- Here the thread holds pending_lock, so the flag it saw belongs to a writer that is counted.
        have hbit : pendingBit .writer s.state := by
          rw [← Bool.not_eq_true, canAcquire_reader_iff] at hc
          by_contra hbit
          exact hc ⟨by omega, fun _ => Bool.eq_false_iff.2 hbit⟩
        have hco : s.pendingCount .writer ≠ 0 := by
          rcases hi.pending.of_bit .writer hbit with hne | ⟨u, hu⟩
          · exact hne
          · have hh : (s.pc t).phase = .held := by rw [hp]; rfl
            cases (hi.unmarking_none hh (by rw [hp]; rfl) u).symm.trans hu
        have hpr := hi.present_of_count hco
        refine ⟨h.writer.quiet hf (.of_awake (by rw [hp]; rfl) ?_) ?_, .of_present (hpr.update ?_)⟩
        · exact ⟨by rintro ⟨⟩, by rintro x ⟨⟩⟩
        · rw [hp]
          rintro ⟨⟩
        · rw [hp]
          rintro st ⟨⟩
    · exact Live.of_held fun h0 => hh (hf h0)

theorem unpendPlace_stand (k : Side) (timed timedOut : Bool) :
    (unpendPlace count k timed timedOut).stand = if timedOut then none else some (k, .committed) := by
  rw [unpendPlace]
  split
  · rfl
  · cases timedOut <;> rfl

theorem unpendPlace_errand (k : Side) (timed timedOut : Bool) :
    (unpendPlace count k timed timedOut).errand = none := by
  rw [unpendPlace]
  split
  · rfl
  · cases timedOut <;> rfl

theorem Inv.not_waits (hi : Inv s) (h0 : s.pendingCount k = 0) (u : T) : ¬Waits s.wakeupSerial k (s.pc u) :=
  fun hu => hi.pending.count_ne_zero (Pc.pending_of_marked hu.marked) h0

/-- A writer that times out leaves the readers to another pending writer, unless it gives up as the last one. -/
theorem Inv.reader_leave (hi : Inv s) (hp : s.pc t = .lock (.unpend .writer timed true) .held) (hp' : p.stand = none) (hg : ¬GivesUp s t) :
    ReaderLive (owners s.state = 0) s.wakeupSerial (update s.pc t p) := by
  have hpe : (s.pc t).pending = some .writer := by rw [hp]; rfl
  by_cases hone : s.pendingCount .writer = 1
  · have hz (hf : owners s.state = 0) : s.pendingCount .reader = 0 := by
      by_contra hne
      refine hg ⟨⟨timed, hp⟩, hone, hne, ?_⟩
      rw [← Bool.not_eq_true, stateOwnedByReadersOrWriter_iff, not_not]
      exact hf
    have hn (hf : owners s.state = 0) := not_waits_update (t := t) hp' (hi.not_waits (hz hf))
    exact ⟨fun hf u hu => absurd (.inl hu) (hn hf u), fun hf u hu => absurd (.inr hu) (hn hf u)⟩
  · obtain ⟨u, hut, hu⟩ := hi.pending.exists_other hpe hone
    apply ReaderLive.of_present
    refine ⟨u, ?_⟩
    rw [update_of_ne hut]
    exact stand_of_pending hu

theorem Live.unpend (h : Live s) (hi : Inv s) {timedOut : Bool}
    (hp : s.pc t = .lock (.unpend k timed timedOut) .held) (hg : ¬GivesUp s t) : Live (s.unpend t k timed timedOut) := by
  have hpl := unpendPlace_stand (s.pendingCount k - 1) k timed timedOut
  cases timedOut with
  | false => exact h.move hp rfl rfl id (.of_eq hpl (unpendPlace_errand ..))
  | true =>
    cases k with
    | reader => exact h.move hp rfl rfl id (.of_awake rfl (.inl hpl) (by rintro st ⟨⟩))
    | writer =>
      refine ⟨h.writer.quiet id (.of_awake (by rw [hp]; rfl) (awake_of_none hpl)) ?_, hi.reader_leave hp hpl hg⟩
      rw [hp]
      rintro ⟨⟩

omit [Fintype T] in
theorem announce_errand (s : State T) (t : T) (k : Side) : HasErrand (.wake k) (s.announce t k).pc := by
  refine ⟨t, ?_⟩
  have hpc : (s.announce t k).pc t = .unlocking (.wake k) := update_self ..
  rw [hpc]
  rfl

omit [Fintype T] in
theorem announce_fresh (hp : s.pc t = .lock .choose .held) (ho : ¬Overtakes s t) (k : Side) (u : T) :
    ((s.announce t k).pc u).stand ≠ some (k, .drowsy ((s.announce t k).wakeupSerial k)) := by
  have hs : (s.announce t k).wakeupSerial k = s.wakeupSerial k + 1 := update_self ..
  rw [hs]
  apply forall_update (Q := fun _ q => q.stand ≠ some (k, .drowsy (s.wakeupSerial k + 1)))
  · simp [Pc.stand, After.stand]
  · exact fun v _ hv => ho ⟨hp, v, k, hv⟩

theorem Live.announce_writer (hi : Inv s) (hp : s.pc t = .lock .choose .held) (ho : ¬Overtakes s t)
    (hw : s.pendingCount .writer ≠ 0) : Live (s.announce t .writer) := by
  refine ⟨⟨fun _ u hu => absurd hu (announce_fresh hp ho .writer u), fun _ _ _ => .inr (.inl (announce_errand ..))⟩,
    .of_present ((hi.present_of_count hw).update ?_)⟩
  rw [hp]
  rintro st ⟨⟩

theorem Live.announce_reader (hi : Inv s) (hp : s.pc t = .lock .choose .held) (ho : ¬Overtakes s t)
    (hw : s.pendingCount .writer = 0) : Live (s.announce t .reader) := by
  exact ⟨.of_none (not_waits_update rfl (hi.not_waits hw)),
    ⟨fun _ u hu => absurd hu (announce_fresh hp ho .reader u), fun _ _ _ => .inr (.inl (announce_errand ..))⟩⟩

theorem Live.choose (hi : Inv s) (hp : s.pc t = .lock .choose .held) (ho : ¬Overtakes s t) : Live (s.choose t) := by
  rw [State.choose]
  split
  case isTrue hw => exact .announce_writer hi hp ho hw
  case isFalse hw =>
    rw [not_not] at hw
    split
    case isTrue => exact .announce_reader hi hp ho hw
    case isFalse hr =>
      rw [not_not] at hr
      exact ⟨.of_none (not_waits_update rfl (hi.not_waits hw)), .of_none (not_waits_update rfl (hi.not_waits hr))⟩

end Steps

end Bionic.RwLock
