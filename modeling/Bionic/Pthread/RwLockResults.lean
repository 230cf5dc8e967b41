import Bionic.Pthread.RwLockSteps

namespace Bionic.RwLock

open Lib Function UInt32

variable {T : Type} [Fintype T] [DecidableEq T] {ids : Ids T} {s s' : State T} {t u : T} {caller : Caller}
  {state : UInt32}

theorem Owned.writer_unique {reads : T → Nat} {writes : T → Bool} (h : Owned state reads writes)
    (ht : writes t) (hu : writes u) : u = t := by
  by_contra hne
  have hup := writers_update writes t false
  rw [(h.writer_only ht).1, ht, Bool.toNat_true, Bool.toNat_false] at hup
  have hz : writers (update writes t false) = 0 := by omega
  have := total_eq_zero_iff.1 hz u
  rw [update_of_ne hne, hu] at this
  cases this

theorem Inv.writer_bit (hi : Inv s) : stateOwnedByWriter s.state ↔ ∃ t, s.writes t := by
  have hwo := hi.owned.word
  have hex := hi.owned.exclusive
  rw [stateOwnedByWriter_iff]
  constructor
  · intro h
    by_contra hn
    have hz : writers s.writes = 0 := by
      apply total_eq_zero_iff.2
      intro t
      cases hw : s.writes t with
      | false => rfl
      | true => exact absurd ⟨t, hw⟩ hn
    omega
  · rintro ⟨t, ht⟩
    have := hi.owned.writer_only ht
    omega

/-- The pending counts and flags agree with the threads that have announced a wait. -/
theorem pending_counted (hs : (boundedSystem ids).Reachable s) : Pending s.state s.pendingCount s.pc :=
  ((inv_invariant ids).reachable hs).pending

/-- In a run in which nobody tries to read at the maximal reader count, the state word says who holds the lock. -/
theorem rwlock_holders_correct (ids : Ids T) {s : State T} (hs : (boundedSystem ids).Reachable s) :
    (∀ t, s.writes t = true → ∀ u, s.reads u = 0 ∧ (s.writes u = true → u = t)) ∧
      stateReaderCount s.state = ∑ t, s.reads t ∧
      (stateOwnedByWriter s.state = true ↔ ∃ t, s.writes t = true) ∧
      ∀ k : Side, s.state &&& k.flag ≠ 0 → s.pendingCount k ≠ 0 ∨ ∃ t, (s.pc t).phase = .held := by
  have hi := (inv_invariant ids).reachable hs
  refine ⟨?_, ?_, hi.writer_bit, ?_⟩
  · intro t ht u
    have hn : readers s.reads = 0 := (hi.owned.writer_only ht).2
    exact ⟨total_eq_zero_iff.1 hn u, hi.owned.writer_unique ht⟩
  · have hw := hi.owned.word
    have hex := hi.owned.exclusive
    have hsum : ∑ t, s.reads t = readers s.reads := rfl
    change owners s.state % 2 ^ 29 = _
    omega
  · intro k hk
    rcases hi.pending.of_bit k ((and_flag_ne_zero_iff k).1 hk) with hne | ⟨t, ht⟩
    · exact .inl hne
    · refine .inr ⟨t, ?_⟩
      cases hp : s.pc t with
      | unmark => rfl
      | _ =>
        rw [hp] at ht
        cases ht

section Crowd

def pairTid (b : Bool) : UInt32 := if b then 1 else 2

theorem pairTid_ne_zero (b : Bool) : pairTid b ≠ 0 := by
  cases b
  · exact (by decide : (2 : UInt32) ≠ 0)
  · exact (by decide : (1 : UInt32) ≠ 0)

theorem pairTid_injective : Injective pairTid := by
  intro b b' h
  cases b <;> cases b'
  · rfl
  · cases h
  · cases h
  · rfl

def pairIds : Ids Bool := ⟨pairTid, pairTid_ne_zero, pairTid_injective⟩

variable (preferred : Bool) (n : Nat)

def crowd : State Bool :=
  { initial Bool preferred with
    state := ofNat (4 * n)
    pc := fun u => .out (if u ∧ n ≠ 0 then some (.lock .reader, .zero) else none)
    reads := fun u => if u then n else 0 }

theorem owners_crowd {preferred : Bool} {n : Nat} (h : n < 2 ^ 29) : owners (crowd preferred n).state = n := by
  change (ofNat (4 * n)).toNat / 4 = n
  rw [toNat_ofNat_of_lt' (by change 4 * n < 2 ^ 32; omega)]
  omega

theorem pendingBit_crowd {preferred : Bool} {n : Nat} (h : n < 2 ^ 29) (k : Side) :
    pendingBit k (crowd preferred n).state = false := by
  change pendingBit k (ofNat (4 * n)) = false
  have hbit : pendingBit k (ofNat (4 * n)) = pendingBit k 0 := by
    apply pendingBit_congr
    rw [toNat_ofNat_of_lt' (by change 4 * n < 2 ^ 32; omega)]
    change 4 * n % 4 = 0
    omega
  rw [hbit]
  exact Nat.zero_testBit _

theorem crowd_acquire : (((crowd preferred n).goto true (.tryLoad .reader .tryLock)).goto true
      (.tryCas .reader .tryLock (crowd preferred n).state)).acquire true .reader .tryLock =
      crowd preferred (n + 1) := by
  have hs : ofNat (4 * n) + stateReaderCountChangeStep = ofNat (4 * (n + 1)) :=
    (ofNat_add (4 * n) 4).symm
  rw [State.acquire, crowd]
  congr 1
  all_goals
    funext u
    cases u <;> rfl

theorem crowd_reachable (h : n < 2 ^ 29) : (boundedSystem pairIds).Reachable (crowd preferred n) := by
  induction n with
  | zero =>
    apply System.Reachable.of_init
    refine ⟨preferred, ?_⟩
    rw [crowd]
    congr 1
    · funext u
      simp
    · funext u
      cases u <;> rfl
  | succ n ih =>
    have hlt : n < 2 ^ 29 := by omega
    have hroom : stateReaderCount (crowd preferred n).state < readerCountMax := by
      change owners (crowd preferred n).state % 2 ^ 29 < 2 ^ 29 - 1
      rw [owners_crowd hlt]
      omega
    have hca := (ih hlt).step (.outside _ (.tryLock true _ .reader rfl))
    have hl := hca.step (.exec true _ (.tryLoad .reader .tryLock false rfl) fun _ => hroom)
    have hc : canAcquire preferred .reader (crowd preferred n).state := by
      rw [canAcquire_reader_iff, owners_crowd hlt]
      exact ⟨hlt, fun _ => pendingBit_crowd hlt .writer⟩
    change (boundedSystem pairIds).Reachable
      (((crowd preferred n).goto true (.tryLoad .reader .tryLock)).goto true
        (tryLoop preferred .reader false .tryLock (crowd preferred n).state)) at hl
    rw [tryLoop, if_pos hc] at hl
    rw [← crowd_acquire]
    exact hl.step (.exec true _ (.tryExchange .reader .tryLock _ rfl rfl) fun _ => hroom)

/-- A thread holds a read lock, and another one has announced that it waits to write and sleeps. -/
theorem announced_reachable : ∃ s : State Bool, (boundedSystem pairIds).Reachable s ∧ s.reads true = 1 ∧
    s.state = 6 ∧ s.pendingCount .writer = 1 ∧ s.pc false = .asleep .writer false := by
  have h₀ := crowd_reachable true 1 (by decide)
  have h₁ := h₀.step (.outside _ (.timedLock false _ .writer .null rfl))
    |>.step (.exec false _ (.tidLoad .writer .null rfl) nofun)
    |>.step (.exec false _ (.tryLoad .writer (.loop .null) true rfl) nofun)
    |>.step (.exec false _ (.recheck .writer false rfl) nofun)
    |>.step (.exec false _ (.lock (.pend .writer false) .out rfl (.inl rfl)) nofun)
    |>.step (.exec false _ (.pend .writer false rfl) nofun)
    |>.step (.exec false _ (.mark .writer false rfl) nofun)
    |>.step (.exec false _ (.unlocking (.wait .writer false 0) rfl) nofun)
    |>.step (.exec false _ (.futexWait .writer false 0 rfl) nofun)
  exact ⟨_, h₁, rfl, rfl, rfl, rfl⟩

theorem pending_counted_announced : ∃ s : State Bool, (boundedSystem pairIds).Reachable s ∧
    (s.pc false).marked = some .writer ∧ s.pendingCount .writer = 1 ∧ Pending s.state s.pendingCount s.pc := by
  obtain ⟨s, h, -, -, hn, hp⟩ := announced_reachable
  exact ⟨s, h, by rw [hp]; rfl, hn, pending_counted h⟩

theorem rwlock_holders_correct_announced : ∃ s : State Bool, (boundedSystem pairIds).Reachable s ∧
    s.state &&& Side.writer.flag ≠ 0 ∧ stateReaderCount s.state = 1 ∧ stateReaderCount s.state = ∑ t, s.reads t ∧
      ∀ k : Side, s.state &&& k.flag ≠ 0 → s.pendingCount k ≠ 0 ∨ ∃ t, (s.pc t).phase = .held := by
  obtain ⟨s, h, -, hs, -⟩ := announced_reachable
  have hc := rwlock_holders_correct pairIds h
  exact ⟨s, h, by rw [hs]; decide, by rw [hs]; rfl, hc.2.1, hc.2.2.2⟩

/-- The test of the overflowing sum is dropped: one more read lock is granted, and the state is that of a writer. -/
theorem max_readers_overflow :
    ∃ s s' : State Bool, (system pairIds).Reachable s ∧ stateReaderCount s.state = readerCountMax ∧
      s.pc true = .tryLoad .reader .tryLock ∧ Step pairIds s s' ∧ s'.state = s.state ∧
      ∃ s'', Step pairIds s' s'' ∧ s''.pc true = .out (some (.lock .reader, .zero)) ∧
        stateOwnedByWriter s''.state = true ∧ ∀ t, s''.writes t = false := by
  have h₀ : (system pairIds).Reachable (crowd false readerCountMax) :=
    System.Reachable.mono (S := boundedSystem pairIds) (fun _ h => h) (fun _ _ h => h.step)
      (crowd_reachable false readerCountMax (by decide))
  have h₁ := h₀.step (.outside _ (.tryLock true _ .reader rfl))
  refine ⟨_, _, h₁, rfl, rfl, .exec true _ (.tryLoad .reader .tryLock false rfl), rfl, _,
    .exec true _ (.tryExchange .reader .tryLock _ rfl rfl), rfl, by decide, fun t => rfl⟩

end Crowd

end Bionic.RwLock
