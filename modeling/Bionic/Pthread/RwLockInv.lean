import Bionic.Pthread.RwLock
import Mathlib.Data.Nat.Bitwise

namespace Bionic.RwLock

open Function Nat

/-- The owner part of the state: the reader count, above it the bit of the writer. -/
def owners (state : UInt32) : Nat := state.toNat / 4

def Side.bit : Side → Nat
  | .reader => 0
  | .writer => 1

def pendingBit (k : Side) (state : UInt32) : Bool := state.toNat.testBit k.bit

theorem toNat_flag (k : Side) : k.flag.toNat = 2 ^ k.bit := by cases k <;> rfl

theorem bit_lt (k : Side) : k.bit < 2 := by cases k <;> decide

theorem pendingBit_congr {x y : UInt32} (h : x.toNat % 4 = y.toNat % 4) (k : Side) :
    pendingBit k x = pendingBit k y := by
  have hbit (z : UInt32) : pendingBit k z = (z.toNat % 2 ^ 2).testBit k.bit := by
    rw [testBit_mod_two_pow, pendingBit]
    simp [bit_lt k]
  rw [hbit, hbit]
  exact congrArg (fun n => testBit n k.bit) h

section Predicates

variable {x : UInt32} {preferred : Bool}

theorem stateOwnedByWriter_iff : stateOwnedByWriter x ↔ 2 ^ 29 ≤ owners x := by
  rw [stateOwnedByWriter, decide_eq_true_iff, owners]
  change 2 ^ 31 ≤ x.toNat ↔ _
  omega

theorem stateOwnedByReaders_iff : stateOwnedByReaders x ↔ 0 < owners x ∧ owners x < 2 ^ 29 := by
  rw [stateOwnedByReaders, decide_eq_true_iff, UInt32.lt_iff_toNat_lt, owners]
  change 4 ≤ x.toNat ∧ x.toNat < 2 ^ 31 ↔ _
  omega

theorem stateOwnedByReadersOrWriter_iff : stateOwnedByReadersOrWriter x ↔ owners x ≠ 0 := by
  rw [stateOwnedByReadersOrWriter, Bool.or_eq_true, stateOwnedByWriter_iff, stateOwnedByReaders_iff]
  omega

theorem stateIsLastReader_iff : stateIsLastReader x ↔ owners x = 1 := by
  rw [stateIsLastReader, decide_eq_true_iff, ← UInt32.toNat_inj]
  change x.toNat >>> 2 = 1 ↔ _
  rw [shiftRight_eq_div_pow, owners]

theorem and_flag_ne_zero_iff (k : Side) : x &&& k.flag ≠ 0 ↔ pendingBit k x := by
  rw [Ne, ← UInt32.toNat_inj, UInt32.toNat_and, toNat_flag, and_two_pow]
  change ¬ (pendingBit k x).toNat * 2 ^ k.bit = 0 ↔ _
  cases pendingBit k x <;> simp

theorem stateHavePendingWriters_eq : stateHavePendingWriters x = pendingBit .writer x := by
  rw [stateHavePendingWriters, Bool.eq_iff_iff, decide_eq_true_iff]
  exact and_flag_ne_zero_iff .writer

theorem stateHavePendingReadersOrWriters_of_bit {k : Side} (h : pendingBit k x) :
    stateHavePendingReadersOrWriters x := by
  rw [stateHavePendingReadersOrWriters, decide_eq_true_iff]
  intro h0
  apply (and_flag_ne_zero_iff k).2 h
  have hk : k.flag = (stateHavePendingReadersFlag ||| stateHavePendingWritersFlag) &&& k.flag := by
    cases k <;> decide
  rw [hk, ← UInt32.and_assoc, h0]
  exact UInt32.zero_and

theorem canAcquire_writer_iff : canAcquire preferred .writer x ↔ owners x = 0 := by
  rw [canAcquire, canAcquireWriteLock, Bool.not_eq_true', ← Bool.not_eq_true, stateOwnedByReadersOrWriter_iff,
    not_not]

theorem canAcquire_reader_iff :
    canAcquire preferred .reader x ↔
      owners x < 2 ^ 29 ∧ (preferred → pendingBit .writer x = false) := by
  have hw : stateOwnedByWriter x = false ↔ owners x < 2 ^ 29 := by
    rw [← Bool.not_eq_true, stateOwnedByWriter_iff]
    omega
  rw [canAcquire, canAcquireReadLock, Bool.not_eq_true', Bool.or_eq_false_iff, hw, stateHavePendingWriters_eq]
  cases preferred <;> simp

end Predicates

section Updates

variable (k j : Side) {x : UInt32}

theorem owners_or_flag (x : UInt32) : owners (x ||| k.flag) = owners x := by
  have hk : k.flag.toNat / 2 ^ 2 = 0 := by cases k <;> decide
  change (x.toNat ||| k.flag.toNat) / 2 ^ 2 = _
  rw [or_div_two_pow, hk, or_zero, owners]

theorem pendingBit_or_flag (x : UInt32) : pendingBit j (x ||| k.flag) = (pendingBit j x || decide (k = j)) := by
  rw [pendingBit, UInt32.toNat_or, testBit_or, toNat_flag, pendingBit]
  cases k <;> cases j <;> rfl

theorem owners_and_not_flag (x : UInt32) : owners (x &&& ~~~k.flag) = owners x := by
  have hk : (~~~k.flag).toNat / 2 ^ 2 = 2 ^ 30 - 1 := by cases k <;> decide
  have hx := x.toNat_lt
  change (x.toNat &&& (~~~k.flag).toNat) / 2 ^ 2 = _
  rw [and_div_two_pow, hk, and_two_pow_sub_one_eq_mod, owners]
  omega

theorem pendingBit_and_not_flag (x : UInt32) :
    pendingBit j (x &&& ~~~k.flag) = (pendingBit j x && decide (k ≠ j)) := by
  have hk : (~~~k.flag).toNat.testBit j.bit = decide (k ≠ j) := by cases k <;> cases j <;> decide
  rw [pendingBit, UInt32.toNat_and, testBit_and, hk, pendingBit]

theorem toNat_add_step (x : UInt32) :
    (x + stateReaderCountChangeStep).toNat = (x.toNat + 4) % 2 ^ 32 := UInt32.toNat_add x _

theorem owners_newState_reader (h : owners x < 2 ^ 29) : owners (newState .reader x) = owners x + 1 := by
  rw [newState, owners, toNat_add_step]
  rw [owners] at h ⊢
  omega

theorem toNat_writerFlag : stateOwnedByWriterFlag.toNat = 2 ^ 31 := rfl

theorem owners_newState_writer (h : owners x = 0) : owners (newState .writer x) = 2 ^ 29 := by
  rw [owners] at h
  have hx : x.toNat < 2 ^ 31 := by omega
  rw [newState, stateAddWriterFlag, owners, UInt32.toNat_or, toNat_writerFlag, Nat.or_comm]
  have hor := Nat.two_pow_add_eq_or_of_lt hx 1
  rw [Nat.mul_one] at hor
  omega

theorem pendingBit_newState (x : UInt32) : pendingBit j (newState k x) = pendingBit j x := by
  apply pendingBit_congr
  cases k with
  | reader =>
    rw [newState, toNat_add_step]
    omega
  | writer =>
    exact (or_mod_two_pow (n := 2)).trans (or_zero _)

theorem and_not_writerFlag (x : UInt32) : (x &&& ~~~stateOwnedByWriterFlag).toNat = x.toNat % 2 ^ 31 := by
  exact and_two_pow_sub_one_eq_mod x.toNat 31

theorem owners_and_not_writerFlag (x : UInt32) : owners (x &&& ~~~stateOwnedByWriterFlag) = owners x % 2 ^ 29 := by
  rw [owners, and_not_writerFlag, owners]
  omega

theorem pendingBit_and_not_writerFlag (x : UInt32) :
    pendingBit j (x &&& ~~~stateOwnedByWriterFlag) = pendingBit j x := by
  apply pendingBit_congr
  rw [and_not_writerFlag]
  omega

theorem toNat_sub_step (h : owners x ≠ 0) : (x - stateReaderCountChangeStep).toNat = x.toNat - 4 := by
  rw [owners] at h
  apply UInt32.toNat_sub_of_le
  change 4 ≤ x.toNat
  omega

theorem owners_sub_step (h : owners x ≠ 0) : owners (x - stateReaderCountChangeStep) = owners x - 1 := by
  rw [owners, toNat_sub_step h, owners]
  omega

theorem pendingBit_sub_step (h : owners x ≠ 0) (j : Side) :
    pendingBit j (x - stateReaderCountChangeStep) = pendingBit j x := by
  apply pendingBit_congr
  rw [toNat_sub_step h]
  rw [owners] at h
  omega

end Updates

open Lib

variable {T : Type}

def After.pending : After → Option Side
  | .unpend k _ | .wait k _ _ => some k
  | .retry .. | .timedOut _ | .wake _ | .done => none

def Pc.pending : Pc → Option Side
  | .mark k _ | .futexWait k _ _ | .asleep k _ | .lock (.unpend k _ _) _ => some k
  | .unlocking a | .waking a => a.pending
  | _ => none

/-- The side whose pending flag the thread has set and still relies on. -/
def Pc.marked : Pc → Option Side
  | .mark .. => none
  | p => p.pending

/-- The side whose pending flag the thread is about to clear. -/
def Pc.unmarking : Pc → Option Side
  | .unmark k _ _ => some k
  | _ => none

def Pc.phase : Pc → FutexLock.Phase
  | .lock _ ph => ph
  | .mark .. | .unmark .. | .unlocking _ => .held
  | .waking _ => .wake
  | _ => .out

def Pc.role (p : Pc) : Option Side × Option Side × Option Side := (p.pending, p.marked, p.unmarking)

/-- What a place relies on: a try may acquire in the state it is about to exchange, a writer stores its tid, and an
unlock is done by a holder. -/
def Pc.Ok (preferred : Bool) (reads : Nat) (writes : Bool) : Pc → Prop
  | .tryCas k _ oldState => canAcquire preferred k oldState
  | .unlockLoad => reads ≠ 0 ∨ writes
  | .storeTid _ | .unlockTid | .unlockClear | .unlockAnd => writes
  | .unlockSub => reads ≠ 0
  | _ => True

def pendingWeight (k : Side) (p : Pc) : Nat := if p.pending = some k then 1 else 0

section

variable [Fintype T]

def readers (reads : T → Nat) : Nat := total id reads

def writers (writes : T → Bool) : Nat := total Bool.toNat writes

/-- The owner part of the state counts the holders: readers, or one writer. -/
structure Owned (state : UInt32) (reads : T → Nat) (writes : T → Bool) : Prop where
  word : owners state = 2 ^ 29 * writers writes + readers reads
  exclusive : writers writes = 0 ∧ readers reads < 2 ^ 29 ∨ writers writes = 1 ∧ readers reads = 0

structure Pending (state : UInt32) (pendingCount : Side → UInt32) (pc : T → Pc) : Prop where
  count : ∀ k, (pendingCount k).toNat = total (pendingWeight k) pc
  bit_of_marked : ∀ k t, (pc t).marked = some k → pendingBit k state
  of_bit : ∀ k, pendingBit k state → pendingCount k ≠ 0 ∨ ∃ t, (pc t).unmarking = some k
  of_unmarking : ∀ k t, (pc t).unmarking = some k → pendingCount k = 0

structure Inv (s : State T) : Prop where
  lock : FutexLock.Inv s.pendingLock (Pc.phase ∘ s.pc)
  owned : Owned s.state s.reads s.writes
  pending : Pending s.state s.pendingCount s.pc
  ok : ∀ t, (s.pc t).Ok s.writerNonrecursivePreferred (s.reads t) (s.writes t)

end

section Owned

variable [Fintype T] [DecidableEq T] {state : UInt32} {reads : T → Nat} {writes : T → Bool} {t : T}

omit [DecidableEq T] in
theorem Owned.congr (h : Owned state reads writes) {state' : UInt32} (he : owners state' = owners state) :
    Owned state' reads writes := ⟨he ▸ h.word, h.exclusive⟩

theorem readers_update (reads : T → Nat) (t : T) (n : Nat) :
    readers (update reads t n) + reads t = readers reads + n := total_update id reads t n

theorem writers_update (writes : T → Bool) (t : T) (b : Bool) :
    writers (update writes t b) + (writes t).toNat = writers writes + b.toNat :=
  total_update Bool.toNat writes t b

section

variable (h : Owned state reads writes)
include h

theorem Owned.reads_le (ht : reads t ≠ 0) : writers writes = 0 ∧ 0 < readers reads := by
  have hle : reads t ≤ readers reads := le_total id reads t
  have := h.exclusive
  omega

theorem Owned.writer_only (ht : writes t) : writers writes = 1 ∧ readers reads = 0 := by
  have hle : (writes t).toNat ≤ writers writes := le_total Bool.toNat writes t
  rw [ht, Bool.toNat_true] at hle
  have := h.exclusive
  omega

theorem Owned.acquire_reader {preferred : Bool}
    (hc : canAcquire preferred .reader state) (hroom : stateReaderCount state < readerCountMax) :
    Owned (newState .reader state) (update reads t (reads t + 1)) writes := by
  have hlt := (canAcquire_reader_iff.1 hc).1
  have hmax : owners state % 2 ^ 29 < 2 ^ 29 - 1 := hroom
  have hr := readers_update reads t (reads t + 1)
  have hw := h.word
  refine ⟨?_, .inl ?_⟩
  · rw [owners_newState_reader hlt]
    omega
  · omega

theorem Owned.acquire_writer {preferred : Bool} (hc : canAcquire preferred .writer state) :
    Owned (newState .writer state) reads (update writes t true) := by
  have hf := canAcquire_writer_iff.1 hc
  have hw := h.word
  have hn : (writes t).toNat ≤ writers writes := le_total Bool.toNat writes t
  have hu := writers_update writes t true
  rw [Bool.toNat_true] at hu
  refine ⟨?_, .inr ?_⟩
  · rw [owners_newState_writer hf]
    omega
  · omega

theorem Owned.release_writer (ht : writes t) :
    Owned (state &&& ~~~stateOwnedByWriterFlag) reads (update writes t false) := by
  obtain ⟨h1, h0⟩ := h.writer_only ht
  have hw := h.word
  have hu := writers_update writes t false
  rw [ht, Bool.toNat_true, Bool.toNat_false] at hu
  refine ⟨?_, .inl ?_⟩
  · rw [owners_and_not_writerFlag]
    omega
  · omega

theorem Owned.owners_ne_zero (ht : reads t ≠ 0) : owners state ≠ 0 := by
  have hw := h.word
  have := h.reads_le ht
  omega

theorem Owned.release_reader (ht : reads t ≠ 0) :
    Owned (state - stateReaderCountChangeStep) (update reads t (reads t - 1)) writes := by
  have hr := readers_update reads t (reads t - 1)
  have hw := h.word
  have := h.exclusive
  refine ⟨?_, .inl ?_⟩
  · rw [owners_sub_step (h.owners_ne_zero ht)]
    omega
  · omega

end

end Owned

end Bionic.RwLock
