import Bionic.Lib.System
import Mathlib.Algebra.Order.Group.Nat

namespace Bionic.Keys

open Lib Function

variable {T : Type} [DecidableEq T] {w m : Nat} (l : List Store) (key : BitVec 32)

/-- PTHREAD_KEYS_MAX and the keys reserved for libc and jemalloc. -/
abbrev bionicPthreadKeyCount : Nat := 130

def pthreadDestructorIterations : Nat := 4

def keyValidFlag : BitVec 32 := 1#32 <<< 31

abbrev Index := Fin bionicPthreadKeyCount

def bits (lp64 : Bool) : Nat := if lp64 then 64 else 32

def seqOfKeyInUse (seq : BitVec w) : Bool := seq &&& 1 != 0

/-- A signed comparison, as `pthread_key_t` is an int. -/
def keyInValidRange : Bool := key.slt (keyValidFlag ||| BitVec.ofNat 32 bionicPthreadKeyCount)

theorem index_lt {key : BitVec 32} (h : keyInValidRange key) :
    (key &&& ~~~keyValidFlag).toNat < bionicPthreadKeyCount := by
  have hm : (~~~keyValidFlag).toNat = 2 ^ 31 - 1 := rfl
  have hb : (keyValidFlag ||| BitVec.ofNat 32 bionicPthreadKeyCount).toInt = 130 - 2 ^ 31 := rfl
  rw [keyInValidRange, BitVec.slt_iff_toInt_lt, hb, BitVec.toInt_eq_toNat_cond] at h
  rw [BitVec.toNat_and, hm, Nat.and_two_pow_sub_one_eq_mod]
  change _ < 130
  split at h <;> omega

def index (h : keyInValidRange key) : Index := ⟨_, index_lt h⟩

structure KeyData (w : Nat) where
  seq : BitVec w
  data : UInt64

structure Key where
  slot : Index
  number : Nat
  deriving DecidableEq

structure Store where
  slot : Index
  number : Nat
  value : UInt64

inductive Op
  | create (destructor : UInt64)
  | delete (key : BitVec 32)
  | getspecific (key : BitVec 32)
  | setspecific (key : BitVec 32) (ptr : UInt64)

/-- What a call returns. The value of pthread_getspecific comes with the slot and the number of the key that was alive
there when `seq` was loaded. -/
inductive Result
  | zero
  | einval
  | eagain
  | created (key : BitVec 32)
  | value (v : UInt64) (i : Index) (key : Option Nat)
  | nullForInvalidKey

/-- The next atomic operation of a thread with its locals. `key` is the number of the key that the loaded `seq` belongs
to, which no operation reads. -/
inductive Pc (w : Nat)
  | out (last : Option Result)
  | createLoad (destructor : UInt64) (i : Nat)
  | createCas (destructor : UInt64) (i : Index) (seq : BitVec w)
  | createStore (destructor : UInt64) (i : Index)
  | deleteLoad (i : Index)
  | deleteCas (i : Index) (seq : BitVec w)
  | getLoad (i : Index)
  | getData (i : Index) (seq : BitVec w) (key : Option Nat)
  | setLoad (i : Index) (ptr : UInt64)
  | setData (i : Index) (ptr : UInt64) (seq : BitVec w) (key : Nat)

/-- Where a thread is in pthread_key_clean_all: `rounds` and `called` are its counters, and at `run` a destructor runs. -/
inductive Exit (w : Nat)
  | no
  | load (rounds called : Nat) (i : Index)
  | destructor (rounds called : Nat) (i : Index) (seq : BitVec w) (key : Nat)
  | recheck (rounds called : Nat) (i : Index) (seq : BitVec w) (key : Nat)
  | run (rounds called : Nat) (i : Index)
  | gone

/-- `created` counts the keys created in a slot, `alive` has the keys not deleted and `stores` what each thread
has stored. No operation reads them. -/
structure State (T : Type) (w : Nat) where
  seq : Index → BitVec w
  keyDestructor : Index → UInt64
  keyData : T → Index → KeyData w
  pc : T → Pc w
  exit : T → Exit w
  created : Index → Nat
  alive : List Key
  stores : T → List Store

namespace State

variable (s : State T w) (t : T) (i : Index)

@[simp] def goto (p : Pc w) : State T w := { s with pc := update s.pc t p }

@[simp] def returns (r : Result) : State T w := s.goto t (.out (some r))

@[simp] def setExit (e : Exit w) : State T w :=
  { s with exit := update s.exit t e, pc := update s.pc t (.out none) }

@[simp] def setData (d : KeyData w) : State T w :=
  { s with keyData := update s.keyData t (update (s.keyData t) i d) }

def record (r : Store) : State T w := { s with stores := update s.stores t (r :: s.stores t) }

def keyAt : Option Nat := if ⟨i, s.created i⟩ ∈ s.alive then some (s.created i) else none

end State

def begin : Op → Pc w
  | .create destructor => .createLoad destructor 0
  | .delete key => if h : keyInValidRange key then .deleteLoad (index key h) else .out (some .einval)
  | .getspecific key => if h : keyInValidRange key then .getLoad (index key h) else .out (some .nullForInvalidKey)
  | .setspecific key ptr => if h : keyInValidRange key then .setLoad (index key h) ptr else .out (some .einval)

def createLoop (destructor : UInt64) (i : Index) (seq : BitVec w) : Pc w :=
  if seqOfKeyInUse seq then .createLoad destructor (i + 1) else .createCas destructor i seq

variable (s : State T w) (t : T) (rounds called : Nat)

@[simp] def createKey (destructor : UInt64) (i : Index) (seq : BitVec w) : State T w :=
  { s.goto t (.createStore destructor i) with
    seq := update s.seq i (seq + 1)
    created := update s.created i (s.created i + 1)
    alive := ⟨i, s.created i + 1⟩ :: s.alive }

def deleteCas (i : Index) (seq : BitVec w) : State T w :=
  if s.seq i = seq then
    { s.returns t .zero with
      seq := update s.seq i (seq + 1)
      alive := s.alive.filter (·.slot ≠ i) }
  else s.returns t .einval

def getData (i : Index) (seq : BitVec w) (key : Option Nat) : State T w :=
  if seqOfKeyInUse seq ∧ (s.keyData t i).seq = seq then s.returns t (.value (s.keyData t i).data i key)
  else (s.setData t i { s.keyData t i with data := 0 }).returns t (.value 0 i key)

def setLoad (i : Index) (ptr : UInt64) : State T w :=
  if seqOfKeyInUse (s.seq i) then s.goto t (.setData i ptr (s.seq i) (s.created i)) else s.returns t .einval

def setData (s : State T w) (t : T) (i : Index) (ptr : UInt64) (seq : BitVec w) (key : Nat) : State T w :=
  ((s.setData t i ⟨seq, ptr⟩).record t ⟨i, key, ptr⟩).returns t .zero

def cleanNext (i : Index) : Exit w :=
  if h : i + 1 < bionicPthreadKeyCount then .load rounds called ⟨i + 1, h⟩
  else if called = 0 ∨ rounds = 1 then .gone
  else .load (rounds - 1) 0 0

def cleanLoad (i : Index) : State T w :=
  if seqOfKeyInUse (s.seq i) ∧ s.seq i = (s.keyData t i).seq ∧ (s.keyData t i).data ≠ 0 then
    s.setExit t (.destructor rounds called i (s.seq i) (s.created i))
  else s.setExit t (cleanNext rounds called i)

def cleanDestructor (i : Index) (seq : BitVec w) (key : Nat) : State T w :=
  s.setExit t (if s.keyDestructor i = 0 then cleanNext rounds called i else .recheck rounds called i seq key)

def cleanRecheck (i : Index) (seq : BitVec w) (key : Nat) : State T w :=
  if s.seq i ≠ seq then s.setExit t (cleanNext rounds called i)
  else
    ((s.setData t i { s.keyData t i with data := 0 }).record t ⟨i, key, 0⟩).setExit t (.run rounds called i)

/-- The thread may call the functions: it is not in pthread_key_clean_all, or runs a destructor there. -/
def Exit.userRuns : Exit w → Prop
  | .no => True
  | .run _ _ _ => True
  | _ => False

inductive Exec (s : State T w) (t : T) : State T w → Prop
  | call (last op) (hp : s.pc t = .out last) (hu : (s.exit t).userRuns) : Exec s t (s.goto t (begin op))
  | createLoad (d i) (hp : s.pc t = .createLoad d i) (hi : i < bionicPthreadKeyCount) :
      Exec s t (s.goto t (createLoop d ⟨i, hi⟩ (s.seq ⟨i, hi⟩)))
  | createFull (d i) (hp : s.pc t = .createLoad d i) (hi : ¬ i < bionicPthreadKeyCount) : Exec s t (s.returns t .eagain)
  | createCas (d i seq) (hp : s.pc t = .createCas d i seq) (hold : s.seq i = seq) : Exec s t (createKey s t d i seq)
  | createRetry (d i seq) (hp : s.pc t = .createCas d i seq) : Exec s t (s.goto t (createLoop d i (s.seq i)))
  | createStore (d i) (hp : s.pc t = .createStore d i) :
      Exec s t
        ({ s with keyDestructor := update s.keyDestructor i d }.returns t
          (.created (BitVec.ofNat 32 i ||| keyValidFlag)))
  | deleteLoad (i) (hp : s.pc t = .deleteLoad i) :
      Exec s t (s.goto t (if seqOfKeyInUse (s.seq i) then .deleteCas i (s.seq i) else .out (some .einval)))
  | deleteCas (i seq) (hp : s.pc t = .deleteCas i seq) : Exec s t (deleteCas s t i seq)
  | getLoad (i) (hp : s.pc t = .getLoad i) : Exec s t (s.goto t (.getData i (s.seq i) (s.keyAt i)))
  | getData (i seq key) (hp : s.pc t = .getData i seq key) : Exec s t (getData s t i seq key)
  | setLoad (i ptr) (hp : s.pc t = .setLoad i ptr) : Exec s t (setLoad s t i ptr)
  | setData (i ptr seq key) (hp : s.pc t = .setData i ptr seq key) : Exec s t (setData s t i ptr seq key)
  | exit (last) (hp : s.pc t = .out last) (he : s.exit t = .no) :
      Exec s t (s.setExit t (.load pthreadDestructorIterations 0 0))
  | cleanLoad (rounds called i) (he : s.exit t = .load rounds called i) : Exec s t (cleanLoad s t rounds called i)
  | cleanDestructor (rounds called i seq key) (he : s.exit t = .destructor rounds called i seq key) :
      Exec s t (cleanDestructor s t rounds called i seq key)
  | cleanRecheck (rounds called i seq key) (he : s.exit t = .recheck rounds called i seq key) :
      Exec s t (cleanRecheck s t rounds called i seq key)
  | destructorReturns (last rounds called i) (hp : s.pc t = .out last) (he : s.exit t = .run rounds called i) :
      Exec s t (s.setExit t (cleanNext rounds (called + 1) i))

def Init : Prop :=
  s = ⟨fun _ => 0, fun _ => 0, fun _ _ => ⟨0, 0⟩, fun _ => .out none, fun _ => .no, fun _ => 0, [], fun _ => []⟩

def system (T : Type) [DecidableEq T] (lp64 : Bool) : System (State T (bits lp64)) :=
  ⟨Init, fun s s' => ∃ t, Exec s t s'⟩

section Numbers

def seqOf (w m : Nat) : BitVec w := BitVec.ofNat w (2 * m - 1)

theorem seqOfKeyInUse_ofNat (hw : 0 < w) (n : Nat) : seqOfKeyInUse (BitVec.ofNat w n) = decide (n % 2 = 1) := by
  have hone : (1 : BitVec w).toNat = 2 ^ 1 - 1 := BitVec.toNat_one hw
  have hdvd : 2 ^ 1 ∣ 2 ^ w := Nat.pow_dvd_pow 2 hw
  have hbit : (BitVec.ofNat w n &&& 1).toNat = n % 2 := by
    rw [BitVec.toNat_and, hone, Nat.and_two_pow_sub_one_eq_mod]
    exact Nat.mod_mod_of_dvd n hdvd
  have hz : (BitVec.ofNat w n &&& 1 = 0) ↔ n % 2 = 0 := by
    rw [← BitVec.toNat_inj, hbit]
    exact Iff.of_eq (congrArg (n % 2 = ·) (Nat.zero_mod _))
  rw [seqOfKeyInUse, bne, Bool.eq_iff_iff]
  simp only [Bool.not_eq_true', beq_eq_false_iff_ne, ne_eq, decide_eq_true_eq, hz]
  omega

theorem seqOfKeyInUse_seqOf (hw : 0 < w) (hm : 0 < m) : seqOfKeyInUse (seqOf w m) := by
  rw [seqOf, seqOfKeyInUse_ofNat hw]
  apply decide_eq_true
  omega

theorem seqOfKeyInUse_even (hw : 0 < w) (m : Nat) : seqOfKeyInUse (BitVec.ofNat w (2 * m)) = false := by
  rw [seqOfKeyInUse_ofNat hw]
  apply decide_eq_false
  omega

theorem seqOf_inj (hw : 32 ≤ w) {c : Nat} (hmc : m ≤ c) (hpos : 0 < c) (hc : c ≤ 2 ^ 31)
    (h : seqOf w m = seqOf w c) : m = c := by
  have hbig : 2 ^ 32 ≤ 2 ^ w := Nat.pow_le_pow_right (by decide) hw
  rw [seqOf, seqOf, ← BitVec.toNat_inj, BitVec.toNat_ofNat, BitVec.toNat_ofNat, Nat.mod_eq_of_lt (by omega),
    Nat.mod_eq_of_lt (by omega)] at h
  omega

theorem ofNat_add_one (n : Nat) : BitVec.ofNat w n + 1 = BitVec.ofNat w (n + 1) := (BitVec.ofNat_add n 1).symm

end Numbers

section Stores

def lastKey (i : Index) : Nat :=
  ((l.find? fun r => r.slot = i).map Store.number).getD 0

def lastStored (i : Index) (n : Nat) : UInt64 :=
  ((l.find? fun r => r.slot = i ∧ r.number = n).map Store.value).getD 0

theorem lastKey_cons_self (i : Index) (n : Nat) (v : UInt64) (l : List Store) : lastKey (⟨i, n, v⟩ :: l) i = n := by
  simp [lastKey]

theorem lastStored_cons_of_ne {i j : Index} {n : Nat} (h : ¬ (i = j ∧ n = m)) (v : UInt64) (l : List Store) :
    lastStored (⟨i, n, v⟩ :: l) j m = lastStored l j m := by
  simp only [lastStored]
  simp [h]

/-- What the thread-local entry of a slot has to do with the stores of the thread. A value that was cleared belongs to
a key that is gone. -/
structure DataOk (alive : List Key) (created : Nat) (i : Index) (l : List Store) (d : KeyData w) : Prop where
  seq_eq : d.seq = seqOf w (lastKey l i)
  le : lastKey l i ≤ created
  value : d.data = lastStored l i (lastKey l i) ∨ ⟨i, lastKey l i⟩ ∉ alive
  fresh : ∀ n, lastKey l i < n → lastStored l i n = 0

end Stores

/-- pthread_getspecific returns what the thread stored last under the key it has seen. -/
def Result.Ok : Result → Prop
  | .value v i (some c) => v = lastStored l i c
  | .value v _ none => v = 0
  | _ => True

def Pc.Ok (alive : List Key) (created : Index → Nat) (l : List Store) (d : Index → KeyData w) : Pc w → Prop
  | .out (some r) => r.Ok l
  | .createCas _ _ seq => seqOfKeyInUse seq = false
  | .deleteCas _ seq => seqOfKeyInUse seq
  | .getData i seq (some c) =>
    seq = seqOf w c ∧ 0 < c ∧ c ≤ created i ∧ lastKey l i ≤ c ∧ (lastKey l i = c → (d i).data = lastStored l i c)
  | .getData i seq none => seqOfKeyInUse seq = false ∧ lastKey l i ≤ created i ∧ ⟨i, lastKey l i⟩ ∉ alive
  | .setData i _ seq c => seq = seqOf w c ∧ 0 < c ∧ c ≤ created i ∧ lastKey l i ≤ c
  | _ => True

def Exit.Ok (created : Index → Nat) (l : List Store) : Exit w → Prop
  | .destructor _ _ i _ c => lastKey l i = c ∧ c ≤ created i
  | .recheck _ _ i _ c => lastKey l i = c ∧ c ≤ created i
  | _ => True

structure SlotsOk (s : State T w) : Prop where
  number : ∀ k ∈ s.alive, k.number = s.created k.slot ∧ 0 < k.number
  seq_eq : ∀ i, s.seq i = if ⟨i, s.created i⟩ ∈ s.alive then seqOf w (s.created i) else BitVec.ofNat w (2 * s.created i)

structure ThreadOk (s : State T w) (t : T) : Prop where
  data : ∀ i, DataOk s.alive (s.created i) i (s.stores t) (s.keyData t i)
  pc : (s.pc t).Ok s.alive s.created (s.stores t) (s.keyData t)
  exit : (s.exit t).Ok s.created (s.stores t)
  busy : (s.exit t).userRuns ∨ s.pc t = .out none

structure Inv (s : State T w) : Prop where
  slots : SlotsOk s
  threads : ∀ t, ThreadOk s t

structure Grows (s s' : State T w) : Prop where
  created : ∀ i, s.created i ≤ s'.created i
  alive : ∀ k, k.number ≤ s.created k.slot → k ∈ s'.alive → k ∈ s.alive

variable {s s' : State T w} {t : T} {i : Index}

section

omit [DecidableEq T]

theorem ThreadOk.grow (h : ThreadOk s t) (hg : Grows s s') (hpc : s'.pc t = s.pc t) (hex : s'.exit t = s.exit t)
    (hd : s'.keyData t = s.keyData t) (hs : s'.stores t = s.stores t) : ThreadOk s' t := by
  refine ⟨?_, ?_, ?_, ?_⟩
  · intro i
    obtain ⟨hseq, hle, hv, hf⟩ := h.data i
    rw [hd, hs]
    refine ⟨hseq, hle.trans (hg.created i), ?_, hf⟩
    exact hv.imp_right fun hde ha => hde (hg.alive _ hle ha)
  · have hp := h.pc
    rw [hpc, hd, hs]
    cases hc : s.pc t with
    | getData i seq key =>
      rw [hc] at hp
      cases key with
      | none => exact ⟨hp.1, hp.2.1.trans (hg.created i), fun ha => hp.2.2 (hg.alive _ hp.2.1 ha)⟩
      | some c => exact ⟨hp.1, hp.2.1, hp.2.2.1.trans (hg.created i), hp.2.2.2⟩
    | setData i ptr seq c =>
      rw [hc] at hp
      exact ⟨hp.1, hp.2.1, hp.2.2.1.trans (hg.created i), hp.2.2.2⟩
    | out last =>
      rw [hc] at hp
      cases last with
      | none => trivial
      | some r => exact hp
    | _ =>
      rw [hc] at hp
      exact hp
  · have he := h.exit
    rw [hex, hs]
    cases hc : s.exit t with
    | destructor rounds called i seq c | recheck rounds called i seq c =>
      rw [hc] at he
      exact ⟨he.1, he.2.trans (hg.created i)⟩
    | _ => trivial
  · rw [hpc, hex]
    exact h.busy

/-- One thread moves. What the others know is kept, as keys do not come back. -/
theorem Inv.move (hi : Inv s) (hslots : SlotsOk s') (hg : Grows s s') (hmine : ThreadOk s' t)
    (hothers : ∀ u, u ≠ t → s'.pc u = s.pc u ∧ s'.exit u = s.exit u ∧ s'.keyData u = s.keyData u ∧
      s'.stores u = s.stores u) : Inv s' := by
  classical
  refine ⟨hslots, ?_⟩
  intro u
  by_cases hu : u = t
  · rw [hu]
    exact hmine
  · obtain ⟨hpc, hexit, hdata, hstores⟩ := hothers u hu
    exact (hi.threads u).grow hg hpc hexit hdata hstores

theorem Inv.moveLocal (hi : Inv s) (hseq : s'.seq = s.seq) (hc : s'.created = s.created)
    (ha : s'.alive = s.alive) (hm : ThreadOk s' t)
    (ho : ∀ u, u ≠ t → s'.pc u = s.pc u ∧ s'.exit u = s.exit u ∧ s'.keyData u = s.keyData u ∧
      s'.stores u = s.stores u) : Inv s' := by
  refine hi.move ⟨?_, ?_⟩ ⟨?_, ?_⟩ hm ho
  · rw [ha, hc]
    exact hi.slots.number
  · rw [hseq, ha, hc]
    exact hi.slots.seq_eq
  · intro i
    rw [hc]
  · intro k _ h
    rwa [ha] at h

end

end Bionic.Keys
