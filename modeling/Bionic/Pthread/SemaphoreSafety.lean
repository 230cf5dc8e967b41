import Bionic.Lib.Threads
import Bionic.Pthread.Semaphore

namespace Bionic.Semaphore

open Lib Function Nat State Pc

section Word

theorem toNat_and_sharedMask (x : UInt32) : (x &&& semcountSharedMask).toNat = x.toNat % 2 := by
  exact and_one_is_mod _

theorem and_valueMask_or {x shared : UInt32} (h : x &&& semcountSharedMask = shared) :
    (x &&& semcountValueMask) ||| shared = x := by
  rw [← UInt32.toNat_inj, ← h, UInt32.toNat_or, UInt32.toNat_and, UInt32.toNat_and, ← and_or_distrib_left]
  exact (and_two_pow_sub_one_eq_mod x.toNat 32).trans (mod_eq_of_lt x.toNat_lt)

theorem semcountToValue_eq (x : UInt32) :
    semcountToValue x = if x.toNat < 2 ^ 31 then (x.toNat / 2 : Int) else ((x.toNat : Int) - 2 ^ 32) / 2 := by
  rw [semcountToValue, BitVec.toInt_sshiftRight, Int.shiftRight_eq_div_pow, BitVec.toInt_eq_toNat_cond]
  simp only [UInt32.toNat_toBitVec]
  split <;> split <;> first | rfl | omega

theorem semcountToValue_le (x : UInt32) : semcountToValue x ≤ semValueMax := by
  have hx := x.toNat_lt
  rw [semcountToValue_eq, semValueMax]
  split <;> omega

theorem toNat_sub_two (x : UInt32) : (x - 2).toNat = (x.toNat + (2 ^ 32 - 2)) % 2 ^ 32 := by
  rw [add_comm]
  rfl

theorem toNat_add_two (x : UInt32) : (x + 2).toNat = (x.toNat + 2) % 2 ^ 32 := UInt32.toNat_add x 2

theorem and_sharedMask_congr {x y : UInt32} (h : y.toNat % 2 = x.toNat % 2) :
    y &&& semcountSharedMask = x &&& semcountSharedMask := by
  rw [← UInt32.toNat_inj, toNat_and_sharedMask, toNat_and_sharedMask, h]

theorem sub_two_and_sharedMask (x : UInt32) : (x - 2) &&& semcountSharedMask = x &&& semcountSharedMask := by
  apply and_sharedMask_congr
  rw [toNat_sub_two]
  omega

theorem add_two_and_sharedMask (x : UInt32) : (x + 2) &&& semcountSharedMask = x &&& semcountSharedMask := by
  apply and_sharedMask_congr
  rw [toNat_add_two]
  omega

theorem semcountDecrement_or {x shared : UInt32} (h : x &&& semcountSharedMask = shared) :
    semcountDecrement x ||| shared = x - 2 := and_valueMask_or ((sub_two_and_sharedMask x).trans h)

theorem semcountIncrement_or {x shared : UInt32} (h : x &&& semcountSharedMask = shared) :
    semcountIncrement x ||| shared = x + 2 := and_valueMask_or ((add_two_and_sharedMask x).trans h)

theorem semcountToValue_sub_two {x : UInt32} (h : 0 ≤ semcountToValue x) :
    semcountToValue (x - 2) = semcountToValue x - 1 := by
  have hx := x.toNat_lt
  rw [semcountToValue_eq, semcountToValue_eq, toNat_sub_two]
  rw [semcountToValue_eq] at h
  split at h
  · split <;> omega
  · omega

theorem semcountToValue_add_two {x : UInt32} (h : 0 ≤ semcountToValue x) (hmax : semcountToValue x ≠ semValueMax) :
    semcountToValue (x + 2) = semcountToValue x + 1 := by
  have hx := x.toNat_lt
  rw [semcountToValue_eq, semcountToValue_eq, toNat_add_two]
  rw [semcountToValue_eq] at h
  rw [semcountToValue_eq, semValueMax] at hmax
  split at h
  · split <;> omega
  · omega

section

variable {x : UInt32} {shared : UInt32} (h : x &&& semcountSharedMask = shared)
include h

theorem shared_cases : shared = 0 ∨ shared = 1 := by
  have hlt : shared.toNat < 2 := by
    rw [← h, toNat_and_sharedMask]
    omega
  rw [← UInt32.toNat_inj, ← UInt32.toNat_inj]
  exact le_one_iff_eq_zero_or_eq_one.1 (le_of_lt_succ hlt)

theorem semcountOne_or :
    semcountToValue (semcountOne ||| shared) = 1 ∧ (semcountOne ||| shared) &&& semcountSharedMask = shared := by
  rcases shared_cases h with rfl | rfl <;> decide

theorem eq_semcountMinusOne_iff : x = shared ||| semcountMinusOne ↔ semcountToValue x = -1 := by
  have hbit := toNat_and_sharedMask x
  rw [h] at hbit
  have hw : (shared ||| semcountMinusOne).toNat = 2 ^ 32 - 2 + shared.toNat := by
    rcases shared_cases h with rfl | rfl <;> decide
  rw [← UInt32.toNat_inj, hw, semcountToValue_eq]
  split <;> omega

end

end Word

variable {T : Type} [DecidableEq T] [Fintype T]

def Pc.asleep : Pc → Bool
  | .sleep _ _ => true
  | _ => false

/-- A post that has raised the value from -1 and has not yet woken the sleepers. -/
def Pc.waking : Pc → Nat
  | .wake _ => 1
  | _ => 0

/-- The copies of the shared bit agree with the word, and `old_value` is one that the loop goes on with. -/
def Pc.LocalsOk (shared : UInt32) : Pc → Prop
  | .out _ | .getShared _ | .trydecLoad _ => True
  | .decLoad _ x | .futexWait _ x | .sleep _ x | .incLoad x | .wake x => x = shared
  | .decCas _ x y old => x = shared ∧ y = shared ∧ 0 ≤ semcountToValue old
  | .trydecCas _ y old => y = shared ∧ 0 < semcountToValue old
  | .incCas x y old => x = shared ∧ y = shared ∧ semcountToValue old ≠ semValueMax

structure Inv (shared : UInt32) (initial : Nat) (s : State T) : Prop where
  bit : s.count &&& semcountSharedMask = shared
  low : -1 ≤ semcountToValue s.count
  locals : ∀ t, (s.pc t).LocalsOk shared
  conserved : initial + s.posts + total waking s.pc = (semcountToValue s.count).toNat + s.waits
  covered : Covered (fun p => p.asleep) (fun p => p.waking = 1) (semcountToValue s.count = -1) s.pc

section Moves

variable {shared : UInt32} {initial : Nat} {s s' : State T} {t : T} {p q : Pc}

omit [DecidableEq T] in
theorem Inv.at (hi : Inv shared initial s) (hp : s.pc t = p) : p.LocalsOk shared := hp ▸ hi.locals t

/-- A thread that is not about to wake others moves. Only a post that goes on to wake the sleepers may raise the
value from -1. -/
theorem Inv.move (hi : Inv shared initial s) (hpc : s'.pc = update s.pc t p)
    (hq : s.pc t = q) (hwa : q.waking = 0) (hbit : s'.count &&& semcountSharedMask = shared)
    (hlow : -1 ≤ semcountToValue s'.count) (hl : p.LocalsOk shared)
    (hc : s'.posts + p.waking + (semcountToValue s.count).toNat + s.waits =
      s.posts + (semcountToValue s'.count).toNat + s'.waits)
    (hs : p.asleep → semcountToValue s'.count = -1)
    (hk : semcountToValue s.count = -1 → semcountToValue s'.count = -1 ∨ p.waking = 1) :
    Inv shared initial s' := by
  subst hq
  refine ⟨hbit, hlow, ?_, ?_, ?_⟩
  · rw [hpc]
    exact (forall_update_iff s.pc fun _ q => q.LocalsOk shared).mpr ⟨hl, fun u _ => hi.locals u⟩
  · have ht := total_update waking s.pc t p
    have hold := hi.conserved
    rw [hpc]
    omega
  · rw [hpc]
    apply hi.covered.update t p hs
    rintro (hold | hold)
    · rcases hk hold with hw | hw
      · exact .inl hw
      · exact .inr (.inl hw)
    · rw [hwa] at hold
      cases hold

theorem Inv.goto (hi : Inv shared initial s) (hq : s.pc t = q) (hw : q.waking = 0) (hl : p.LocalsOk shared)
    (hp : p.waking = 0) (hs : p.asleep → semcountToValue s.count = -1) :
    Inv shared initial (s.goto t p) :=
  hi.move rfl hq hw hi.bit hi.low hl (by simp [hp]) hs .inl

structure Pc.Quiet (shared : UInt32) (p : Pc) : Prop where
  locals : p.LocalsOk shared
  waking : p.waking = 0
  asleep : p.asleep = false

theorem Inv.quiet (hi : Inv shared initial s) (hq : s.pc t = q) (hw : q.waking = 0) (hp : p.Quiet shared) :
    Inv shared initial (s.goto t p) :=
  hi.goto hq hw hp.locals hp.waking (by simp [hp.asleep])

variable (c : Call) (old : UInt32)

theorem quiet_semDec : (semDec c shared shared old).Quiet shared := by
  rw [semDec]
  split
  case isTrue => exact ⟨rfl, rfl, rfl⟩
  case isFalse h => exact ⟨⟨rfl, rfl, Int.not_lt.1 h⟩, rfl, rfl⟩

theorem quiet_trydecFailed : (trydecFailed c).Quiet shared := by
  cases c with
  | timedwait absTimeout =>
    rw [trydecFailed]
    split <;> exact ⟨trivial, rfl, rfl⟩
  | _ => exact ⟨trivial, rfl, rfl⟩

theorem quiet_semTrydec : (semTrydec c shared old).Quiet shared := by
  rw [semTrydec]
  split
  case isTrue => exact quiet_trydecFailed c
  case isFalse h => exact ⟨⟨rfl, Int.not_le.1 h⟩, rfl, rfl⟩

theorem quiet_semInc : (semInc shared shared old).Quiet shared := by
  rw [semInc]
  split
  case isTrue => exact ⟨trivial, rfl, rfl⟩
  case isFalse h => exact ⟨⟨rfl, rfl, h⟩, rfl, rfl⟩

theorem quiet_interrupted : (interrupted shared c).Quiet shared := by
  cases c with
  | wait v =>
    rw [interrupted]
    split <;> exact ⟨by trivial, rfl, rfl⟩
  | _ => exact ⟨trivial, rfl, rfl⟩

section

variable (hi : Inv shared initial s)
include hi

section

variable (hq : s.pc t = q) (hw : q.waking = 0)

include hq hw

theorem Inv.waited (hpos : 0 < semcountToValue s.count) :
    Inv shared initial (waited { s with count := semcountDecrement s.count ||| shared } t) := by
  have hc := semcountDecrement_or hi.bit
  have hv := semcountToValue_sub_two (Int.le_of_lt hpos)
  rw [hc]
  refine hi.move rfl hq hw ?_ ?_ trivial ?_ ?_ ?_
  · exact (sub_two_and_sharedMask s.count).trans hi.bit
  · show -1 ≤ semcountToValue (s.count - 2)
    omega
  · show s.posts + 0 + _ + s.waits = s.posts + (semcountToValue (s.count - 2)).toNat + (s.waits + 1)
    omega
  · intro h
    cases h
  · intro h
    omega

theorem Inv.semDecExchange (c : Call) (hn : 0 ≤ semcountToValue s.count) :
    Inv shared initial (semDecExchange s t c shared shared s.count) := by
  rw [Semaphore.semDecExchange]
  split
  case isTrue hpos => exact hi.waited hq hw hpos
  case isFalse hz =>
    have hc := semcountDecrement_or hi.bit
    have hv := semcountToValue_sub_two hn
    rw [hc]
    refine hi.move rfl hq hw ?_ ?_ rfl ?_ ?_ ?_
    · exact (sub_two_and_sharedMask s.count).trans hi.bit
    · show -1 ≤ semcountToValue (s.count - 2)
      omega
    · show s.posts + 0 + _ + s.waits = s.posts + (semcountToValue (s.count - 2)).toNat + s.waits
      omega
    · intro h
      cases h
    · intro h
      omega

theorem Inv.semIncExchange (hmax : semcountToValue s.count ≠ semValueMax) :
    Inv shared initial (semIncExchange s t shared shared s.count) := by
  have hlow := hi.low
  rw [Semaphore.semIncExchange, semcountPosted]
  split
  case isTrue hneg =>
    obtain ⟨hone, hbit⟩ := semcountOne_or hi.bit
    refine hi.move rfl hq hw hbit ?_ rfl ?_ ?_ fun _ => .inr rfl
    · show -1 ≤ semcountToValue (semcountOne ||| shared)
      omega
    · show s.posts + 1 + _ + s.waits = s.posts + (semcountToValue (semcountOne ||| shared)).toNat + s.waits
      omega
    · intro h
      cases h
  case isFalse hneg =>
    have hv := semcountToValue_add_two (Int.not_lt.1 hneg) hmax
    rw [semcountIncrement_or hi.bit]
    refine hi.move rfl hq hw ?_ ?_ trivial ?_ ?_ ?_
    · exact (add_two_and_sharedMask s.count).trans hi.bit
    · show -1 ≤ semcountToValue (s.count + 2)
      omega
    · show s.posts + 1 + 0 + _ + s.waits = s.posts + (semcountToValue (s.count + 2)).toNat + s.waits
      omega
    · intro h
      cases h
    · intro h
      omega

theorem Inv.futexWait (c : Call) : Inv shared initial (futexWait s t c shared) := by
  rw [Semaphore.futexWait]
  split
  case isTrue h => exact hi.goto hq hw rfl rfl fun _ => (eq_semcountMinusOne_iff hi.bit).1 h
  case isFalse => exact hi.quiet hq hw ⟨rfl, rfl, rfl⟩

end

end

theorem Pc.waking_woken (p : Pc) (x : UInt32) : (p.woken x).waking = p.waking := by
  cases p with
  | sleep c y =>
    rw [woken]
    split <;> rfl
  | _ => rfl

theorem Pc.LocalsOk.woken (h : p.LocalsOk shared) : (p.woken shared).LocalsOk shared ∧ (p.woken shared).asleep = false := by
  cases p with
  | sleep c y =>
    obtain rfl : y = shared := h
    rw [woken, if_pos rfl]
    exact ⟨rfl, rfl⟩
  | _ => exact ⟨h, rfl⟩

/-- Every sleeper waits on the same kind of futex, so all of them are woken. -/
theorem Inv.wake (hi : Inv shared initial s) (hp : s.pc t = .wake shared) :
    Inv shared initial ((wakeAll s shared).posted t) := by
  have ha (u : T) : (((wakeAll s shared).posted t).pc u).LocalsOk shared ∧
      (((wakeAll s shared).posted t).pc u).asleep = false := by
    by_cases hu : u = t
    · subst hu
      simp [Pc.LocalsOk, asleep]
    · simpa [wakeAll, hu] using (hi.locals u).woken
  refine ⟨hi.bit, hi.low, fun u => (ha u).1, ?_, ?_⟩
  · have hs : total waking (wakeAll s shared).pc = total waking s.pc := by
      simp [total, wakeAll, waking_woken]
    have ht := total_update waking (wakeAll s shared).pc t (.out none)
    have hone : ((wakeAll s shared).pc t).waking = 1 := by
      rw [show (wakeAll s shared).pc t = (s.pc t).woken shared from rfl, hp]
      rfl
    have hz : (out none).waking = 0 := rfl
    have hold := hi.conserved
    show initial + (s.posts + 1) + total waking (update (wakeAll s shared).pc t (.out none)) = _
    show _ = (semcountToValue s.count).toNat + s.waits
    omega
  · intro u hu
    rw [(ha u).2] at hu
    cases hu

theorem Inv.exec (hi : Inv shared initial s) (hs : Exec s t s') : Inv shared initial s' := by
  cases hs with
  | call r c hp => exact hi.quiet hp rfl (by cases c <;> exact ⟨trivial, rfl, rfl⟩)
  | getShared c hp =>
    rw [hi.bit]
    exact hi.quiet hp rfl (by cases c <;> exact ⟨rfl, rfl, rfl⟩)
  | decLoad c x hp =>
    obtain rfl := hi.at hp
    rw [hi.bit]
    exact hi.quiet hp rfl (quiet_semDec c s.count)
  | decExchange c x y old hp hold =>
    obtain ⟨rfl, rfl, hn⟩ := hi.at hp
    subst hold
    exact hi.semDecExchange hp rfl c hn
  | decRetry c x y old hp =>
    obtain ⟨rfl, rfl, -⟩ := hi.at hp
    exact hi.quiet hp rfl (quiet_semDec c s.count)
  | trydecLoad c hp =>
    rw [hi.bit]
    exact hi.quiet hp rfl (quiet_semTrydec c s.count)
  | trydecExchange c y old hp hold =>
    obtain ⟨rfl, hpos⟩ := hi.at hp
    subst hold
    exact hi.waited hp rfl hpos
  | trydecRetry c y old hp =>
    obtain ⟨rfl, -⟩ := hi.at hp
    exact hi.quiet hp rfl (quiet_semTrydec c s.count)
  | futexWait c x hp =>
    obtain rfl := hi.at hp
    exact hi.futexWait hp rfl c
  | expired ts x hp | timeout ts x hp => exact hi.quiet hp rfl ⟨trivial, rfl, rfl⟩
  | interrupted c x hp =>
    obtain rfl := hi.at hp
    exact hi.quiet hp rfl (quiet_interrupted c)
  | spurious c x hp =>
    have hl := hi.at hp
    exact hi.quiet hp rfl ⟨hl, rfl, rfl⟩
  | incLoad x hp =>
    obtain rfl := hi.at hp
    rw [hi.bit]
    exact hi.quiet hp rfl (quiet_semInc s.count)
  | incExchange x y old hp hold =>
    obtain ⟨rfl, rfl, hmax⟩ := hi.at hp
    subst hold
    exact hi.semIncExchange hp rfl hmax
  | incRetry x y old hp =>
    obtain ⟨rfl, rfl, -⟩ := hi.at hp
    exact hi.quiet hp rfl (quiet_semInc s.count)
  | wake x hp =>
    obtain rfl := hi.at hp
    exact hi.wake hp

end Moves

def initialShared (pshared : Int) : UInt32 := if pshared ≠ 0 then 1 else 0

theorem semcountFromValue_eq {value : UInt32} (h : (value.toNat : Int) ≤ semValueMax) :
    (semcountFromValue value).toNat = 2 * value.toNat := by
  rw [semValueMax] at h
  have hs : (value <<< 1).toNat = 2 * value.toNat := by
    rw [UInt32.toNat_shiftLeft, shiftLeft_eq]
    show value.toNat * 2 % 2 ^ 32 = _
    omega
  have hbit : (value <<< 1) &&& semcountSharedMask = 0 := by
    rw [← UInt32.toNat_inj, toNat_and_sharedMask, hs]
    exact mul_mod_right 2 _
  have hm := and_valueMask_or hbit
  rw [UInt32.or_zero] at hm
  rw [semcountFromValue, hm, hs]

theorem semInit_spec {pshared : Int} {value count : UInt32} (h : semInit pshared value = some count) :
    count &&& semcountSharedMask = initialShared pshared ∧ semcountToValue count = value.toNat := by
  rw [semInit] at h
  split at h
  case isTrue => cases h
  case isFalse hgt =>
    have hle := Int.not_lt.1 hgt
    have hw := semcountFromValue_eq hle
    have hc : count.toNat = 2 * value.toNat + (initialShared pshared).toNat := by
      obtain rfl := Option.some.inj h
      rw [initialShared]
      split
      case isTrue =>
        rw [UInt32.toNat_or, hw]
        exact (two_pow_add_eq_or_of_lt (i := 1) (by decide) value.toNat).symm
      case isFalse => exact hw
    have hone : (initialShared pshared).toNat < 2 := by
      rw [initialShared]
      split <;> decide
    rw [semValueMax] at hle
    refine ⟨?_, ?_⟩
    · rw [← UInt32.toNat_inj, toNat_and_sharedMask]
      omega
    · rw [semcountToValue_eq]
      split <;> omega

theorem inv_invariant (pshared : Int) (value : UInt32) :
    (system T pshared value).Invariant (Inv (initialShared pshared) value.toNat) where
  init := by
    rintro s ⟨hc, hpc, hp, hw⟩
    obtain ⟨hbit, hv⟩ := semInit_spec hc
    refine ⟨hbit, by omega, ?_, ?_, ?_⟩
    · intro t
      rw [hpc]
      trivial
    · have hz : total waking s.pc = 0 := by
        rw [total_eq_zero_iff]
        intro t
        rw [hpc]
        rfl
      omega
    · intro t ht
      rw [hpc] at ht
      cases ht
  step := by
    rintro s s' hi ⟨t, ht⟩
    exact hi.exec ht

/-- No call is in progress, except that threads may sleep in `sem_wait` or `sem_timedwait`. -/
def Quiescent (s : State T) : Prop := ∀ t, (∃ r, s.pc t = .out r) ∨ (s.pc t).asleep

omit [DecidableEq T] [Fintype T] in
theorem Quiescent.waking {s : State T} (h : Quiescent s) (t : T) : (s.pc t).waking = 0 := by
  rcases h t with ⟨r, hr⟩ | ha
  · rw [hr]
    rfl
  · cases hp : s.pc t with
    | wake x =>
      rw [hp] at ha
      cases ha
    | _ => rfl

section Overflow

omit [Fintype T]

variable {s s' : State T} {t u : T} {p : Pc}

theorem goto_new {q : Pc} (hnew : s.pc u ≠ q) (hu : update s.pc t p u = q) : p = q := by
  rw [update_apply] at hu
  split_ifs at hu
  · exact hu
  · exact absurd hu hnew

theorem trydecFailed_ne_eoverflow (c : Call) : trydecFailed c ≠ .out (some .eoverflow) := by
  cases c with
  | timedwait absTimeout =>
    rw [trydecFailed, checkTimespec]
    split_ifs <;> simp
  | _ => simp [trydecFailed]

/-- Only a post that has just read the largest value fails with EOVERFLOW. -/
theorem Exec.eoverflow (hs : Exec s t s') (hnew : s.pc u ≠ .out (some .eoverflow))
    (hu : s'.pc u = .out (some .eoverflow)) : semcountToValue s.count = semValueMax := by
  cases hs with
  | call r c hp | getShared c hp =>
    have hp' := goto_new hnew hu
    cases c <;> cases hp'
  | decLoad c x hp | decRetry c x y old hp =>
    have hp' := goto_new hnew hu
    rw [semDec] at hp'
    split at hp' <;> cases hp'
  | decExchange c x y old hp hold =>
    rw [semDecExchange] at hu
    split at hu <;> cases goto_new hnew hu
  | trydecLoad c hp | trydecRetry c y old hp =>
    have hp' := goto_new hnew hu
    rw [semTrydec] at hp'
    split at hp'
    · exact absurd hp' (trydecFailed_ne_eoverflow c)
    · cases hp'
  | trydecExchange c y old hp hold | expired ts x hp | timeout ts x hp | spurious c x hp => cases goto_new hnew hu
  | futexWait c x hp =>
    rw [Semaphore.futexWait] at hu
    split at hu <;> cases goto_new hnew hu
  | interrupted c x hp =>
    have hp' := goto_new hnew hu
    rw [Semaphore.interrupted.eq_def] at hp'
    split at hp'
    · split at hp' <;> cases hp'
    · cases hp'
  | incLoad x hp | incRetry x y old hp =>
    have hp' := goto_new hnew hu
    rw [semInc] at hp'
    split at hp'
    case isTrue h => exact h
    case isFalse => cases hp'
  | incExchange x y old hp hold =>
    rw [semIncExchange] at hu
    split at hu <;> cases goto_new hnew hu
  | wake x hp =>
    by_cases h : u = t
    · subst h
      simp at hu
    · have hw : (s.pc u).woken x = .out (some .eoverflow) := by
        simpa [wakeAll, h] using hu
      cases hpc : s.pc u with
      | sleep c y =>
        rw [hpc, woken] at hw
        split at hw <;> cases hw
      | _ =>
        rw [hpc] at hw hnew
        exact absurd hw hnew

end Overflow

theorem semaphore_correct (pshared : Int) (value : UInt32) {s : State T} (hs : (system T pshared value).Reachable s) :
    (Quiescent s → (value.toNat : Int) + s.posts = max (semcountToValue s.count) 0 + s.waits) ∧
      (-1 ≤ semcountToValue s.count ∧ semcountToValue s.count ≤ semValueMax) ∧
      s.count &&& semcountSharedMask = initialShared pshared ∧
      (∀ s' t, (system T pshared value).Step s s' → s.pc t ≠ .out (some .eoverflow) →
        s'.pc t = .out (some .eoverflow) → semcountToValue s.count = semValueMax) ∧
      ¬(Quiescent s ∧ 0 < semcountToValue s.count ∧ ∃ t, (s.pc t).asleep = true) := by
  have hi := (inv_invariant pshared value).reachable hs
  refine ⟨?_, ⟨hi.low, semcountToValue_le s.count⟩, hi.bit, ?_, ?_⟩
  · intro hq
    have hc := hi.conserved
    rw [total_eq_zero_iff.2 hq.waking] at hc
    omega
  · rintro s' t ⟨u, hu⟩ hnew ht
    exact hu.eoverflow hnew ht
  · rintro ⟨hq, hpos, t, ht⟩
    rcases hi.covered t ht with hw | ⟨u, hu⟩
    · omega
    · rw [hq.waking u] at hu
      cases hu

/-- One thread sleeps on a semaphore that started at 0 while the other one is about to wake it. -/
theorem semaphore_correct_contended :
    ∃ s : State Bool, (system Bool 0 0).Reachable s ∧ (s.pc false).asleep = true ∧ s.pc true = .wake 0 ∧
      (Quiescent s → ((0 : UInt32).toNat : Int) + s.posts = max (semcountToValue s.count) 0 + s.waits) ∧
      (-1 ≤ semcountToValue s.count ∧ semcountToValue s.count ≤ semValueMax) ∧
      s.count &&& semcountSharedMask = initialShared 0 ∧
      (∀ s' t, (system Bool 0 0).Step s s' → s.pc t ≠ .out (some .eoverflow) →
        s'.pc t = .out (some .eoverflow) → semcountToValue s.count = semValueMax) ∧
      ¬(Quiescent s ∧ 0 < semcountToValue s.count ∧ ∃ t, (s.pc t).asleep = true) := by
  have h₀ : (system Bool 0 0).Reachable ⟨0, fun _ => .out none, 0, 0⟩ :=
    .of_init ⟨rfl, fun _ => rfl, rfl, rfl⟩
  have h₁ := (h₀.step ⟨false, .call _ (.wait 31) rfl⟩).step ⟨false, .getShared _ rfl⟩
    |>.step ⟨false, .decLoad _ _ rfl⟩
    |>.step ⟨false, .decExchange _ _ _ _ rfl rfl⟩
    |>.step ⟨false, .futexWait _ _ rfl⟩
    |>.step ⟨true, .call _ .post rfl⟩
    |>.step ⟨true, .getShared _ rfl⟩
    |>.step ⟨true, .incLoad _ rfl⟩
    |>.step ⟨true, .incExchange _ _ _ rfl rfl⟩
  exact ⟨_, h₁, rfl, rfl, semaphore_correct 0 0 h₁⟩

end Bionic.Semaphore
