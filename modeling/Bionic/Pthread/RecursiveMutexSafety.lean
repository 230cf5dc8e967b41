import Bionic.Pthread.RecursiveMutexInv

namespace Bionic.RecursiveMutex

open Function
open NormalMutex (mutexTypeMask mutexSharedMask)

variable {T : Type} [DecidableEq T] {ids : Ids T} {errorcheck : Bool} {bits v : UInt16} {holder : Option T} {s : State T}

def Kind (errorcheck : Bool) (bits : UInt16) : Prop :=
  bits &&& mutexTypeMask = if errorcheck then mutexTypeBitsErrorcheck else mutexTypeBitsRecursive

theorem type_bitsOf (v : UInt16) : bitsOf v &&& mutexTypeMask = v &&& mutexTypeMask := by
  rw [← UInt16.toNat_inj, toNat_and_typeMask, toNat_and_typeMask, toNat_bitsOf]
  omega

theorem Word.kind (h : Word bits v) (hk : Kind errorcheck bits) :
    v &&& mutexTypeMask = if errorcheck then mutexTypeBitsErrorcheck else mutexTypeBitsRecursive := by
  rw [← type_bitsOf, h.bits_eq]
  exact hk

theorem Word.errorcheck_iff (h : Word bits v) (hk : Kind errorcheck bits) :
    v &&& mutexTypeMask = mutexTypeBitsErrorcheck ↔ errorcheck := by
  rw [h.kind hk]
  cases errorcheck with
  | false => exact ⟨fun h => absurd h (by decide), fun h => by cases h⟩
  | true => exact ⟨fun _ => rfl, fun _ => rfl⟩

theorem Pc.rescuer.settled {p : Pc} (h : p.rescuer) : p.settled := by
  cases p <;> first | rfl | exact h.elim

theorem Pc.rescuer.not_asleep {p : Pc} (h : p.rescuer) : ¬ p.asleep := by
  cases p <;> first | exact id | exact h.elim

section Places

variable {old : UInt16}

variable (lp64 : Bool) {c : Call}

theorem wait_ok (h : level old = 2) : (recursiveOrErrorcheckMutexWait lp64 bits old).Ok errorcheck bits 0 0 := by
  cases lp64 with
  | false => exact ⟨rfl, rfl, rfl, h⟩
  | true =>
    refine ⟨rfl, rfl, rfl, ?_⟩
    rwa [toUInt16_futexWord]

theorem wait_rescuer (bits old : UInt16) : (recursiveOrErrorcheckMutexWait lp64 bits old).rescuer := by
  cases lp64 <;> trivial

theorem lockLoop_ok (h : Word bits old) : (lockLoop lp64 bits old).Ok errorcheck bits 0 0 := by
  rw [lockLoop]
  split
  case isTrue => exact ⟨rfl, rfl, rfl⟩
  case isFalse hl =>
    rw [h.eq_unlocked_iff] at hl
    split
    case isTrue hu => exact ⟨rfl, rfl, rfl, (isLockedUncontended_iff old).1 hu⟩
    case isFalse hu =>
      rw [isLockedUncontended_iff] at hu
      have hle := h.level_le
      exact wait_ok lp64 (by omega)

theorem lockLoop_rescuer (bits old : UInt16) : (lockLoop lp64 bits old).rescuer := by
  rw [lockLoop]
  split
  · trivial
  · split
    · trivial
    · exact wait_rescuer lp64 bits old

theorem lockOwned_ok (hk : Kind errorcheck bits) (hw : Word bits old) (hc : c ≠ .unlock) :
    (lockOwned c old).Ok errorcheck bits (counter old + 1) (counter old + 1) := by
  have hlt := hw.fields.counter_lt
  rw [lockOwned]
  split
  case isTrue he =>
    rw [hw.errorcheck_iff hk] at he
    apply Outcome.refused
    cases c <;> simp_all [refusal]
  case isFalse he =>
    rw [hw.errorcheck_iff hk, Bool.not_eq_true] at he
    subst he
    split
    case isTrue hf =>
      rw [counterBitsWillOverflow_iff] at hf
      apply Outcome.refused
      cases c <;> simp_all [refusal]
    case isFalse hf =>
      rw [counterBitsWillOverflow_iff] at hf
      exact ⟨rfl, hc, rfl, by omega, by omega⟩

theorem lockFree_ok (hw : Word bits old) (hc : c ≠ .unlock) : (lockFree lp64 c old).Ok errorcheck bits 0 0 := by
  rw [lockFree, hw.bits_eq]
  split
  · exact lockLoop_ok lp64 hw
  · exact ⟨rfl, rfl, rfl, hc⟩

theorem unlockOwned_ok (hw : Word bits old) :
    (unlockOwned old).Ok errorcheck bits (counter old + 1) (counter old + 1) := by
  rw [unlockOwned, hw.bits_eq]
  split
  case isTrue hz =>
    rw [counterBitsIsZero_iff] at hz
    rw [hz]
    exact ⟨rfl, rfl, rfl⟩
  case isFalse hz =>
    rw [counterBitsIsZero_iff] at hz
    exact ⟨rfl, by omega⟩

theorem afterOwner_ok {n : Nat} (hk : Kind errorcheck bits) (hw : Word bits old) (hn : 0 < n → n = counter old + 1) :
    (afterOwner lp64 (decide (0 < n)) old c).Ok errorcheck bits n n := by
  rcases Nat.eq_zero_or_pos n with rfl | hpos
  · cases c with
    | unlock => exact .refused rfl
    | lock => exact lockFree_ok (c := .lock) lp64 hw (by decide)
    | trylock => exact lockFree_ok (c := .trylock) lp64 hw (by decide)
  · have hown : decide (0 < n) := decide_eq_true hpos
    rw [hn hpos]
    cases c with
    | unlock => exact unlockOwned_ok hw
    | lock => exact lockOwned_ok (c := .lock) hk hw (by decide)
    | trylock => exact lockOwned_ok (c := .trylock) hk hw (by decide)

theorem afterOwner_place (own : Bool) (old : UInt16) (c : Call) :
    (afterOwner lp64 own old c).settled ∧ ¬ (afterOwner lp64 own old c).asleep := by
  have hf (c : Call) : (lockFree lp64 c old).settled ∧ ¬ (lockFree lp64 c old).asleep := by
    rw [lockFree]
    split
    · have h := lockLoop_rescuer lp64 (bitsOf old) old
      exact ⟨h.settled, h.not_asleep⟩
    · exact ⟨rfl, id⟩
  have ho (c : Call) : (lockOwned c old).settled ∧ ¬ (lockOwned c old).asleep := by
    rw [lockOwned]
    split
    · exact ⟨rfl, id⟩
    · split <;> exact ⟨rfl, id⟩
  cases c with
  | unlock =>
    cases own with
    | false => exact ⟨rfl, id⟩
    | true =>
      change (unlockOwned old).settled ∧ ¬ (unlockOwned old).asleep
      rw [unlockOwned]
      split <;> exact ⟨rfl, id⟩
  | lock =>
    cases own with
    | false => exact hf .lock
    | true => exact ho .lock
  | trylock =>
    cases own with
    | false => exact hf .trylock
    | true => exact ho .trylock

end Places

section Steps

variable {t : T} {p q : Pc}

section

variable (hi : Inv ids errorcheck bits holder s)
include hi

theorem Inv.advance (hq : s.pc t = q) (hr : ¬ q.rescuer) (hset : q.settled)
    (hok : p.Ok errorcheck bits (s.held t) (s.started t)) (hp : p.settled) (ha : ¬ p.asleep) :
    Inv ids errorcheck bits holder (s.goto t p) := by
  subst hq
  exact hi.goto t p hok (hp.trans hset.symm) (fun h => absurd h ha) fun h => absurd h hr

theorem Inv.toRescuer (hq : s.pc t = q) (hset : q.settled) (hok : p.Ok errorcheck bits (s.held t) (s.started t))
    (hp : p.rescuer) : Inv ids errorcheck bits holder (s.goto t p) := by
  subst hq
  exact hi.goto t p hok (hp.settled.trans hset.symm) (fun h => absurd h hp.not_asleep) fun _ => .inr (.inl hp)

theorem Inv.reload (hq : s.pc t = q) (hset : q.settled) (hh : s.held t = 0) (hs : s.started t = 0) :
    Inv ids errorcheck bits holder (s.goto t (lockLoop ids.lp64 bits s.state)) := by
  refine hi.toRescuer hq hset ?_ (lockLoop_rescuer ids.lp64 bits s.state)
  rw [hh, hs]
  exact lockLoop_ok ids.lp64 hi.word

theorem Inv.call {last : Option (Call × Result)} (c : Call) (hp : s.pc t = .out last) :
    Inv ids errorcheck bits holder
      { s.goto t (enter c) with started := update s.started t (s.held t) } := by
  have hpl : ¬ (s.pc t).rescuer ∧ (s.pc t).settled := by
    rw [hp]
    exact ⟨id, rfl⟩
  have he : (enter c).Ok errorcheck bits (s.held t) (s.held t) ∧ (enter c).settled ∧ ¬ (enter c).asleep := by
    cases c <;> exact ⟨rfl, rfl, id⟩
  refine hi.move (t := t) (p := enter c) hi.word hi.free (fun u _ => ⟨Iff.rfl, fun _ => rfl⟩) rfl (fun u _ => rfl)
    (hi.held_eq t) (fun u hu => update_of_ne hu _ _) (hi.owner_update fun _ => he.2.1.trans hpl.2.symm) ?_
    (hi.covered_update id hpl.1 he.2.2)
  change (enter c).Ok errorcheck bits (s.held t) (update s.started t (s.held t) t)
  rw [update_self]
  exact he.1

theorem Inv.flip {old : UInt16} (hp : s.pc t = .loopFlip bits old)
    (hold : s.state = old) : Inv ids errorcheck bits holder (flip ids.lp64 s t bits old) := by
  obtain ⟨hh, hs, -, hl⟩ := hi.at hp
  subst hold
  have hw := wait_rescuer ids.lp64 bits (flipContention s.state)
  have hf : Fields bits (counter s.state) 2 (flipContention s.state) :=
    Fields.flip ⟨hi.word.bits_eq, rfl, hl⟩
  have hn : holder ≠ some t := by
    rw [Ne, ← hi.held_pos_iff, hh]
    omega
  refine hi.move (t := t) (p := recursiveOrErrorcheckMutexWait ids.lp64 bits (flipContention s.state))
    (hf.word (Nat.le_refl 2) (by intro h; cases h)) ?_ (fun u _ => ⟨Iff.rfl, fun _ => hf.counter_eq⟩) rfl (fun u _ => rfl) ?_
    (fun u _ => rfl) (hi.owner_update fun h => absurd h hn) ?_ (fun u _ => .inl hf.level_eq)
  · change level (flipContention s.state) = 0 ↔ _
    rw [hf.level_eq, ← hi.free, hl]
    decide
  · change s.held t = _
    rw [if_neg hn, hh]
  · change Pc.Ok errorcheck bits (s.held t) (s.started t) _
    rw [hh, hs]
    exact wait_ok ids.lp64 hf.level_eq

theorem Inv.futexWait {value : UInt32}
    (hp : s.pc t = .futexWait bits value) : Inv ids errorcheck bits holder (futexWait ids.lp64 s t bits value) := by
  obtain ⟨hh, hs, -, hl⟩ := hi.at hp
  rw [RecursiveMutex.futexWait]
  split
  case isTrue hv =>
    have hc : level s.state = 2 := by
      rwa [← hv, toUInt16_futexWord] at hl
    exact hi.goto t (.sleep bits) ⟨hh, hs, rfl⟩ (by rw [hp]; rfl) (fun _ => hc) fun _ => .inl hc
  case isFalse => exact hi.toRescuer hp rfl ⟨hh, hs, rfl⟩ trivial

theorem Inv.setOwner (hh : 0 < s.held t)
    (hr : ¬ (s.pc t).rescuer) (hok : p.Ok errorcheck bits (s.held t) (s.started t)) (ha : ¬ p.asleep)
    {o : UInt32} (ho : o = if p.settled then ids.tid t else 0) :
    Inv ids errorcheck bits holder (State.goto { s with ownerTid := o } t p) := by
  refine hi.move (t := t) (p := p) hi.word hi.free (fun u _ => ⟨Iff.rfl, fun _ => rfl⟩) rfl (fun u _ => rfl)
    (hi.held_eq t) (fun u _ => rfl) ?_ hok (hi.covered_update id hr ha)
  rw [hi.holder_eq hh, ho]
  simp

/-- The word says whether a sleeper may have to be woken, and then the releasing thread does it. -/
theorem Inv.exchange (hp : s.pc t = .exchange bits) : Inv ids errorcheck bits none (unlockExchange s t bits) := by
  obtain ⟨hh, hs, -⟩ := hi.at hp
  have hho : holder = some t := hi.holder_eq (by omega)
  have hf := fields_unlocked hi.word.bits_low
  have hwo : Word bits (unlocked bits) := hf.word (by decide) fun _ => rfl
  refine hi.move (t := t) (p := if isLockedContended s.state then .wake bits else .out (some (.unlock, .zero)))
    hwo ?_ ?_ rfl ?_ ?_ (fun u _ => rfl) ?_ ?_ ?_
  · exact ⟨fun _ => rfl, fun _ => hf.level_eq⟩
  · intro u hu
    rw [hho]
    simp [Ne.symm hu]
  · intro u hu
    simp [unlockExchange, hu]
  · change update s.held t (s.held t - 1) t = 0
    rw [update_self]
    omega
  · change s.ownerTid = 0
    rw [hi.owner_eq, hho]
    simp [hp, Pc.settled]
  · change Pc.Ok errorcheck bits (update s.held t (s.held t - 1) t) (s.started t) _
    rw [update_self, hh, hs]
    split
    · exact ⟨rfl, rfl, rfl⟩
    · exact .unlocked
  · apply hi.covered.update t
    · split <;> exact False.elim
    · rintro (hw | hr)
      · rw [if_pos ((isLockedContended_iff _).2 hw)]
        exact .inr (.inl trivial)
      · rw [hp] at hr
        exact hr.elim

end

end Steps

end Bionic.RecursiveMutex
