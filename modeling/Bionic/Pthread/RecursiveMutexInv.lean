import Bionic.Lib.Threads
import Bionic.Pthread.RecursiveMutex

namespace Bionic.RecursiveMutex

open Lib Function
open NormalMutex (mutexTypeMask mutexSharedMask)

variable {T : Type} [DecidableEq T] (errorcheck : Bool)

/-- The error for a caller that holds the mutex `n` times, if its call is refused. -/
def refusal (n : Nat) : Call → Option Result
  | .lock => if n = 0 then none else if errorcheck then some .edeadlk else if n = 2048 then some .eagain else none
  | .trylock => if n = 0 then none else if errorcheck then some .ebusy else if n = 2048 then some .eagain else none
  | .unlock => if n = 0 then some .eperm else none

/-- What a call returns, by the locks of the caller before and after it. -/
inductive Outcome (errorcheck : Bool) : Nat → Nat → Call → Result → Prop
  | refused {n c r} (h : refusal errorcheck n c = some r) : Outcome errorcheck n n c r
  | locked {n c} (hc : c ≠ .unlock) (h : refusal errorcheck n c = none) : Outcome errorcheck n (n + 1) c .zero
  | busy : Outcome errorcheck 0 0 .trylock .ebusy
  | unlocked {n} : Outcome errorcheck (n + 1) n .unlock .zero

def Pc.asleep : Pc → Prop
  | .sleep _ => True
  | _ => False

/-- The thread is awake and bound to leave the word contended, or to wake a sleeper. -/
def Pc.rescuer : Pc → Prop
  | .loopCas _ => True
  | .loopFlip _ _ => True
  | .waitOwner _ _ => True
  | .futexWait _ _ => True
  | .loopLoad _ => True
  | .wake _ => True
  | _ => False

/-- `owner_tid` is set after the mutex is taken and cleared before it is released. -/
def Pc.settled : Pc → Bool
  | .store _ => false
  | .exchange _ => false
  | _ => true

structure Word (bits v : UInt16) : Prop where
  bits_eq : bitsOf v = bits
  level_le : level v ≤ 2
  counter_zero : level v = 0 → counter v = 0

/-- What the thread at a place knows: its copies, what it has seen, and how often it holds the mutex now and held it
when its call began. -/
def Pc.Ok (bits : UInt16) (held started : Nat) : Pc → Prop
  | .out none => True
  | .out (some (c, r)) => Outcome errorcheck started held c r
  | .check => held = started
  | .load _ => held = started
  | .owner _ old => held = started ∧ Word bits old ∧ (0 < held → held = counter old + 1)
  | .add c => held = started ∧ c ≠ .unlock ∧ errorcheck = false ∧ 0 < held ∧ held < 2048
  | .cas c b => held = 0 ∧ started = 0 ∧ b = bits ∧ c ≠ .unlock
  | .loopCas b => held = 0 ∧ started = 0 ∧ b = bits
  | .loopFlip b old => held = 0 ∧ started = 0 ∧ b = bits ∧ level old = 1
  | .waitOwner b old => held = 0 ∧ started = 0 ∧ b = bits ∧ level old = 2
  | .futexWait b value => held = 0 ∧ started = 0 ∧ b = bits ∧ level value.toUInt16 = 2
  | .sleep b => held = 0 ∧ started = 0 ∧ b = bits
  | .loopLoad b => held = 0 ∧ started = 0 ∧ b = bits
  | .store c => held = 1 ∧ started = 0 ∧ c ≠ .unlock
  | .sub => held = started ∧ 1 < held
  | .clear b => held = 1 ∧ started = 1 ∧ b = bits
  | .exchange b => held = 1 ∧ started = 1 ∧ b = bits
  | .wake b => held = 0 ∧ started = 1 ∧ b = bits

@[simp] def ownerOf (ids : Ids T) (pc : T → Pc) : Option T → UInt32
  | none => 0
  | some t => if (pc t).settled then ids.tid t else 0

structure Inv (ids : Ids T) (errorcheck : Bool) (bits : UInt16) (holder : Option T) (s : State T) : Prop where
  word : Word bits s.state
  free : level s.state = 0 ↔ holder = none
  held_eq : ∀ t, s.held t = if holder = some t then counter s.state + 1 else 0
  owner_eq : s.ownerTid = ownerOf ids s.pc holder
  ok : ∀ t, (s.pc t).Ok errorcheck bits (s.held t) (s.started t)
  covered : Covered Pc.asleep Pc.rescuer (level s.state = 2) s.pc

variable {ids : Ids T} {errorcheck : Bool} {bits : UInt16} {holder : Option T} {s : State T}

omit [DecidableEq T] in
theorem Ids.stored_eq (ids : Ids T) (t : T) : ids.stored t = ids.tid t := by
  cases h : ids.lp64 with
  | true => simp [Ids.stored, h]
  | false =>
    have hf : (ids.tid t).toNat < 2 ^ 16 := UInt32.lt_iff_toNat_lt.1 (ids.tid_fits h t)
    have hand : (ids.tid t).toNat &&& 0xffff = (ids.tid t).toNat := by
      rw [Nat.and_two_pow_sub_one_eq_mod _ 16, Nat.mod_eq_of_lt hf]
    simp only [Ids.stored, h, Bool.false_eq_true, if_false]
    rw [← UInt32.toNat_inj]
    exact hand

omit [DecidableEq T] in
theorem tid_eq_ownerOf_iff (ids : Ids T) (pc : T → Pc) (holder : Option T) (t : T) :
    ids.tid t = ownerOf ids pc holder ↔ holder = some t ∧ (pc t).settled := by
  cases holder with
  | none => simp [ids.tid_ne_zero t]
  | some u =>
    by_cases hu : (pc u).settled
    · simp only [ownerOf, hu, if_true, ids.tid_injective.eq_iff, Option.some.injEq]
      constructor
      · rintro rfl
        exact ⟨rfl, hu⟩
      · rintro ⟨rfl, -⟩
        rfl
    · simp only [ownerOf, hu, Bool.false_eq_true, if_false, ids.tid_ne_zero t, Option.some.injEq, false_iff, not_and]
      rintro rfl
      exact hu

theorem ownerOf_update (pc : T → Pc) (t : T) (p : Pc) (holder : Option T)
    (h : holder = some t → p.settled = (pc t).settled) :
    ownerOf ids (update pc t p) holder = ownerOf ids pc holder := by
  cases holder with
  | none => rfl
  | some u =>
    by_cases hu : u = t
    · subst hu
      simp [h rfl]
    · simp [hu]

variable {v : UInt16}

theorem Word.bits_low (h : Word bits v) : bits.toNat % 8192 = 0 := by
  rw [← h.bits_eq, toNat_bitsOf]
  omega

theorem Word.fields (h : Word bits v) : Fields bits (counter v) (level v) v := ⟨h.bits_eq, rfl, rfl⟩

theorem Fields.word {c l : Nat} (h : Fields bits c l v) (hl : l ≤ 2) (hc : l = 0 → c = 0) : Word bits v := by
  refine ⟨h.bits_eq, ?_, ?_⟩
  · rwa [h.level_eq]
  · rwa [h.level_eq, h.counter_eq]

theorem Word.eq_unlocked_iff (h : Word bits v) : v = unlocked bits ↔ level v = 0 := by
  have hf := fields_unlocked h.bits_low
  constructor
  · rintro rfl
    exact hf.level_eq
  · intro hl
    exact Fields.inj ⟨h.bits_eq, h.counter_zero hl, hl⟩ hf

section Move

theorem Inv.held_pos_iff (hi : Inv ids errorcheck bits holder s) (t : T) : 0 < s.held t ↔ holder = some t := by
  rw [hi.held_eq t]
  split <;> simp_all

variable {t : T}

section

variable (hi : Inv ids errorcheck bits holder s) {p : Pc} {v : UInt16} {c : Call}
include hi

theorem Inv.holder_eq (h : 0 < s.held t) : holder = some t :=
  (hi.held_pos_iff t).1 h

theorem Inv.tid_eq_iff (t : T) : ids.tid t = s.ownerTid ↔ 0 < s.held t ∧ (s.pc t).settled := by
  rw [hi.owner_eq, tid_eq_ownerOf_iff, hi.held_pos_iff]

theorem Inv.counter_eq (h : 0 < s.held t) : s.held t = counter s.state + 1 := by
  rw [hi.held_eq t, if_pos (hi.holder_eq h)]

theorem Inv.at (hp : s.pc t = p) : p.Ok errorcheck bits (s.held t) (s.started t) := by
  rw [← hp]
  exact hi.ok t

theorem Inv.owner_update (h : holder = some t → p.settled = (s.pc t).settled) :
    s.ownerTid = ownerOf ids (update s.pc t p) holder := by
  rw [ownerOf_update _ _ _ _ h]
  exact hi.owner_eq

/-- A thread that nobody relies on moves, and a contended word stays so. -/
theorem Inv.covered_update (hl : level s.state = 2 → level v = 2) (hr : ¬ (s.pc t).rescuer)
    (ha : ¬ p.asleep) : Covered Pc.asleep Pc.rescuer (level v = 2) (update s.pc t p) := by
  apply hi.covered.update t p fun h => absurd h ha
  rintro (hw | h)
  · exact .inl (hl hw)
  · exact absurd h hr

/-- Thread `t` moves to `p` and changes what it may; the other threads see the same holder, and the same counter if
one of them holds the mutex. -/
theorem Inv.move {s' : State T} {holder' : Option T}
    (hw : Word bits s'.state) (hf : level s'.state = 0 ↔ holder' = none)
    (ho : ∀ u, u ≠ t → (holder' = some u ↔ holder = some u) ∧
      (holder = some u → counter s'.state = counter s.state))
    (hpc : s'.pc = update s.pc t p) (hhe : ∀ u, u ≠ t → s'.held u = s.held u)
    (hm : s'.held t = if holder' = some t then counter s'.state + 1 else 0)
    (hs : ∀ u, u ≠ t → s'.started u = s.started u) (how : s'.ownerTid = ownerOf ids s'.pc holder')
    (hok : p.Ok errorcheck bits (s'.held t) (s'.started t))
    (hcov : Covered Pc.asleep Pc.rescuer (level s'.state = 2) s'.pc) : Inv ids errorcheck bits holder' s' := by
  refine ⟨hw, hf, ?_, how, ?_, hcov⟩
  · intro u
    by_cases hu : u = t
    · subst hu
      exact hm
    · obtain ⟨hsa, hc⟩ := ho u hu
      rw [hhe u hu, hi.held_eq u]
      by_cases hh : holder = some u
      · rw [if_pos hh, if_pos (hsa.2 hh), hc hh]
      · rw [if_neg hh, if_neg fun h => hh (hsa.1 h)]
  · intro u
    by_cases hu : u = t
    · subst hu
      rwa [hpc, update_self]
    · rw [hpc, update_of_ne hu, hhe u hu, hs u hu]
      exact hi.ok u

theorem Inv.goto (t : T) (p : Pc)
    (hok : p.Ok errorcheck bits (s.held t) (s.started t)) (hset : p.settled = (s.pc t).settled)
    (hs : p.asleep → level s.state = 2)
    (hre : (s.pc t).rescuer → level s.state = 2 ∨ p.rescuer ∨ (∃ u, u ≠ t ∧ (s.pc u).rescuer) ∨
      ∀ u, u ≠ t → ¬ (s.pc u).asleep) : Inv ids errorcheck bits holder (s.goto t p) := by
  refine hi.move (t := t) (p := p) hi.word hi.free (fun u _ => ⟨Iff.rfl, fun _ => rfl⟩) rfl (fun u _ => rfl)
    (hi.held_eq t) (fun u _ => rfl) (hi.owner_update fun _ => hset) hok ?_
  exact hi.covered.update t p hs fun h => h.elim .inl hre

/-- The mutex was free and `t` takes it. A thread that was to rescue the sleepers leaves the word contended. -/
theorem Inv.acquire {l : Nat}
    (hold : s.state = unlocked bits) (hv : Fields bits 0 l v) (hl : l = 2 ∨ l = 1 ∧ ¬ (s.pc t).rescuer)
    (hok : (Pc.store c).Ok errorcheck bits 1 (s.started t)) :
    Inv ids errorcheck bits (some t) ((State.goto { s with state := v } t (.store c)).setHeld t 1) := by
  have hle := hi.word.eq_unlocked_iff.1 hold
  have hn := hi.free.1 hle
  have hwo : Word bits v := hv.word (by omega) (by omega)
  refine hi.move (t := t) (p := .store c) hwo ?_ ?_ rfl ?_ ?_ (fun u _ => rfl) ?_ ?_ ?_
  · change level v = 0 ↔ _
    rw [hv.level_eq]
    simp only [reduceCtorEq, iff_false]
    omega
  · intro u hu
    subst hn
    simp [Ne.symm hu]
  · intro u hu
    simp [hu]
  · change update s.held t 1 t = if some t = some t then counter v + 1 else 0
    rw [update_self, if_pos rfl, hv.counter_eq]
  · rw [hi.owner_eq, hn]
    simp [Pc.settled]
  · change (Pc.store c).Ok errorcheck bits (update s.held t 1 t) _
    rwa [update_self]
  · change Covered _ _ (level v = 2) _
    rw [hv.level_eq]
    apply hi.covered.update t (.store c) False.elim
    rintro (hw | hr)
    · omega
    · rcases hl with h | ⟨-, h⟩
      · exact .inl h
      · exact absurd hr h

theorem Inv.recount {n : Nat} (hhe : 0 < s.held t) (hset : (s.pc t).settled) (hre : ¬ (s.pc t).rescuer)
    (hv : Fields bits n (level s.state) v) (hok : Outcome errorcheck (s.started t) (n + 1) c .zero) :
    Inv ids errorcheck bits holder ((State.return { s with state := v } t c .zero).setHeld t (n + 1)) := by
  have hh := hi.holder_eq hhe
  have hlo : level s.state ≠ 0 := by
    intro h
    rw [hi.free.1 h] at hh
    cases hh
  have hl : level v = level s.state := hv.level_eq
  refine hi.move (t := t) (p := .out (some (c, .zero))) (hv.word hi.word.level_le fun h => absurd h hlo) ?_ ?_ rfl ?_
    ?_ (fun u _ => rfl) (hi.owner_update fun _ => hset.symm) ?_
    (hi.covered_update (fun hw => hl.trans hw) hre id)
  · change level v = 0 ↔ _
    rw [hl]
    exact hi.free
  · intro u hu
    refine ⟨Iff.rfl, ?_⟩
    intro h
    rw [hh] at h
    exact absurd (Option.some.inj h).symm hu
  · intro u hu
    simp [State.return, hu]
  · change update s.held t (n + 1) t = if holder = some t then counter v + 1 else 0
    rw [update_self, if_pos hh, hv.counter_eq]
  · change Outcome errorcheck (s.started t) (update s.held t (n + 1) t) c .zero
    rwa [update_self]

end

end Move

end Bionic.RecursiveMutex
