import Bionic.Pthread.RecursiveMutexSafety

namespace Bionic.RecursiveMutex

open NormalMutex (mutexTypeMask mutexSharedMask)

variable {T : Type} [DecidableEq T] {ids : Ids T} {errorcheck : Bool} {bits : UInt16} {holder : Option T}
  {s s' : State T} {t : T}

section

variable (hi : Inv ids errorcheck bits holder s) {b : UInt16}
include hi

theorem Inv.owner (hk : Kind errorcheck bits) {c : Call} {old : UInt16} (hp : s.pc t = .owner c old) :
    Inv ids errorcheck bits holder (s.goto t (afterOwner ids.lp64 (ids.tid t = s.ownerTid) old c)) := by
  obtain ⟨hs, hw, hown⟩ := hi.at hp
  have ht : decide (ids.tid t = s.ownerTid) = decide (0 < s.held t) := by
    rw [decide_eq_decide, hi.tid_eq_iff, hp]
    simp [Pc.settled]
  rw [ht]
  have hpl := afterOwner_place ids.lp64 (decide (0 < s.held t)) old c
  refine hi.advance hp id rfl ?_ hpl.1 hpl.2
  rw [← hs]
  exact afterOwner_ok ids.lp64 hk hw hown

theorem Inv.cas {c : Call} (hp : s.pc t = .cas c bits) :
    ∃ holder', Inv ids errorcheck bits holder' (cas ids.lp64 s t c bits) := by
  obtain ⟨hh, hs, -, hc⟩ := hi.at hp
  rw [RecursiveMutex.cas]
  split
  case isTrue hfr =>
    have hf := fields_lockedUncontended hi.word.bits_low
    exact ⟨some t, hi.acquire hfr hf (.inr ⟨rfl, by rw [hp]; exact id⟩) ⟨rfl, hs, hc⟩⟩
  case isFalse hb =>
    refine ⟨holder, ?_⟩
    split
    case isTrue => exact hi.reload hp rfl hh hs
    case isFalse hl =>
      refine hi.advance hp id rfl ?_ rfl id
      rw [hh, hs]
      cases c with
      | lock => exact absurd rfl hl
      | trylock => exact .busy
      | unlock => exact absurd rfl hc

theorem Inv.add {c : Call} (hp : s.pc t = .add c) :
    Inv ids errorcheck bits holder
      ((State.return { s with state := s.state + mutexCounterBitsOne } t c .zero).setHeld t (s.held t + 1)) := by
  obtain ⟨hs, hc, he, hpos, hlt⟩ := hi.at hp
  have hco := hi.counter_eq hpos
  have hf := hi.word.fields.add (by omega)
  have hout : Outcome errorcheck (s.started t) (s.held t + 1) c .zero := by
    rw [← hs]
    apply Outcome.locked hc
    cases c <;> simp_all [refusal] <;> omega
  rw [hco] at hout ⊢
  exact hi.recount hpos (by rw [hp]; rfl) (by rw [hp]; exact id) hf hout

theorem Inv.sub (hp : s.pc t = .sub) :
    Inv ids errorcheck bits holder
      ((State.return { s with state := s.state - mutexCounterBitsOne } t .unlock .zero).setHeld t (s.held t - 1)) := by
  obtain ⟨hs, hlt⟩ := hi.at hp
  have hpos : 0 < s.held t := by omega
  have hc := hi.counter_eq hpos
  obtain ⟨n, hn⟩ : ∃ n, counter s.state = n + 1 := ⟨counter s.state - 1, by omega⟩
  have hf : Fields bits (n + 1) (level s.state) s.state := ⟨hi.word.bits_eq, hn, rfl⟩
  have hout : Outcome errorcheck (s.started t) (n + 1) .unlock .zero := by
    have hst : s.started t = n + 1 + 1 := by omega
    rw [hst]
    exact .unlocked
  have hh : s.held t - 1 = n + 1 := by omega
  rw [hh]
  exact hi.recount hpos (by rw [hp]; rfl) (by rw [hp]; exact id) hf.sub hout

theorem Inv.awaken (hp : s.pc t = .sleep b) : Inv ids errorcheck bits holder (s.goto t (.loopLoad b)) := by
  have hok : (Pc.loopLoad b).Ok errorcheck bits (s.held t) (s.started t) := hi.at (p := .sleep b) hp
  exact hi.toRescuer hp rfl hok trivial

/-- The sleeper that is woken takes over from the waker, so it is moved first. -/
theorem Inv.wakeOne {u : T} {b' : UInt16} (hp : s.pc t = .wake b) (hu : s.pc u = .sleep b') :
    Inv ids errorcheck bits holder ((s.goto u (.loopLoad b')).return t .unlock .zero) := by
  obtain ⟨hh, hs, -⟩ := hi.at hp
  have htu : t ≠ u := by
    rintro rfl
    rw [hp] at hu
    cases hu
  have hw := hi.awaken hu
  have hpc : (s.goto u (.loopLoad b')).pc t = .wake b := by
    simp [htu, hp]
  refine hw.goto t _ ?_ (by rw [hpc]; rfl) False.elim ?_
  · change Outcome errorcheck (s.started t) (s.held t) .unlock .zero
    rw [hh, hs]
    exact .unlocked
  · intro _
    refine .inr (.inr (.inl ⟨u, htu.symm, ?_⟩))
    simp [Pc.rescuer]

theorem Inv.wakeNone (hp : s.pc t = .wake b)
    (hn : ∀ u b', s.pc u = .sleep b' → b' &&& mutexSharedMask ≠ b &&& mutexSharedMask) :
    Inv ids errorcheck bits holder (s.return t .unlock .zero) := by
  obtain ⟨hh, hs, rfl⟩ := hi.at hp
  refine hi.goto t _ ?_ (by rw [hp]; rfl) False.elim fun _ => .inr (.inr (.inr ?_))
  · rw [hh, hs]
    exact .unlocked
  · intro u _ hsl
    cases hpc : s.pc u with
    | sleep b' =>
      obtain ⟨-, -, rfl⟩ := hi.at hpc
      exact hn u b' hpc rfl
    | _ =>
      rw [hpc] at hsl
      exact hsl

theorem Inv.exec (hk : Kind errorcheck bits) (he : Exec ids s t s') :
    ∃ holder', Inv ids errorcheck bits holder' s' := by
  cases he with
  | call last c hp => exact ⟨holder, hi.call c hp⟩
  | check hp =>
    have hok : (Pc.load .lock).Ok errorcheck bits (s.held t) (s.started t) := hi.at (p := .check) hp
    exact ⟨holder, hi.advance hp id rfl hok rfl id⟩
  | load c hp =>
    have hs := hi.at hp
    exact ⟨holder, hi.advance hp id rfl ⟨hs, hi.word, fun hpos => hi.counter_eq hpos⟩ rfl id⟩
  | owner c old hp => exact ⟨holder, hi.owner hk hp⟩
  | add c hp => exact ⟨holder, hi.add hp⟩
  | cas c b hp =>
    obtain ⟨-, -, rfl, -⟩ := hi.at hp
    exact hi.cas hp
  | acquire b hp hold =>
    obtain ⟨-, hs, rfl⟩ := hi.at hp
    have hf := fields_lockedContended hi.word.bits_low
    exact ⟨some t, hi.acquire hold hf (.inl rfl) ⟨rfl, hs, by decide⟩⟩
  | acquireRetry b hp | loopLoad b hp =>
    obtain ⟨hh, hs, rfl⟩ := hi.at hp
    exact ⟨holder, hi.reload hp rfl hh hs⟩
  | flip b old hp hold =>
    obtain ⟨-, -, rfl, -⟩ := hi.at hp
    exact ⟨holder, hi.flip hp hold⟩
  | flipRetry b old hp =>
    obtain ⟨hh, hs, rfl, -⟩ := hi.at hp
    exact ⟨holder, hi.reload hp rfl hh hs⟩
  | waitOwner b old hp =>
    obtain ⟨hh, hs, hb, hl⟩ := hi.at hp
    refine ⟨holder, hi.toRescuer hp rfl ⟨hh, hs, hb, ?_⟩ trivial⟩
    rwa [toUInt16_futexWord]
  | futexWait b value hp =>
    obtain ⟨-, -, rfl, -⟩ := hi.at hp
    exact ⟨holder, hi.futexWait hp⟩
  | spurious b hp => exact ⟨holder, hi.awaken hp⟩
  | store c hp =>
    obtain ⟨hh, hs, hc⟩ := hi.at hp
    refine ⟨holder, hi.setOwner (by omega) (by rw [hp]; exact id) ?_ id (ids.stored_eq t)⟩
    rw [hh, hs]
    apply Outcome.locked hc
    cases c <;> first | rfl | exact absurd rfl hc
  | sub hp => exact ⟨holder, hi.sub hp⟩
  | clear b hp =>
    obtain ⟨hh, hs, hb⟩ := hi.at hp
    exact ⟨holder, hi.setOwner (p := .exchange b) (by omega) (by rw [hp]; exact id) ⟨hh, hs, hb⟩ id rfl⟩
  | exchange b hp =>
    obtain ⟨-, -, rfl⟩ := hi.at hp
    exact ⟨none, hi.exchange hp⟩
  | wakeOne b u b' hp hu => exact ⟨holder, hi.wakeOne hp hu⟩
  | wakeNone b hp hn => exact ⟨holder, hi.wakeNone hp hn⟩

end

theorem kind_initialState (errorcheck shared : Bool) : Kind errorcheck (initialState errorcheck shared) := by
  rw [Kind]
  cases errorcheck <;> cases shared <;> decide

theorem Inv.of_init {shared : Bool} (h : Init errorcheck shared s) :
    Inv ids errorcheck (initialState errorcheck shared) none s := by
  obtain ⟨hw, ho, hp, hh⟩ := h
  have hz : level s.state = 0 ∧ counter s.state = 0 := by
    rw [hw]
    cases errorcheck <;> cases shared <;> decide
  refine ⟨⟨?_, ?_, fun _ => hz.2⟩, ⟨fun _ => rfl, fun _ => hz.1⟩, hh, ho, ?_, ?_⟩
  · rw [hw]
    cases errorcheck <;> cases shared <;> decide
  · rw [hz.1]
    decide
  · intro t
    rw [hp t]
    trivial
  · intro t ht
    rw [hp t] at ht
    exact ht.elim

theorem inv_invariant (ids : Ids T) (errorcheck shared : Bool) :
    (system ids errorcheck shared).Invariant
      fun s => ∃ holder, Inv ids errorcheck (initialState errorcheck shared) holder s where
  init := fun _ h => ⟨none, Inv.of_init h⟩
  step := by
    rintro s s' ⟨holder, hi⟩ ⟨t, he⟩
    exact hi.exec (kind_initialState errorcheck shared) he

variable {c : Call} {r : Result}

def Pc.call : Pc → Option Call
  | .out _ => none
  | .check => some .lock
  | .load c => some c
  | .owner c _ => some c
  | .add c => some c
  | .cas c _ => some c
  | .loopCas _ => some .lock
  | .loopFlip _ _ => some .lock
  | .waitOwner _ _ => some .lock
  | .futexWait _ _ => some .lock
  | .sleep _ => some .lock
  | .loopLoad _ => some .lock
  | .store c => some c
  | .sub => some .unlock
  | .clear _ => some .unlock
  | .exchange _ => some .unlock
  | .wake _ => some .unlock

/-- The loads before a call knows whether it is refused. -/
def Pc.loadsLeft : Pc → Nat
  | .check => 3
  | .load _ => 2
  | .owner _ _ => 1
  | _ => 0

theorem refusal_zero (hc : c ≠ .unlock) : refusal errorcheck 0 c = none := by
  cases c <;> first | rfl | exact absurd rfl hc

theorem Pc.Ok.refused_place {p : Pc} {n m : Nat} (h : p.Ok errorcheck bits n m)
    (hc : p.call = some c) (hr : refusal errorcheck m c = some r) : p = .check ∨ p = .load c ∨ ∃ old, p = .owner c old := by
  cases p with
  | out last => cases hc
  | check => exact .inl rfl
  | load c' =>
    cases hc
    exact .inr (.inl rfl)
  | owner c' old =>
    cases hc
    exact .inr (.inr ⟨old, rfl⟩)
  | add c' =>
    cases hc
    obtain ⟨rfl, hne, rfl, hpos, hlt⟩ := h
    cases c <;> simp_all [refusal]
  | cas c' b =>
    cases hc
    obtain ⟨-, rfl, -, hne⟩ := h
    rw [refusal_zero hne] at hr
    cases hr
  | store c' =>
    cases hc
    obtain ⟨-, rfl, hne⟩ := h
    rw [refusal_zero hne] at hr
    cases hr
  | loopCas b | sleep b | loopLoad b | loopFlip b old | waitOwner b old | futexWait b old =>
    cases hc
    obtain ⟨-, rfl, -⟩ := h
    cases hr
  | sub =>
    cases hc
    obtain ⟨rfl, hlt⟩ := h
    simp [refusal] at hr
    omega
  | clear b | exchange b | wake b =>
    cases hc
    obtain ⟨-, rfl, -⟩ := h
    cases hr

theorem afterOwner_refused (lp64 : Bool) {old : UInt16} {n : Nat} (hk : Kind errorcheck bits)
    (hw : Word bits old) (hn : 0 < n → n = counter old + 1) (hr : refusal errorcheck n c = some r) :
    afterOwner lp64 (decide (0 < n)) old c = .out (some (c, r)) := by
  have hki := hw.errorcheck_iff hk
  have hf := counterBitsWillOverflow_iff old
  rcases Nat.eq_zero_or_pos n with rfl | hpos
  · cases c <;> simp_all [refusal, afterOwner]
  · have hown : decide (0 < n) := decide_eq_true hpos
    rw [hown]
    cases c with
    | unlock =>
      simp only [refusal] at hr
      split at hr
      · omega
      · cases hr
    | lock | trylock =>
      simp only [refusal, if_neg (Nat.ne_of_gt hpos)] at hr
      simp only [afterOwner, lockOwned, hki, if_true]
      split at hr
      case isTrue he =>
        cases hr
        simp [he]
      case isFalse he =>
        split at hr
        case isTrue hmax =>
          cases hr
          simp only [he, hf]
          rw [if_neg (by simp), if_pos (by omega)]
        case isFalse => cases hr

section

variable (hi : Inv ids errorcheck bits holder s)

include hi

theorem Inv.refused (hk : Kind errorcheck bits) (he : Exec ids s t s')
    (hc : (s.pc t).call = some c) (hr : refusal errorcheck (s.started t) c = some r) :
    s'.state = s.state ∧ s'.ownerTid = s.ownerTid ∧
      ((s'.pc t).call = some c ∧ (s'.pc t).loadsLeft < (s.pc t).loadsLeft ∨ s'.pc t = .out (some (c, r))) := by
  have hpl := (hi.ok t).refused_place hc hr
  cases he with
  | check hp | load c' hp =>
    rw [hp] at hc
    cases hc
    refine ⟨rfl, rfl, .inl ?_⟩
    simp [hp, Pc.call, Pc.loadsLeft]
  | owner c' old hp =>
    rw [hp] at hc
    cases hc
    obtain ⟨hs, hw, hown⟩ := hi.at hp
    have ht : decide (ids.tid t = s.ownerTid) = decide (0 < s.held t) := by
      rw [decide_eq_decide, hi.tid_eq_iff, hp]
      simp [Pc.settled]
    refine ⟨rfl, rfl, .inr ?_⟩
    rw [← hs] at hr
    simp only [State.goto, Function.update_self, ht]
    exact afterOwner_refused ids.lp64 hk hw hown hr
  | _ => simp_all [Pc.call]

/-- The counter field changes in RecursiveIncrement and in the unlock of a mutex that is held more than once. -/
theorem Inv.counter_changed (he : Exec ids s t s')
    (hne : counter s'.state ≠ counter s.state) : 0 < s.held t ∧ ids.tid t = s.ownerTid := by
  have hown (hpos : 0 < s.held t) (hset : (s.pc t).settled) : 0 < s.held t ∧ ids.tid t = s.ownerTid :=
    ⟨hpos, (hi.tid_eq_iff t).2 ⟨hpos, hset⟩⟩
  have hlow := hi.word.bits_low
  cases he with
  | add c hp =>
    obtain ⟨-, -, -, hpos, -⟩ := hi.at hp
    exact hown hpos (by rw [hp]; rfl)
  | sub hp =>
    obtain ⟨-, hlt⟩ := hi.at hp
    exact hown (by omega) (by rw [hp]; rfl)
  | cas c b hp =>
    obtain ⟨-, -, rfl, -⟩ := hi.at hp
    rw [RecursiveMutex.cas] at hne
    split at hne
    case isTrue hf =>
      refine absurd ?_ hne
      rw [hf, (fields_unlocked hlow).counter_eq]
      exact (fields_lockedUncontended hlow).counter_eq
    case isFalse =>
      split at hne <;> exact absurd rfl hne
  | acquire b hp hold =>
    obtain ⟨-, -, rfl⟩ := hi.at hp
    refine absurd ?_ hne
    rw [hold, (fields_unlocked hlow).counter_eq]
    exact (fields_lockedContended hlow).counter_eq
  | flip b old hp hold =>
    obtain ⟨-, -, -, hl⟩ := hi.at hp
    subst hold
    exact absurd (Fields.flip ⟨rfl, rfl, hl⟩).counter_eq hne
  | exchange b hp =>
    obtain ⟨hh, -, rfl⟩ := hi.at hp
    have hc := hi.counter_eq (t := t) (by omega)
    refine absurd ?_ hne
    have hz : counter s.state = 0 := by omega
    rw [hz]
    exact (fields_unlocked hlow).counter_eq
  | _ => exact absurd rfl hne

/-- No thread is between two steps of a call; threads asleep in the kernel are not. -/
def Quiescent (s : State T) : Prop := ∀ t, (∃ last, s.pc t = .out last) ∨ (s.pc t).asleep

theorem Inv.no_lost_wakeup (hq : Quiescent s) (hu : isUnlocked s.state) : ¬ (s.pc t).asleep := by
  rw [isUnlocked_iff] at hu
  intro hs
  rcases hi.covered t hs with hw | ⟨u, hr⟩
  · omega
  · rcases hq u with ⟨last, hl⟩ | hu
    · rw [hl] at hr
      exact hr
    · exact hr.not_asleep hu

/-- Every thread that is not asleep can take its next step: the loads find the kind of mutex they ask for. -/
theorem Inv.progress (hk : Kind errorcheck bits) (t : T) : ∃ s', Exec ids s t s' := by
  have hki : isRecursiveOrErrorcheck s.state := by
    rw [isRecursiveOrErrorcheck, hi.word.kind hk]
    cases errorcheck with
    | false => exact .inl rfl
    | true => exact .inr rfl
  cases hp : s.pc t with
  | out last => exact ⟨_, .call last .lock hp⟩
  | check => exact ⟨_, .check hp hki⟩
  | load c => exact ⟨_, .load c hp hki⟩
  | owner c old => exact ⟨_, .owner c old hp⟩
  | add c => exact ⟨_, .add c hp⟩
  | cas c b => exact ⟨_, .cas c b hp⟩
  | loopCas b => exact ⟨_, .acquireRetry b hp⟩
  | loopFlip b old => exact ⟨_, .flipRetry b old hp⟩
  | waitOwner b old => exact ⟨_, .waitOwner b old hp⟩
  | futexWait b value => exact ⟨_, .futexWait b value hp⟩
  | sleep b => exact ⟨_, .spurious b hp⟩
  | loopLoad b => exact ⟨_, .loopLoad b hp⟩
  | store c => exact ⟨_, .store c hp⟩
  | sub => exact ⟨_, .sub hp⟩
  | clear b => exact ⟨_, .clear b hp⟩
  | exchange b => exact ⟨_, .exchange b hp⟩
  | wake b =>
    by_cases hn : ∀ u b', s.pc u = .sleep b' → b' &&& mutexSharedMask ≠ b &&& mutexSharedMask
    · exact ⟨_, .wakeNone b hp hn⟩
    · push Not at hn
      obtain ⟨u, b', hu, hs⟩ := hn
      exact ⟨_, .wakeOne b u b' hp hu hs⟩

end

theorem recursive_mutex_correct {shared : Bool} (hs : (system ids errorcheck shared).Reachable s) :
    (∀ t s', Exec ids s t s' → counter s'.state ≠ counter s.state → 0 < s.held t ∧ ids.tid t = s.ownerTid) ∧
      (∀ t u, 0 < s.held t → 0 < s.held u → t = u) ∧
      (∀ t, 0 < s.held t → s.held t = counter s.state + 1) ∧
      (∀ t last, s.pc t = .out last → (ids.tid t = s.ownerTid ↔ 0 < s.held t)) ∧
      (∀ t c r, s.pc t = .out (some (c, r)) → Outcome errorcheck (s.started t) (s.held t) c r) ∧
      (∀ t s' c r, Exec ids s t s' → (s.pc t).call = some c → refusal errorcheck (s.started t) c = some r →
        s'.state = s.state ∧ s'.ownerTid = s.ownerTid ∧
          ((s'.pc t).call = some c ∧ (s'.pc t).loadsLeft < (s.pc t).loadsLeft ∨ s'.pc t = .out (some (c, r)))) ∧
      (∀ t, ∃ s', Exec ids s t s') ∧
      bitsOf s.state = initialState errorcheck shared ∧
      ¬ (isUnlocked s.state ∧ Quiescent s ∧ ∃ t, (s.pc t).asleep) := by
  obtain ⟨holder, hi⟩ := (inv_invariant ids errorcheck shared).reachable hs
  have hk := kind_initialState errorcheck shared
  refine ⟨fun t s' => hi.counter_changed, ?_, fun t => hi.counter_eq, ?_, ?_, fun t s' c r he => hi.refused hk he,
    hi.progress hk, hi.word.bits_eq, ?_⟩
  · intro t u ht hu
    exact Option.some.inj ((hi.holder_eq ht).symm.trans (hi.holder_eq hu))
  · intro t last hp
    rw [hi.tid_eq_iff, hp]
    simp [Pc.settled]
  · intro t c r hp
    exact hi.at hp
  · rintro ⟨hu, hq, t, ht⟩
    exact hi.no_lost_wakeup hq hu ht

def twoThreads : Ids Bool := ⟨true, fun t => if t then 1 else 2, by decide, by decide, fun h => by cases h⟩

/-- One thread has the recursive mutex twice and the other one sleeps behind it. -/
theorem recursive_mutex_correct_contended :
    ∃ s : State Bool, (system twoThreads false false).Reachable s ∧ s.held true = 2 ∧ (s.pc false).asleep ∧
      s.held true = counter s.state + 1 ∧ bitsOf s.state = initialState false false := by
  have h₀ : (system twoThreads false false).Reachable ⟨0x4000, 0, fun _ => .out none, fun _ => 0, fun _ => 0⟩ :=
    .of_init ⟨rfl, rfl, fun _ => rfl, fun _ => rfl⟩
  have h₁ := (h₀.step ⟨true, .call none .lock rfl⟩).step ⟨true, .check rfl (.inl rfl)⟩
    |>.step ⟨true, .load .lock rfl (.inl rfl)⟩
    |>.step ⟨true, .owner .lock 0x4000 rfl⟩
    |>.step ⟨true, .cas .lock 0x4000 rfl⟩
    |>.step ⟨true, .store .lock rfl⟩
    |>.step ⟨true, .call (some (.lock, .zero)) .lock rfl⟩
    |>.step ⟨true, .check rfl (.inl (by decide))⟩
    |>.step ⟨true, .load .lock rfl (.inl (by decide))⟩
    |>.step ⟨true, .owner .lock 0x4001 (by decide)⟩
    |>.step ⟨true, .add .lock (by decide)⟩
    |>.step ⟨false, .call none .lock rfl⟩
    |>.step ⟨false, .check rfl (.inl (by decide))⟩
    |>.step ⟨false, .load .lock rfl (.inl (by decide))⟩
    |>.step ⟨false, .owner .lock 0x4005 (by decide)⟩
    |>.step ⟨false, .flip 0x4000 0x4005 (by decide) (by decide)⟩
    |>.step ⟨false, .futexWait 0x4000 0x4006 (by decide)⟩
  obtain ⟨-, -, hc, -, -, -, -, hb, -⟩ := recursive_mutex_correct h₁
  refine ⟨_, h₁, by decide, ?_, hc true (by decide), hb⟩
  trivial

end Bionic.RecursiveMutex
