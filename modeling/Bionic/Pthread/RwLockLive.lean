import Bionic.Pthread.RwLockSteps

namespace Bionic.RwLock

open Function

variable {T : Type} (pc : T → Pc)

/-- A `committed` thread tries to acquire before it can sleep; a `drowsy` one has read the serial and sleeps if
it is still current; a `leaving` one has timed out and is still counted. -/
inductive Stand
  | committed
  | drowsy (oldSerial : UInt32)
  | asleep
  | leaving
  deriving DecidableEq

inductive Errand
  | choose
  | wake (k : Side)
  deriving DecidableEq

def Caller.patient : Caller → Bool
  | .loop .null | .loop .valid => true
  | _ => false

def After.stand : After → Option (Side × Stand)
  | .unpend k _ | .retry k _ => some (k, .committed)
  | .wait k _ oldSerial => some (k, .drowsy oldSerial)
  | .timedOut _ | .wake _ | .done => none

def Pc.stand : Pc → Option (Side × Stand)
  | .tryLoad k caller | .tryCas k caller _ => if caller.patient then some (k, .committed) else none
  | .recheck k _ | .lock (.pend k _) _ | .mark k _ => some (k, .committed)
  | .lock (.unpend k _ timedOut) _ => some (k, if timedOut then .leaving else .committed)
  | .unmark k _ timedOut => if timedOut then none else some (k, .committed)
  | .unlocking a | .waking a => a.stand
  | .futexWait k _ oldSerial => some (k, .drowsy oldSerial)
  | .asleep k _ => some (k, .asleep)
  | _ => none

def After.errand : After → Option Errand
  | .wake k => some (.wake k)
  | _ => none

def Pc.errand : Pc → Option Errand
  | .lock .choose _ => some .choose
  | .unlocking a | .waking a => a.errand
  | .wake k => some (.wake k)
  | _ => none

def HasErrand (e : Errand) (pc : T → Pc) : Prop := ∃ t, (pc t).errand = some e

def Committed : Prop := ∃ t, (pc t).stand = some (.writer, .committed)

def PresentWriter : Prop := ∃ t st, (pc t).stand = some (.writer, st)

/-- While nobody holds the lock, a writer that waits is looked after: by an unlock, or by another writer that will
acquire the lock and unlock it. -/
structure WriterLive (free : Prop) (serial : Side → UInt32) (pc : T → Pc) : Prop where
  drowsy : free → ∀ t, (pc t).stand = some (.writer, .drowsy (serial .writer)) → HasErrand .choose pc
  asleep : free → ∀ t, (pc t).stand = some (.writer, .asleep) →
    HasErrand .choose pc ∨ HasErrand (.wake .writer) pc ∨ Committed pc

/-- While nobody holds the lock, a reader that waits is looked after by an unlock, or there is a writer about. -/
structure ReaderLive (free : Prop) (serial : Side → UInt32) (pc : T → Pc) : Prop where
  drowsy : free → ∀ t, (pc t).stand = some (.reader, .drowsy (serial .reader)) →
    HasErrand .choose pc ∨ PresentWriter pc
  asleep : free → ∀ t, (pc t).stand = some (.reader, .asleep) →
    HasErrand .choose pc ∨ HasErrand (.wake .reader) pc ∨ PresentWriter pc

structure Live (s : State T) : Prop where
  writer : WriterLive (owners s.state = 0) s.wakeupSerial s.pc
  reader : ReaderLive (owners s.state = 0) s.wakeupSerial s.pc

section Ways

variable {free : Prop} {serial : Side → UInt32} {pc : T → Pc} {s : State T} {k : Side} {p : Pc}

theorem Live.of_held (h : owners s.state ≠ 0) : Live s :=
  ⟨⟨fun h0 => absurd h0 h, fun h0 => absurd h0 h⟩, ⟨fun h0 => absurd h0 h, fun h0 => absurd h0 h⟩⟩

theorem Live.of_choose (h : HasErrand .choose s.pc) : Live s :=
  ⟨⟨fun _ _ _ => h, fun _ _ _ => .inl h⟩, ⟨fun _ _ _ => .inl h, fun _ _ _ => .inl h⟩⟩

theorem ReaderLive.of_present (h : PresentWriter pc) : ReaderLive free serial pc :=
  ⟨fun _ _ _ => .inr h, fun _ _ _ => .inr (.inr h)⟩

def Waits (serial : Side → UInt32) (k : Side) (p : Pc) : Prop :=
  p.stand = some (k, .drowsy (serial k)) ∨ p.stand = some (k, .asleep)

theorem WriterLive.of_none (h : ∀ t, ¬Waits serial .writer (pc t)) : WriterLive free serial pc :=
  ⟨fun _ t ht => absurd (.inl ht) (h t), fun _ t ht => absurd (.inr ht) (h t)⟩

theorem ReaderLive.of_none (h : ∀ t, ¬Waits serial .reader (pc t)) : ReaderLive free serial pc :=
  ⟨fun _ t ht => absurd (.inl ht) (h t), fun _ t ht => absurd (.inr ht) (h t)⟩

/-- The places of the threads that wait. -/
theorem waiting_of_stand {st : Stand} (h : p.stand = some (k, st)) (hc : st ≠ .committed)
    (hl : st ≠ .leaving) : (∃ timed, p = .asleep k timed) ∧ st = .asleep ∨ p.marked = some k ∧ st ≠ .asleep := by
  cases p with
  | asleep j timed =>
    cases h
    exact .inl ⟨⟨timed, rfl⟩, rfl⟩
  | futexWait j timed y =>
    cases h
    exact .inr ⟨rfl, nofun⟩
  | unlocking a | waking a =>
    cases a with
    | wait j timed y =>
      cases h
      exact .inr ⟨rfl, nofun⟩
    | _ =>
      cases h
      try exact absurd rfl hc
  | lock sec ph =>
    cases sec with
    | unpend j timed timedOut =>
      cases timedOut <;> cases h
      · exact absurd rfl hc
      · exact absurd rfl hl
    | _ =>
      cases h
      try exact absurd rfl hc
  | unmark j timed timedOut =>
    cases timedOut <;> cases h
    exact absurd rfl hc
  | tryLoad j caller | tryCas j caller x =>
    cases hp : caller.patient <;> simp [Pc.stand, hp] at h
    exact absurd h.2.symm hc
  | _ =>
    cases h
    try exact absurd rfl hc

theorem asleep_of_stand (h : p.stand = some (k, .asleep)) : ∃ timed, p = .asleep k timed := by
  rcases waiting_of_stand h nofun nofun with ⟨hp, -⟩ | ⟨-, hne⟩
  · exact hp
  · exact absurd rfl hne

theorem marked_of_drowsy {x : UInt32} (h : p.stand = some (k, .drowsy x)) : p.marked = some k := by
  rcases waiting_of_stand h nofun nofun with ⟨-, he⟩ | ⟨hm, -⟩
  · cases he
  · exact hm

theorem Waits.marked (h : Waits serial k p) : p.marked = some k := by
  rcases h with h | h
  · exact marked_of_drowsy h
  · obtain ⟨timed, rfl⟩ := asleep_of_stand h
    rfl

theorem stand_of_pending (h : p.pending = some k) : ∃ st, p.stand = some (k, st) := by
  cases p with
  | mark | futexWait | asleep =>
    cases h
    exact ⟨_, rfl⟩
  | lock sec ph =>
    cases sec with
    | unpend j timed timedOut =>
      cases h
      exact ⟨_, rfl⟩
    | _ => cases h
  | unlocking a | waking a =>
    cases a with
    | unpend | wait =>
      cases h
      exact ⟨_, rfl⟩
    | _ => cases h
  | _ => cases h

end Ways

section Quiet

variable {serial : Side → UInt32} {pc : T → Pc} {k j : Side} {p p' : Pc}

/-- A move that gives up no errand and starts no wait on side `k`. -/
structure Quiet (serial : Side → UInt32) (k : Side) (p p' : Pc) : Prop where
  errand : ∀ e, p.errand = some e → p'.errand = some e
  drowsy : ∀ x, p'.stand = some (k, .drowsy x) → p.stand = some (k, .drowsy x)
  asleep : p'.stand = some (k, .asleep) → Waits serial k p

/-- A move of one thread that takes nothing away from those who wait. -/
structure Calm (serial : Side → UInt32) (p p' : Pc) : Prop where
  quiet : ∀ k, Quiet serial k p p'
  committed : p.stand = some (.writer, .committed) → p'.stand = some (.writer, .committed)
  present : ∀ st, p.stand = some (.writer, st) → ∃ st', p'.stand = some (.writer, st')

theorem Calm.of_eq (hs : p'.stand = p.stand) (he : p'.errand = p.errand) : Calm serial p p' :=
  ⟨fun _ => ⟨fun _ h => he.trans h, fun _ h => hs.symm.trans h, fun h => .inr (hs.symm.trans h)⟩,
    fun h => hs.trans h, fun st h => ⟨st, hs.trans h⟩⟩

def Awake (k : Side) (p : Pc) : Prop := p.stand ≠ some (k, .asleep) ∧ ∀ x, p.stand ≠ some (k, .drowsy x)

theorem Quiet.of_awake (he : p.errand = none) (hp' : Awake k p') : Quiet serial k p p' :=
  ⟨fun e h => (by cases he.symm.trans h), fun x h => absurd h (hp'.2 x), fun h => absurd h hp'.1⟩

theorem awake_of_none (h : p.stand = none) : Awake k p := by
  rw [Awake, h]
  simp

theorem awake_of_committed (h : p.stand = some (j, .committed)) : Awake k p := by
  rw [Awake, h]
  simp

theorem awake_of_leaving (h : p.stand = some (j, .leaving)) : Awake k p := by
  rw [Awake, h]
  simp

theorem Calm.of_waiting {st st' : Stand} (he : p.errand = none) (hp : p.stand = some (k, st))
    (hst : st ≠ .committed) (hp' : p'.stand = some (k, st')) (ha : ∀ j, Awake j p') : Calm serial p p' := by
  refine ⟨fun j => .of_awake he (ha j), fun h => ?_, fun st'' h => ?_⟩
  · cases hp.symm.trans h
    exact absurd rfl hst
  · cases hp.symm.trans h
    exact ⟨st', hp'⟩

/-- A thread that does not wait moves on; if it is a writer it stays committed. -/
theorem Calm.of_awake (he : p.errand = none) (hp' : p'.stand = none ∨ ∃ k, p'.stand = some (k, .committed))
    (hw : ∀ st, p.stand = some (.writer, st) → p'.stand = some (.writer, .committed)) : Calm serial p p' := by
  refine ⟨fun k => .of_awake he ?_, fun h => hw _ h, fun st h => ⟨_, hw st h⟩⟩
  rcases hp' with h0 | ⟨j, h0⟩
  · exact awake_of_none h0
  · exact awake_of_committed h0

variable [DecidableEq T] {t : T}

theorem HasErrand.update {e : Errand} (h : HasErrand e pc) (ht : (pc t).errand = some e → p.errand = some e) :
    HasErrand e (update pc t p) := exists_update (Q := fun q => q.errand = some e) h ht

theorem Committed.update (h : Committed pc)
    (ht : (pc t).stand = some (.writer, .committed) → p.stand = some (.writer, .committed)) :
    Committed (update pc t p) := exists_update (Q := fun q => q.stand = some (.writer, .committed)) h ht

theorem PresentWriter.update (h : PresentWriter pc)
    (ht : ∀ st, (pc t).stand = some (.writer, st) → ∃ st', p.stand = some (.writer, st')) :
    PresentWriter (update pc t p) := by
  apply exists_update (Q := fun q => ∃ st, q.stand = some (.writer, st)) h
  rintro ⟨st, hst⟩
  exact ht st hst

theorem Quiet.waits_update (hq : Quiet serial k (pc t) p) :
    (∀ u, (update pc t p u).stand = some (k, .drowsy (serial k)) →
      (pc u).stand = some (k, .drowsy (serial k))) ∧
    ∀ u, (update pc t p u).stand = some (k, .asleep) → Waits serial k (pc u) :=
  ⟨forall_update (Q := fun u q => q.stand = some (k, .drowsy (serial k)) →
      (pc u).stand = some (k, .drowsy (serial k))) (hq.drowsy _) fun _ _ h => h,
    forall_update (Q := fun u q => q.stand = some (k, .asleep) → Waits serial k (pc u)) hq.asleep
      fun _ _ h => .inr h⟩

theorem WriterLive.quiet {free free' : Prop} (h : WriterLive free serial pc) (hfr : free' → free)
    (hq : Quiet serial .writer (pc t) p)
    (hc : (pc t).stand = some (.writer, .committed) → p.stand = some (.writer, .committed)) :
    WriterLive free' serial (update pc t p) := by
  have hch (h' : HasErrand .choose pc) : HasErrand .choose (update pc t p) := h'.update (hq.errand _)
  refine ⟨fun hf u hu => hch (h.drowsy (hfr hf) u (hq.waits_update.1 u hu)), fun hf u hu => ?_⟩
  rcases hq.waits_update.2 u hu with hd | ha
  · exact .inl (hch (h.drowsy (hfr hf) u hd))
  · rcases h.asleep (hfr hf) u ha with h' | h' | h'
    · exact .inl (hch h')
    · exact .inr (.inl (h'.update (hq.errand _)))
    · exact .inr (.inr (h'.update hc))

theorem ReaderLive.quiet {free free' : Prop} (h : ReaderLive free serial pc) (hfr : free' → free)
    (hq : Quiet serial .reader (pc t) p)
    (hp : ∀ st, (pc t).stand = some (.writer, st) → ∃ st', p.stand = some (.writer, st')) :
    ReaderLive free' serial (update pc t p) := by
  have hc (h' : HasErrand .choose pc) : HasErrand .choose (update pc t p) := h'.update (hq.errand _)
  refine ⟨fun hf u hu => ?_, fun hf u hu => ?_⟩
  · exact (h.drowsy (hfr hf) u (hq.waits_update.1 u hu)).imp hc (·.update hp)
  · rcases hq.waits_update.2 u hu with hd | ha
    · rcases h.drowsy (hfr hf) u hd with h' | h'
      · exact .inl (hc h')
      · exact .inr (.inr (h'.update hp))
    · rcases h.asleep (hfr hf) u ha with h' | h' | h'
      · exact .inl (hc h')
      · exact .inr (.inl (h'.update (hq.errand _)))
      · exact .inr (.inr (h'.update hp))

theorem Live.move {s s' : State T} (h : Live s) (hp : s.pc t = p') (hpc : s'.pc = update s.pc t p)
    (hs : s'.wakeupSerial = s.wakeupSerial) (hf : owners s'.state = 0 → owners s.state = 0)
    (hq : Calm s.wakeupSerial p' p) : Live s' := by
  subst hp
  refine ⟨?_, ?_⟩
  · rw [hpc, hs]
    exact h.writer.quiet hf (hq.quiet .writer) hq.committed
  · rw [hpc, hs]
    exact h.reader.quiet hf (hq.quiet .reader) hq.present

theorem Live.goto {s : State T} (h : Live s) (hp : s.pc t = p') (hq : Calm s.wakeupSerial p' p) : Live (s.goto t p) :=
  h.move hp rfl rfl id hq

theorem stand_of_update {st : Side × Stand} (hp : p.stand = none) {u : T} :
    (update pc t p u).stand = some st → (pc u).stand = some st :=
  forall_update (Q := fun v q => q.stand = some st → (pc v).stand = some st) (fun hu => by cases hp.symm.trans hu)
    (fun _ _ => id) u

theorem not_waits_update (hp : p.stand = none) (h : ∀ u, ¬Waits serial k (pc u)) (u : T) :
    ¬Waits serial k (update pc t p u) :=
  fun hu => h u (hu.imp (stand_of_update hp) (stand_of_update hp))

end Quiet

end Bionic.RwLock
