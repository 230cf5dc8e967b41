import Bionic.Lib.System
import Bionic.Lib.Threads

namespace Bionic.Once

open Lib Function

variable {T : Type} [DecidableEq T]

inductive Word
  | notYetStarted
  | underway
  | complete
  deriving DecidableEq, Repr

/-- The next atomic operation of a thread in pthread_once. `cas` and `wait` have the value it read; `init` is
inside the routine; `idle` is outside the call. -/
inductive Pc
  | idle
  | load
  | cas (old : Word)
  | init
  | store
  | wake
  | wait (old : Word)
  | sleep
  deriving DecidableEq, Repr

/-- `runs` counts the runs of the routine, `finished` says that one came to its end, `returned` that some call
has returned. No step reads the three. -/
structure State (T : Type) where
  word : Word
  pc : T → Pc
  runs : Nat
  finished : Bool
  returned : Bool

namespace State

variable (s : State T) (t : T) (old : Word)

def goto (p : Pc) : State T := { s with pc := update s.pc t p }

def ret : State T := { s.goto t .idle with returned := true }

def loopHead : State T :=
  if old = .complete then s.ret t else s.goto t (.cas old)

def exchange : State T :=
  if old = .notYetStarted then { s.goto t .init with word := .underway, runs := s.runs + 1 }
  else { s.goto t (.wait old) with word := .underway }

def futexWait : State T :=
  if s.word = old then s.goto t .sleep else s.goto t .load

def woken (pc : T → Pc) (t : T) : Pc := if pc t = .sleep then .load else pc t

end State

/-- The steps of a thread inside the call. -/
inductive Act (s : State T) : State T → Prop
  | load (t) (hp : s.pc t = .load) : Act s (s.loopHead t s.word)
  | exchange (t) (old) (hp : s.pc t = .cas old) (hw : s.word = old) : Act s (s.exchange t old)
  | exchangeFails (t) (old) (hp : s.pc t = .cas old) (hw : s.word ≠ old) : Act s (s.loopHead t s.word)
  | initDone (t) (hp : s.pc t = .init) : Act s { s.goto t .store with finished := true }
  | store (t) (hp : s.pc t = .store) : Act s { s.goto t .wake with word := .complete }
  | wake (t) (hp : s.pc t = .wake) : Act s ({ s with pc := State.woken s.pc }.ret t)
  | wait (t) (old) (hp : s.pc t = .wait old) : Act s (s.futexWait t old)

/-- With the calls, the failures of the weak compare-exchange and the wakeups that have no cause. -/
inductive Step (s : State T) : State T → Prop
  | act {s'} (h : Act s s') : Step s s'
  | call (t) (hp : s.pc t = .idle) : Step s (s.goto t .load)
  | weakExchange (t) (old) (hp : s.pc t = .cas old) : Step s (s.loopHead t s.word)
  | spurious (t) (hp : s.pc t = .sleep) : Step s (s.goto t .load)

def Init (s : State T) : Prop :=
  s.word = .notYetStarted ∧ (∀ t, s.pc t = .idle) ∧ s.runs = 0 ∧ s.finished = false ∧ s.returned = false

def system (T : Type) [DecidableEq T] : System (State T) := ⟨Init, Step⟩

@[simp] def Pc.initialising (p : Pc) : Prop := p = .init ∨ p = .store

def Pc.Fits (word : Word) (finished : Bool) : Pc → Prop
  | .cas old => old ≠ .complete
  | .wait old => old = .underway
  | .store => finished
  | .wake => word = .complete
  | _ => True

structure Inv (s : State T) : Prop where
  sole : Sole Pc.initialising (s.word = .underway) s.pc
  fits : ∀ t, (s.pc t).Fits s.word s.finished
  runs : s.runs = if s.word = .notYetStarted then 0 else 1
  finished : s.word = .complete → s.finished
  returned : s.returned → s.word = .complete
  rescue : Covered (· = .sleep) (· = .wake) (s.word = .underway) s.pc

variable {s s' : State T} {t : T} {p : Pc}

omit [DecidableEq T] in
theorem Inv.start (h : Init s) : Inv s := by
  obtain ⟨hw, hpc, hru, hf, hr⟩ := h
  refine ⟨⟨?_, ?_⟩, ?_, ?_, ?_, ?_, ?_⟩
  · refine iff_of_false (by simp [hw]) ?_
    rintro ⟨t, ht⟩
    simp [hpc t] at ht
  · intro t u ht
    simp [hpc t] at ht
  · intro t
    rw [hpc t]
    trivial
  · simp [hru, hw]
  · simp [hw]
  · simp [hr]
  · apply Covered.of_awake
    intro t ht
    rw [hpc t] at ht
    cases ht

theorem fits_update {word word' : Word} {finished finished' : Bool} {pc : T → Pc}
    (h : ∀ u, (pc u).Fits word finished) (hp : p.Fits word' finished')
    (hk : ∀ u, u ≠ t → (pc u).Fits word finished → (pc u).Fits word' finished') (u : T) :
    (update pc t p u).Fits word' finished' := by
  rw [update_apply]
  split_ifs with hu
  · exact hp
  · exact hk u hu (h u)

section

variable (h : Inv s)

include h

theorem Inv.goto (hin : p.initialising ↔ (s.pc t).initialising) (hf : p.Fits s.word s.finished)
    (hs : p = .sleep → s.word = .underway) (hw : s.pc t ≠ .wake) : Inv (s.goto t p) where
  sole := h.sole.move Iff.rfl hin
  fits := fits_update h.fits hf fun _ _ hu => hu
  runs := h.runs
  finished := h.finished
  returned := h.returned
  rescue := h.rescue.update t p hs fun hold => .inl (hold.resolve_right hw)

theorem Inv.leaveCall (hp : ¬p.initialising) (hin : ¬(s.pc t).initialising)
    (hf : p.Fits s.word s.finished) (hs : p = .sleep → s.word = .underway) (hw : s.pc t ≠ .wake) :
    Inv (s.goto t p) :=
  h.goto (iff_of_false hp hin) hf hs hw

theorem Inv.loopHead (hin : ¬(s.pc t).initialising) (hwa : s.pc t ≠ .wake) : Inv (s.loopHead t s.word) := by
  rw [State.loopHead]
  split
  · rename_i hw
    have hg : Inv (s.goto t .idle) := h.leaveCall (by simp) hin trivial (by simp) hwa
    exact ⟨hg.sole, hg.fits, hg.runs, hg.finished, fun _ => hw, hg.rescue⟩
  · rename_i hw
    exact h.leaveCall (by simp) hin hw (by simp) hwa

omit [DecidableEq T] in
theorem Inv.underway {old : Word} (hp : s.pc t = .cas old) (hw : s.word = old) (hold : old ≠ .notYetStarted) :
    s.word = .underway := by
  have hfi := h.fits t
  rw [hp] at hfi
  cases hwo : s.word with
  | notYetStarted => exact absurd (hw.symm.trans hwo) hold
  | underway => rfl
  | complete => exact absurd (hw.symm.trans hwo) hfi

theorem Inv.exchange {old : Word} (hp : s.pc t = .cas old) (hw : s.word = old) : Inv (s.exchange t old) := by
  have hin : ¬(s.pc t).initialising := by simp [hp]
  rw [State.exchange]
  split
  · rename_i hold
    have hf : s.word = .notYetStarted := hw.trans hold
    refine ⟨h.sole.enter (by simp [hf]) (.inl rfl) rfl, ?_, ?_, ?_, ?_, ?_⟩
    · refine fits_update h.fits trivial fun u _ hu => ?_
      cases hpc : s.pc u with
      | wake =>
        rw [hpc, hf] at hu
        cases hu
      | idle | load | cas _ | init | store | wait _ | sleep =>
        rw [hpc] at hu
        exact hu
    · have := h.runs
      simp [hf] at this
      simp [this]
    · simp
    · intro hr
      have := h.returned hr
      rw [hf] at this
      cases this
    · exact h.rescue.update t .init (by simp) fun _ => .inl rfl
  · rename_i hold
    have hun := h.underway hp hw hold
    have hg : Inv (s.goto t (.wait old)) := by
      apply h.leaveCall (by simp) hin
      · exact hw.symm.trans hun
      · simp
      · simp [hp]
    have heq : { s.goto t (.wait old) with word := .underway } = s.goto t (.wait old) := by rw [← hun]; rfl
    rwa [heq]

theorem Inv.initDone (hp : s.pc t = .init) : Inv { s.goto t .store with finished := true } where
  sole := h.sole.move Iff.rfl (by simp [hp])
  fits := fits_update h.fits rfl fun u _ hu => by
    cases hpc : s.pc u with
    | store => rfl
    | idle | load | cas _ | init | wait _ | sleep | wake =>
      rw [hpc] at hu
      exact hu
  runs := h.runs
  finished _ := rfl
  returned := h.returned
  rescue := h.rescue.update t .store (by simp) fun hold => .inl (hold.resolve_right (by simp [hp]))

theorem Inv.store (hp : s.pc t = .store) : Inv { s.goto t .wake with word := .complete } where
  sole := h.sole.leave (by simp [hp]) (by simp) (by simp)
  fits := fits_update h.fits rfl fun u _ hu => by
    cases hpc : s.pc u with
    | wake => rfl
    | idle | load | cas _ | init | wait _ | sleep | store =>
      rw [hpc] at hu
      exact hu
  runs := by
    have hun : s.word = .underway := h.sole.taken_iff.mpr ⟨t, .inr hp⟩
    have := h.runs
    rw [if_neg (by simp [hun])] at this
    exact this
  finished _ := by
    have hf := h.fits t
    rwa [hp] at hf
  returned _ := rfl
  rescue := h.rescue.update t .wake (by simp) fun _ => .inr (.inl rfl)

end

omit [DecidableEq T] in
theorem State.woken_cases (pc : T → Pc) (u : T) :
    pc u = .sleep ∧ State.woken pc u = .load ∨ pc u ≠ .sleep ∧ State.woken pc u = pc u := by
  by_cases hu : pc u = .sleep
  · exact .inl ⟨hu, if_pos hu⟩
  · exact .inr ⟨hu, if_neg hu⟩

theorem Inv.wake (h : Inv s) (hp : s.pc t = .wake) : Inv ({ s with pc := State.woken s.pc }.ret t) := by
  have hwo : s.word = .complete := by
    have hf := h.fits t
    rwa [hp] at hf
  have hw : Inv { s with pc := State.woken s.pc } := by
    refine ⟨h.sole.congr Iff.rfl fun u => ?_, fun u => ?_, h.runs, h.finished, h.returned, Covered.of_awake fun u => ?_⟩
    all_goals rcases State.woken_cases s.pc u with ⟨hs, heq⟩ | ⟨hs, heq⟩
    · simp [heq, hs]
    · simp [heq]
    · simp [heq, Pc.Fits]
    · simpa [heq] using h.fits u
    · simp [heq]
    · simpa [heq] using hs
  have hpc : State.woken s.pc t = .wake := by simp [State.woken, hp]
  have hin : ¬(State.woken s.pc t).initialising := by simp [hpc]
  refine ⟨hw.sole.move Iff.rfl (iff_of_false (by simp) hin), fits_update hw.fits trivial ?_, h.runs,
    h.finished, fun _ => hwo, Covered.of_awake fun u => ?_⟩
  · exact fun _ _ hu => hu
  · show update (State.woken s.pc) t .idle u ≠ .sleep
    rw [update_apply]
    split_ifs
    · simp
    · rcases State.woken_cases s.pc u with ⟨_, heq⟩ | ⟨hs, heq⟩
      · simp [heq]
      · rwa [heq]

theorem Inv.act (h : Inv s) (hs : Act s s') : Inv s' := by
  cases hs with
  | load t hp | exchangeFails t old hp hw => exact h.loopHead (by simp [hp]) (by simp [hp])
  | exchange t old hp hw => exact h.exchange hp hw
  | initDone t hp => exact h.initDone hp
  | store t hp => exact h.store hp
  | wake t hp => exact h.wake hp
  | wait t old hp =>
    have hold : old = .underway := by
      have hf := h.fits t
      rwa [hp] at hf
    rw [State.futexWait]
    split
    · rename_i hwo
      exact h.leaveCall (by simp) (by simp [hp]) trivial (fun _ => hwo.trans hold)
        (by simp [hp])
    · exact h.leaveCall (by simp) (by simp [hp]) trivial (by simp) (by simp [hp])

theorem Inv.step (h : Inv s) (hs : Step s s') : Inv s' := by
  cases hs with
  | act ha => exact h.act ha
  | call t hp => exact h.leaveCall (by simp) (by simp [hp]) trivial (by simp) (by simp [hp])
  | weakExchange t old hp => exact h.loopHead (by simp [hp]) (by simp [hp])
  | spurious t hp => exact h.leaveCall (by simp) (by simp [hp]) trivial (by simp) (by simp [hp])

theorem inv_invariant : (system T).Invariant Inv := ⟨fun _ => Inv.start, fun _ _ => Inv.step⟩

omit [DecidableEq T] in
/-- The routine runs at most once; a call that has returned did so after its end; and while a thread is asleep
another one is in the routine or on its way to the wakeup. -/
theorem Inv.safe (h : Inv s) :
    (∀ t u, s.pc t = .init → s.pc u = .init → t = u) ∧ s.runs ≤ 1 ∧
    (s.returned → s.runs = 1 ∧ s.finished) ∧
    ∀ t, s.pc t = .sleep → ∃ u, s.pc u = .init ∨ s.pc u = .store ∨ s.pc u = .wake := by
  refine ⟨fun t u ht hu => h.sole.unique t u (.inl ht) (.inl hu), ?_, ?_, ?_⟩
  · rw [h.runs]
    split <;> decide
  · intro hreturned
    have hword := h.returned hreturned
    refine ⟨?_, h.finished hword⟩
    rw [h.runs, hword]
    rfl
  · intro t ht
    rcases h.rescue t ht with hword | ⟨u, hu⟩
    · obtain ⟨u, hu⟩ := h.sole.taken_iff.mp hword
      exact ⟨u, hu.imp_right .inl⟩
    · exact ⟨u, .inr (.inr hu)⟩

end Bionic.Once
