import Bionic.Lib.Progress
import Bionic.Pthread.Once
import Mathlib.Data.Prod.Lex

namespace Bionic.Once

open Lib Function

variable {T : Type} [DecidableEq T] {s s' : State T} {t : T} {p : Pc}

section Measure

def Word.rank : Word → Nat
  | .notYetStarted => 2
  | .underway => 1
  | .complete => 0

/-- How far a thread can go before the word changes or it is woken. A value that was read before the word changed
costs one more round. -/
def Pc.rank (word : Word) : Pc → Nat
  | .idle | .wake => 0
  | .store | .sleep => 1
  | .init => 2
  | .wait old => if old = word then 2 else 5
  | .cas old => if old = word then 3 else 4
  | .load => 4

def Pc.wakes : Pc → Nat
  | .wake => 1
  | _ => 0

variable [Fintype T]

/-- The word only moves on, each wakeup is made once, and between them every thread comes to its end. -/
def measure (word : Word) (pc : T → Pc) : Nat ×ₗ Nat ×ₗ Nat :=
  toLex (word.rank, toLex (total Pc.wakes pc, total (Pc.rank word) pc))

variable {word word' : Word} {pc pc' : T → Pc}

omit [DecidableEq T] in
theorem measure_lt_of_rank (h : word'.rank < word.rank) : measure word' pc' < measure word pc :=
  Prod.Lex.toLex_lt_toLex.2 (.inl h)

theorem measure_update_lt (hs : pc t ≠ .wake) (hp : p ≠ .wake) (h : p.rank word < (pc t).rank word) :
    measure word (update pc t p) < measure word pc := by
  have hw (q : Pc) (hq : q ≠ .wake) : q.wakes = 0 := by
    cases q <;> first | rfl | exact absurd rfl hq
  have hwakes := total_update Pc.wakes pc t p
  have hrank := total_update (Pc.rank word) pc t p
  rw [hw p hp, hw _ hs] at hwakes
  refine Prod.Lex.toLex_lt_toLex.2 (.inr ⟨rfl, Prod.Lex.toLex_lt_toLex.2 (.inr ⟨hwakes, ?_⟩)⟩)
  dsimp only
  omega

theorem measure_loopHead_lt (hs : s.pc t ≠ .wake) (h : 3 < (s.pc t).rank s.word) :
    measure (s.loopHead t s.word).word (s.loopHead t s.word).pc < measure s.word s.pc := by
  have hcas : (Pc.cas s.word).rank s.word = 3 := if_pos rfl
  rw [State.loopHead]
  split
  · exact measure_update_lt hs (by simp) (Nat.zero_lt_of_lt h)
  · exact measure_update_lt hs (by simp) (hcas ▸ h)

theorem measure_wake_lt (hp : pc t = .wake) : measure word (update (State.woken pc) t .idle) < measure word pc := by
  have hwoken : total Pc.wakes (State.woken pc) = total Pc.wakes pc := by
    apply Finset.sum_congr rfl
    intro u _
    rcases State.woken_cases pc u with ⟨hs, heq⟩ | ⟨-, heq⟩
    · rw [heq, hs]
      rfl
    · rw [heq]
  have hpc : State.woken pc t = .wake := by
    simp [State.woken, hp]
  have hwakes := total_update Pc.wakes (State.woken pc) t .idle
  rw [hpc, hwoken] at hwakes
  refine Prod.Lex.toLex_lt_toLex.2 (.inr ⟨rfl, Prod.Lex.toLex_lt_toLex.2 (.inl ?_)⟩)
  simp only [Pc.wakes] at hwakes
  dsimp only
  omega

theorem Inv.measure_lt (h : Inv s) (hs : Act s s') : measure s'.word s'.pc < measure s.word s.pc := by
  cases hs with
  | load t hp => exact measure_loopHead_lt (by simp [hp]) (by simp [hp, Pc.rank])
  | exchange t old hp hw =>
    rw [State.exchange]
    split
    · rename_i hold
      apply measure_lt_of_rank
      rw [hw, hold]
      exact Nat.lt_succ_self 1
    · rename_i hold
      have hun := h.underway hp hw hold
      rw [hun] at hw ⊢
      exact measure_update_lt (by simp [hp]) (by simp) (by simp [hp, Pc.rank, ← hw])
  | exchangeFails t old hp hw => exact measure_loopHead_lt (by simp [hp]) (by simp [hp, Pc.rank, hw.symm])
  | initDone t hp => exact measure_update_lt (by simp [hp]) (by simp) (by simp [hp, Pc.rank])
  | store t hp =>
    apply measure_lt_of_rank
    rw [h.sole.taken_iff.mpr ⟨t, .inr hp⟩]
    exact Nat.zero_lt_one
  | wake t hp => exact measure_wake_lt hp
  | wait t old hp =>
    rw [State.futexWait]
    split
    · rename_i hw
      exact measure_update_lt (by simp [hp]) (by simp) (by simp [hp, Pc.rank, State.goto, hw])
    · rename_i hw
      exact measure_update_lt (by simp [hp]) (by simp) (by simp [hp, Pc.rank, State.goto, Ne.symm hw])

end Measure

section Live

/-- A call is under way or has returned. -/
def Called (s : State T) : Prop := s.returned ∨ ∃ t, s.pc t ≠ .idle

theorem Called.goto (hp : p ≠ .idle) : Called (s.goto t p) :=
  .inr ⟨t, by simpa [State.goto] using hp⟩

theorem called_of_act (hs : Act s s') : Called s' := by
  cases hs with
  | load t hp | exchangeFails t old hp hw =>
    rw [State.loopHead]
    split
    · exact .inl rfl
    · exact .goto (by simp)
  | exchange t old hp hw =>
    rw [State.exchange]
    split
    · exact .inr ⟨t, by simp [State.goto]⟩
    · exact .inr ⟨t, by simp [State.goto]⟩
  | initDone t hp | store t hp => exact .inr ⟨t, by simp [State.goto]⟩
  | wake t hp => exact .inl rfl
  | wait t old hp =>
    rw [State.futexWait]
    split <;> exact .goto (by simp)

theorem Inv.can_act (h : Inv s) (ht : s.pc t ≠ .idle) : ∃ s', Act s s' := by
  cases hp : s.pc t with
  | idle => exact absurd hp ht
  | load => exact ⟨_, .load t hp⟩
  | cas old =>
    by_cases hw : s.word = old
    · exact ⟨_, .exchange t old hp hw⟩
    · exact ⟨_, .exchangeFails t old hp hw⟩
  | init => exact ⟨_, .initDone t hp⟩
  | store => exact ⟨_, .store t hp⟩
  | wake => exact ⟨_, .wake t hp⟩
  | wait old => exact ⟨_, .wait t old hp⟩
  | sleep =>
    obtain ⟨u, hu | hu | hu⟩ := h.safe.2.2.2 t hp
    · exact ⟨_, .initDone u hu⟩
    · exact ⟨_, .store u hu⟩
    · exact ⟨_, .wake u hu⟩

/-- Once somebody has called, the threads come to where all calls have returned and the routine has run. -/
theorem Inv.completes [Fintype T] (h : Inv s) (hc : ∃ t, s.pc t ≠ .idle) :
    Inevitably Act (fun s' => (∀ t, s'.pc t = .idle) ∧ s'.runs = 1 ∧ s'.finished) s := by
  refine Inevitably.of_measure (I := fun s => Inv s ∧ Called s) (fun s => measure s.word s.pc) ?_ ?_ ⟨h, .inr hc⟩
  · rintro s s' ⟨hi, -⟩ hs
    exact ⟨⟨hi.act hs, called_of_act hs⟩, hi.measure_lt hs⟩
  · rintro s ⟨hi, hc⟩
    by_cases hidle : ∀ t, s.pc t = .idle
    · refine .inl ⟨hidle, ?_⟩
      rcases hc with hr | ⟨t, ht⟩
      · exact hi.safe.2.2.1 hr
      · exact absurd (hidle t) ht
    · obtain ⟨t, ht⟩ := not_forall.1 hidle
      exact .inr (hi.can_act ht)

end Live

end Bionic.Once
