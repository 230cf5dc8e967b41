import Bionic.Pthread.Barrier

namespace Bionic.Barrier

open Lib Function State Pc

variable {T : Type} [DecidableEq T] [Fintype T] {n : Nat}

section Sleepers

variable {s : State T} {t : T} {count : UInt32} {w : Finset T}

section

omit [DecidableEq T]

theorem Wakes.eq_sleepers (hw : Wakes s count w) (hle : s.sleepers.card ≤ count.toNat) : w = s.sleepers := by
  apply Finset.eq_of_subset_of_card_le hw.1
  rw [hw.2]
  omega

theorem card_sleepers_lt (ht : (s.pc t).asleep = false) : s.sleepers.card < Fintype.card T := by
  apply Finset.card_lt_univ_of_notMem (x := t)
  simp [sleepers, ht]

end

theorem wake_sleepers_pc (u : T) : (s.wake s.sleepers).pc u = (s.pc u).woken := by
  rw [wake]
  dsimp only
  split
  case isTrue => rfl
  case isFalse h =>
    have ha : (s.pc u).asleep = false := by simpa [sleepers] using h
    cases hp : s.pc u <;> rw [hp] at ha <;> first | rfl | cases ha

theorem Pc.woken_ne_sleep (p : Pc) : p.woken ≠ .enterSleep ∧ p.woken ≠ .waitSleep := by
  cases p <;> exact ⟨nofun, nofun⟩

theorem Pc.AllowedIn.woken {ph : Phase} {p : Pc} (h : p.AllowedIn n ph) : p.woken.AllowedIn n ph := by
  cases p with
  | enterSleep | waitSleep => cases ph <;> exact h
  | _ => exact h

end Sleepers

section Steps

variable {count : UInt32} {elected : Nat → Option T} {c : Nat} {ph : Phase} {s : State T} {t u : T} {p q : Pc}
  {α : Type}

/-- The places between which a thread moves without touching the barrier's fields. -/
def Pc.plain : Pc → Bool
  | .out _ | .enterLoad | .enterWait | .enterSleep | .countLoad | .countCas _ | .waitLoad | .waitFutex
  | .waitSleep => true
  | .storeRelease _ | .wakeWaiters _ | .leave _ | .storeWait _ | .wakeEntrants _ => false

section

omit [Fintype T]

theorem allowed_of (hs : s.pc t = p) (hp : p.AllowedIn n ph) (h : ∀ u, u ≠ t → (s.pc u).AllowedIn n ph)
    (u : T) : (s.pc u).AllowedIn n ph := by
  by_cases hu : u = t
  · rwa [hu, hs]
  · exact h u hu

theorem goto_pc_of_ne (hu : u ≠ t) : (s.goto t p).pc u = s.pc u := update_of_ne hu _ _

theorem goto_pc_self : (s.goto t p).pc t = p := update_self _ _ _

theorem allowed_goto (h : ∀ u, (s.pc u).AllowedIn n ph) (hp : p.AllowedIn n ph) :
    ∀ u, ((s.goto t p).pc u).AllowedIn n ph := by
  refine allowed_of goto_pc_self hp fun u hu => ?_
  rw [goto_pc_of_ne hu]
  exact h u

theorem pc_of_goto (hu : (s.goto t p).pc u = q) (hq : p ≠ q) : s.pc u = q := by
  by_cases hut : u = t
  · subst hut
    rw [goto_pc_self] at hu
    exact absurd hu hq
  · rwa [goto_pc_of_ne hut] at hu

theorem goto_pc_of_eq (hq : s.pc t ≠ q) (hu : s.pc u = q) : (s.goto t p).pc u = q := by
  rw [goto_pc_of_ne, hu]
  rintro rfl
  exact hq hu

theorem Pc.ne_of_plain (hp : p.plain) (hq : q.plain = false) : p ≠ q := by
  rintro rfl
  rw [hp] at hq
  cases hq

theorem record_history (f : History → α) {g : History → History} (h : ∀ x, f (g x) = f x) (u : T) :
    f ((s.record t g).history u) = f (s.history u) := by
  by_cases hu : u = t
  · subst hu
    exact (congrArg f (update_self _ _ _)).trans (h _)
  · exact congrArg f (update_of_ne hu _ _)

omit [DecidableEq T] in
theorem eq_of_sole {f : α → Pc} {v : T} (h : ∀ u x, u ≠ v → s.pc u ≠ f x) {x y : α}
    (ht : s.pc t = f x) (hu : s.pc u = f y) : u = t := by
  have hut : u = v := by
    by_contra hne
    exact h u y hne hu
  have htv : t = v := by
    by_contra hne
    exact h t x hne ht
  exact hut.trans htv.symm

end

theorem total_goto (hr : SameRole p (s.pc t)) : total Pc.inside (s.goto t p).pc = total Pc.inside s.pc := by
  have h := total_update Pc.inside s.pc t p
  have hin := hr.inside
  show total Pc.inside (update s.pc t p) = _
  omega

/-- The sleepers of a phase are covered by some thread that the moving one is not. -/
theorem PhaseOk.goto (h : PhaseOk n c s ph) (hr : SameRole p (s.pc t)) (hf : (s.pc t).plain)
    (hto : p.plain ∨ p = .leave .zero) (he : ph = .gather → p ≠ .enterSleep)
    (hw : ph = .drain → p ≠ .waitSleep) : PhaseOk n c (s.goto t p) ph := by
  cases ph with
  | gather =>
    obtain ⟨hs, hl, hlt, hc⟩ := h
    refine ⟨hs, hl, by rwa [total_goto hr], ?_⟩
    intro u hu
    obtain ⟨v, r, hv⟩ := hc u (pc_of_goto hu (he rfl))
    exact ⟨v, r, goto_pc_of_eq (ne_of_plain hf rfl) hv⟩
  | full =>
    obtain ⟨hs, hj, v, prev, hv, hun⟩ := h
    refine ⟨hs, hj, v, prev, goto_pc_of_eq (ne_of_plain hf rfl) hv, ?_⟩
    intro u prev' hu hpc
    refine hun u prev' hu (pc_of_goto hpc ?_)
    rintro rfl
    rcases hto with h | h <;> cases h
  | drain =>
    obtain ⟨hs, hj, hpos, hc⟩ := h
    refine ⟨?_, hj, by rwa [total_goto hr], ?_⟩
    · rcases hs with hrel | hall
      · exact .inl hrel
      · rw [hall t] at hf
        cases hf
    intro u hu
    obtain ⟨v, prev, hv⟩ := hc u (pc_of_goto hu (hw rfl))
    exact ⟨v, prev, goto_pc_of_eq (ne_of_plain hf rfl) hv⟩
  | reset =>
    obtain ⟨hj, hz, v, r, hv, hun, hs⟩ := h
    refine ⟨hj, by rwa [total_goto hr], v, r, goto_pc_of_eq (ne_of_plain hf rfl) hv, ?_, hs⟩
    intro u r' hu hpc
    refine hun u r' hu (pc_of_goto hpc ?_)
    rintro rfl
    rcases hto with h | h <;> cases h

section

variable (hi : Inv count elected c ph s) {q : Pc}
include hi

theorem Inv.goto (hp : s.pc t = q) (hr : SameRole p q) (ha : p.AllowedIn count.toNat ph) (hf : q.plain)
    (hto : p.plain ∨ p = .leave .zero) (he : ph = .gather → p ≠ .enterSleep)
    (hw : ph = .drain → p ≠ .waitSleep) : Inv count elected c ph (s.goto t p) := by
  subst hp
  exact ⟨hi.initCount, hi.book.congr rfl rfl (sameRole_goto hr), hi.election.congr rfl (sameRole_goto hr),
    allowed_goto hi.allowed ha, hi.phase.goto hr hf hto he hw⟩

section

omit [DecidableEq T]

theorem Inv.state_of_plain (hp : s.pc t = q) (hf : q.plain) : s.state = .wait ↔ ph = .gather ∨ ph = .full := by
  subst hp
  have hp := hi.phase
  cases ph with
  | gather => simp [hp.1]
  | full => simp [hp.1]
  | drain =>
    rcases hp.1 with h | h
    · simp [h]
    · rw [h t] at hf
      cases hf
  | reset =>
    obtain ⟨-, -, u, r, hu, -, h | h⟩ := hp
    · simp [h]
    · rw [h t, hu] at hf
      cases hf

theorem Inv.entering (hp : s.pc t = q) (hr : SameRole .enterLoad q) (hf : q.plain) :
    (ph = .gather ∧ s.state = .wait) ∨ ((ph = .drain ∨ ph = .reset) ∧ s.state = .release) := by
  have hst := hi.state_of_plain hp hf
  cases ph with
  | gather => exact .inl ⟨rfl, hst.2 (.inl rfl)⟩
  | full =>
    have ha := hi.allowed t
    have hin := hr.inside
    rw [hp] at ha
    cases q <;> first | exact ha.elim | cases hin
  | drain | reset =>
    refine .inr ⟨by simp, ?_⟩
    cases hs : s.state with
    | release => rfl
    | wait => simp [hs] at hst

end

theorem Inv.call {r : Result} (hp : s.pc t = .out r) : Inv count elected c ph (s.goto t .enterLoad) := by
  refine hi.goto hp ⟨rfl, rfl, rfl⟩ ?_ rfl (.inl rfl) nofun nofun
  rcases hi.entering hp ⟨rfl, rfl, rfl⟩ rfl with ⟨rfl, -⟩ | ⟨rfl | rfl, -⟩ <;> trivial

theorem Inv.enterLoad (hp : s.pc t = .enterLoad) :
    Inv count elected c ph (s.goto t (if s.state = .release then .enterWait else .countLoad)) := by
  rcases hi.entering hp ⟨rfl, rfl, rfl⟩ rfl with ⟨rfl, hs⟩ | ⟨hph, hs⟩
  · rw [hs]
    exact hi.goto hp ⟨rfl, rfl, rfl⟩ trivial rfl (.inl rfl) nofun nofun
  · rw [hs, if_pos rfl]
    refine hi.goto hp ⟨rfl, rfl, rfl⟩ ?_ rfl (.inl rfl) nofun nofun
    rcases hph with rfl | rfl <;> trivial

theorem Inv.enterWait (hp : s.pc t = .enterWait) :
    Inv count elected c ph (s.goto t (if s.state = .release then .enterSleep else .enterLoad)) := by
  rcases hi.entering hp ⟨rfl, rfl, rfl⟩ rfl with ⟨rfl, hs⟩ | ⟨hph, hs⟩
  · rw [hs]
    exact hi.goto hp ⟨rfl, rfl, rfl⟩ trivial rfl (.inl rfl) nofun nofun
  · rw [hs, if_pos rfl]
    refine hi.goto hp ⟨rfl, rfl, rfl⟩ ?_ rfl (.inl rfl) ?_ nofun
    · rcases hph with rfl | rfl <;> trivial
    · rintro rfl
      simp at hph

/-- Fewer than `init_count` threads are inside, so the check for too many threads never fails. -/
theorem Inv.enterCount (hp : s.pc t = .countLoad ∨ ∃ prev, s.pc t = .countCas prev) :
    Inv count elected c ph (s.goto t (enterCount s.initCount s.waitCount)) := by
  have ha := hi.allowed t
  obtain rfl : ph = .gather := by
    rcases hp with hp | ⟨prev', hp⟩ <;> rw [hp] at ha <;> cases ph <;> first | rfl | exact ha.elim
  have hlt : s.waitCount < s.initCount := by
    rw [UInt32.lt_iff_toNat_lt, hi.initCount, hi.book.waitCount]
    exact hi.phase.2.2.1
  rw [Barrier.enterCount, if_neg (UInt32.not_le.2 hlt)]
  rcases hp with hp | ⟨prev', hp⟩ <;> exact hi.goto hp ⟨rfl, rfl, rfl⟩ trivial rfl (.inl rfl) nofun nofun

omit [DecidableEq T] in
theorem Inv.waiting (hp : s.pc t = q) (hr : SameRole .waitLoad q) (hf : q.plain) :
    ((ph = .gather ∨ ph = .full) ∧ s.state = .wait) ∨ (ph = .drain ∧ s.state = .release) := by
  have hst := hi.state_of_plain hp hf
  cases ph with
  | gather => exact .inl ⟨.inl rfl, hst.2 (.inl rfl)⟩
  | full => exact .inl ⟨.inr rfl, hst.2 (.inr rfl)⟩
  | reset =>
    have ha := hi.allowed t
    have hin := hr.inside
    rw [hp] at ha
    cases q <;> first | exact ha.elim | cases hin
  | drain =>
    refine .inr ⟨rfl, ?_⟩
    cases hs : s.state with
    | release => rfl
    | wait => simp [hs] at hst

theorem Inv.waitLoad (hp : s.pc t = .waitLoad) :
    Inv count elected c ph (s.goto t (if s.state = .wait then .waitFutex else .leave .zero)) := by
  rcases hi.waiting hp ⟨rfl, rfl, rfl⟩ rfl with ⟨hph, hs⟩ | ⟨rfl, hs⟩
  · rw [hs, if_pos rfl]
    refine hi.goto hp ⟨rfl, rfl, rfl⟩ ?_ rfl (.inl rfl) nofun nofun
    rcases hph with rfl | rfl <;> trivial
  · rw [hs]
    exact hi.goto hp ⟨rfl, rfl, rfl⟩ nofun rfl (.inr rfl) nofun nofun

theorem Inv.waitFutex (hp : s.pc t = .waitFutex) :
    Inv count elected c ph (s.goto t (if s.state = .wait then .waitSleep else .waitLoad)) := by
  rcases hi.waiting hp ⟨rfl, rfl, rfl⟩ rfl with ⟨hph, hs⟩ | ⟨rfl, hs⟩
  · rw [hs, if_pos rfl]
    refine hi.goto hp ⟨rfl, rfl, rfl⟩ ?_ rfl (.inl rfl) nofun ?_
    · rcases hph with rfl | rfl <;> trivial
    · rintro rfl
      simp at hph
  · rw [hs]
    exact hi.goto hp ⟨rfl, rfl, rfl⟩ trivial rfl (.inl rfl) nofun nofun

theorem Inv.spurious (hp : (s.pc t).asleep) : Inv count elected c ph (s.goto t (s.pc t).woken) := by
  have hne := (s.pc t).woken_ne_sleep
  have hpl : (s.pc t).plain ∧ (s.pc t).woken.plain := by
    cases hpc : s.pc t <;> rw [hpc] at hp <;> first | exact ⟨rfl, rfl⟩ | cases hp
  exact hi.goto rfl (sameRole_woken _) (hi.allowed t).woken hpl.1 (.inl hpl.2) (fun _ => hne.1) fun _ => hne.2

end

end Steps

end Bionic.Barrier
