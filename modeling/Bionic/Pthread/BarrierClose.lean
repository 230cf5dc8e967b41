import Bionic.Pthread.BarrierCycles
import Mathlib.Data.Fintype.EquivFin

namespace Bionic.Barrier

open Lib Function Pc Fintype

variable {T : Type} [DecidableEq T] [Fintype T] {n : Nat} {p : Pc} {w : Finset T}

section Steps

variable {count : UInt32} {elected : Nat → Option T} {c : Nat} {s : State T} {t : T}

theorem Pc.AllowedIn.full_of_gather (h : p.AllowedIn n .gather) (hin : p.inside = 1) : p.AllowedIn n .full := by
  cases p <;> first | exact h | exact h.elim | cases hin

theorem Pc.AllowedIn.drain_of_full (h : p.AllowedIn n .full)
    (hne : ∀ prev, p ≠ .storeRelease prev) : p.AllowedIn n .drain := by
  cases p with
  | storeRelease prev => exact absurd rfl (hne prev)
  | _ => first | exact h | exact h.elim

variable {prev : UInt32}

theorem toNat_add_one (h : prev.toNat + 1 < 2 ^ 32) : (prev + 1).toNat = prev.toNat + 1 :=
  (UInt32.toNat_add prev 1).trans (Nat.mod_eq_of_lt h)

theorem Book.join (hb : Book s) (hp : s.pc t = .countCas prev) (hpr : s.waitCount = prev)
    (hlt : prev.toNat + 1 < 2 ^ 32) : Book (join s t prev) := by
  have hj := hb.joined t
  have hl := hb.left t
  rw [hp] at hj hl
  have hone : (afterJoin s.initCount prev).inside = 1 ∧ (afterJoin s.initCount prev).finishing = 0 := by
    rw [afterJoin]
    split_ifs <;> exact ⟨rfl, rfl⟩
  refine hb.update rfl rfl ?_ ?_ ?_
  · show (s.history t).joined + 1 = (s.history t).left + _
    rw [hone.1, hj]
    rfl
  · show (s.history t).left = (s.history t).returned + _
    rw [hone.2, hl]
    rfl
  · show (prev + 1).toNat + (s.pc t).inside = s.waitCount.toNat + _
    rw [hone.1, toNat_add_one hlt, hp, hpr]
    rfl

theorem Inv.join (hi : Inv count elected c .gather s) (hc : card T = count.toNat)
    (hp : s.pc t = .countCas prev) (hpr : s.waitCount = prev) :
    ∃ elected' ph', Inv count elected' c ph' (join s t prev) := by
  obtain ⟨hst, hl, hlt, hco⟩ := hi.phase
  have hcu : prev.toNat = total inside s.pc := by rw [← hpr, hi.book.waitCount]
  have hmax := count.toNat_lt
  have hsum : (prev + 1).toNat = prev.toNat + 1 := toNat_add_one (by omega)
  have hb := hi.book.join hp hpr (by omega)
  have ht : total inside (Barrier.join s t prev).pc = prev.toNat + 1 := by
    rw [← hb.waitCount, ← hsum]
    rfl
  have hl' (u : T) : ((Barrier.join s t prev).history u).left = c :=
    (record_history (g := History.join) History.left (fun _ => rfl) u).trans (hl u)
  have ho (u : T) (hu : u ≠ t) : (Barrier.join s t prev).pc u = s.pc u := goto_pc_of_ne hu
  have hs : (Barrier.join s t prev).pc t = afterJoin count prev := by
    rw [← hi.initCount]
    exact goto_pc_self
  have hj : (s.history t).joined = c := by
    rw [hi.book.joined, hl, hp]
    rfl
  have hr (u : T) : (s.history u).returned ≤ c := by
    have := hi.book.left u
    rw [hl] at this
    omega
  by_cases hf : prev + 1 = count
  · -- Everyone is inside now, and the last one to come goes on to open the barrier.
    have his : ∀ u, ((Barrier.join s t prev).pc u).inside = 1 := by
      rw [← total_eq_card_iff inside_le_one, ht, ← hsum, hf, hc]
    have hj' (u : T) : ((Barrier.join s t prev).history u).joined = c + 1 := by
      rw [hb.joined, hl', his]
    have hse : (afterJoin s.initCount prev).serial := by
      rw [afterJoin, hi.initCount, if_pos hf]
      split <;> rfl
    have hpc : (Barrier.join s t prev).pc = update s.pc t (afterJoin s.initCount prev) := rfl
    have he := hi.election.elect hpc rfl hj hr hse
    have hn : prev.toNat + 1 = count.toNat := by rw [← hsum, hf]
    rw [afterJoin, if_pos hf] at hs
    by_cases hz : prev = 0
    · rw [if_neg (not_not_intro hz)] at hs
      have hall (u : T) : (Barrier.join s t prev).pc u = .leave .serialThread := by
        have hsub : card T ≤ 1 := by
          rw [hc, ← hn, hz]
          decide
        rw [card_le_one_iff.1 hsub u t, hs]
      refine ⟨_, .drain, hi.initCount, hb, he, ?_, .inr hall, hj', by omega, ?_⟩
      · intro u
        rw [hall u]
        intro h
        cases h
      · intro u hu
        rw [hall u] at hu
        cases hu
    · rw [if_pos hz] at hs
      refine ⟨_, .full, hi.initCount, hb, he, ?_, hst, hj', t, prev, hs, ?_⟩
      · refine allowed_of hs hn fun u hu => ?_
        have hin := his u
        rw [ho u hu] at hin ⊢
        exact (hi.allowed u).full_of_gather hin
      · intro u prev' hu
        rw [ho u hu]
        intro h
        have ha := hi.allowed u
        rw [h] at ha
        exact ha
  · rw [afterJoin, if_neg hf] at hs
    have hne : (prev + 1).toNat ≠ count.toNat := fun h => hf (UInt32.toNat_inj.1 h)
    refine ⟨elected, .gather, hi.initCount, hb, ?_, ?_, hst, hl', by omega, ?_⟩
    · refine hi.election.update rfl rfl ?_ (hi.election.returned t)
      have hno := hi.election.eq_none
      rw [afterJoin, hi.initCount, if_neg hf]
      show false ↔ (s.history t).returned < (s.history t).joined + 1 ∧
        elected ((s.history t).joined + 1) = some t
      rw [hj, show elected (c + 1) = none from hno]
      simp
    · refine allowed_of hs trivial fun u hu => ?_
      rw [ho u hu]
      exact hi.allowed u
    · intro u hu
      obtain ⟨v, r, hv⟩ := hco u (pc_of_goto hu (goto_pc_self.symm.trans hs ▸ nofun))
      exact ⟨v, r, goto_pc_of_eq (hp ▸ nofun) hv⟩

theorem Inv.storeRelease (hi : Inv count elected c .full s) (hp : s.pc t = .storeRelease prev) :
    Inv count elected c .drain (State.goto { s with state := .release } t (.wakeWaiters prev)) := by
  obtain ⟨-, hj, v, prev', hv, hun⟩ := hi.phase
  have hro : SameRole (.wakeWaiters prev) (s.pc t) := by
    rw [hp]
    exact ⟨rfl, rfl, rfl⟩
  have hr (u : T) := sameRole_goto (s := { s with state := .release }) hro u
  have hn := hi.allowed t
  rw [hp] at hn
  refine ⟨hi.initCount, hi.book.congr rfl rfl hr, hi.election.congr rfl hr, ?_, .inl rfl, hj, ?_, ?_⟩
  · refine allowed_of goto_pc_self hn fun u hu => ?_
    rw [goto_pc_of_ne hu]
    exact (hi.allowed u).drain_of_full fun _ h => hu (eq_of_sole hun hp h)
  · have hle := le_total inside (State.goto { s with state := .release } t (.wakeWaiters prev)).pc t
    rw [goto_pc_self] at hle
    exact hle
  · intro u _
    exact ⟨t, prev, goto_pc_self⟩

/-- The last thread to come asks for as many threads as there are others, so all sleepers are woken. -/
theorem Inv.wakeWaiters (hi : Inv count elected c .drain s) (hc : card T = count.toNat)
    (hp : s.pc t = .wakeWaiters prev) (hw : Wakes s prev w) :
    Inv count elected c .drain ((s.wake w).goto t (.leave .serialThread)) := by
  obtain ⟨hs, hj, hpos, -⟩ := hi.phase
  have hn := hi.allowed t
  rw [hp] at hn
  have hlt := card_sleepers_lt (s := s) (t := t) (by rw [hp]; rfl)
  obtain rfl := hw.eq_sleepers (by rw [hc, ← show prev.toNat + 1 = count.toNat from hn] at hlt; omega)
  have hro : SameRole (.leave .serialThread) ((s.wake s.sleepers).pc t) := by
    rw [wake_sleepers_pc, hp]
    exact ⟨rfl, rfl, rfl⟩
  have hr (u : T) : SameRole (((s.wake s.sleepers).goto t (.leave .serialThread)).pc u) (s.pc u) :=
    (sameRole_wake s.sleepers u).congr (sameRole_goto hro u)
  have hb : Book ((s.wake s.sleepers).goto t (.leave .serialThread)) := hi.book.congr rfl rfl hr
  refine ⟨hi.initCount, hb, hi.election.congr rfl hr, ?_, ?_, hj, ?_, ?_⟩
  · apply allowed_goto
    · intro u
      rw [wake_sleepers_pc]
      exact (hi.allowed u).woken
    · exact nofun
  · rcases hs with h | h
    · exact .inl h
    · rw [h t] at hp
      cases hp
  · rw [← hb.waitCount]
    show 0 < s.waitCount.toNat
    rwa [hi.book.waitCount]
  · intro u hu
    have hu' := pc_of_goto hu nofun
    rw [wake_sleepers_pc] at hu'
    exact absurd hu' (woken_ne_sleep _).2

end Steps

section Steps

variable {count : UInt32} {elected : Nat → Option T} {c : Nat} {s : State T} {t : T} {r : Result}

theorem Pc.AllowedIn.reset_of_drain (h : p.AllowedIn n .drain) (hin : p.inside = 0) : p.AllowedIn n .reset := by
  cases p <;> first | exact h | exact h.elim | cases hin

theorem Pc.AllowedIn.gather_of_reset (h : p.AllowedIn n .reset)
    (hne : ∀ r, p ≠ .storeWait r) : p.AllowedIn n .gather := by
  cases p with
  | storeWait r => exact absurd rfl (hne r)
  | _ => first | exact h | exact h.elim

omit [DecidableEq T] in
/-- With everyone about to return the special value there is only one thread. -/
theorem Inv.subsingleton (hi : Inv count elected c .drain s) (hall : ∀ t, s.pc t = .leave .serialThread) (t u : T) :
    t = u := by
  have helected (v : T) : elected (c + 1) = some v := by
    have hcarries := (hi.election.carries v).1 (by rw [hall v]; rfl)
    rw [hi.phase.2.1 v] at hcarries
    exact hcarries.2
  exact Option.some.inj ((helected t).symm.trans (helected u))

def State.off (s : State T) (t : T) (r : Result) : State T :=
  (State.record { s with waitCount := s.waitCount - 1 } t History.leave).goto t (.storeWait r)

section Leave

variable {r : Result} (hi : Inv count elected c .drain s) (hp : s.pc t = .leave r)
include hi

omit [DecidableEq T] in
theorem toNat_waitCount_sub_one : (s.waitCount - 1).toNat = s.waitCount.toNat - 1 := by
  have hpos := hi.phase.2.2.1
  have hc := hi.book.waitCount
  apply UInt32.toNat_sub_of_le
  show 1 ≤ s.waitCount.toNat
  omega

include hp

theorem Inv.book_off : Book (s.off t r) := by
  have hj := hi.book.joined t
  have hl := hi.book.left t
  have hpos := hi.phase.2.2.1
  have hc := hi.book.waitCount
  rw [hp] at hj hl
  refine hi.book.update rfl rfl ?_ ?_ ?_
  · exact hj
  · exact congrArg (· + 1) hl
  · show (s.waitCount - 1).toNat + (s.pc t).inside = s.waitCount.toNat + 0
    rw [hp, toNat_waitCount_sub_one hi]
    show s.waitCount.toNat - 1 + 1 = _
    omega

theorem Inv.election_off : Election elected (c + 1) (s.off t r) := by
  refine hi.election.update rfl rfl ?_ (hi.election.returned t)
  have hc := hi.election.carries t
  rw [hp] at hc
  exact hc

omit hp in
theorem Inv.joined_off (u : T) : ((s.off t r).history u).joined = c + 1 :=
  (record_history (g := History.leave) History.joined (fun _ => rfl) u).trans (hi.phase.2.1 u)

theorem Inv.leave_last (hone : s.waitCount = 1) : Inv count elected c .reset (s.off t r) := by
  have hb := hi.book_off hp
  have hs : (s.off t r).pc t = .storeWait r := goto_pc_self
  have ho (u : T) (hu : u ≠ t) : (s.off t r).pc u = s.pc u := goto_pc_of_ne hu
  have hz : total inside (s.off t r).pc = 0 := by
    rw [← hb.waitCount]
    show (s.waitCount - 1).toNat = 0
    rw [hone]
    rfl
  refine ⟨hi.initCount, hb, hi.election_off hp, ?_, hi.joined_off, hz, t, r, hs, ?_, ?_⟩
  · have ha := hi.allowed t
    rw [hp] at ha
    refine allowed_of hs ha fun u hu => ?_
    have hin : ((s.off t r).pc u).inside = 0 := total_eq_zero_iff.1 hz u
    rw [ho u hu] at hin ⊢
    exact (hi.allowed u).reset_of_drain hin
  · intro u r' hu hu'
    have ha := hi.allowed u
    rw [← ho u hu, hu'] at ha
    exact ha
  · rcases hi.phase.1 with h | h
    · exact .inl h
    · exact .inr fun u => hi.subsingleton h u t

theorem Inv.leave_more (hm : s.waitCount ≠ 1) : Inv count elected c .drain ((s.off t r).finish t r) := by
  obtain ⟨hst, -, hpos, hc⟩ := hi.phase
  have hco := hi.book.waitCount
  have hsub := toNat_waitCount_sub_one hi
  have hne : s.waitCount.toNat ≠ 1 := fun h => hm (UInt32.toNat_inj.1 h)
  have hs : (s.off t r).pc t = .storeWait r := goto_pc_self
  have hr : ((s.off t r).pc t).finishing = 1 ∧ ((s.off t r).pc t).inside = 0 := by
    rw [hs]
    exact ⟨rfl, rfl⟩
  have hout : ((s.off t r).finish t r).pc t = .out r := goto_pc_self
  have ho (u : T) (hu : u ≠ t) : ((s.off t r).finish t r).pc u = s.pc u :=
    (goto_pc_of_ne hu).trans (goto_pc_of_ne hu)
  have hb := (hi.book_off hp).finish hr.1 hr.2 r
  refine ⟨hi.initCount, hb, (hi.election_off hp).finish (hi.book_off hp) hr.1 hr.2 ?_, ?_, ?_, ?_, ?_, ?_⟩
  · rw [hs]
    exact decide_eq_true_iff
  · have ha := hi.allowed t
    rw [hp] at ha
    refine allowed_of hout ha fun u hu => ?_
    rw [ho u hu]
    exact hi.allowed u
  · rcases hst with h | h
    · exact .inl h
    · have hle : card T ≤ 1 := card_le_one_iff.2 fun u v => hi.subsingleton h u v
      have hca : total inside s.pc = card T :=
        (total_eq_card_iff inside_le_one).2 fun u => by rw [h u]; rfl
      omega
  · exact fun u => (record_history (g := (·.return r)) History.joined (fun _ => rfl) u).trans (hi.joined_off (r := r) u)
  · rw [← hb.waitCount]
    show 0 < (s.waitCount - 1).toNat
    omega
  · intro u hu
    obtain ⟨v, prev, hv⟩ := hc u (pc_of_goto (pc_of_goto hu nofun) nofun)
    have hvt : v ≠ t := by
      rintro rfl
      rw [hp] at hv
      cases hv
    exact ⟨v, prev, by rw [ho v hvt, hv]⟩

theorem Inv.leave : ∃ ph', Inv count elected c ph' (leave s t r) := by
  rw [Barrier.leave]
  split
  case isTrue h => exact ⟨.reset, hi.leave_last hp h⟩
  case isFalse h =>
    have hf : State.finish (State.record { s with waitCount := s.waitCount - 1 } t History.leave) t r =
        (s.off t r).finish t r := by
      simp [State.off, State.finish]
    refine ⟨.drain, ?_⟩
    rw [hf]
    exact hi.leave_more hp h

end Leave

theorem Inv.storeWait (hi : Inv count elected c .reset s) (hc : card T = count.toNat) (hp : s.pc t = .storeWait r) :
    Inv count elected (c + 1) .gather (State.goto { s with state := .wait } t (.wakeEntrants r)) := by
  obtain ⟨hj, hz, v, r', hv, hun, -⟩ := hi.phase
  have hro : SameRole (.wakeEntrants r) (s.pc t) := by
    rw [hp]
    exact ⟨rfl, rfl, rfl⟩
  have hr (u : T) := sameRole_goto (s := { s with state := .wait }) hro u
  refine ⟨hi.initCount, hi.book.congr rfl rfl hr, hi.election.congr rfl hr, ?_, rfl, ?_, ?_, ?_⟩
  · have ha := hi.allowed t
    rw [hp] at ha
    refine allowed_of goto_pc_self ha fun u hu => ?_
    rw [goto_pc_of_ne hu]
    exact (hi.allowed u).gather_of_reset fun _ h => hu (eq_of_sole hun hp h)
  · intro u
    have h := hi.book.joined u
    rw [hj, total_eq_zero_iff.1 hz u] at h
    exact h.symm
  · have hs := total_goto (s := { s with state := .wait }) hro
    have hpos : 0 < card T := card_pos_iff.2 ⟨t⟩
    rw [hs]
    show total inside s.pc < _
    omega
  · intro u _
    exact ⟨t, r, goto_pc_self⟩

theorem Inv.wakeEntrants (hi : Inv count elected c .gather s) (hc : card T = count.toNat)
    (hp : s.pc t = .wakeEntrants r) (hw : Wakes s s.initCount w) :
    Inv count elected c .gather ((s.wake w).finish t r) := by
  obtain ⟨hst, hl, hlt, -⟩ := hi.phase
  have hle := Finset.card_le_univ s.sleepers
  obtain rfl := hw.eq_sleepers (by rwa [hi.initCount, ← hc])
  have hro (u : T) := sameRole_wake (s := s) s.sleepers u
  have hb : Book (s.wake s.sleepers) := hi.book.congr rfl rfl hro
  have he : Election elected c (s.wake s.sleepers) := hi.election.congr rfl hro
  have hs : (s.wake s.sleepers).pc t = .wakeEntrants r := by
    rw [wake_sleepers_pc, hp]
    rfl
  have hr : ((s.wake s.sleepers).pc t).finishing = 1 ∧ ((s.wake s.sleepers).pc t).inside = 0 := by
    rw [hs]
    exact ⟨rfl, rfl⟩
  have hb' := hb.finish hr.1 hr.2 r
  have hout : ((s.wake s.sleepers).finish t r).pc t = .out r := goto_pc_self
  have ho (u : T) (hu : u ≠ t) : ((s.wake s.sleepers).finish t r).pc u = (s.pc u).woken :=
    (goto_pc_of_ne hu).trans (wake_sleepers_pc u)
  refine ⟨hi.initCount, hb', he.finish hb hr.1 hr.2 ?_, ?_, hst, ?_, ?_, ?_⟩
  · rw [hs]
    exact decide_eq_true_iff
  · have ha := hi.allowed t
    rw [hp] at ha
    refine allowed_of hout ha fun u hu => ?_
    rw [ho u hu]
    exact (hi.allowed u).woken
  · exact fun u => (record_history (g := (·.return r)) History.left (fun _ => rfl) u).trans (hl u)
  · rw [← hb'.waitCount]
    show s.waitCount.toNat < _
    rwa [hi.book.waitCount]
  · intro u hu
    have hu' := pc_of_goto hu nofun
    rw [wake_sleepers_pc] at hu'
    exact absurd hu' (woken_ne_sleep _).1

end Steps

end Bionic.Barrier
