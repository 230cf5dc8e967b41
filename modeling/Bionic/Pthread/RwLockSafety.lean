import Bionic.Pthread.RwLockInv

namespace Bionic.RwLock

open Lib Function

variable {T : Type} [Fintype T] {state : UInt32} {pendingCount : Side → UInt32} {pc : T → Pc}

variable {p : Pc}

theorem Pc.pending_of_marked {k : Side} (h : p.marked = some k) : p.pending = some k := by
  cases p <;> first | exact h | cases h

theorem Pending.congr (h : Pending state pendingCount pc) {state' : UInt32} {pc' : T → Pc}
    (hbit : ∀ k, pendingBit k state' = pendingBit k state) (hr : ∀ t, (pc' t).role = (pc t).role) :
    Pending state' pendingCount pc' := by
  have hp t : (pc' t).pending = (pc t).pending := congrArg Prod.fst (hr t)
  have hm t : (pc' t).marked = (pc t).marked := congrArg (fun r => r.2.1) (hr t)
  have hu t : (pc' t).unmarking = (pc t).unmarking := congrArg (fun r => r.2.2) (hr t)
  refine ⟨?_, ?_, ?_, ?_⟩
  · intro k
    rw [h.count k, total, total]
    simp only [pendingWeight, hp]
  · intro k t ht
    rw [hbit]
    exact h.bit_of_marked k t (hm t ▸ ht)
  · intro k hk
    simp only [hu]
    exact h.of_bit k (hbit k ▸ hk)
  · intro k t ht
    exact h.of_unmarking k t (hu t ▸ ht)

variable [DecidableEq T] {t : T} {k : Side} {timed : Bool} {a : After}

section

omit [Fintype T]

theorem forall_update {Q : T → Pc → Prop} (ht : Q t p) (h : ∀ u, u ≠ t → Q u (pc u)) (u : T) :
    Q u (update pc t p u) := by
  rw [update_apply]
  split_ifs with hu
  · rwa [hu]
  · exact h u hu

theorem exists_update {Q : Pc → Prop} (h : ∃ u, Q (pc u)) (ht : Q (pc t) → Q p) : ∃ u, Q (update pc t p u) := by
  obtain ⟨u, hu⟩ := h
  refine ⟨u, ?_⟩
  rw [update_apply]
  split_ifs with hut
  · exact ht (hut ▸ hu)
  · exact hu

theorem role_update (hp : p.role = (pc t).role) (u : T) : (update pc t p u).role = (pc u).role :=
  forall_update (Q := fun v q => q.role = (pc v).role) hp (fun _ _ => rfl) u

end

omit [DecidableEq T] in
theorem total_pendingWeight_le (k : Side) (pc : T → Pc) : total (pendingWeight k) pc ≤ Fintype.card T := by
  have h := Finset.sum_le_card_nsmul Finset.univ (fun t => pendingWeight k (pc t)) 1
    fun t _ => by rw [pendingWeight]; split <;> omega
  simpa [total] using h

theorem pendingWeight_of_pending (h : p.pending = some k) : pendingWeight k p = 1 := if_pos h

theorem pendingWeight_of_ne (h : p.pending ≠ some k) : pendingWeight k p = 0 := if_neg h

theorem Pending.count_ne_zero (h : Pending state pendingCount pc) (ht : (pc t).pending = some k) :
    pendingCount k ≠ 0 := by
  have hle := le_total (pendingWeight k) pc t
  rw [pendingWeight_of_pending ht, ← h.count k] at hle
  intro h0
  rw [h0] at hle
  cases hle

omit [DecidableEq T] in
theorem Pending.exists_pending (h : Pending state pendingCount pc) (hk : pendingCount k ≠ 0) :
    ∃ t, (pc t).pending = some k := by
  by_contra hn
  apply hk
  rw [← UInt32.toNat_inj, h.count k]
  apply total_eq_zero_iff.2
  intro t
  exact pendingWeight_of_ne fun ht => hn ⟨t, ht⟩

theorem total_pendingWeight_update (j : Side) (hne : p.pending ≠ some j) (ht : (pc t).pending ≠ some j) :
    total (pendingWeight j) (update pc t p) = total (pendingWeight j) pc := by
  have h := total_update (pendingWeight j) pc t p
  rw [pendingWeight_of_ne hne, pendingWeight_of_ne ht] at h
  exact h

theorem Pending.exists_other (h : Pending state pendingCount pc) (ht : (pc t).pending = some k)
    (hne : pendingCount k ≠ 1) : ∃ u, u ≠ t ∧ (pc u).pending = some k := by
  by_contra hn
  have hz : total (pendingWeight k) (update pc t (.out none)) = 0 := by
    apply total_eq_zero_iff.2
    apply forall_update (Q := fun _ q => pendingWeight k q = 0) rfl
    intro u hu
    exact pendingWeight_of_ne fun hp => hn ⟨u, hu, hp⟩
  have hup := total_update (pendingWeight k) pc t (.out none)
  have hout : pendingWeight k (.out none) = 0 := rfl
  rw [pendingWeight_of_pending ht, hout, ← h.count k] at hup
  apply hne
  rw [← UInt32.toNat_inj]
  change (pendingCount k).toNat = 1
  omega

/-- A thread joins the pending ones, under pending_lock, so no other thread is about to clear a flag. -/
theorem Pending.pend (h : Pending state pendingCount pc) (hca : Fintype.card T < 2 ^ 32)
    (hr : (pc t).role = (none, none, none)) (hex : ∀ u, u ≠ t → (pc u).unmarking = none) (timed : Bool) :
    Pending state (update pendingCount k (pendingCount k + 1)) (update pc t (.mark k timed)) := by
  have hp : (pc t).pending = none := congrArg Prod.fst hr
  have hun u : (pc u).unmarking = none := by
    by_cases hu : u = t
    · subst hu
      exact congrArg (fun r => r.2.2) hr
    · exact hex u hu
  have hun' u : (update pc t (.mark k timed) u).unmarking = none :=
    forall_update (Q := fun _ q => q.unmarking = none) rfl (fun v _ => hun v) u
  have hc : (pendingCount k + 1).toNat = total (pendingWeight k) (update pc t (.mark k timed)) := by
    have hle := total_pendingWeight_le k (update pc t (.mark k timed))
    have hu := total_update (pendingWeight k) pc t (.mark k timed)
    rw [pendingWeight_of_pending (p := .mark k timed) rfl, pendingWeight_of_ne (by simp [hp]),
      ← h.count k] at hu
    change ((pendingCount k).toNat + 1) % 2 ^ 32 = _
    omega
  refine ⟨?_, ?_, ?_, ?_⟩
  · intro j
    by_cases hj : j = k
    · subst hj
      rw [update_self]
      exact hc
    · rw [update_of_ne hj, total_pendingWeight_update j (by rintro ⟨⟩; exact hj rfl) (by simp [hp])]
      exact h.count j
  · intro j
    apply forall_update (Q := fun _ q => q.marked = some j → pendingBit j state)
    · rintro ⟨⟩
    · exact fun u _ => h.bit_of_marked j u
  · intro j hj
    rcases h.of_bit j hj with hne | ⟨u, hu⟩
    · refine .inl ?_
      by_cases hjk : j = k
      · subst hjk
        rw [update_self]
        intro h0
        rw [h0] at hc
        have := le_total (pendingWeight j) (update pc t (.mark j timed)) t
        rw [update_self, pendingWeight_of_pending (p := .mark j timed) rfl, ← hc] at this
        cases this
      · rwa [update_of_ne hjk]
    · cases (hun u).symm.trans hu
  · intro j u hu
    cases (hun' u).symm.trans hu

omit [Fintype T] in
theorem unmarking_update {Q : Prop} {j : Side} (hp : p.unmarking = none) (h : ∀ u, (pc u).unmarking = some j → Q) :
    ∀ u, (update pc t p u).unmarking = some j → Q :=
  forall_update (Q := fun _ q => q.unmarking = some j → Q) (fun hj => by cases hp.symm.trans hj) fun u _ => h u

theorem Pending.mark (h : Pending state pendingCount pc) (hp : pc t = .mark k timed) (ha : a.pending = some k) :
    Pending (state ||| k.flag) pendingCount (update pc t (.unlocking a)) := by
  have hpe : (pc t).pending = some k := by rw [hp]; rfl
  refine ⟨?_, ?_, ?_, ?_⟩
  · intro j
    have hu := total_update (pendingWeight j) pc t (.unlocking a)
    have hs : pendingWeight j (.unlocking a) = pendingWeight j (pc t) := by
      rw [pendingWeight, pendingWeight, hpe]
      change (if a.pending = some j then 1 else 0) = _
      rw [ha]
    rw [h.count j]
    omega
  · intro j u hu
    rw [pendingBit_or_flag, Bool.or_eq_true, decide_eq_true_iff]
    revert hu
    apply forall_update (Q := fun _ q => q.marked = some j → pendingBit j state ∨ k = j)
    · intro hj
      exact .inr (Option.some.inj (ha.symm.trans hj))
    · intro v _ hv
      exact .inl (h.bit_of_marked j v hv)
  · intro j hj
    rw [pendingBit_or_flag, Bool.or_eq_true, decide_eq_true_iff] at hj
    rcases hj with hj | rfl
    · refine (h.of_bit j hj).imp_right fun hu => exists_update (Q := fun q => q.unmarking = some j) hu ?_
      rw [hp]
      rintro ⟨⟩
    · exact .inl (h.count_ne_zero hpe)
  · exact fun j => unmarking_update rfl (h.of_unmarking j)

theorem afterUnpend_pending (k : Side) (timed : Bool) (timedOut : Bool) :
    (afterUnpend k timed timedOut).pending = none := by
  cases timedOut <;> rfl

variable (count : UInt32)

def unpendPlace (k : Side) (timed : Bool) (timedOut : Bool) : Pc :=
  if count = 0 then .unmark k timed timedOut else .unlocking (afterUnpend k timed timedOut)

theorem unpendPlace_pending (k : Side) (timed : Bool) (timedOut : Bool) :
    (unpendPlace count k timed timedOut).pending = none ∧ (unpendPlace count k timed timedOut).marked = none := by
  rw [unpendPlace]
  split
  · exact ⟨rfl, rfl⟩
  · exact ⟨afterUnpend_pending .., afterUnpend_pending ..⟩

theorem unpendPlace_unmarking (k j : Side) (timed : Bool) (timedOut : Bool) :
    (unpendPlace count k timed timedOut).unmarking = some j ↔ count = 0 ∧ j = k := by
  rw [unpendPlace]
  split
  case isTrue h => simp [Pc.unmarking, h, eq_comm]
  case isFalse h => simp [Pc.unmarking, h]

/-- A thread leaves the pending ones, under pending_lock. If it is the last one it goes on to clear the flag. -/
theorem Pending.unpend (h : Pending state pendingCount pc) (hpe : (pc t).pending = some k)
    (hun : ∀ u, (pc u).unmarking = none) (timed : Bool) (timedOut : Bool) :
    Pending state (update pendingCount k (pendingCount k - 1))
      (update pc t (unpendPlace (pendingCount k - 1) k timed timedOut)) := by
  set p := unpendPlace (pendingCount k - 1) k timed timedOut with hp
  have hn : p.pending = none := (unpendPlace_pending ..).1
  have hpos : 1 ≤ (pendingCount k).toNat := by
    rw [h.count k, ← pendingWeight_of_pending hpe]
    exact le_total (pendingWeight k) pc t
  refine ⟨?_, ?_, ?_, ?_⟩
  · intro j
    by_cases hj : j = k
    · subst hj
      have hu := total_update (pendingWeight j) pc t p
      rw [pendingWeight_of_pending hpe, pendingWeight_of_ne (by simp [hn]), ← h.count j] at hu
      have hle : 1 ≤ pendingCount j := UInt32.le_iff_toNat_le.2 hpos
      rw [update_self, UInt32.toNat_sub_of_le _ _ hle]
      change (pendingCount j).toNat - 1 = _
      omega
    · rw [update_of_ne hj, total_pendingWeight_update j (by simp [hn])
        (by rw [hpe]; exact fun he => hj (Option.some.inj he).symm)]
      exact h.count j
  · intro j
    apply forall_update (Q := fun _ q => q.marked = some j → pendingBit j state)
    · intro hj
      cases (unpendPlace_pending ..).2.symm.trans hj
    · exact fun u _ => h.bit_of_marked j u
  · intro j hj
    rcases h.of_bit j hj with hne | ⟨u, hu⟩
    · by_cases hjk : j = k
      · subst hjk
        rw [update_self]
        by_cases h0 : pendingCount j - 1 = 0
        · refine .inr ⟨t, ?_⟩
          rw [update_self]
          exact (unpendPlace_unmarking ..).2 ⟨h0, rfl⟩
        · exact .inl h0
      · rw [update_of_ne hjk]
        exact .inl hne
    · cases (hun u).symm.trans hu
  · intro j
    apply forall_update (Q := fun _ q => q.unmarking = some j →
      update pendingCount k (pendingCount k - 1) j = 0)
    · intro hj
      obtain ⟨h0, rfl⟩ := (unpendPlace_unmarking ..).1 hj
      rw [update_self]
      exact h0
    · intro u _ hu
      cases (hun u).symm.trans hu

theorem Pending.unmark (h : Pending state pendingCount pc) {timedOut : Bool}
    (hp : pc t = .unmark k timed timedOut) (ha : a.pending = none) :
    Pending (state &&& ~~~k.flag) pendingCount (update pc t (.unlocking a)) := by
  have hz : pendingCount k = 0 := h.of_unmarking k t (by rw [hp]; rfl)
  refine ⟨?_, ?_, ?_, ?_⟩
  · intro j
    have hn : (Pc.unlocking a).pending = none := ha
    rw [h.count j, total_pendingWeight_update j (by simp [hn]) (by simp [hp, Pc.pending])]
  · intro j u hu
    rw [pendingBit_and_not_flag, Bool.and_eq_true, decide_eq_true_iff]
    revert hu
    apply forall_update (Q := fun _ q => q.marked = some j → pendingBit j state ∧ k ≠ j)
    · intro hj
      cases ha.symm.trans hj
    · intro v _ hv
      refine ⟨h.bit_of_marked j v hv, ?_⟩
      rintro rfl
      exact h.count_ne_zero (Pc.pending_of_marked hv) hz
  · intro j hj
    rw [pendingBit_and_not_flag, Bool.and_eq_true, decide_eq_true_iff] at hj
    refine (h.of_bit j hj.1).imp_right fun hu => exists_update (Q := fun q => q.unmarking = some j) hu fun hu => ?_
    rw [hp] at hu
    exact absurd (Option.some.inj hu) hj.2
  · exact fun j => unmarking_update rfl (h.of_unmarking j)

variable {s : State T}

section

omit [DecidableEq T]

theorem Ids.card_lt (ids : Ids T) : Fintype.card T < 2 ^ 32 := by
  have hinj : Injective fun t => (⟨(ids.tid t).toNat, (ids.tid t).toNat_lt⟩ : Fin (2 ^ 32)) := by
    intro t u h
    exact ids.tid_injective (UInt32.toNat_inj.1 (Fin.mk.inj h))
  have hlt := Fintype.card_lt_of_injective_of_notMem _ hinj (b := ⟨0, Nat.two_pow_pos 32⟩) <| by
    rintro ⟨t, ht⟩
    exact ids.tid_ne_zero t (UInt32.toNat_inj.1 (Fin.mk.inj ht))
  rwa [Fintype.card_fin] at hlt

theorem initial_inv (preferred : Bool) : Inv (initial T preferred) := by
  refine ⟨.start fun _ => rfl, ⟨?_, .inl ⟨?_, ?_⟩⟩, ⟨?_, ?_, ?_, ?_⟩, fun _ => trivial⟩
  all_goals simp [initial, owners, writers, readers, total, pendingWeight, Pc.pending, Pc.marked, pendingBit]

end

section Moves

variable {p : Pc} (a : After)

section

omit [Fintype T]

theorem State.goto_pc_self : (s.goto t p).pc t = p := update_self ..

theorem State.goto_pc_of_ne {u : T} (h : u ≠ t) : (s.goto t p).pc u = s.pc u := update_of_ne h ..

theorem State.goto_pc_other {u : T} {q q' : Pc} (ht : s.pc t = q) (hu : s.pc u = q') (hne : q ≠ q') :
    (s.goto u p).pc t = q := by
  rwa [goto_pc_of_ne]
  rintro rfl
  exact hne (ht.symm.trans hu)

theorem phase_update (pc : T → Pc) (t : T) (p : Pc) : Pc.phase ∘ update pc t p = update (Pc.phase ∘ pc) t p.phase :=
  comp_update ..

end

theorem Inv.unmarking_none (hi : Inv s) (ht : (s.pc t).phase = .held) (hn : (s.pc t).unmarking = none) (u : T) :
    (s.pc u).unmarking = none := by
  by_cases hu : u = t
  · rwa [hu]
  · cases hp : s.pc u with
    | unmark =>
      have hh : (s.pc u).phase = .held := by rw [hp]; rfl
      exact absurd (hi.lock.unique u t hh ht) hu
    | _ => rfl

theorem Inv.ok_update (hi : Inv s) (h : p.Ok s.writerNonrecursivePreferred (s.reads t) (s.writes t)) (u : T) :
    (update s.pc t p u).Ok s.writerNonrecursivePreferred (s.reads u) (s.writes u) :=
  forall_update (Q := fun v q => q.Ok s.writerNonrecursivePreferred (s.reads v) (s.writes v)) h
    (fun v _ => hi.ok v) u

theorem Inv.lock_update (hi : Inv s) (h : p.phase = (s.pc t).phase) :
    FutexLock.Inv s.pendingLock (Pc.phase ∘ update s.pc t p) := by
  have hs : update (Pc.phase ∘ s.pc) t p.phase = Pc.phase ∘ s.pc := by
    rw [h]
    exact update_eq_self t (Pc.phase ∘ s.pc)
  rw [phase_update, hs]
  exact hi.lock

omit [DecidableEq T] in
theorem Inv.ok_at (hi : Inv s) (hp : s.pc t = p) : p.Ok s.writerNonrecursivePreferred (s.reads t) (s.writes t) :=
  hp ▸ hi.ok t

theorem Inv.goto (hi : Inv s) {q : Pc} (hq : s.pc t = q) (hp : p.phase = q.phase) (hr : p.role = q.role)
    (hok : p.Ok s.writerNonrecursivePreferred (s.reads t) (s.writes t)) : Inv (s.goto t p) := by
  subst hq
  exact ⟨hi.lock_update hp, hi.owned, hi.pending.congr (fun _ => rfl) (role_update hr), hi.ok_update hok⟩

theorem Inv.lockMove (hi : Inv s) {w : FutexLock.Word}
    (hl : FutexLock.Inv w (update (Pc.phase ∘ s.pc) t p.phase)) (hr : p.role = (s.pc t).role)
    (hok : p.Ok s.writerNonrecursivePreferred (s.reads t) (s.writes t)) :
    Inv { s with pendingLock := w, pc := update s.pc t p } := by
  refine ⟨?_, hi.owned, hi.pending.congr (fun _ => rfl) (role_update hr), hi.ok_update hok⟩
  rw [phase_update]
  exact hl

theorem Inv.lockNext (hi : Inv s) {sec : Section} {ph : FutexLock.Phase} (hp : s.pc t = .lock sec ph) :
    Inv (s.lockNext t sec ph) := by
  have hph : (Pc.phase ∘ s.pc) t = ph := by
    rw [comp_apply, hp]
    rfl
  have hl := hi.lock.next t
  rw [hph] at hl
  apply hi.lockMove hl
  · rw [hp]
    cases sec <;> rfl
  · trivial

theorem After.place_phase : a.place.phase = .out := by cases a <;> rfl

theorem After.place_role : a.place.role = (Pc.unlocking a).role := by cases a <;> rfl

theorem After.place_ok {preferred : Bool} {reads : Nat} {writes : Bool} :
    a.place.Ok preferred reads writes := by cases a <;> trivial

theorem next_held (w : FutexLock.Word) : (FutexLock.next w .held).2 = .wake ∨ (FutexLock.next w .held).2 = .out := by
  cases w
  · exact .inr rfl
  · exact .inr rfl
  · exact .inl rfl

theorem Inv.unlockNext (hi : Inv s) {a : After} (hp : s.pc t = .unlocking a) : Inv (s.unlockNext t a) := by
  have hph : (Pc.phase ∘ s.pc) t = .held := by
    rw [comp_apply, hp]
    rfl
  have hl := hi.lock.next t
  rw [hph] at hl
  rw [State.unlockNext]
  rcases next_held s.pendingLock with hn | hn
  · rw [hn, if_pos rfl]
    rw [hn] at hl
    exact hi.lockMove hl (by rw [hp]; rfl) trivial
  · rw [hn]
    rw [hn] at hl
    apply hi.lockMove (by rwa [a.place_phase]) (by rw [hp, a.place_role]) a.place_ok

end Moves

section Critical

variable {timed timedOut : Bool} {k : Side}

theorem Inv.pend (hi : Inv s) (ids : Ids T) (hp : s.pc t = .lock (.pend k timed) .held) : Inv (s.pend t k timed) := by
  have hh : (s.pc t).phase = .held := by rw [hp]; rfl
  have hr : (s.pc t).role = (none, none, none) := by rw [hp]; rfl
  refine ⟨hi.lock_update hh.symm, hi.owned, ?_, hi.ok_update trivial⟩
  exact hi.pending.pend ids.card_lt hr (fun u _ => hi.unmarking_none hh (by rw [hp]; rfl) u) timed

theorem Inv.mark (hi : Inv s) (hp : s.pc t = .mark k timed) : Inv (s.mark t k timed) := by
  have hh : (s.pc t).phase = .held := by rw [hp]; rfl
  refine ⟨hi.lock_update hh.symm, hi.owned.congr (owners_or_flag ..), ?_, hi.ok_update trivial⟩
  apply hi.pending.mark hp
  split <;> rfl

theorem Inv.unpend (hi : Inv s)
    (hp : s.pc t = .lock (.unpend k timed timedOut) .held) : Inv (s.unpend t k timed timedOut) := by
  have hh : (s.pc t).phase = .held := by rw [hp]; rfl
  refine ⟨hi.lock_update ?_, hi.owned, ?_, hi.ok_update ?_⟩
  · rw [hh]
    split <;> rfl
  · exact hi.pending.unpend (by rw [hp]; rfl) (hi.unmarking_none hh (by rw [hp]; rfl)) timed timedOut
  · split <;> trivial

theorem Inv.unmark (hi : Inv s) (hp : s.pc t = .unmark k timed timedOut) : Inv (s.unmark t k timed timedOut) := by
  have hh : (s.pc t).phase = .held := by rw [hp]; rfl
  exact ⟨hi.lock_update hh.symm, hi.owned.congr (owners_and_not_flag ..),
    hi.pending.unmark hp (afterUnpend_pending ..), hi.ok_update trivial⟩

theorem Inv.choose (hi : Inv s) (hp : s.pc t = .lock .choose .held) : Inv (s.choose t) := by
  have hm {a : After} (ha : a.pending = none) : Inv (s.goto t (.unlocking a)) := by
    refine hi.goto hp rfl ?_ trivial
    change (a.pending, a.pending, none) = _
    rw [ha]
    rfl
  have hs k : Inv (s.announce t k) :=
    have h := hm (a := .wake k) rfl
    ⟨h.lock, h.owned, h.pending, h.ok⟩
  rw [State.choose]
  split
  · exact hs .writer
  · split
    · exact hs .reader
    · exact hm rfl

end Critical

end Bionic.RwLock
