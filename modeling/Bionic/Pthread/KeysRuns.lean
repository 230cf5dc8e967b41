import Bionic.Pthread.Keys

namespace Bionic.Keys

open Function Nat List State

variable {T : Type} [DecidableEq T] {w n : Nat} {s s' : State T w} {t : T} {i : Index} {seq : BitVec w} {p : Pc w}
  {d : UInt64} {e : Exit w}

section Slots

section

variable (h : SlotsOk s)
include h

section

omit [DecidableEq T]

theorem SlotsOk.mem_alive (hm : ⟨i, n⟩ ∈ s.alive) : n = s.created i ∧ 0 < n := h.number _ hm

theorem SlotsOk.inUse_iff (hw : 0 < w) (i : Index) : seqOfKeyInUse (s.seq i) ↔ ⟨i, s.created i⟩ ∈ s.alive := by
  rw [h.seq_eq i]
  split
  case isTrue hm => simp [hm, seqOfKeyInUse_seqOf hw (h.mem_alive hm).2]
  case isFalse hm => simp [hm, seqOfKeyInUse_even hw]

theorem SlotsOk.seq_alive (hm : ⟨i, s.created i⟩ ∈ s.alive) : s.seq i = seqOf w (s.created i) := by
  rw [h.seq_eq i, if_pos hm]

theorem SlotsOk.seq_unused (hm : ⟨i, s.created i⟩ ∉ s.alive) : s.seq i = BitVec.ofNat w (2 * s.created i) := by
  rw [h.seq_eq i, if_neg hm]

end

theorem SlotsOk.createKey (hm : ⟨i, s.created i⟩ ∉ s.alive)
    (hseq : s.seq i = seq) : SlotsOk (createKey s t d i seq) := by
  have hs (k : Key) (hk : k ∈ s.alive) : k.slot ≠ i := by
    rintro rfl
    rw [← (h.number k hk).1] at hm
    exact hm hk
  refine ⟨?_, ?_⟩
  · intro k hk
    rcases mem_cons.1 hk with rfl | hk
    · simp
    · simpa [hs k hk] using h.number k hk
  · intro j
    by_cases hj : j = i
    · subst hj
      have hnew : seq + 1 = seqOf w (s.created j + 1) := by
        rw [← hseq, h.seq_unused hm, ofNat_add_one, seqOf]
        congr 1
      simpa using hnew
    · simpa [hj] using h.seq_eq j

theorem SlotsOk.deleteCas (hm : ⟨i, s.created i⟩ ∈ s.alive) (hseq : s.seq i = seq) :
    SlotsOk (deleteCas s t i seq) := by
  rw [Keys.deleteCas, if_pos hseq]
  refine ⟨?_, ?_⟩
  · intro k hk
    exact h.number k (mem_filter.1 hk).1
  · intro j
    by_cases hj : j = i
    · subst hj
      have hpos := (h.mem_alive hm).2
      have hnew : seq + 1 = BitVec.ofNat w (2 * s.created j) := by
        rw [← hseq, h.seq_alive hm, seqOf, ofNat_add_one]
        congr 1
        omega
      simpa using hnew
    · simpa [hj] using h.seq_eq j

end

end Slots

section Steps

theorem Inv.goto (hi : Inv s) (hu : (s.exit t).userRuns)
    (hp : p.Ok s.alive s.created (s.stores t) (s.keyData t)) : Inv (s.goto t p) := by
  have hm := hi.threads t
  refine hi.moveLocal rfl rfl rfl (t := t) ⟨hm.data, ?_, hm.exit, .inl hu⟩ ?_
  · simpa using hp
  · intro u hu
    exact ⟨update_of_ne hu _ _, rfl, rfl, rfl⟩

theorem Inv.setExit (hi : Inv s) (he : e.Ok s.created (s.stores t)) : Inv (s.setExit t e) := by
  have hm := hi.threads t
  refine hi.moveLocal rfl rfl rfl (t := t) ⟨hm.data, ?_, ?_, .inr ?_⟩ ?_
  · simp [Pc.Ok]
  · simpa using he
  · simp
  · intro u hu
    simp [hu]

section

omit [DecidableEq T]

theorem Inv.setDestructor (hi : Inv s) (f : Index → UInt64) : Inv { s with keyDestructor := f } :=
  ⟨⟨hi.slots.number, hi.slots.seq_eq⟩, fun u => (hi.threads u).grow ⟨fun _ => le_refl _, fun _ _ h => h⟩ rfl rfl rfl rfl⟩

theorem createLoop_ok (d : UInt64) (i : Index) (seq : BitVec w) :
    (createLoop d i seq).Ok s.alive s.created (s.stores t) (s.keyData t) := by
  rw [createLoop]
  split
  case isTrue => trivial
  case isFalse h => exact Bool.eq_false_of_not_eq_true h

end

theorem Inv.createKey (hi : Inv s) (hw : 0 < w) (hp : s.pc t = .createCas d i seq)
    (hseq : s.seq i = seq) (hu : (s.exit t).userRuns) : Inv (createKey s t d i seq) := by
  have hf : seqOfKeyInUse seq = false := by
    have := (hi.threads t).pc
    rwa [hp] at this
  have hm : ⟨i, s.created i⟩ ∉ s.alive := by
    rw [← hi.slots.inUse_iff hw, hseq, hf]
    exact Bool.false_ne_true
  have hg : Grows s (Keys.createKey s t d i seq) := by
    refine ⟨?_, ?_⟩
    · intro j
      by_cases hj : j = i
      · subst hj
        simp
      · simp [hj]
    · intro k hk hmem
      rcases mem_cons.1 hmem with rfl | hmem
      · exact absurd hk (not_succ_le_self _)
      · exact hmem
  have hke : ThreadOk { Keys.createKey s t d i seq with pc := s.pc } t := (hi.threads t).grow ⟨hg.created, hg.alive⟩ rfl rfl rfl rfl
  refine hi.move (hi.slots.createKey hm hseq) hg (t := t) ⟨hke.data, ?_, hke.exit, .inl hu⟩ ?_
  · simp [Pc.Ok]
  · intro u hu
    simp [hu]

theorem Inv.deleteCas (hi : Inv s) (hw : 0 < w) (hp : s.pc t = .deleteCas i seq)
    (hu : (s.exit t).userRuns) : Inv (deleteCas s t i seq) := by
  have hus : seqOfKeyInUse seq := by
    have := (hi.threads t).pc
    rwa [hp] at this
  by_cases hseq : s.seq i = seq
  · have hm : ⟨i, s.created i⟩ ∈ s.alive := by
      rw [← hi.slots.inUse_iff hw, hseq, hus]
    have hs := hi.slots.deleteCas (t := t) hm hseq
    rw [Keys.deleteCas, if_pos hseq] at hs ⊢
    have hg : Grows s { s.returns t .zero with
        seq := update s.seq i (seq + 1)
        alive := s.alive.filter (·.slot ≠ i) } :=
      ⟨fun _ => le_refl _, fun k _ h => (mem_filter.1 h).1⟩
    have hk : ThreadOk { s with
        seq := update s.seq i (seq + 1)
        alive := s.alive.filter (·.slot ≠ i) } t :=
      (hi.threads t).grow ⟨hg.created, hg.alive⟩ rfl rfl rfl rfl
    refine hi.move hs hg (t := t) ⟨hk.data, ?_, hk.exit, .inl hu⟩ ?_
    · simp [Pc.Ok, Result.Ok]
    · intro u hu
      simp [hu]
  · rw [Keys.deleteCas, if_neg hseq]
    exact hi.goto hu trivial

theorem Inv.getLoad (hi : Inv s) (hw : 0 < w) (hu : (s.exit t).userRuns) :
    Inv (s.goto t (.getData i (s.seq i) (s.keyAt i))) := by
  have hd := (hi.threads t).data i
  apply hi.goto hu
  rw [keyAt]
  split
  case isTrue hm =>
    refine ⟨hi.slots.seq_alive hm, (hi.slots.mem_alive hm).2, le_refl _, hd.le, ?_⟩
    intro he
    rcases hd.value with hv | hde
    · rw [hv, he]
    · rw [he] at hde
      exact absurd hm hde
  case isFalse hm =>
    refine ⟨?_, hd.le, ?_⟩
    · rw [hi.slots.seq_unused hm, seqOfKeyInUse_even hw]
    · intro ha
      rw [(hi.slots.mem_alive ha).1] at ha
      exact hm ha

theorem Inv.writeData (hi : Inv s) {d : KeyData w} {l : List Store} (hd : DataOk s.alive (s.created i) i l d)
    (hl : ∀ j, j ≠ i → DataOk s.alive (s.created j) j l (s.keyData t j))
    (hp : p.Ok s.alive s.created l (update (s.keyData t) i d)) (he : e.Ok s.created l)
    (hu : e.userRuns ∨ p = .out none) :
    Inv { s with
      keyData := update s.keyData t (update (s.keyData t) i d)
      stores := update s.stores t l
      pc := update s.pc t p
      exit := update s.exit t e } := by
  refine hi.moveLocal rfl rfl rfl (t := t) ⟨?_, ?_, ?_, ?_⟩ ?_
  · intro j
    dsimp only
    rw [update_self, update_self]
    by_cases hj : j = i
    · subst hj
      rwa [update_self]
    · rw [update_of_ne hj]
      exact hl j hj
  · simpa using hp
  · simpa using he
  · simpa using hu
  · intro u hu
    exact ⟨update_of_ne hu _ _, update_of_ne hu _ _, update_of_ne hu _ _,
      update_of_ne hu _ _⟩

end Steps

/-- The number of keys that a slot may have seen: the first one and fewer than `2 ^ 31` reuses. -/
def Bounded (s : State T w) : Prop := ∀ i, s.created i ≤ 2 ^ 31

section

omit [DecidableEq T]

theorem Inv.at (hi : Inv s) (hp : s.pc t = p) : p.Ok s.alive s.created (s.stores t) (s.keyData t) := by
  rw [← hp]
  exact (hi.threads t).pc

theorem Inv.userRuns (hi : Inv s) (hp : s.pc t = p) (hne : p ≠ .out none) : (s.exit t).userRuns := by
  rcases (hi.threads t).busy with h | h
  · exact h
  · exact absurd (hp.symm.trans h) hne

end

variable {seq : BitVec w} {ptr : UInt64}

/-- A value is returned only if the entry of the thread is of the key that was seen. -/
theorem Inv.getData (hi : Inv s) (hw : 32 ≤ w) (hb : Bounded s) {key : Option Nat}
    (hp : s.pc t = .getData i seq key) : Inv (getData s t i seq key) := by
  have hu := hi.userRuns hp (by simp)
  have hd := (hi.threads t).data i
  have hok := hi.at hp
  have hc (hde : ⟨i, lastKey (s.stores t) i⟩ ∉ s.alive)
      (hv : (Result.value 0 i key).Ok (s.stores t)) :
      Inv ((s.setData t i { s.keyData t i with data := 0 }).returns t (.value 0 i key)) := by
    have h := hi.writeData (p := .out (some (.value 0 i key))) (e := s.exit t) (l := s.stores t)
      (d := { s.keyData t i with data := 0 }) ⟨hd.seq_eq, hd.le, .inr hde, hd.fresh⟩ (fun j _ => (hi.threads t).data j) hv (hi.threads t).exit (.inl hu)
    simpa using h
  rw [Keys.getData]
  cases key with
  | none =>
    obtain ⟨hf, -, hde⟩ := hok
    rw [if_neg (by simp [hf])]
    exact hc hde rfl
  | some c =>
    obtain ⟨rfl, hpos, hle, hl, hva⟩ := hok
    split
    case isTrue h =>
      have heq : lastKey (s.stores t) i = c :=
        seqOf_inj hw hl hpos (hle.trans (hb i)) (hd.seq_eq.symm.trans h.2)
      exact hi.goto hu (hva heq)
    case isFalse h =>
      have hlt : lastKey (s.stores t) i < c := by
        refine lt_of_le_of_ne hl ?_
        rintro rfl
        exact h ⟨seqOfKeyInUse_seqOf (by omega) hpos, hd.seq_eq⟩
      refine hc ?_ (hd.fresh c hlt).symm
      intro ha
      have := (hi.slots.mem_alive ha).1
      omega

theorem Inv.setLoad (hi : Inv s) (hw : 0 < w) (hu : (s.exit t).userRuns) : Inv (setLoad s t i ptr) := by
  rw [Keys.setLoad]
  split
  case isTrue h =>
    have hm := (hi.slots.inUse_iff hw i).1 h
    exact hi.goto hu ⟨hi.slots.seq_alive hm, (hi.slots.mem_alive hm).2, le_refl _, ((hi.threads t).data i).le⟩
  case isFalse => exact hi.goto hu trivial

variable {alive : List Key} {created c : Nat} {l : List Store} {d : KeyData w}

theorem DataOk.record (h : DataOk alive created i l d) (hc : lastKey l i ≤ c) (hle : c ≤ created) (v : UInt64) :
    DataOk alive created i (⟨i, c, v⟩ :: l) ⟨seqOf w c, v⟩ := by
  refine ⟨?_, ?_, .inl ?_, ?_⟩
  · rw [lastKey_cons_self]
  · rwa [lastKey_cons_self]
  · rw [lastKey_cons_self]
    simp [lastStored]
  · intro n hn
    rw [lastKey_cons_self] at hn
    rw [lastStored_cons_of_ne (by omega)]
    exact h.fresh n (by omega)

theorem DataOk.record_of_ne {j : Index}
    (h : DataOk alive created j l d) (hj : j ≠ i) (v : UInt64) : DataOk alive created j (⟨i, c, v⟩ :: l) d := by
  have hkey : lastKey (⟨i, c, v⟩ :: l) j = lastKey l j := by simp [lastKey, Ne.symm hj]
  have hs (n : Nat) : lastStored (⟨i, c, v⟩ :: l) j n = lastStored l j n :=
    lastStored_cons_of_ne (fun h => hj h.1.symm) v l
  refine ⟨?_, ?_, ?_, ?_⟩
  · rw [hkey]
    exact h.seq_eq
  · rw [hkey]
    exact h.le
  · rw [hkey, hs]
    exact h.value
  · intro n hn
    rw [hkey] at hn
    rw [hs]
    exact h.fresh n hn

theorem Inv.setData (hi : Inv s) (hp : s.pc t = .setData i ptr seq c) : Inv (setData s t i ptr seq c) := by
  obtain ⟨rfl, -, hle, hl⟩ := hi.at hp
  have hu := hi.userRuns hp (by simp)
  have hex : (s.exit t).Ok s.created (⟨i, c, ptr⟩ :: s.stores t) := by
    cases he : s.exit t with
    | destructor | recheck =>
      rw [he] at hu
      exact hu.elim
    | _ => trivial
  have h := hi.writeData (p := .out (some .zero)) (e := s.exit t) (((hi.threads t).data i).record hl hle ptr)
    (fun j hj => ((hi.threads t).data j).record_of_ne hj ptr) trivial hex (.inl hu)
  simpa [Keys.setData, State.record] using h

theorem cleanNext_ok (rounds called : Nat) (i : Index) (created : Index → Nat) (l : List Store) :
    (cleanNext rounds called i : Exit w).Ok created l := by
  rw [cleanNext]
  split
  · trivial
  · split <;> trivial

theorem Inv.cleanLoad (hi : Inv s) (hw : 32 ≤ w) (hb : Bounded s) {rounds called : Nat} :
    Inv (cleanLoad s t rounds called i) := by
  rw [Keys.cleanLoad]
  split
  case isTrue h =>
    have hm := (hi.slots.inUse_iff (by omega) i).1 h.1
    have hd := (hi.threads t).data i
    apply hi.setExit
    refine ⟨?_, le_refl _⟩
    apply seqOf_inj hw hd.le (hi.slots.mem_alive hm).2 (hb i)
    rw [← hd.seq_eq, ← h.2.1, hi.slots.seq_alive hm]
  case isFalse => exact hi.setExit (cleanNext_ok ..)

theorem Inv.cleanRecheck (hi : Inv s) {rounds called : Nat}
    (he : s.exit t = .recheck rounds called i seq c) : Inv (cleanRecheck s t rounds called i seq c) := by
  have hok := (hi.threads t).exit
  rw [he] at hok
  obtain ⟨rfl, hle⟩ := hok
  have hd := (hi.threads t).data i
  rw [Keys.cleanRecheck]
  split
  case isTrue => exact hi.setExit (cleanNext_ok ..)
  case isFalse =>
    have hnew := hd.record (le_refl _) hle 0
    rw [← hd.seq_eq] at hnew
    have h := hi.writeData (p := .out none) (e := .run rounds called i) hnew
      (fun j hj => ((hi.threads t).data j).record_of_ne hj 0) trivial trivial (.inl trivial)
    simpa [State.record] using h

theorem begin_ok (op : Op) (alive : List Key) (created : Index → Nat) (l : List Store) (d : Index → KeyData w) :
    (begin op : Pc w).Ok alive created l d := by
  cases op with
  | create => trivial
  | delete key | getspecific key | setspecific key ptr =>
    rw [begin]
    split <;> trivial

theorem Inv.exec (hi : Inv s) (hw : 32 ≤ w) (hb : Bounded s) (he : Exec s t s') : Inv s' := by
  have hpos : 0 < w := by omega
  cases he with
  | call last op hp hu => exact hi.goto hu (begin_ok op ..)
  | createLoad d i hp hlt | createRetry d i seq hp => exact hi.goto (hi.userRuns hp (by simp)) (createLoop_ok ..)
  | createFull d i hp => exact hi.goto (hi.userRuns hp (by simp)) trivial
  | createCas d i seq hp hold => exact hi.createKey hpos hp hold (hi.userRuns hp (by simp))
  | createStore d i hp => exact (hi.setDestructor _).goto (hi.userRuns hp (by simp)) trivial
  | deleteLoad i hp =>
    apply hi.goto (hi.userRuns hp (by simp))
    split
    case isTrue h => exact h
    case isFalse => trivial
  | deleteCas i seq hp => exact hi.deleteCas hpos hp (hi.userRuns hp (by simp))
  | getLoad i hp => exact hi.getLoad hpos (hi.userRuns hp (by simp))
  | getData i seq key hp => exact hi.getData hw hb hp
  | setLoad i ptr hp => exact hi.setLoad hpos (hi.userRuns hp (by simp))
  | setData i ptr seq key hp => exact hi.setData hp
  | exit last hp he => exact hi.setExit trivial
  | cleanLoad rounds called i he => exact hi.cleanLoad hw hb
  | cleanDestructor rounds called i seq key he =>
    have hok := (hi.threads t).exit
    rw [he] at hok
    apply hi.setExit
    split
    · exact cleanNext_ok ..
    · exact hok
  | cleanRecheck rounds called i seq key he => exact hi.cleanRecheck he
  | destructorReturns last rounds called i hp he => exact hi.setExit (cleanNext_ok ..)

theorem Exec.created_le (he : Exec s t s') (i : Index) : s.created i ≤ s'.created i := by
  cases he with
  | createCas d j seq hp hold =>
    by_cases hj : i = j
    · subst hj
      simp
    · simp [hj]
  | deleteCas | getData | setLoad | cleanLoad | cleanRecheck =>
    simp only [Keys.deleteCas, Keys.getData, Keys.setLoad, Keys.cleanLoad, Keys.cleanRecheck]
    split <;> exact le_refl _
  | _ => exact le_refl _

omit [DecidableEq T] in
theorem Inv.of_init (h : Init s) : Inv s := by
  subst h
  refine ⟨⟨by simp, ?_⟩, fun t => ⟨?_, trivial, trivial, .inl trivial⟩⟩
  · intro i
    simp
  · intro i
    exact ⟨rfl, le_refl _, .inl rfl, fun _ _ => rfl⟩

theorem inv_invariant (T : Type) [DecidableEq T] (lp64 : Bool) :
    (system T lp64).Invariant fun s => Bounded s → Inv s where
  init := fun _ h _ => Inv.of_init h
  step := by
    rintro s s' hi ⟨t, he⟩ hb
    have hb' : Bounded s := fun i => (he.created_le i).trans (hb i)
    exact (hi hb').exec (by cases lp64 <;> decide) hb' he

theorem exists_store_of_lastStored (h : lastStored l i n ≠ 0) :
    ∃ r ∈ l, r.slot = i ∧ r.number = n ∧ r.value = lastStored l i n := by
  rw [lastStored] at h ⊢
  cases hf : l.find? fun r => r.slot = i ∧ r.number = n with
  | none =>
    rw [hf] at h
    exact absurd rfl h
  | some r =>
    obtain ⟨hs, hn⟩ : r.slot = i ∧ r.number = n := by simpa using find?_some hf
    exact ⟨r, mem_of_find?_eq_some hf, hs, hn, rfl⟩

theorem keys_correct {lp64 : Bool} {s : State T (bits lp64)} (hs : (system T lp64).Reachable s) (hb : Bounded s) :
    (∀ k ∈ s.alive, ∀ k' ∈ s.alive, k.slot = k'.slot → k = k') ∧
      (∀ t v i c, s.pc t = .out (some (.value v i (some c))) → v = lastStored (s.stores t) i c ∧
        (v ≠ 0 → ∃ r ∈ s.stores t, r.slot = i ∧ r.number = c ∧ r.value = v)) ∧
      (∀ t v i, s.pc t = .out (some (.value v i none)) → v = 0) ∧
      ∀ t i n, s.created i < n → lastStored (s.stores t) i n = 0 := by
  have hi := (inv_invariant T lp64).reachable hs hb
  refine ⟨?_, ?_, ?_, ?_⟩
  · rintro ⟨i, n⟩ hk ⟨j, m⟩ hk' rfl
    rw [(hi.slots.mem_alive hk).1, (hi.slots.mem_alive hk').1]
  · intro t v i c hp
    have hv : v = lastStored (s.stores t) i c := hi.at hp
    refine ⟨hv, ?_⟩
    rw [hv]
    exact exists_store_of_lastStored
  · intro t v i hp
    exact hi.at hp
  · intro t i n hn
    have hd := (hi.threads t).data i
    exact hd.fresh n (lt_of_le_of_lt hd.le hn)

/-- A value is stored under the first key of slot 0, and a thread that looks under the second one sees null. -/
theorem keys_correct_reused :
    ∃ s : State Unit 64, (system Unit true).Reachable s ∧ lastStored (s.stores ()) 0 1 = 5 ∧
      s.pc () = .out (some (.value 0 0 (some 2))) ∧ ∀ k ∈ s.alive, ∀ k' ∈ s.alive, k.slot = k'.slot → k = k' := by
  have h₀ : (system Unit true).Reachable
      ⟨fun _ => 0, fun _ => 0, fun _ _ => ⟨0, 0⟩, fun _ => .out none, fun _ => .no, fun _ => 0, [], fun _ => []⟩ :=
    .of_init rfl
  have h₁ := (h₀.step ⟨(), .call none (.create 0) rfl trivial⟩).step ⟨(), .createLoad 0 0 rfl (by decide)⟩
  have h₂ := (h₁.step ⟨(), .createCas 0 0 0 rfl rfl⟩).step ⟨(), .createStore 0 0 rfl⟩
  have h₃ := h₂.step ⟨(), .call _ (.setspecific 0x80000000 5) rfl trivial⟩
  have h₄ := (h₃.step ⟨(), .setLoad 0 5 rfl⟩).step ⟨(), .setData 0 5 1 1 rfl⟩
  have h₅ := (h₄.step ⟨(), .call _ (.delete 0x80000000) rfl trivial⟩).step ⟨(), .deleteLoad 0 rfl⟩
  have h₆ := (h₅.step ⟨(), .deleteCas 0 1 rfl⟩).step ⟨(), .call _ (.create 0) rfl trivial⟩
  have h₇ := (h₆.step ⟨(), .createLoad 0 0 rfl (by decide)⟩).step ⟨(), .createCas 0 0 2 rfl rfl⟩
  have h₈ := (h₇.step ⟨(), .createStore 0 0 rfl⟩).step ⟨(), .call _ (.getspecific 0x80000000) rfl trivial⟩
  have h₉ := (h₈.step ⟨(), .getLoad 0 rfl⟩).step ⟨(), .getData 0 3 (some 2) rfl⟩
  refine ⟨_, h₉, rfl, rfl, (keys_correct h₉ ?_).1⟩
  intro i
  by_cases hi : i = 0
  · subst hi
    decide
  · refine (le_of_eq ?_).trans (zero_le _)
    exact (update_of_ne hi _ _).trans (update_of_ne hi _ _)

end Bionic.Keys
