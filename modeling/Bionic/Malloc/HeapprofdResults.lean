import Bionic.Malloc.Heapprofd

namespace Bionic.Heapprofd

open State

variable {s s' : State}

/-- The default table is GWP-ASan's, or a hook that saved GWP-ASan's table and calls on nothing else. -/
def State.ReachesGwpAsan (s : State) : Prop :=
  s.defaultTable = some .gwpAsan ∨
    ∃ hook, (hook = .ephemeral ∨ hook = .heapprofd) ∧ s.defaultTable = some hook ∧
      s.previousTable = some .gwpAsan ∧ ∀ t ∈ s.forwards hook, t = .gwpAsan

/-- Nothing was saved yet, and no caller that reads the saved table can be on its way. -/
def Fresh (s : State) : Prop :=
  s.initThreads = 0 ∧
    (s.mutator = some .signalSave ∨
      s.heapprofdState = .initialState ∧ s.mutator ≠ some .initCas ∧ s.mutator ≠ some .mallocCreate)

/-- What holds besides `Inv` in a process started under GWP-ASan whose signals find no heapprofd hook. -/
structure GwpInv (s : State) : Prop extends Inv s where
  reaches : s.ReachesGwpAsan
  saved : s.previousTable = some .gwpAsan ∨ Fresh s
  unhooked : s.mutator = some .signalCas ∨ s.mutator = some .signalSave → s.defaultTable ≠ some .heapprofd
  copied : s.mutator = some .signalInstall → s.previousTable = some .gwpAsan ∧ s.ephemeralRest = .gwpAsan

theorem State.ReachesGwpAsan.default_eq (hr : s.ReachesGwpAsan) (hu : Unhooked s.defaultTable) :
    s.defaultTable = some .gwpAsan := by
  obtain h | ⟨hook, hh, ht, -⟩ := hr
  · exact h
  · obtain rfl | rfl := hh <;> simp [Unhooked, ht] at hu

theorem GwpInv.saved_of_state (hg : GwpInv s) (hs : s.heapprofdState ≠ .initialState)
    (hm : s.mutator ≠ some .signalSave) : s.previousTable = some .gwpAsan := by
  obtain h | ⟨-, h | h⟩ := hg.saved
  · exact h
  · exact absurd h hm
  · exact absurd h.1 hs

theorem GwpInv.of_tables (hg : GwpInv s) (hi : Inv s') (ht : s'.defaultTable = s.defaultTable)
    (hp : s'.previousTable = s.previousTable) (hf : s'.forwards = s.forwards)
    (hs : s'.previousTable = some .gwpAsan ∨ Fresh s')
    (hm : s'.mutator ≠ some .signalCas ∧ s'.mutator ≠ some .signalSave ∧ s'.mutator ≠ some .signalInstall) :
    GwpInv s' where
  toInv := hi
  reaches := by
    have hr := hg.reaches
    rwa [State.ReachesGwpAsan, ← ht, ← hp, ← hf] at hr
  saved := hs
  unhooked h := by
    obtain h | h := h
    · exact absurd h hm.1
    · exact absurd h hm.2.1
  copied h := absurd h hm.2.2

theorem GwpInv.of_default (hi : Inv s') (ht : s'.defaultTable = some .gwpAsan)
    (hp : s'.previousTable = some .gwpAsan) (hc : s'.mutator = some .signalInstall → s'.ephemeralRest = .gwpAsan) :
    GwpInv s' where
  toInv := hi
  reaches := .inl ht
  saved := .inl hp
  unhooked _ := by rw [ht]; simp
  copied h := ⟨hp, hc h⟩

section

variable (hg : GwpInv s) {pc : Pc}

include hg

theorem GwpInv.cas {next : Pc} (hm : s.mutator = some pc) (hpc : pc ≠ .signalSave)
    {expected desired : MallocHeapprofdState}
    (hi : Inv (s.cas expected desired next))
    (hs : s.heapprofdState = expected → s.previousTable = some .gwpAsan)
    (hn : next ≠ .signalCas ∧ next ≠ .signalSave ∧ next ≠ .signalInstall) :
    GwpInv (s.cas expected desired next) := by
  rw [State.cas] at hi ⊢
  split
  next he =>
    rw [if_pos he] at hi
    exact hg.of_tables hi rfl rfl rfl (.inl (hs he)) (by simpa using hn)
  next he =>
    rw [if_neg he] at hi
    refine hg.of_tables hi rfl rfl rfl (hg.saved.imp_right fun hf => ?_) (by simp)
    obtain ⟨h0, h | h⟩ := hf
    · rw [hm, Option.some.injEq] at h
      exact absurd h hpc
    · exact ⟨h0, .inr ⟨h.1, by simp, by simp⟩⟩

theorem GwpInv.takeSignal (hm : s.mutator = some .signalCas)
    (hi : Inv { s with heapprofdState := .installingEphemeralHook, mutator := some .signalSave }) :
    GwpInv { s with heapprofdState := .installingEphemeralHook, mutator := some .signalSave } where
  toInv := hi
  reaches := hg.reaches
  saved := hg.saved.imp_right fun hf => ⟨hf.1, .inl rfl⟩
  unhooked _ := hg.unhooked (.inl hm)
  copied h := by simp at h

theorem GwpInv.advance (hm : s.mutator = some pc) (ok : Bool) : GwpInv (s.advance ok pc) := by
  have hi := hg.toInv.advance hm ok
  have hc := hg.coherent
  simp only [Coherent, hm] at hc
  cases pc with
  | signalCas =>
    simp only [State.advance] at hi ⊢
    split
    next he =>
      rw [if_pos he] at hi
      exact hg.takeSignal hm hi
    next he =>
      rw [if_neg he] at hi
      have hp := hg.saved_of_state he (by rw [hm]; simp)
      rw [State.cas] at hi ⊢
      split
      next he' =>
        rw [if_pos he'] at hi
        exact hg.takeSignal hm hi
      next he' =>
        rw [if_neg he'] at hi
        exact hg.of_tables hi rfl rfl rfl (.inl hp) (by simp)
  | signalSave =>
    have ht : s.defaultTable = some .gwpAsan := by
      apply hg.reaches.default_eq
      exact hc.2.resolve_right (hg.unhooked (.inr hm))
    rw [State.advance, State.saveDefault, ht] at hi ⊢
    exact .of_default hi rfl rfl fun _ => rfl
  | signalInstall =>
    obtain ⟨hp, hr⟩ := hg.copied hm
    refine ⟨hi, .inr ⟨.ephemeral, .inl rfl, rfl, hp, ?_⟩, .inl hp, ?_, ?_⟩
    · simp [State.forwards, hp, hr]
    all_goals simp
  | mallocRestore | resetRestore =>
    have hp := hg.saved_of_state (by rw [hc.1]; simp) (by rw [hm]; simp)
    exact .of_default hi hp hp (by simp)
  | initSave =>
    have ht := hg.reaches.default_eq hc.2
    exact .of_default hi ht ht (by simp)
  | initFinish =>
    have ht := hg.reaches.default_eq hc.2
    have hp := hg.saved_of_state (by rw [hc.1]; simp) (by rw [hm]; simp)
    refine ⟨hi, ?_, .inl hp, ?_, ?_⟩
    · cases ok with
      | false => exact .inl ht
      | true => exact .inr ⟨.heapprofd, .inr rfl, rfl, hp, by simp [State.forwards, ht]⟩
    all_goals simp
  | signalDone | mallocDone | initDone | resetDone =>
    have hp := hg.saved_of_state (by rw [hc.1]; simp) (by rw [hm]; simp)
    exact hg.of_tables hi rfl rfl rfl (.inl hp) (by simp)
  | initLoad =>
    have hp := hg.saved_of_state (by rw [hc.1]; simp) (by rw [hm]; simp)
    cases ok <;> exact hg.of_tables hi rfl rfl rfl (.inl hp) (by simp)
  | mallocCas | resetCas =>
    refine hg.cas hm (by simp) hi (fun he => ?_) (by simp)
    exact hg.saved_of_state (by rw [he]; simp) (by rw [hm]; simp)
  | mallocCreate =>
    have hp := hg.saved.resolve_right fun hf => by simp [Fresh, hm] at hf
    exact hg.of_tables hi rfl rfl rfl (.inl hp) (by simp)
  | initCas =>
    refine hg.cas hm (by simp) hi (fun _ => ?_) (by simp)
    exact hg.saved.resolve_right fun hf => by simp [Fresh, hm] at hf
  | leave =>
    refine hg.of_tables hi rfl rfl rfl (hg.saved.imp_right fun hf => ?_) (by simp)
    obtain ⟨h0, h | h⟩ := hf
    · simp [hm] at h
    · exact ⟨h0, .inr ⟨h.1, by simp, by simp⟩⟩

theorem GwpInv.enter (hpc : pc = .signalCas ∨ pc = .mallocCas ∨ pc = .resetCas)
    (hu : pc = .signalCas → s.mutator = none → s.defaultTable ≠ some .heapprofd)
    (hi : Inv (s.maybeModifyGlobals pc)) : GwpInv (s.maybeModifyGlobals pc) := by
  rw [maybeModifyGlobals] at hi ⊢
  split
  next hm =>
    rw [hm] at hi
    refine ⟨hi, hg.reaches, hg.saved.imp_right fun hf => ?_, fun h => ?_, fun h => ?_⟩
    · obtain ⟨h0, h | h⟩ := hf
      · simp [hm] at h
      · refine ⟨h0, .inr ⟨h.1, ?_⟩⟩
        obtain rfl | rfl | rfl := hpc <;> simp
    · obtain rfl | rfl | rfl := hpc
      · exact hu rfl hm
      all_goals simp at h
    · obtain rfl | rfl | rfl := hpc <;> simp at h
  · exact hg

theorem GwpInv.initHeapprofd (hi : Inv (s.next .initHeapprofd)) : GwpInv (s.next .initHeapprofd) := by
  simp only [next] at hi ⊢
  cases hn : s.initThreads with
  | zero => exact hg
  | succ n =>
    have hp := hg.saved.resolve_right fun hf => by simp [Fresh, hn] at hf
    rw [hn] at hi
    simp only [maybeModifyGlobals] at hi ⊢
    cases hm : s.mutator with
    | none =>
      simp only [hm] at hi
      exact hg.of_tables hi rfl rfl rfl (.inl hp) (by simp)
    | some pc =>
      simp only [hm] at hi
      refine ⟨hi, hg.reaches, .inl hp, fun h => hg.unhooked (by rwa [hm]), fun h => hg.copied (by rwa [hm])⟩

theorem GwpInv.next {e : Event} (ha : NoRetrigger s e) : GwpInv (s.next e) := by
  have hi := hg.toInv.next e
  cases e with
  | handleHeapprofdSignal =>
    simp only [State.next] at hi ⊢
    split
    · exact hg
    next hh =>
      rw [if_neg hh] at hi
      exact hg.enter (.inl rfl) (fun _ => ha rfl) hi
  | mallocInitHeapprofdHook => exact hg.enter (.inr (.inl rfl)) (by simp) hi
  | initHeapprofd => exact hg.initHeapprofd hi
  | dispatchReset =>
    simp only [State.next] at hi ⊢
    split
    · exact hg
    next hh =>
      rw [if_neg hh] at hi
      exact hg.enter (.inr (.inr rfl)) (by simp) hi
  | advance ok =>
    simp only [State.next] at hi ⊢
    split
    · exact hg
    next hm => exact hg.advance hm ok

end

theorem gwpInv_invariant : (system true NoRetrigger).Invariant GwpInv where
  init s hs := by
    have hi := inv_invariant.init s hs
    subst hs
    exact ⟨hi, .inl rfl, .inr ⟨rfl, .inr ⟨rfl, by simp [init], by simp [init]⟩⟩, by simp [init], by simp [init]⟩
  step s s' hg hs := by
    obtain ⟨e, ha, rfl⟩ := hs
    exact hg.next ha

variable {gwpAsan : Bool} {allowed : State → Event → Prop}

def MallocHeapprofdState.namesEphemeralHook (h : MallocHeapprofdState) : Prop :=
  h = .installingEphemeralHook ∨ h = .ephemeralHookInstalled ∨ h = .removingEphemeralHook

namespace State

def Forwards (s : State) (a b : MallocDispatch) : Prop := b ∈ s.forwards a

/-- The ephemeral table is the default only in the states named after it, and between two calls of
`MaybeModifyGlobals` exactly in `kEphemeralHookInstalled`. -/
def EphemeralNamed (s : State) : Prop :=
  (s.defaultTable = some .ephemeral → s.heapprofdState.namesEphemeralHook) ∧
    (s.mutator = none → (s.defaultTable = some .ephemeral ↔ s.heapprofdState = .ephemeralHookInstalled))

end State

def MallocDispatch.depth : MallocDispatch → Nat
  | .native => 0
  | .gwpAsan => 1
  | .ephemeral | .heapprofd => 2

theorem depth_lt_two {t : MallocDispatch} (h : t = .native ∨ t = .gwpAsan) : t.depth < 2 := by
  obtain rfl | rfl := h
  · exact Nat.zero_lt_two
  · exact Nat.one_lt_two

theorem Inv.depth_lt (hi : Inv s) {a b : MallocDispatch} (h : s.Forwards a b) : b.depth < a.depth := by
  cases a with
  | native => exact absurd h (List.not_mem_nil)
  | gwpAsan =>
    obtain rfl := List.mem_singleton.mp h
    exact Nat.one_pos
  | ephemeral =>
    apply depth_lt_two
    rw [State.Forwards, State.forwards, List.mem_cons, List.mem_singleton] at h
    obtain rfl | rfl := h
    · exact hi.ephemeralRest
    · exact hi.previous.getD
  | heapprofd =>
    apply depth_lt_two
    obtain rfl := List.mem_singleton.mp h
    exact hi.heapprofdPrev

theorem Inv.not_forwards_self (hi : Inv s) (t : MallocDispatch) : ¬ Relation.TransGen s.Forwards t t := by
  have hlt : ∀ {a b}, Relation.TransGen s.Forwards a b → b.depth < a.depth := by
    intro a b h
    induction h with
    | single h => exact hi.depth_lt h
    | tail _ h ih => exact Nat.lt_trans (hi.depth_lt h) ih
  exact fun h => Nat.lt_irrefl _ (hlt h)

variable {t : Option MallocDispatch} {h : MallocHeapprofdState}

theorem Unarmed.ne_ephemeral (h : Unarmed t) : t ≠ some .ephemeral := by
  obtain (rfl | rfl) | rfl := h <;> simp

theorem Settled.ephemeral_iff (hs : Settled h t) : t = some .ephemeral ↔ h = .ephemeralHookInstalled := by
  cases h with
  | ephemeralHookInstalled => exact ⟨fun _ => rfl, fun _ => hs⟩
  | initialState => exact ⟨fun he => absurd he (Unarmed.ne_ephemeral (.inl hs)), fun he => by cases he⟩
  | hookInstalled => exact ⟨fun he => absurd he (Unarmed.ne_ephemeral hs), fun he => by cases he⟩
  | _ => exact hs.elim

theorem Before.names {pc : Pc} (hb : Before pc h t) (ht : t = some .ephemeral) : h.namesEphemeralHook := by
  cases pc with
  | signalSave | signalInstall | signalDone => exact .inl hb.1
  | mallocRestore | mallocDone => exact .inr (.inr hb.1)
  | mallocCreate | initLoad | initSave | initFinish | resetDone =>
    exact absurd ht (Unarmed.ne_ephemeral (.inl hb.2))
  | initDone | resetRestore => exact absurd ht (Unarmed.ne_ephemeral hb.2)
  | _ => exact .inr (.inl ((Settled.ephemeral_iff hb).mp ht))

theorem Inv.ephemeralNamed (hi : Inv s) : s.EphemeralNamed := by
  have hc := hi.coherent
  rw [Coherent] at hc
  cases hm : s.mutator with
  | none =>
    rw [hm] at hc
    have he := Settled.ephemeral_iff hc
    exact ⟨fun ht => .inr (.inl (he.mp ht)), fun _ => he⟩
  | some pc =>
    rw [hm] at hc
    exact ⟨Before.names hc, fun h => by rw [hm] at h; cases h⟩

/-- In every run no table calls on itself and the ephemeral table is the default only in the states named after
it. If no signal is let in while heapprofd's table is the default, GWP-ASan is never lost. -/
theorem hooks_keep_tables (gwpAsan : Bool) :
    (∀ s, (system gwpAsan fun _ _ => True).Reachable s →
      (∀ t, ¬ Relation.TransGen s.Forwards t t) ∧ s.EphemeralNamed) ∧
    (∀ s, (system gwpAsan NoRetrigger).Reachable s →
      (∀ t, ¬ Relation.TransGen s.Forwards t t) ∧ s.EphemeralNamed ∧ (gwpAsan = true → s.ReachesGwpAsan)) := by
  constructor
  · intro s hs
    have hi := inv_invariant.reachable hs
    exact ⟨hi.not_forwards_self, hi.ephemeralNamed⟩
  · intro s hs
    have hi := inv_invariant.reachable hs
    refine ⟨hi.not_forwards_self, hi.ephemeralNamed, fun hg => ?_⟩
    subst hg
    exact (gwpInv_invariant.reachable hs).reaches

def session : List Event :=
  [.handleHeapprofdSignal] ++ List.replicate 5 (.advance true) ++
  [.mallocInitHeapprofdHook] ++ List.replicate 5 (.advance true) ++
  [.initHeapprofd] ++ List.replicate 6 (.advance true)

def retrigger : List Event := [.handleHeapprofdSignal] ++ List.replicate 3 (.advance true)

theorem run_reachable (hs : (system gwpAsan allowed).Reachable s) {es : List Event}
    (ha : ∀ e ∈ es, ∀ s, allowed s e) : (system gwpAsan allowed).Reachable (es.foldl State.next s) := by
  induction es generalizing s with
  | nil => exact hs
  | cons e es ih =>
    have hst := hs.step ⟨e, ha e (List.mem_cons_self ..) s, rfl⟩
    exact ih hst fun e' he' => ha e' (List.mem_cons_of_mem _ he')

/-- After one session under GWP-ASan heapprofd's table is the default and stands on GWP-ASan. -/
theorem hooks_keep_tables_session :
    (session.foldl State.next (init true)).defaultTable = some .heapprofd ∧
      (session.foldl State.next (init true)).ReachesGwpAsan := by
  have h₀ : (system true NoRetrigger).Reachable (init true) := .of_init rfl
  have h₁ : (system true NoRetrigger).Reachable ((init true).next .handleHeapprofdSignal) :=
    h₀.step ⟨_, fun _ _ => by simp [init], rfl⟩
  have hr : ∀ e ∈ session.tail, ∀ s, NoRetrigger s e := by
    rintro e he s rfl
    simp [session] at he
  have h₂ := run_reachable h₁ hr
  have hc : session = .handleHeapprofdSignal :: session.tail := rfl
  exact ⟨by decide, ((hooks_keep_tables true).2 _ h₂).2.2 rfl⟩

/-- A second signal finds heapprofd's table the default and forgets GWP-ASan: no saved table is left to go back
to. -/
theorem second_signal_loses_gwpAsan :
    ∃ s, (system true fun _ _ => True).Reachable s ∧
      s = (session ++ retrigger).foldl State.next (init true) ∧
      s.defaultTable = some .ephemeral ∧ s.previousTable = none ∧ s.forwards .ephemeral = [.native, .native] ∧
      ¬ s.ReachesGwpAsan := by
  refine ⟨_, run_reachable (.of_init rfl) fun _ _ _ => trivial, rfl, by decide, by decide, by decide, ?_⟩
  rintro (h | ⟨hook, -, -, h, -⟩)
  · revert h
    decide
  · revert h
    decide

end Bionic.Heapprofd
