import Bionic.Lib.System

namespace Bionic.Heapprofd

open Lib

/-- The dispatch tables: the native allocator's, GWP-ASan's, `gEphemeralDispatch`, and the one
heapprofd_client.so fills in. -/
inductive MallocDispatch where
  | native
  | gwpAsan
  | ephemeral
  | heapprofd
  deriving DecidableEq, Repr

inductive MallocHeapprofdState where
  | initialState
  | installingEphemeralHook
  | ephemeralHookInstalled
  | removingEphemeralHook
  | installingHook
  | hookInstalled
  | uninstallingHook
  | incompatibleHooks
  deriving DecidableEq, Repr

inductive Pc where
  | signalCas
  | signalSave
  | signalInstall
  | signalDone
  | mallocCas
  | mallocRestore
  | mallocDone
  | mallocCreate
  | initCas
  | initLoad
  | initSave
  | initFinish
  | initDone
  | resetCas
  | resetRestore
  | resetDone
  | leave
  deriving DecidableEq, Repr

/-- `ephemeralRest` is the table whose other functions `gEphemeralDispatch` copied, `heapprofdPrev` the one
init_func was last given, `mutator` where the caller inside `MaybeModifyGlobals` is, and `initThreads` the
number of threads created for `InitHeapprofd` that have not started. -/
structure State where
  heapprofdState : MallocHeapprofdState
  defaultTable : Option MallocDispatch
  previousTable : Option MallocDispatch
  ephemeralRest : MallocDispatch
  heapprofdPrev : MallocDispatch
  heapprofdHandle : Bool
  initThreads : Nat
  mutator : Option Pc
  deriving DecidableEq, Repr

namespace State

variable (s : State) (pc : Pc)

@[simp] def goto : State := { s with mutator := some pc }

/-- `MaybeModifyGlobals`: a caller that finds `gGlobalsMutating` set gives up. -/
def maybeModifyGlobals : State :=
  match s.mutator with
  | none => s.goto pc
  | some _ => s

/-- The three configurations of `HandleHeapprofdSignal`. -/
def saveDefault : State :=
  match s.defaultTable with
  | none => { s with previousTable := none, ephemeralRest := .native }
  | some .gwpAsan => { s with previousTable := some .gwpAsan, ephemeralRest := .gwpAsan }
  | some _ => { s with previousTable := none, ephemeralRest := .native }

def cas (expected desired : MallocHeapprofdState) (pc : Pc) : State :=
  if s.heapprofdState = expected then { s with heapprofdState := desired, mutator := some pc } else s.goto .leave

/-- One action of the caller inside `MaybeModifyGlobals`. `ok` is the outcome of the call it makes to code
outside. -/
@[simp] def advance (ok : Bool) : Pc → State
  | .signalCas =>
    if s.heapprofdState = .initialState then
      { s with heapprofdState := .installingEphemeralHook, mutator := some .signalSave }
    else s.cas .hookInstalled .installingEphemeralHook .signalSave
  | .signalSave => s.saveDefault.goto .signalInstall
  | .signalInstall => { s with defaultTable := some .ephemeral, mutator := some .signalDone }
  | .signalDone => { s with heapprofdState := .ephemeralHookInstalled, mutator := some .leave }
  | .mallocCas => s.cas .ephemeralHookInstalled .removingEphemeralHook .mallocRestore
  | .mallocRestore => { s with defaultTable := s.previousTable, mutator := some .mallocDone }
  | .mallocDone => { s with heapprofdState := .initialState, mutator := some .mallocCreate }
  | .mallocCreate => { s with initThreads := if ok then s.initThreads + 1 else s.initThreads, mutator := some .leave }
  | .initCas => s.cas .initialState .installingHook .initLoad
  | .initLoad =>
    -- LoadSharedLibrary the first time, InitSharedLibrary once there is a handle
    if ok then { s with heapprofdHandle := true, mutator := some .initSave } else s.goto .initDone
  | .initSave => { s with previousTable := s.defaultTable, mutator := some .initFinish }
  | .initFinish =>
    { s with
      heapprofdPrev := s.defaultTable.getD .native
      defaultTable := if ok then some .heapprofd else s.defaultTable
      mutator := some .initDone }
  | .initDone => { s with heapprofdState := .hookInstalled, mutator := some .leave }
  | .resetCas => s.cas .hookInstalled .uninstallingHook .resetRestore
  | .resetRestore => { s with defaultTable := s.previousTable, mutator := some .resetDone }
  | .resetDone => { s with heapprofdState := .initialState, mutator := some .leave }
  | .leave => { s with mutator := none }

/-- The tables a table's functions call on. The malloc of the ephemeral table is
`MallocInitHeapprofdHook`, which ends in the malloc of the saved table. -/
def forwards : MallocDispatch → List MallocDispatch
  | .native => []
  | .gwpAsan => [.native]
  | .ephemeral => [s.ephemeralRest, s.previousTable.getD .native]
  | .heapprofd => [s.heapprofdPrev]

end State

inductive Event where
  | handleHeapprofdSignal
  | mallocInitHeapprofdHook
  | initHeapprofd
  | dispatchReset
  | advance (ok : Bool)
  deriving DecidableEq, Repr

def State.next (s : State) : Event → State
  | .handleHeapprofdSignal =>
    if s.heapprofdState = .incompatibleHooks then s else s.maybeModifyGlobals .signalCas
  | .mallocInitHeapprofdHook => s.maybeModifyGlobals .mallocCas
  | .initHeapprofd =>
    match s.initThreads with
    | 0 => s
    | n + 1 => { s with initThreads := n }.maybeModifyGlobals .initCas
  | .dispatchReset => if s.heapprofdState = .initialState then s else s.maybeModifyGlobals .resetCas
  | .advance ok =>
    match s.mutator with
    | none => s
    | some pc => s.advance ok pc

def init (gwpAsan : Bool) : State where
  heapprofdState := .initialState
  defaultTable := if gwpAsan then some .gwpAsan else none
  previousTable := none
  ephemeralRest := .native
  heapprofdPrev := .native
  heapprofdHandle := false
  initThreads := 0
  mutator := none

def system (gwpAsan : Bool) (allowed : State → Event → Prop) : System State where
  Init s := s = init gwpAsan
  Step s s' := ∃ e, allowed s e ∧ s' = s.next e

/-- No profiling signal is let in while heapprofd's table is the default. -/
def NoRetrigger (s : State) (e : Event) : Prop :=
  e = .handleHeapprofdSignal → s.mutator = none → s.defaultTable ≠ some .heapprofd

variable {s : State} {gwpAsan : Bool} {allowed : State → Event → Prop} {t : Option MallocDispatch} {pc : Pc}

def Unhooked (t : Option MallocDispatch) : Prop := t = none ∨ t = some .gwpAsan

def Unarmed (t : Option MallocDispatch) : Prop := Unhooked t ∨ t = some .heapprofd

def Settled : MallocHeapprofdState → Option MallocDispatch → Prop
  | .initialState, t => Unhooked t
  | .ephemeralHookInstalled, t => t = some .ephemeral
  | .hookInstalled, t => Unarmed t
  | _, _ => False

/-- The state and the default table before each action of a caller inside `MaybeModifyGlobals`. -/
def Before : Pc → MallocHeapprofdState → Option MallocDispatch → Prop
  | .signalSave, h, t | .signalInstall, h, t => h = .installingEphemeralHook ∧ Unarmed t
  | .signalDone, h, t => h = .installingEphemeralHook ∧ t = some .ephemeral
  | .mallocRestore, h, t => h = .removingEphemeralHook ∧ t = some .ephemeral
  | .mallocDone, h, t => h = .removingEphemeralHook ∧ Unhooked t
  | .mallocCreate, h, t => h = .initialState ∧ Unhooked t
  | .initLoad, h, t | .initSave, h, t | .initFinish, h, t => h = .installingHook ∧ Unhooked t
  | .initDone, h, t => h = .installingHook ∧ Unarmed t
  | .resetRestore, h, t => h = .uninstallingHook ∧ Unarmed t
  | .resetDone, h, t => h = .uninstallingHook ∧ Unhooked t
  | .signalCas, h, t | .mallocCas, h, t | .initCas, h, t | .resetCas, h, t | .leave, h, t => Settled h t

def Coherent (s : State) : Prop :=
  match s.mutator with
  | none => Settled s.heapprofdState s.defaultTable
  | some pc => Before pc s.heapprofdState s.defaultTable

structure Inv (s : State) : Prop where
  coherent : Coherent s
  previous : Unhooked s.previousTable
  ephemeralRest : s.ephemeralRest = .native ∨ s.ephemeralRest = .gwpAsan
  heapprofdPrev : s.heapprofdPrev = .native ∨ s.heapprofdPrev = .gwpAsan

theorem Unhooked.getD (h : Unhooked t) : t.getD .native = .native ∨ t.getD .native = .gwpAsan := by
  obtain rfl | rfl := h
  · exact .inl rfl
  · exact .inr rfl

theorem Settled.unarmed {h : MallocHeapprofdState} (hs : Settled h t)
    (hh : h = .initialState ∨ h = .hookInstalled) : Unarmed t := by
  obtain rfl | rfl := hh
  · exact .inl hs
  · exact hs

theorem Inv.enter (hi : Inv s) (hpc : Before pc = Settled) : Inv (s.maybeModifyGlobals pc) := by
  rw [State.maybeModifyGlobals]
  cases hm : s.mutator with
  | some _ => exact hi
  | none =>
    have hc := hi.coherent
    simp only [Coherent, hm] at hc
    refine { hi with coherent := ?_ }
    simpa only [Coherent, State.goto, hpc] using hc

theorem Inv.cas (hi : Inv s) (hs : Settled s.heapprofdState s.defaultTable) {expected desired : MallocHeapprofdState}
    (hb : ∀ t, Settled expected t → Before pc desired t) : Inv (s.cas expected desired pc) := by
  rw [State.cas]
  split
  next he =>
    refine { hi with coherent := ?_ }
    exact hb _ (he ▸ hs)
  next => exact { hi with coherent := hs }

theorem Inv.saveDefault (hi : Inv s) (hc : Before .signalInstall s.heapprofdState s.defaultTable) :
    Inv (s.saveDefault.goto .signalInstall) := by
  rw [State.saveDefault]
  split
  · exact { hi with coherent := hc, previous := .inl rfl, ephemeralRest := .inl rfl }
  · exact { hi with coherent := hc, previous := .inr rfl, ephemeralRest := .inr rfl }
  · exact { hi with coherent := hc, previous := .inl rfl, ephemeralRest := .inl rfl }

theorem Inv.advance (hi : Inv s) (hm : s.mutator = some pc) (ok : Bool) : Inv (s.advance ok pc) := by
  have hc := hi.coherent
  simp only [Coherent, hm] at hc
  cases pc with
  | signalCas =>
    simp only [State.advance]
    split
    next he => exact { hi with coherent := ⟨rfl, Settled.unarmed hc (.inl he)⟩ }
    next => exact hi.cas hc fun t ht => ⟨rfl, ht⟩
  | signalSave => exact hi.saveDefault hc
  | signalInstall => exact { hi with coherent := ⟨hc.1, rfl⟩ }
  | signalDone | initDone | resetDone => exact { hi with coherent := hc.2 }
  | mallocCas | initCas | resetCas => exact hi.cas hc fun t ht => ⟨rfl, ht⟩
  | mallocRestore | resetRestore => exact { hi with coherent := ⟨hc.1, hi.previous⟩ }
  | mallocDone => exact { hi with coherent := ⟨rfl, hc.2⟩ }
  | mallocCreate =>
    refine { hi with coherent := ?_ }
    obtain ⟨hh, ht⟩ := hc
    simpa only [State.advance, Coherent, Before, Settled, hh] using ht
  | initLoad =>
    cases ok with
    | true => exact { hi with coherent := hc }
    | false => exact { hi with coherent := ⟨hc.1, .inl hc.2⟩ }
  | initSave => exact { hi with coherent := hc, previous := hc.2 }
  | initFinish =>
    refine { hi with coherent := ⟨hc.1, ?_⟩, heapprofdPrev := hc.2.getD }
    cases ok with
    | true => exact .inr rfl
    | false => exact .inl hc.2
  | leave => exact { hi with coherent := hc }

theorem Inv.next (hi : Inv s) (e : Event) : Inv (s.next e) := by
  cases e with
  | handleHeapprofdSignal | dispatchReset =>
    simp only [State.next]
    split
    · exact hi
    · exact hi.enter rfl
  | mallocInitHeapprofdHook => exact hi.enter rfl
  | initHeapprofd =>
    simp only [State.next]
    split
    · exact hi
    next n _ =>
      have hn : Inv { s with initThreads := n } := { hi with coherent := hi.coherent }
      exact hn.enter rfl
  | advance ok =>
    simp only [State.next]
    split
    · exact hi
    next hm => exact hi.advance hm ok

theorem inv_invariant : (system gwpAsan allowed).Invariant Inv where
  init s hs := by
    subst hs
    refine ⟨?_, .inl rfl, .inl rfl, .inl rfl⟩
    cases gwpAsan with
    | true => exact .inr rfl
    | false => exact .inl rfl
  step s s' hi hs := by
    obtain ⟨e, -, rfl⟩ := hs
    exact hi.next e

end Bionic.Heapprofd
