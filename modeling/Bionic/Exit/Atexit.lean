import Bionic.Lib.System
import Mathlib.Algebra.Group.Nat.Defs
import Mathlib.Data.List.NodupEquivFin
import Mathlib.Order.WellFounded

namespace Bionic.Atexit

open Lib List

/-- A handler; null pointers are zero. `ticket` counts the registrations and is read by no function. -/
structure AtexitEntry where
  fn : UInt64
  arg : UInt64
  dso : UInt64
  ticket : Nat
  deriving DecidableEq

def AtexitEntry.null : AtexitEntry := ⟨0, 0, 0, 0⟩

/-- The array up to `size_`. The memory behind it is zero. -/
structure AtexitArray where
  array : List AtexitEntry
  extractedCount : Nat
  capacity : Nat
  totalAppends : Nat

variable (lp64 : Bool) (g : AtexitArray)

def sizeofAtexitEntry : Nat := if lp64 then 24 else 12

def sizeMax : Nat := if lp64 then 2 ^ 64 - 1 else 2 ^ 32 - 1

def pageEnd (bytes : Nat) : Nat := (bytes + 4095) / 4096 * 4096

def pageEndOfIndex (idx : Nat) : Nat := pageEnd (idx * sizeofAtexitEntry lp64)

namespace AtexitArray

variable (lp64 : Bool) (g : AtexitArray) (mapped : Bool) (entry : AtexitEntry)

def size : Nat := g.array.length

def get (idx : Nat) : AtexitEntry := g.array.getD idx .null

def needsRecompaction : Prop :=
  pageEndOfIndex lp64 (g.size - g.extractedCount) < pageEndOfIndex lp64 g.size

instance : Decidable (g.needsRecompaction lp64) := inferInstanceAs (Decidable (_ < _))

def nextCapacity (capacity : Nat) : Option Nat :=
  if capacity = 0 then some (pageEnd (sizeofAtexitEntry lp64) / sizeofAtexitEntry lp64)
  else if sizeMax lp64 < pageEndOfIndex lp64 capacity * 2 then none
  else some (pageEndOfIndex lp64 capacity * 2 / sizeofAtexitEntry lp64)

def expandCapacity : Option AtexitArray :=
  match nextCapacity lp64 g.capacity with
  | none => none
  | some capacity => if mapped then some { g with capacity := capacity } else none

def push : AtexitArray :=
  { g with array := g.array ++ [entry], totalAppends := g.totalAppends + 1 }

def appendEntry : Option AtexitArray :=
  if g.capacity ≤ g.size then (g.expandCapacity lp64 mapped).map (push · entry) else some (g.push entry)

def extractEntry (idx : Nat) : AtexitEntry × AtexitArray :=
  (g.get idx, { g with array := g.array.set idx .null, extractedCount := g.extractedCount + 1 })

end AtexitArray

def skipLoop : List AtexitEntry → Nat
  | [] => 0
  | entry :: array => if entry.fn ≠ 0 then skipLoop array + 1 else 0

/-- The second loop of recompact, with `n` entries from `src` on to go. Returns the array and `dst`. -/
def shiftLoop : Nat → List AtexitEntry → Nat → Nat → List AtexitEntry × Nat
  | 0, array, _, dst => (array, dst)
  | n + 1, array, src, dst =>
    let entry := array.getD src .null
    let array := array.set src .null
    if entry.fn ≠ 0 then shiftLoop n (array.set dst entry) (src + 1) (dst + 1) else shiftLoop n array (src + 1) dst

def AtexitArray.recompact : AtexitArray :=
  if g.needsRecompaction lp64 then
    let first := skipLoop g.array
    let (array, dst) := shiftLoop (g.size - first) g.array first first
    { g with array := array.take dst, extractedCount := 0 }
  else g

inductive Place
  | scan (next : Nat)
  | callback (next : Nat)

def Place.next : Place → Nat
  | .scan n => n
  | .callback n => n

structure Frame where
  dso : UInt64
  totalAppends : Nat
  place : Place

/-- `stack` has the calls of `__cxa_finalize` that have not returned, the innermost first. `registered` and
`calls` record the handlers so far. -/
structure State where
  gArray : AtexitArray
  callDepth : UInt32
  stack : List Frame
  registered : List AtexitEntry
  calls : List AtexitEntry

variable (s : State) (f : Frame)

def State.userRuns : Prop :=
  match s.stack with
  | [] => True
  | f :: _ => ∃ n, f.place = .callback n

def cxaAtexit (mapped : Bool) (s : State) (func arg dso : UInt64) : Int × State :=
  if func ≠ 0 then
    let entry : AtexitEntry := ⟨func, arg, dso, s.gArray.totalAppends⟩
    match s.gArray.appendEntry lp64 mapped entry with
    | some g => (0, { s with gArray := g, registered := s.registered ++ [entry] })
    | none => (-1, s)
  else (-1, s)

def restart (dso : UInt64) : Frame := ⟨dso, g.totalAppends, .scan g.size⟩

def cxaFinalize (dso : UInt64) : State :=
  { s with callDepth := s.callDepth + 1, stack := restart s.gArray dso :: s.stack }

def skips (dso : UInt64) (entry : AtexitEntry) : Prop := entry.fn = 0 ∨ dso ≠ 0 ∧ entry.dso ≠ dso

instance (dso : UInt64) (entry : AtexitEntry) : Decidable (skips dso entry) := inferInstanceAs (Decidable (_ ∨ _))

def scanEntry (rest : List Frame) (i : Nat) : State :=
  if skips f.dso (s.gArray.get i) then { s with stack := { f with place := .scan i } :: rest }
  else
    let (entry, g) := s.gArray.extractEntry i
    { s with gArray := g, stack := { f with place := .callback i } :: rest, calls := s.calls ++ [entry] }

def callbackReturns (rest : List Frame) (i : Nat) : State :=
  if s.gArray.totalAppends ≠ f.totalAppends then { s with stack := restart s.gArray f.dso :: rest }
  else { s with stack := { f with place := .scan i } :: rest }

def leaveFinalize (s : State) (f : Frame) (rest : List Frame) : State :=
  { s with
    callDepth := s.callDepth - 1
    stack := rest
    gArray := if s.callDepth - 1 = 0 ∧ f.dso ≠ 0 then s.gArray.recompact lp64 else s.gArray }

inductive Step (lp64 : Bool) (s : State) : State → Prop
  | atexit (mapped func arg dso) (hu : s.userRuns) : Step lp64 s (cxaAtexit lp64 mapped s func arg dso).2
  | finalize (dso) (hu : s.userRuns) : Step lp64 s (cxaFinalize s dso)
  | scan (f rest i) (hs : s.stack = f :: rest) (hp : f.place = .scan (i + 1)) : Step lp64 s (scanEntry s f rest i)
  | callback (f rest i) (hs : s.stack = f :: rest) (hp : f.place = .callback i) :
      Step lp64 s (callbackReturns s f rest i)
  | leave (f rest) (hs : s.stack = f :: rest) (hp : f.place = .scan 0) : Step lp64 s (leaveFinalize lp64 s f rest)

def initial : State := ⟨⟨[], 0, 0, 0⟩, 0, [], [], []⟩

def system : System State := ⟨(· = initial), Step lp64⟩

def live (entry : AtexitEntry) : Bool := entry.fn ≠ 0

variable {array : List AtexitEntry} {i : Nat} {e : AtexitEntry} {g : AtexitArray} {lp64 : Bool}

section

variable (h : array[i]? = some e)

include h

theorem split_at : array = array.take i ++ e :: array.drop (i + 1) := by
  obtain ⟨hi, he⟩ := List.getElem?_eq_some_iff.1 h
  rw [← he, ← drop_eq_getElem_cons hi, take_append_drop]

theorem filter_split (he : live e) :
    ∃ before after, array.filter live = before ++ e :: after ∧ (array.set i .null).filter live = before ++ after := by
  obtain ⟨hi, -⟩ := List.getElem?_eq_some_iff.1 h
  refine ⟨(array.take i).filter live, (array.drop (i + 1)).filter live, ?_, ?_⟩
  · conv_lhs => rw [split_at h]
    rw [filter_append, filter_cons_of_pos he]
  · rw [set_eq_take_append_cons_drop, if_pos hi, filter_append, filter_cons_of_neg (by simp [live, AtexitEntry.null])]

theorem length_filter_set_null (he : live e) : ((array.set i .null).filter live).length + 1 = (array.filter live).length := by
  obtain ⟨before, after, hold, hnew⟩ := filter_split h he
  rw [hold, hnew, length_append, length_append, length_cons]
  omega

theorem filter_set_null (he : live e) (hn : (array.filter live).Nodup) :
    (array.set i .null).filter live = (array.filter live).filter (· ≠ e) := by
  obtain ⟨before, after, hold, hnew⟩ := filter_split h he
  rw [hold] at hn ⊢
  rw [hnew]
  have hnot := nodup_middle.1 hn
  rw [nodup_cons, mem_append, not_or] at hnot
  have hk (l : List AtexitEntry) (hl : e ∉ l) : l.filter (· ≠ e) = l := by
    rw [filter_eq_self]
    intro x hx
    apply decide_eq_true
    rintro rfl
    exact hl hx
  rw [filter_append, filter_cons_of_neg (by simp), hk _ hnot.1.1, hk _ hnot.1.2]

end

theorem skipLoop_spec (array : List AtexitEntry) :
    skipLoop array ≤ array.length ∧ (array.take (skipLoop array)).filter live = array.take (skipLoop array) := by
  induction array with
  | nil => simp [skipLoop]
  | cons entry array ih =>
    rw [skipLoop]
    split
    case isTrue h =>
      refine ⟨Nat.succ_le_succ ih.1, ?_⟩
      rw [take_succ_cons, filter_cons_of_pos (by simpa [live] using h), ih.2]
    case isFalse => simp

/-- Entries move from `src` to `dst`, which never overtakes it, so an entry is read before its place is written. -/
theorem shiftLoop_spec (n : Nat) (array : List AtexitEntry) (src dst : Nat) (hle : dst ≤ src)
    (hn : src + n = array.length) :
    (shiftLoop n array src dst).1.take (shiftLoop n array src dst).2 = array.take dst ++ (array.drop src).filter live := by
  induction n generalizing array src dst with
  | zero =>
    rw [shiftLoop, drop_eq_nil_of_le (by omega)]
    simp
  | succ n ih =>
    obtain ⟨e, he⟩ : ∃ e, array[src]? = some e := ⟨array[src], getElem?_eq_getElem (by omega)⟩
    have hget : array.getD src .null = e := by rw [getD_eq_getElem?_getD, he, Option.getD_some]
    have hd : array.drop src = e :: array.drop (src + 1) := by
      obtain ⟨hi, rfl⟩ := List.getElem?_eq_some_iff.1 he
      exact drop_eq_getElem_cons hi
    simp only [shiftLoop, hget]
    split
    case isTrue hfn =>
      rw [ih _ (src + 1) (dst + 1) (by omega) (by simp; omega), hd,
        filter_cons_of_pos (by simpa [live] using hfn)]
      have ht : ((array.set src .null).set dst e).take (dst + 1) = array.take dst ++ [e] := by
        rw [take_succ_eq_append_getElem (by simp; omega), take_set_of_le (Nat.le_refl _),
          take_set_of_le hle, getElem_set_self]
      rw [ht, drop_set_of_lt (by omega), drop_set_of_lt (by omega)]
      simp
    case isFalse hfn =>
      rw [ih _ (src + 1) dst (by omega) (by simp; omega), hd, filter_cons_of_neg (by simpa [live] using hfn),
        take_set_of_le hle, drop_set_of_lt (by omega)]

theorem recompact_of_needed (h : g.needsRecompaction lp64) :
    g.recompact lp64 = { g with array := g.array.filter live, extractedCount := 0 } := by
  obtain ⟨hle, hsk⟩ := skipLoop_spec g.array
  have hs := shiftLoop_spec (g.size - skipLoop g.array) g.array _ _ (Nat.le_refl (skipLoop g.array))
    (by rw [AtexitArray.size]; omega)
  rw [← hsk, ← filter_append, take_append_drop] at hs
  rw [AtexitArray.recompact, if_pos h, ← hs]

theorem recompact_filter (lp64 : Bool) (g : AtexitArray) :
    (g.recompact lp64).array.filter live = g.array.filter live := by
  by_cases h : g.needsRecompaction lp64
  · rw [recompact_of_needed h, filter_filter]
    simp only [Bool.and_self]
  · rw [AtexitArray.recompact, if_neg h]

theorem recompact_index {j : Nat}
    (h : (g.recompact lp64).array[j]? = some e) : ∃ i, j ≤ i ∧ g.array[i]? = some e := by
  by_cases hn : g.needsRecompaction lp64
  · rw [recompact_of_needed hn] at h
    obtain ⟨f, hf⟩ := sublist_iff_exists_orderEmbedding_getElem?_eq.1 (filter_sublist (p := live) (l := g.array))
    refine ⟨f j, f.strictMono.le_apply, ?_⟩
    rw [← hf]
    exact h
  · rw [AtexitArray.recompact, if_neg hn] at h
    exact ⟨j, Nat.le_refl j, h⟩

end Bionic.Atexit
