import Bionic.Exit.Atexit

namespace Bionic.Atexit

open List Nat AtexitArray

variable {lp64 : Bool} {s s' : State} {f : Frame} {rest : List Frame} {g g' : AtexitArray} {i : Nat} {e : AtexitEntry}

def matchesDso (dso : UInt64) (e : AtexitEntry) : Prop := dso = 0 ∨ e.dso = dso

/-- No entry at or above the place of the frame waits for it, unless entries were appended since its last restart. -/
structure FrameOk (g : AtexitArray) (f : Frame) : Prop where
  appends : f.totalAppends ≤ g.totalAppends
  passed : f.totalAppends = g.totalAppends →
    ∀ i e, f.place.next ≤ i → g.array[i]? = some e → live e → ¬ matchesDso f.dso e

/-- Only the innermost finalize is at work, and it restarts before it looks at the array again after an append. -/
structure StackOk (g : AtexitArray) (stack : List Frame) : Prop where
  frames : ∀ f ∈ stack, FrameOk g f
  waiting : ∀ f ∈ stack.tail, ∃ n, f.place = .callback n
  scanning : ∀ f n, stack.head? = some f → f.place = .scan n → f.totalAppends = g.totalAppends

structure Inv (s : State) : Prop where
  tickets : s.registered.map AtexitEntry.ticket = range s.gArray.totalAppends
  registered_live : ∀ e ∈ s.registered, live e
  live_eq : s.gArray.array.filter live = s.registered.filter (· ∉ s.calls)
  count : s.gArray.extractedCount + (s.gArray.array.filter live).length = s.gArray.size
  calls_nodup : s.calls.Nodup
  calls_registered : ∀ e ∈ s.calls, e ∈ s.registered
  stack : StackOk s.gArray s.stack

theorem skips_iff (dso : UInt64) (e : AtexitEntry) : skips dso e ↔ ¬ (live e ∧ matchesDso dso e) := by
  rw [skips, live, matchesDso]
  by_cases hfn : e.fn = 0 <;> by_cases hd : dso = 0 <;> simp [hfn]

section List

theorem Inv.registered_pairwise (hi : Inv s) : s.registered.Pairwise fun e e' => e.ticket < e'.ticket := by
  have h := pairwise_lt_range (n := s.gArray.totalAppends)
  rwa [← hi.tickets, pairwise_map] at h

theorem Inv.registered_nodup (hi : Inv s) : s.registered.Nodup := by
  refine hi.registered_pairwise.imp ?_
  rintro e e' hlt rfl
  exact lt_irrefl _ hlt

theorem Inv.live_nodup (hi : Inv s) : (s.gArray.array.filter live).Nodup := by
  rw [hi.live_eq]
  exact hi.registered_nodup.filter _

theorem Inv.mem_array_iff (hi : Inv s) : e ∈ s.gArray.array ∧ live e ↔ e ∈ s.registered ∧ e ∉ s.calls := by
  have h : e ∈ s.gArray.array.filter live ↔ e ∈ s.registered.filter (· ∉ s.calls) := by rw [hi.live_eq]
  simpa using h

theorem Inv.ticket_lt (hi : Inv s) {j : Nat} {e' : AtexitEntry} (hij : i < j) (he : s.gArray.array[i]? = some e)
    (he' : s.gArray.array[j]? = some e') (hl : live e) (hl' : live e') : e.ticket < e'.ticket := by
  have h : (s.gArray.array.filter live).Pairwise fun e e' => e.ticket < e'.ticket := by
    rw [hi.live_eq]
    exact hi.registered_pairwise.filter _
  rw [pairwise_filter, pairwise_iff_getElem] at h
  obtain ⟨hlt, rfl⟩ := List.getElem?_eq_some_iff.1 he
  obtain ⟨hlt', rfl⟩ := List.getElem?_eq_some_iff.1 he'
  exact h i j hlt hlt' hij hl hl'

end List

section Steps

theorem FrameOk.mono_array (h : FrameOk g f) (ht : g'.totalAppends = g.totalAppends)
    (ha : ∀ (j : Nat) (e : AtexitEntry), g'.array[j]? = some e → live e → ∃ i, j ≤ i ∧ g.array[i]? = some e) : FrameOk g' f := by
  refine ⟨by rw [ht]; exact h.appends, ?_⟩
  intro hf j e hj he hl
  obtain ⟨i, hji, hi⟩ := ha j e he hl
  exact h.passed (hf.trans ht) i e (hj.trans hji) hi hl

theorem frameOk_restart (g : AtexitArray) (dso : UInt64) : FrameOk g (restart g dso) := by
  refine ⟨le_refl _, ?_⟩
  intro _ i e hi he
  obtain ⟨hlt, -⟩ := List.getElem?_eq_some_iff.1 he
  exact absurd hlt (not_lt.2 hi)

variable {stack : List Frame}

theorem StackOk.mono_array (h : StackOk g stack) (ht : g'.totalAppends = g.totalAppends)
    (ha : ∀ (j : Nat) (e : AtexitEntry), g'.array[j]? = some e → live e → ∃ i, j ≤ i ∧ g.array[i]? = some e) :
    StackOk g' stack := by
  refine ⟨fun f hf => (h.frames f hf).mono_array ht ha, h.waiting, ?_⟩
  intro f n hf hp
  rw [ht]
  exact h.scanning f n hf hp

theorem StackOk.replace (h : StackOk g (f :: rest)) {f' : Frame} (hf : FrameOk g f')
    (hs : ∀ n, f'.place = .scan n → f'.totalAppends = g.totalAppends) : StackOk g (f' :: rest) := by
  refine ⟨forall_mem_cons.2 ⟨hf, (forall_mem_cons.1 h.frames).2⟩, h.waiting, ?_⟩
  intro f'' n he
  cases he
  exact hs n

theorem StackOk.pop (h : StackOk g (f :: rest)) : StackOk g rest := by
  refine ⟨fun f' hf' => h.frames f' (mem_cons_of_mem f hf'), ?_, ?_⟩
  · intro f' hf'
    exact h.waiting f' (mem_of_mem_tail hf')
  · intro f' n he hp
    obtain ⟨m, hm⟩ := h.waiting f' (mem_of_mem_head? he)
    rw [hp] at hm
    cases hm

theorem StackOk.push_restart (h : StackOk g stack) (dso : UInt64)
    (hu : ∀ f, stack.head? = some f → ∃ n, f.place = .callback n) : StackOk g (restart g dso :: stack) := by
  refine ⟨forall_mem_cons.2 ⟨frameOk_restart g dso, h.frames⟩, ?_, ?_⟩
  · cases stack with
    | nil => exact nofun
    | cons f' rest => exact forall_mem_cons.2 ⟨hu f' rfl, h.waiting⟩
  · intro f n he _
    cases he
    rfl

theorem Inv.setStack (hi : Inv s) {depth : UInt32} (h : StackOk s.gArray stack) :
    Inv { s with stack := stack, callDepth := depth } :=
  ⟨hi.tickets, hi.registered_live, hi.live_eq, hi.count, hi.calls_nodup, hi.calls_registered, h⟩

theorem State.userRuns.head (hu : s.userRuns) : ∀ f, s.stack.head? = some f → ∃ n, f.place = .callback n := by
  intro f hf
  rw [State.userRuns] at hu
  cases hs : s.stack with
  | nil =>
    rw [hs] at hf
    cases hf
  | cons f' rest =>
    rw [hs] at hu hf
    cases hf
    exact hu

theorem Inv.push (hi : Inv s) (hu : s.userRuns) (hl : live e) (ht : e.ticket = s.gArray.totalAppends)
    (capacity : Nat) :
    Inv { s with
      gArray := push { s.gArray with capacity := capacity } e
      registered := s.registered ++ [e] } := by
  have hnew : e ∉ s.registered := by
    intro h
    have hmem := mem_map_of_mem (f := AtexitEntry.ticket) h
    rw [hi.tickets, mem_range, ht] at hmem
    exact lt_irrefl _ hmem
  refine ⟨?_, ?_, ?_, ?_, hi.calls_nodup, ?_, ?_, hi.stack.waiting, ?_⟩
  · rw [map_append, hi.tickets, map_singleton, ht]
    exact range_succ.symm
  · exact forall_mem_append.2 ⟨hi.registered_live, forall_mem_singleton.2 hl⟩
  · have hnot : e ∉ s.calls := fun h => hnew (hi.calls_registered e h)
    change (s.gArray.array ++ [e]).filter live = _
    rw [filter_append, hi.live_eq]
    simp [hl, hnot]
  · have hc := hi.count
    change s.gArray.extractedCount + ((s.gArray.array ++ [e]).filter live).length = (s.gArray.array ++ [e]).length
    rw [AtexitArray.size] at hc
    rw [filter_append, filter_singleton, hl, length_append, length_append, ← hc]
    exact (add_assoc _ _ _).symm
  · intro e' he'
    exact mem_append_left _ (hi.calls_registered e' he')
  · intro f hf
    have hle := (hi.stack.frames f hf).appends
    refine ⟨le_succ_of_le hle, ?_⟩
    intro h
    change f.totalAppends = s.gArray.totalAppends + 1 at h
    omega
  · intro f n hf hp
    obtain ⟨m, hm⟩ := hu.head f hf
    rw [hp] at hm
    cases hm

theorem Inv.cxaAtexit (hi : Inv s) (hu : s.userRuns) (mapped : Bool) (func arg dso : UInt64) :
    Inv (cxaAtexit lp64 mapped s func arg dso).2 := by
  rw [Atexit.cxaAtexit]
  split
  case isFalse => exact hi
  case isTrue hfn =>
    have hl : live ⟨func, arg, dso, s.gArray.totalAppends⟩ := decide_eq_true hfn
    simp only [appendEntry, expandCapacity]
    by_cases hc : s.gArray.capacity ≤ s.gArray.size
    · rw [if_pos hc]
      cases nextCapacity lp64 s.gArray.capacity with
      | none => exact hi
      | some capacity =>
        cases mapped with
        | false => exact hi
        | true => exact hi.push hu hl rfl capacity
    · rw [if_neg hc]
      exact hi.push hu hl rfl s.gArray.capacity

theorem get_of_not_skips {dso : UInt64} (h : ¬ skips dso (g.get i)) :
    g.array[i]? = some (g.get i) ∧ live (g.get i) ∧ matchesDso dso (g.get i) := by
  rw [skips_iff, not_not] at h
  refine ⟨?_, h⟩
  cases hget : g.array[i]? with
  | none =>
    have hn : g.get i = .null := by rw [AtexitArray.get, getD_eq_getElem?_getD, hget, Option.getD_none]
    rw [hn] at h
    cases h.1
  | some e => rw [AtexitArray.get, getD_eq_getElem?_getD, hget, Option.getD_some]

section

variable (hs : s.stack = f :: rest)

include hs

theorem Inv.skip (hi : Inv s) (hp : f.place = .scan (i + 1))
    (hsk : skips f.dso (s.gArray.get i)) : Inv { s with stack := { f with place := .scan i } :: rest } := by
  have hst := hi.stack
  rw [hs] at hst
  have hf := hst.frames f mem_cons_self
  have ht := hst.scanning f (i + 1) rfl hp
  refine hi.setStack (hst.replace ⟨hf.appends, ?_⟩ fun _ _ => ht)
  intro _ j e hj he hl hm
  rcases eq_or_lt_of_le hj with rfl | hlt
  · have hget : s.gArray.get i = e := by
      exact congrArg (Option.getD · .null) he
    rw [hget, skips_iff] at hsk
    exact hsk ⟨hl, hm⟩
  · exact hf.passed ht j e (by rw [hp]; exact hlt) he hl hm

theorem Inv.extract (hi : Inv s) (hp : f.place = .scan (i + 1)) (hget : s.gArray.array[i]? = some e) (hl : live e) :
    Inv { s with
      gArray := { s.gArray with
        array := s.gArray.array.set i .null
        extractedCount := s.gArray.extractedCount + 1 }
      stack := { f with place := .callback i } :: rest
      calls := s.calls ++ [e] } := by
  obtain ⟨hreg, hnot⟩ := hi.mem_array_iff.1 ⟨mem_of_getElem? hget, hl⟩
  have hst := hi.stack
  rw [hs] at hst
  have hf := hst.frames f mem_cons_self
  have hset (j : Nat) (e' : AtexitEntry) (he' : (s.gArray.array.set i .null)[j]? = some e') (hl' : live e') :
      i ≠ j ∧ s.gArray.array[j]? = some e' := by
    rw [getElem?_set] at he'
    split at he'
    · split at he'
      · cases he'
        cases hl'
      · cases he'
    · exact ⟨by assumption, he'⟩
  refine ⟨hi.tickets, hi.registered_live, ?_, ?_, ?_, ?_, ?_⟩
  · rw [filter_set_null hget hl hi.live_nodup, hi.live_eq, filter_filter]
    congr 1
    funext x
    by_cases hx : x = e <;> simp [hx]
  · have hle := length_filter_set_null hget hl
    have hc := hi.count
    change s.gArray.extractedCount + 1 + ((s.gArray.array.set i .null).filter live).length =
      (s.gArray.array.set i .null).length
    rw [AtexitArray.size] at hc
    rw [length_set]
    omega
  · exact hi.calls_nodup.append (nodup_singleton _) (by simpa using hnot)
  · exact forall_mem_append.2 ⟨hi.calls_registered, forall_mem_singleton.2 hreg⟩
  · -- Extraction only makes entries null, so what a frame has passed it has still passed.
    have hold : StackOk { s.gArray with
        array := s.gArray.array.set i .null
        extractedCount := s.gArray.extractedCount + 1 } (f :: rest) :=
      hst.mono_array rfl fun j e' he' hl' => ⟨j, le_refl j, (hset j e' he' hl').2⟩
    refine hold.replace ⟨hf.appends, ?_⟩ fun n hn => by cases hn
    intro ht j e' hj he' hl'
    obtain ⟨hne, hj'⟩ := hset j e' he' hl'
    apply hf.passed ht j e' _ hj' hl'
    rw [hp]
    exact lt_of_le_of_ne hj hne

theorem Inv.scanEntry (hi : Inv s) (hp : f.place = .scan (i + 1)) : Inv (scanEntry s f rest i) := by
  rw [Atexit.scanEntry]
  split
  case isTrue hsk => exact hi.skip hs hp hsk
  case isFalse hm =>
    obtain ⟨hget, hl, -⟩ := get_of_not_skips hm
    exact hi.extract hs hp hget hl

theorem Inv.callbackReturns (hi : Inv s) (hp : f.place = .callback i) : Inv (callbackReturns s f rest i) := by
  have hst := hi.stack
  rw [hs] at hst
  have hf := hst.frames f mem_cons_self
  rw [Atexit.callbackReturns]
  split
  case isTrue => exact hi.setStack (hst.replace (frameOk_restart _ _) fun _ _ => rfl)
  case isFalse hsa =>
    rw [not_not] at hsa
    refine hi.setStack (hst.replace ⟨hf.appends, ?_⟩ fun _ _ => hsa.symm)
    intro ht j e hj
    apply hf.passed ht j e
    rw [hp]
    exact hj

end

theorem Inv.recompact (hi : Inv s) : Inv { s with gArray := s.gArray.recompact lp64 } := by
  have hf := recompact_filter lp64 s.gArray
  by_cases hn : s.gArray.needsRecompaction lp64
  · have he := recompact_of_needed hn
    refine ⟨?_, hi.registered_live, ?_, ?_, hi.calls_nodup, hi.calls_registered, ?_⟩
    · rw [he]
      exact hi.tickets
    · rw [hf]
      exact hi.live_eq
    · rw [hf, he]
      exact zero_add _
    · exact hi.stack.mono_array (by rw [he]) fun j e h _ => recompact_index h
  · rw [AtexitArray.recompact, if_neg hn]
    exact hi

theorem Inv.leaveFinalize (hi : Inv s) (hs : s.stack = f :: rest) : Inv (leaveFinalize lp64 s f rest) := by
  have hst := hi.stack
  rw [hs] at hst
  have hpop : Inv { s with stack := rest, callDepth := s.callDepth - 1 } := hi.setStack hst.pop
  rw [Atexit.leaveFinalize]
  split
  · exact hpop.recompact
  · exact hpop

theorem Inv.step (hi : Inv s) (hs : Step lp64 s s') : Inv s' := by
  cases hs with
  | atexit mapped func arg dso hu => exact hi.cxaAtexit hu mapped func arg dso
  | finalize dso hu => exact hi.setStack (hi.stack.push_restart dso hu.head)
  | scan f rest i hs hp => exact hi.scanEntry hs hp
  | callback f rest i hs hp => exact hi.callbackReturns hs hp
  | leave f rest hs => exact hi.leaveFinalize hs

theorem inv_invariant (lp64 : Bool) : (system lp64).Invariant Inv where
  init := by
    rintro s rfl
    refine ⟨rfl, ?_, rfl, rfl, .nil, ?_, ?_, ?_, ?_⟩ <;> intro x <;> simp [initial]
  step := fun _ _ hi hs => hi.step hs

end Steps

theorem Inv.totalAppends_eq (hi : Inv s) : s.gArray.totalAppends = s.registered.length := by
  have h := congrArg length hi.tickets
  rw [length_map, length_range] at h
  exact h.symm

theorem Inv.all_called (hi : Inv s) (hs : s.stack = f :: rest) (hp : f.place = .scan 0) (he : e ∈ s.registered)
    (hm : matchesDso f.dso e) : e ∈ s.calls := by
  have hst := hi.stack
  rw [hs] at hst
  by_contra hnot
  obtain ⟨hmem, hl⟩ := hi.mem_array_iff.2 ⟨he, hnot⟩
  obtain ⟨i, hget⟩ := mem_iff_getElem?.1 hmem
  refine (hst.frames f mem_cons_self).passed (hst.scanning f 0 rfl hp) i e ?_ hget hl hm
  rw [hp]
  exact Nat.zero_le i

theorem Inv.newest_called (hi : Inv s) (hs : s.stack = f :: rest) (hp : f.place = .scan (i + 1))
    (hget : s.gArray.array[i]? = some e) (hl : live e) {e' : AtexitEntry} (he : e' ∈ s.registered)
    (hnot : e' ∉ s.calls) (hm : matchesDso f.dso e') : e'.ticket ≤ e.ticket := by
  have hst := hi.stack
  rw [hs] at hst
  obtain ⟨hmem, hl'⟩ := hi.mem_array_iff.2 ⟨he, hnot⟩
  obtain ⟨j, hget'⟩ := mem_iff_getElem?.1 hmem
  have hf := (hst.frames f mem_cons_self).passed (hst.scanning f (i + 1) rfl hp) j e'
  rw [hp] at hf
  rcases lt_trichotomy j i with hlt | rfl | hgt
  · exact le_of_lt (hi.ticket_lt hlt hget' hget hl' hl)
  · rw [hget] at hget'
    cases hget'
    exact le_refl _
  · exact absurd hm (hf hgt hget' hl')

theorem scanEntry_calls (h : (scanEntry s f rest i).calls = s.calls ++ [e]) :
    s.gArray.array[i]? = some e ∧ live e ∧ matchesDso f.dso e := by
  rw [scanEntry] at h
  split at h
  case isTrue =>
    have hl := congrArg length h
    simp at hl
  case isFalse hm =>
    have he : s.gArray.get i = e := by simpa [AtexitArray.extractEntry] using h
    rw [← he]
    exact get_of_not_skips hm

theorem atexit_handlers_correct (hs : (system lp64).Reachable s) :
    s.registered.map AtexitEntry.ticket = range s.registered.length ∧
      s.calls.Nodup ∧ (∀ e ∈ s.calls, e ∈ s.registered) ∧
      (∀ f rest, s.stack = f :: rest → f.place = .scan 0 → ∀ e ∈ s.registered, matchesDso f.dso e → e ∈ s.calls) ∧
      (∀ f rest i e, s.stack = f :: rest → f.place = .scan (i + 1) → (scanEntry s f rest i).calls = s.calls ++ [e] →
        e ∈ s.registered ∧ e ∉ s.calls ∧ matchesDso f.dso e ∧
          ∀ e' ∈ s.registered, e' ∉ s.calls → matchesDso f.dso e' → e'.ticket ≤ e.ticket) ∧
      s.gArray.array.filter live = s.registered.filter (· ∉ s.calls) ∧
      (s.gArray.recompact lp64).array.filter live = s.gArray.array.filter live := by
  have hi := (inv_invariant lp64).reachable hs
  refine ⟨?_, hi.calls_nodup, hi.calls_registered, ?_, ?_, hi.live_eq, recompact_filter lp64 s.gArray⟩
  · rw [← hi.totalAppends_eq]
    exact hi.tickets
  · intro f rest hst hp e
    exact hi.all_called hst hp
  · intro f rest i e hst hp hc
    obtain ⟨hget, hl, hm⟩ := scanEntry_calls hc
    obtain ⟨hreg, hnot⟩ := hi.mem_array_iff.1 ⟨mem_of_getElem? hget, hl⟩
    exact ⟨hreg, hnot, hm, fun e' => hi.newest_called hst hp hget hl⟩

/-- A handler registers a second one while it runs, and the restarted loop calls that one. -/
theorem atexit_handlers_correct_nested :
    ∃ s, (system true).Reachable s ∧ s.calls = [⟨1, 10, 7, 0⟩, ⟨2, 20, 7, 1⟩] ∧ s.calls.Nodup ∧
      ∀ e ∈ s.calls, e ∈ s.registered := by
  have h₀ : (system true).Reachable initial := .of_init rfl
  have h₁ := (h₀.step (.atexit true 1 10 7 trivial)).step (.finalize 7 trivial)
    |>.step (.scan ⟨7, 1, .scan 1⟩ [] 0 rfl rfl)
    |>.step (.atexit true 2 20 7 ⟨0, rfl⟩)
    |>.step (.callback ⟨7, 1, .callback 0⟩ [] 0 rfl rfl)
    |>.step (.scan ⟨7, 2, .scan 2⟩ [] 1 rfl rfl)
  obtain ⟨-, hn, hr, -⟩ := atexit_handlers_correct h₁
  exact ⟨_, h₁, by decide, hn, hr⟩

end Bionic.Atexit
