import Bionic.Lib.Execution
import Bionic.Logd.SimpleLogBuffer

namespace Bionic.Logd.Simple

open List Option

variable {s s' : Buffer} {r : Reader}

/-- The lowest sequence number a reader may flush next. -/
def Reader.next (r : Reader) : ℕ :=
  match r.flushing with
  | none => r.state.start
  | some q => q + 1

structure ReaderInv (s : Buffer) (r : Reader) : Prop where
  flushing : ∀ q, r.flushing = some q →
    r.state.start = q ∧ ∃ e ∈ s.logs, e.sequence = q ∧ r.state.logMask e.logId ∧ r.flushed.getLast? = some e
  increasing : Ordered r.flushed
  flushed_lt : ∀ e ∈ r.flushed, e.sequence < r.next

structure Inv (s : Buffer) : Prop extends ListInv s where
  sequence_pos : 1 ≤ s.sequence
  positive : ∀ e ∈ s.logs, 1 ≤ e.sequence
  below : ∀ e ∈ s.logs, e.sequence < s.sequence
  undropped : ∀ e ∈ s.logs, e.droppedCount = 0
  readers : ∀ r ∈ s.readers, ReaderInv s r

theorem Reader.start_le_next (r : Reader) (hr : ReaderInv s r) : r.state.start ≤ r.next := by
  rw [Reader.next]
  split
  · exact Nat.le_refl _
  next q hq =>
    have := (hr.flushing q hq).1
    omega

theorem Inv.resume_eq (hi : Inv s) (hr : ReaderInv s r) : s.resume r = after r.next s.logs := by
  rw [Buffer.resume, Reader.next]
  cases hf : r.flushing with
  | none => exact FlushToState.begin_eq hi.ordered hi.positive
  | some q =>
    obtain ⟨-, e, he, rfl, -⟩ := hr.flushing q hf
    obtain ⟨l₁, l₂, hl⟩ := append_of_mem he
    have ho := hi.ordered
    rw [hl] at ho
    have hfr : ∀ x ∈ l₁ ++ [e], x.sequence < e.sequence + 1 := by
      refine forall_mem_append.mpr ⟨fun x hx => ?_, forall_mem_singleton.mpr (Nat.lt_succ_self _)⟩
      exact Nat.lt_succ_of_lt (ho.split.1 x hx)
    simp only [Buffer.iterator, hl]
    rw [dropWhile_sequence ho, tail_cons, append_cons, after_append, after_eq_nil hfr]
    exact (after_eq_self ho.split.2).symm

theorem Inv.resume_mem (hi : Inv s) (hr : ReaderInv s r) {e : LogBufferElement} :
    e ∈ s.resume r ↔ e ∈ s.logs ∧ r.next ≤ e.sequence := by
  rw [hi.resume_eq hr, after, mem_filter, decide_eq_true_iff]

/-- A call that flushes: the reader now stands at an element of its mask it had not reached. -/
structure Flushes (s : Buffer) (r r' : Reader) (element : LogBufferElement) : Prop where
  mem : element ∈ s.logs
  next_le : r.next ≤ element.sequence
  masked : r.state.logMask element.logId
  first : ∀ e ∈ s.logs, r.next ≤ e.sequence → r.state.logMask e.logId → element.sequence ≤ e.sequence
  flushing : r'.flushing = some element.sequence
  start : r'.state.start = element.sequence
  logMask : r'.state.logMask = r.state.logMask
  flushed : r'.flushed = r.flushed ++ [element]
  due : r'.due = r.due
  firstStart : r'.firstStart = r.firstStart

/-- A call that ends `FlushTo`: nothing of the mask was left, and the reader stands behind the list. -/
structure Ends (s : Buffer) (r r' : Reader) : Prop where
  none_left : ∀ e ∈ s.logs, r.next ≤ e.sequence → r.state.logMask e.logId = false
  flushing : r'.flushing = none
  start : r'.state.start = ((s.resume r).getLast?.map (·.sequence)).getD r.state.start + 1
  logMask : r'.state.logMask = r.state.logMask
  flushed : r'.flushed = r.flushed
  due : r'.due = r.due
  firstStart : r'.firstStart = r.firstStart

theorem Inv.flushTo_cases (hi : Inv s) (hr : ReaderInv s r) :
    (∃ element, Flushes s r (s.flushTo r) element) ∨ Ends s r (s.flushTo r) := by
  have hd : ∀ e ∈ s.resume r, e.droppedCount = 0 := fun e he => hi.undropped e ((hi.resume_mem hr).mp he).1
  have hma : (r.state.scan (s.resume r)).1.logMask = r.state.logMask := FlushToState.scan_logMask
  rw [Buffer.flushTo]
  cases hsc : r.state.scan (s.resume r) with
  | mk state out =>
    rw [hsc] at hma
    cases out with
    | none =>
      obtain ⟨hn, hs⟩ := FlushToState.scan_none hd (by rw [hsc])
      rw [hsc] at hs
      right
      refine ⟨fun e he hle => hn e ((hi.resume_mem hr).mpr ⟨he, hle⟩), rfl, ?_, hma, rfl, rfl, rfl⟩
      exact congrArg (· + 1) hs
    | some element =>
      obtain ⟨hs, hm, l₁, l₂, hl, hf⟩ := FlushToState.scan_some hd (by rw [hsc])
      rw [hsc] at hs
      have hmem := (hi.resume_mem hr (e := element)).mp (by rw [hl]; simp)
      left
      refine ⟨element, hmem.1, hmem.2, hm, ?_, rfl, hs, hma, rfl, rfl, rfl⟩
      intro e he hle hem
      have he' : e ∈ l₁ ++ element :: l₂ := by
        rw [← hl]
        exact (hi.resume_mem hr).mpr ⟨he, hle⟩
      have ho : Ordered (l₁ ++ element :: l₂) := by
        rw [← hl, hi.resume_eq hr]
        exact hi.ordered.sublist filter_sublist
      obtain he' | he' := mem_append.mp he'
      · rw [hf e he'] at hem
        cases hem
      · obtain rfl | he' := mem_cons.mp he'
        · exact Nat.le_refl _
        · exact Nat.le_of_lt (ho.split.2 e he')

theorem Ends.next_le {r' : Reader} (hi : Inv s) (hr : ReaderInv s r) (h : Ends s r r') : r.next ≤ r'.next := by
  have hn : r'.next = r'.state.start := by
    rw [Reader.next, h.flushing]
  rw [hn, h.start]
  cases hl : (s.resume r).getLast? with
  | none =>
    rw [Reader.next]
    split
    · exact Nat.le_succ _
    next q hq =>
      have := (hr.flushing q hq).1
      simp only [map_none, getD_none]
      omega
  | some e =>
    have := ((hi.resume_mem hr).mp (mem_of_getLast? hl)).2
    simp only [map_some, getD_some]
    omega

theorem Inv.readerInv_flushTo (hi : Inv s) (hr : ReaderInv s r) : ReaderInv s (s.flushTo r) := by
  obtain ⟨element, h⟩ | h := hi.flushTo_cases hr
  · have hn : (s.flushTo r).next = element.sequence + 1 := by
      rw [Reader.next, h.flushing]
    refine ⟨?_, ?_, ?_⟩
    · intro q hq
      obtain rfl := mem_unique h.flushing hq
      exact ⟨h.start, element, h.mem, rfl, by rw [h.logMask]; exact h.masked, by simp [h.flushed]⟩
    · rw [h.flushed, Ordered, pairwise_append]
      refine ⟨hr.increasing, pairwise_singleton .., ?_⟩
      intro x hx y hy
      rw [mem_singleton.mp hy]
      exact Nat.lt_of_lt_of_le (hr.flushed_lt x hx) h.next_le
    · rw [h.flushed, hn]
      refine forall_mem_append.mpr ⟨fun e he => ?_, forall_mem_singleton.mpr (Nat.lt_succ_self _)⟩
      exact Nat.lt_succ_of_lt (Nat.lt_of_lt_of_le (hr.flushed_lt e he) h.next_le)
  · refine ⟨?_, ?_, ?_⟩
    · intro q hq
      rw [h.flushing] at hq
      cases hq
    · rw [h.flushed]
      exact hr.increasing
    · intro e he
      rw [h.flushed] at he
      exact Nat.lt_of_lt_of_le (hr.flushed_lt e he) (h.next_le hi hr)

theorem ReaderInv.of_mem (hr : ReaderInv s r)
    (hk : ∀ e ∈ s.logs, r.state.logMask e.logId → r.state.start ≤ e.sequence → e ∈ s'.logs) :
    ReaderInv s' r where
  flushing q hq := by
    obtain ⟨hs, e, he, heq, hm, hl⟩ := hr.flushing q hq
    exact ⟨hs, e, hk e he hm (by omega), heq, hm, hl⟩
  increasing := hr.increasing
  flushed_lt := hr.flushed_lt

theorem HintOk.append {logs l : List LogBufferElement} {id : LogId} {q : Option ℕ} (h : HintOk logs id q) :
    HintOk (logs ++ l) id q := by
  cases q with
  | none => trivial
  | some q =>
    obtain ⟨l₁, e, l₂, rfl, hq, hpre⟩ := h
    exact ⟨l₁, e, l₂ ++ l, by rw [append_assoc, cons_append], hq, hpre⟩

theorem ReaderInv.logged (hr : ReaderInv s r) (element : LogBufferElement) : ReaderInv s (r.logged element) := by
  rw [Reader.logged]
  split
  · exact ⟨hr.flushing, hr.increasing, hr.flushed_lt⟩
  · exact hr

theorem Inv.log (hi : Inv s) (logId : LogId) (realtime : LogTime) (uid pid tid : UInt32) (msg : Msg) :
    Inv (s.log logId realtime uid pid tid msg) := by
  refine ⟨⟨?_, fun id => (hi.hints id).append⟩, Nat.le_succ_of_le hi.sequence_pos, ?_, ?_, ?_, ?_⟩
  · rw [Ordered, Buffer.log, pairwise_append]
    refine ⟨hi.ordered, pairwise_singleton .., fun x hx y hy => ?_⟩
    rw [mem_singleton.mp hy]
    exact hi.below x hx
  · exact forall_mem_append.mpr ⟨hi.positive, forall_mem_singleton.mpr hi.sequence_pos⟩
  · refine forall_mem_append.mpr ⟨fun e he => ?_, forall_mem_singleton.mpr (Nat.lt_succ_self _)⟩
    exact Nat.lt_succ_of_lt (hi.below e he)
  · exact forall_mem_append.mpr ⟨hi.undropped, forall_mem_singleton.mpr rfl⟩
  · intro r' hr'
    obtain ⟨r, hr, rfl⟩ := mem_map.mp hr'
    exact ((hi.readers r hr).of_mem fun e he _ _ => mem_append_left _ he).logged _

theorem Inv.pruned (hi : Inv s) (h : Pruned s s') : Inv s' where
  toListInv := h.list
  sequence_pos := by
    rw [h.sequence]
    exact hi.sequence_pos
  positive e he := hi.positive e (h.sublist.subset he)
  below e he := by
    rw [h.sequence]
    exact hi.below e (h.sublist.subset he)
  undropped e he := hi.undropped e (h.sublist.subset he)
  readers r hr := by
    rw [h.readers] at hr
    exact (hi.readers r hr).of_mem fun e he hm hle => h.kept e he r hr hm hle

theorem Inv.register (hi : Inv s) (start : ℕ) (logMask : LogId → Bool) : Inv (s.register start logMask) where
  toListInv := ⟨hi.ordered, hi.hints⟩
  sequence_pos := hi.sequence_pos
  positive := hi.positive
  below := hi.below
  undropped := hi.undropped
  readers := by
    refine forall_mem_append.mpr ⟨fun r hr => (hi.readers r hr).of_mem fun e he _ _ => he, forall_mem_singleton.mpr ?_⟩
    exact ⟨fun q hq => (by cases hq), Pairwise.nil, by simp⟩

theorem Inv.flushTo (hi : Inv s) {i : ℕ} (hr : s.readers[i]? = some r) :
    Inv { s with readers := s.readers.set i (s.flushTo r) } where
  toListInv := ⟨hi.ordered, hi.hints⟩
  sequence_pos := hi.sequence_pos
  positive := hi.positive
  below := hi.below
  undropped := hi.undropped
  readers r' hr' := by
    obtain hr' | rfl := mem_or_eq_of_mem_set hr'
    · exact (hi.readers r' hr').of_mem fun e he _ _ => he
    · have hri := hi.readers r (mem_of_getElem? hr)
      exact (hi.readerInv_flushTo hri).of_mem fun e he _ _ => he

theorem inv_initial : Inv initial where
  ordered := .nil
  hints _ := trivial
  sequence_pos := Nat.le_refl 1
  positive := by simp
  below := by simp
  undropped := by simp
  readers := by simp

theorem Inv.step {allowed : Buffer → Reader → Prop} (hi : Inv s) (h : Step allowed s s') : Inv s' := by
  cases h with
  | log logId realtime uid pid tid msg => exact hi.log logId realtime uid pid tid msg
  | prune id rows callerUid => exact hi.pruned (prune_pruned hi.toListInv id rows callerUid)
  | register start logMask => exact hi.register start logMask
  | flushTo i r hr ha => exact hi.flushTo hr

theorem inv_invariant (allowed : Buffer → Reader → Prop) : (system allowed).Invariant Inv where
  init s hs := by
    subst hs
    exact inv_initial
  step _ _ hi hs := hi.step hs

variable {r' : Reader} {e : LogBufferElement}

/-- What is due is flushed or still to come, and the reader never runs ahead of the next message. -/
structure DueInv (s : Buffer) (r : Reader) : Prop where
  bound : r.next ≤ max r.firstStart s.sequence
  due : ∀ e ∈ r.due, r.state.logMask e.logId ∧ (e ∈ r.flushed ∨ e ∈ s.logs ∧ r.next ≤ e.sequence)

section

variable (hd : DueInv s r)

include hd

theorem DueInv.mono (hs : s.sequence ≤ s'.sequence)
    (hk : ∀ e ∈ s.logs, r.state.logMask e.logId → r.next ≤ e.sequence → e ∈ s'.logs) : DueInv s' r where
  bound := by
    have := hd.bound
    omega
  due e he := by
    obtain ⟨hm, hf | ⟨hl, hn⟩⟩ := hd.due e he
    · exact ⟨hm, .inl hf⟩
    · exact ⟨hm, .inr ⟨hk e hl hm hn, hn⟩⟩

theorem DueInv.logged (he : e ∈ s.logs) (hn : r.firstStart ≤ e.sequence → r.next ≤ e.sequence) :
    DueInv s (r.logged e) := by
  rw [Reader.logged]
  split
  next h =>
    exact ⟨hd.bound, forall_mem_append.mpr ⟨hd.due, forall_mem_singleton.mpr ⟨h.1, .inr ⟨he, hn h.2⟩⟩⟩⟩
  · exact hd

theorem DueInv.flushes (hi : Inv s) (h : Flushes s r r' e) : DueInv s r' := by
  have hne : r'.next = e.sequence + 1 := by
    rw [Reader.next, h.flushing]
  constructor
  · have := hi.below e h.mem
    omega
  · intro x hx
    rw [h.due] at hx
    rw [h.logMask, h.flushed, hne]
    obtain ⟨hm, hf | ⟨hl, hn⟩⟩ := hd.due x hx
    · exact ⟨hm, .inl (mem_append_left _ hf)⟩
    · have hle := h.first x hl hn hm
      obtain heq | hlt := Nat.eq_or_lt_of_le hle
      · rw [hi.ordered.eq_of_sequence h.mem hl heq]
        exact ⟨hm, .inl mem_concat_self⟩
      · exact ⟨hm, .inr ⟨hl, hlt⟩⟩

theorem DueInv.flushed_of_ends (h : Ends s r r') (he : e ∈ r.due) : e ∈ r.flushed := by
  obtain ⟨hm, hf | ⟨hl, hn⟩⟩ := hd.due e he
  · exact hf
  · rw [h.none_left e hl hn] at hm
    cases hm

theorem DueInv.ends (hi : Inv s) (hr : ReaderInv s r) (hu : Unread s r) (h : Ends s r r') : DueInv s r' := by
  have hn : r'.next = r'.state.start := by
    rw [Reader.next, h.flushing]
  constructor
  · have hlt : r'.next ≤ s.sequence := by
      rw [hn, h.start]
      cases hl : (s.resume r).getLast? with
      | some x => exact hi.below x ((hi.resume_mem hr).mp (mem_of_getLast? hl)).1
      | none =>
        have hnil := getLast?_eq_none_iff.mp hl
        obtain hf | ⟨x, hx, hle⟩ := hu
        · obtain ⟨q, hq⟩ := Option.ne_none_iff_exists'.mp hf
          obtain ⟨hs, x, hx, rfl, -⟩ := hr.flushing q hq
          rw [Option.map_none, hs]
          exact hi.below x hx
        · by_cases hf : r.flushing = none
          · have hmem : x ∈ s.resume r := (hi.resume_mem hr).mpr ⟨hx, by rw [Reader.next, hf]; exact hle⟩
            rw [hnil] at hmem
            cases hmem
          · obtain ⟨q, hq⟩ := Option.ne_none_iff_exists'.mp hf
            obtain ⟨hs, x, hx, rfl, -⟩ := hr.flushing q hq
            rw [Option.map_none, Option.getD_none, hs]
            exact hi.below x hx
    omega
  · intro x hx
    rw [h.due] at hx
    rw [h.logMask, h.flushed]
    exact ⟨(hd.due x hx).1, .inl (hd.flushed_of_ends h hx)⟩

end

structure Served (s : Buffer) : Prop extends Inv s where
  served : ∀ r ∈ s.readers, DueInv s r

theorem Served.step (hv : Served s) (h : Step Unread s s') : Served s' := by
  refine ⟨hv.toInv.step h, ?_⟩
  cases h with
  | log logId realtime uid pid tid msg =>
    intro r' hr'
    obtain ⟨r, hr, rfl⟩ := mem_map.mp hr'
    have hd := hv.served r hr
    have hmo : DueInv (s.log logId realtime uid pid tid msg) r :=
      hd.mono (Nat.le_succ _) fun e he _ _ => mem_append_left _ he
    refine hmo.logged mem_concat_self fun hle => ?_
    have := hd.bound
    dsimp only at hle ⊢
    omega
  | prune id rows callerUid =>
    have hp := prune_pruned hv.toListInv id rows callerUid
    intro r hr
    rw [hp.readers] at hr
    refine (hv.served r hr).mono (Nat.le_of_eq hp.sequence.symm) fun e he hm hle => ?_
    exact hp.kept e he r hr hm (Nat.le_trans (r.start_le_next (hv.readers r hr)) hle)
  | register start logMask =>
    refine forall_mem_append.mpr ⟨fun r hr => ?_, forall_mem_singleton.mpr ?_⟩
    · exact (hv.served r hr).mono (Nat.le_refl _) fun e he _ _ => he
    · refine ⟨Nat.le_max_left .., fun e he => ?_⟩
      rw [mem_filter, Bool.and_eq_true, decide_eq_true_iff] at he
      exact ⟨he.2.1, .inr ⟨he.1, he.2.2⟩⟩
  | flushTo i r hr ha =>
    intro r' hr'
    have hmem := mem_of_getElem? hr
    obtain hr' | rfl := mem_or_eq_of_mem_set hr'
    · exact (hv.served r' hr').mono (Nat.le_refl _) fun e he _ _ => he
    · have hri := hv.readers r hmem
      have hd := hv.served r hmem
      have hdo : DueInv s (s.flushTo r) := by
        obtain ⟨element, h⟩ | h := hv.toInv.flushTo_cases hri
        · exact hd.flushes hv.toInv h
        · exact hd.ends hv.toInv hri ha h
      exact hdo.mono (Nat.le_refl _) fun e he _ _ => he

theorem served_invariant : (system Unread).Invariant Served where
  init s hs := by
    subst hs
    exact ⟨inv_initial, by simp⟩
  step _ _ hv hs := hv.step hs

end Bionic.Logd.Simple
