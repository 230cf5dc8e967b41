import Bionic.Logd.SimpleSafety
import Mathlib.Data.List.TakeWhile

namespace Bionic.Logd.Simple

open Lib List Nat

variable {s s' : Buffer} {r : Reader} {e : LogBufferElement} {i : ℕ} {allowed : Buffer → Reader → Prop}

def Runs (i : ℕ) (s s' : Buffer) : Prop :=
  ∃ r, s.readers[i]? = some r ∧ s' = { s with readers := s.readers.set i (s.flushTo r) }

def IsDue (i : ℕ) (e : LogBufferElement) (s : Buffer) : Prop := ∃ r, s.readers[i]? = some r ∧ e ∈ r.due

def IsFlushed (i : ℕ) (e : LogBufferElement) (s : Buffer) : Prop := ∃ r, s.readers[i]? = some r ∧ e ∈ r.flushed

def Fair (x : Execution (system allowed)) (i : ℕ) : Prop :=
  ∀ n r, (x.state n).readers[i]? = some r → Unread (x.state n) r → ∃ m, n ≤ m ∧ Runs i (x.state m) (x.state (m + 1))

def distance (i : ℕ) (e : LogBufferElement) (s : Buffer) : ℕ :=
  match s.readers[i]? with
  | none => 0
  | some r => e.sequence + 1 - r.next

theorem distance_eq (hr : s.readers[i]? = some r) : distance i e s = e.sequence + 1 - r.next := by
  rw [distance, hr]

theorem Step.reader (h : Step allowed s s') (hi : ListInv s) (hr : s.readers[i]? = some r) :
    Runs i s s' ∨ ∃ r', s'.readers[i]? = some r' ∧ r'.next = r.next ∧ r'.flushed = r.flushed ∧ r.due ⊆ r'.due := by
  cases h with
  | log logId realtime uid pid tid msg =>
    refine .inr ⟨r.logged _, by rw [Buffer.log, getElem?_map, hr]; rfl, ?_⟩
    rw [Reader.logged]
    split
    · exact ⟨rfl, rfl, subset_append_left ..⟩
    · exact ⟨rfl, rfl, Subset.refl _⟩
  | prune id rows callerUid =>
    refine .inr ⟨r, ?_, rfl, rfl, Subset.refl _⟩
    rw [(prune_pruned hi id rows callerUid).readers]
    exact hr
  | register start logMask =>
    refine .inr ⟨r, ?_, rfl, rfl, Subset.refl _⟩
    rw [Buffer.register, getElem?_append_left (List.getElem?_eq_some_iff.mp hr).1]
    exact hr
  | flushTo j r₁ hr₁ ha =>
    by_cases hj : j = i
    · subst hj
      exact .inl ⟨r₁, hr₁, rfl⟩
    · refine .inr ⟨r, ?_, rfl, rfl, Subset.refl _⟩
      simp only [getElem?_set_ne hj]
      exact hr

theorem Runs.getElem? (h : Runs i s s') (hr : s.readers[i]? = some r) : s'.readers[i]? = some (s.flushTo r) := by
  obtain ⟨r₁, hr₁, rfl⟩ := h
  rw [hr] at hr₁
  cases hr₁
  exact getElem?_set_self (List.getElem?_eq_some_iff.mp hr).1

theorem flushTo_due (hi : Inv s) (hr : ReaderInv s r) : (s.flushTo r).due = r.due := by
  obtain ⟨element, h⟩ | h := hi.flushTo_cases hr
  · exact h.due
  · exact h.due

theorem IsDue.step (h : IsDue i e s) (hi : Inv s) (hs : Step allowed s s') : IsDue i e s' := by
  obtain ⟨r, hr, he⟩ := h
  obtain hrun | ⟨r', hr', -, -, hsub⟩ := hs.reader hi.toListInv hr
  · refine ⟨_, hrun.getElem? hr, ?_⟩
    rw [flushTo_due hi (hi.readers r (mem_of_getElem? hr))]
    exact he
  · exact ⟨r', hr', hsub he⟩

theorem Served.runs (hv : Served s) (hr : s.readers[i]? = some r) (he : e ∈ r.due) (hn : e ∉ r.flushed)
    (hrun : Runs i s s') : IsFlushed i e s' ∨ distance i e s' < distance i e s := by
  have hmem := mem_of_getElem? hr
  have hri := hv.readers r hmem
  have hd := hv.served r hmem
  have hr' := hrun.getElem? hr
  obtain ⟨element, h⟩ | h := hv.toInv.flushTo_cases hri
  · obtain ⟨hm, hf | ⟨hl, hle⟩⟩ := hd.due e he
    · exact absurd hf hn
    · right
      have hne : (s.flushTo r).next = element.sequence + 1 := by
        rw [Reader.next, h.flushing]
      have hna := h.next_le
      rw [distance_eq hr, distance_eq hr']
      omega
  · exact absurd (hd.flushed_of_ends h he) hn

theorem Served.unread (hv : Served s) (hr : s.readers[i]? = some r) (he : e ∈ r.due) (hn : e ∉ r.flushed) : Unread s r := by
  have hmem := mem_of_getElem? hr
  obtain ⟨-, hf | ⟨hl, hle⟩⟩ := (hv.served r hmem).due e he
  · exact absurd hf hn
  · exact .inr ⟨e, hl, le_trans (r.start_le_next (hv.readers r hmem)) hle⟩

theorem eventually_flushed (x : Execution (system Unread)) (hfa : Fair x i) {n : ℕ} (hdue : IsDue i e (x.state n)) :
    ∃ m, n ≤ m ∧ IsFlushed i e (x.state m) := by
  have hv : ∀ m, Served (x.state m) := fun m => served_invariant.reachable (x.reachable m)
  have hall : ∀ m, n ≤ m → IsDue i e (x.state m) := by
    intro m hm
    refine x.stable (fun s s' hs hd hst => ?_) hdue hm
    exact hd.step (served_invariant.reachable hs).toInv hst
  apply x.eventually (distance i e) n
  · intro m hm hg
    obtain ⟨r, hr, he⟩ := hall m hm
    obtain heq | hst := x.step m
    · rw [heq]
      exact .inr (le_refl _)
    · obtain hrun | ⟨r', hr', hn, -, -⟩ := hst.reader (hv m).toListInv hr
      · exact ((hv m).runs hr he (fun hf => hg ⟨r, hr, hf⟩) hrun).imp_right le_of_lt
      · rw [distance_eq hr, distance_eq hr', hn]
        exact .inr (le_refl _)
  · intro m hm hg hrun
    obtain ⟨r, hr, he⟩ := hall m hm
    exact (hv m).runs hr he (fun hf => hg ⟨r, hr, hf⟩) hrun
  · intro m hm hg
    obtain ⟨r, hr, he⟩ := hall m hm
    exact hfa m r hr ((hv m).unread hr he fun hf => hg ⟨r, hr, hf⟩)

/-- What a reader has passed without flushing it never flushes. -/
theorem passed_never_flushed (hi : Inv s) (hr : s.readers[i]? = some r) (hlt : e.sequence < r.next) (hn : e ∉ r.flushed)
    (hs : Relation.ReflTransGen (Step allowed) s s') : ¬ IsFlushed i e s' := by
  have hk : Inv s' ∧ ∃ r', s'.readers[i]? = some r' ∧ e.sequence < r'.next ∧ e ∉ r'.flushed := by
    induction hs with
    | refl => exact ⟨hi, r, hr, hlt, hn⟩
    | tail _ hst ih =>
      obtain ⟨hi₁, r₁, hr₁, hlt₁, hn₁⟩ := ih
      refine ⟨hi₁.step hst, ?_⟩
      obtain hrun | ⟨r', hr', hne, hfl, -⟩ := hst.reader hi₁.toListInv hr₁
      · have hri := hi₁.readers r₁ (mem_of_getElem? hr₁)
        refine ⟨_, hrun.getElem? hr₁, ?_⟩
        obtain ⟨element, h⟩ | h := hi₁.flushTo_cases hri
        · have hle := h.next_le
          constructor
          · rw [Reader.next, h.flushing]
            exact lt_succ_of_lt (lt_of_lt_of_le hlt₁ hle)
          · rw [h.flushed, mem_append, mem_singleton]
            rintro (hf | rfl)
            · exact hn₁ hf
            · omega
        · rw [h.flushed]
          exact ⟨lt_of_lt_of_le hlt₁ (h.next_le hi₁ hri), hn₁⟩
      · rw [← hne] at hlt₁
        rw [← hfl] at hn₁
        exact ⟨r', hr', hlt₁, hn₁⟩
  obtain ⟨-, r', hr', -, hn'⟩ := hk
  rintro ⟨r'', hr'', hf⟩
  rw [hr'] at hr''
  cases hr''
  exact hn' hf

/-- In every run the element a reader is flushing stays in the list, each reader flushes in increasing order,
and `GetOldest` finds the first element of a log. If no reader enters `FlushTo` with nothing left, each that
goes on reading flushes all that is due. -/
theorem readers_served (allowed : Buffer → Reader → Prop) :
    (∀ s, (system allowed).Reachable s →
      (∀ r ∈ s.readers, ∀ q, r.flushing = some q → ∃ e ∈ s.logs, e.sequence = q ∧ r.flushed.getLast? = some e) ∧
      (∀ r ∈ s.readers, r.flushed.Pairwise (·.sequence < ·.sequence)) ∧
      ∀ id, (s.getOldest id).2.head? = s.logs.find? (·.logId = id)) ∧
    ∀ (x : Execution (system Unread)) (i : ℕ), Fair x i → ∀ n e, IsDue i e (x.state n) →
      ∃ m, n ≤ m ∧ IsFlushed i e (x.state m) := by
  constructor
  · intro s hs
    have hi := (inv_invariant allowed).reachable hs
    refine ⟨fun r hr q hq => ?_, fun r hr => (hi.readers r hr).increasing, fun id => ?_⟩
    · obtain ⟨-, e, he, hq, -, hl⟩ := (hi.readers r hr).flushing q hq
      exact ⟨e, he, hq, hl⟩
    · rw [getOldest_snd hi.ordered (hi.hints id), find?_eq_head?_dropWhile_not]
      simp
  · intro x i hf n e hdue
    exact eventually_flushed x hf hdue

section Example

def hello : LogBufferElement := ⟨1000, 7, 7, 1, ⟨0, 1⟩, .main, .message ⟨[4, 116, 0, 104], by decide⟩⟩

def readerAt (start : ℕ) : Reader := ⟨.create start fun _ => true, none, start, [], []⟩

def registered : Buffer := initial.register 1 fun _ => true

def greeted : Buffer := registered.log .main ⟨0, 1⟩ 1000 7 7 ⟨[4, 116, 0, 104], by decide⟩

def greetedReader : Reader := (readerAt 1).logged hello

def flushed : Buffer := { greeted with readers := [greeted.flushTo greetedReader] }

def ended : Buffer := { flushed with readers := [flushed.flushTo (greeted.flushTo greetedReader)] }

theorem ended_read (hr : ended.readers[0]? = some r) : ¬ Unread ended r := by
  obtain rfl : flushed.flushTo (greeted.flushTo greetedReader) = r := Option.some.inj hr
  rintro (h | ⟨e, he, hle⟩)
  · exact h rfl
  · obtain rfl := mem_singleton.mp he
    revert hle
    decide

def greeting : Execution (system Unread) where
  state
    | 0 => initial
    | 1 => registered
    | 2 => greeted
    | 3 => flushed
    | _ + 4 => ended
  init := rfl
  step
    | 0 => .inr (.register initial 1 fun _ => true)
    | 1 => .inr (.log registered .main ⟨0, 1⟩ 1000 7 7 _)
    | 2 => .inr (.flushTo greeted 0 greetedReader rfl (.inr ⟨hello, mem_singleton_self _, le_refl 1⟩))
    | 3 => .inr (.flushTo flushed 0 (greeted.flushTo greetedReader) rfl (.inl (Option.some_ne_none 1)))
    | _ + 4 => .inl rfl

theorem greeting_fair : Fair greeting 0 := by
  intro n r hr hu
  match n with
  | 0 | 1 | 2 => exact ⟨2, by omega, greetedReader, rfl, rfl⟩
  | 3 => exact ⟨3, by omega, greeted.flushTo greetedReader, rfl, rfl⟩
  | n + 4 => exact absurd hu (ended_read hr)

theorem readers_served_greeting : ∃ m, 2 ≤ m ∧ IsFlushed 0 hello (greeting.state m) :=
  (readers_served Unread).2 greeting 0 greeting_fair 2 hello ⟨greetedReader, rfl, mem_singleton_self _⟩

/-- A reader of everything that runs `FlushTo` on the empty list and then sees the first message logged. -/
def early : Buffer := { registered with readers := [registered.flushTo (readerAt 1)] }

def missed : Buffer := early.log .main ⟨0, 1⟩ 1000 7 7 ⟨[4, 116, 0, 104], by decide⟩

/-- The empty `FlushTo` has moved the reader's start behind the message: it is never flushed. -/
theorem empty_flush_skips_message : (system fun _ _ => True).Reachable missed ∧ IsDue 0 hello missed ∧
    ∀ s, Relation.ReflTransGen (system fun _ _ => True).Step missed s → ¬ IsFlushed 0 hello s := by
  have h₀ : (system fun _ _ => True).Reachable initial := .of_init rfl
  have h₁ : (system fun _ _ => True).Reachable registered := h₀.step (.register initial 1 fun _ => true)
  have h₂ : (system fun _ _ => True).Reachable early := h₁.step (.flushTo registered 0 (readerAt 1) rfl trivial)
  have h₃ : (system fun _ _ => True).Reachable missed := h₂.step (.log early .main ⟨0, 1⟩ 1000 7 7 _)
  have hr : missed.readers[0]? = some ((registered.flushTo (readerAt 1)).logged hello) := rfl
  refine ⟨h₃, ⟨_, hr, mem_singleton_self _⟩, fun s hs => ?_⟩
  exact passed_never_flushed ((inv_invariant _).reachable h₃) hr (lt_succ_self 1) not_mem_nil hs

end Example

end Bionic.Logd.Simple
