import Bionic.Lib.System
import Bionic.Logd.FlushTo

namespace Bionic.Logd.Simple

open Lib Function List

/-- A registered reader, inside `FlushTo` with the lock released while it flushes the element `flushing`. For
the statements, `flushed` lists the elements it has begun to flush and `due` those it should, from its first
`start` on. -/
structure Reader where
  state : FlushToState
  flushing : Option ℕ
  firstStart : ℕ
  flushed : List LogBufferElement
  due : List LogBufferElement

def Reader.logged (r : Reader) (element : LogBufferElement) : Reader :=
  if r.state.logMask element.logId ∧ r.firstStart ≤ element.sequence then
    { r with due := r.due ++ [element] }
  else r

def older (id : LogId) (oldest : Option ℕ) (r : Reader) : Option ℕ :=
  if r.state.logMask id = false then oldest
  else
    match oldest with
    | none => some r.state.start
    | some start => if start > r.state.start then some r.state.start else some start

/-- An iterator into `logs` is the part of the list from its element on; where one is kept, as in
`oldest`, it is the sequence number of its element. -/
structure Buffer where
  logs : List LogBufferElement
  oldest : LogId → Option ℕ
  sequence : ℕ
  readers : List Reader

namespace Buffer

variable (s : Buffer) (id : LogId) (r : Reader)

def iterator (q : ℕ) : List LogBufferElement := s.logs.dropWhile (·.sequence ≠ q)

def oldestHint : List LogBufferElement :=
  match s.oldest id with
  | none => s.logs
  | some q => s.iterator q

def getOldest : Buffer × List LogBufferElement :=
  match (s.oldestHint id).dropWhile (·.logId ≠ id) with
  | [] => (s, [])
  | element :: rest => ({ s with oldest := update s.oldest id (some element.sequence) }, element :: rest)

def log (logId : LogId) (realtime : LogTime) (uid pid tid : UInt32) (msg : Msg) : Buffer :=
  let element : LogBufferElement := ⟨uid, pid, tid, s.sequence, realtime, logId, .message msg⟩
  { s with
    logs := s.logs ++ [element]
    sequence := s.sequence + 1
    readers := s.readers.map (·.logged element) }

def erase (element : LogBufferElement) (rest : List LogBufferElement) : Buffer :=
  { s with
    logs := s.logs.eraseP (·.sequence = element.sequence)
    oldest := fun i => if s.oldest i = some element.sequence then rest.head?.map (·.sequence) else s.oldest i }

/-- The start of the reader that `Prune` finds to be the oldest of those that watch a log. -/
def oldestStart : Option ℕ := s.readers.foldl (older id) none

def predRows : ℕ → ℕ
  | 0 => 0xffffffffffffffff
  | n + 1 => n

/-- The loop of `Prune`. Where it stops at a reader, that reader is only woken up. -/
def pruneLoop (id : LogId) (callerUid : UInt32) (start : Option ℕ) : Buffer → ℕ → List LogBufferElement → Buffer × Bool
  | s, _, [] => (s, true)
  | s, pruneRows, element :: rest =>
    if element.logId ≠ id then pruneLoop id callerUid start s pruneRows rest
    else if callerUid ≠ 0 ∧ element.uid ≠ callerUid then pruneLoop id callerUid start s pruneRows rest
    else if start.any (· ≤ element.sequence) then (s, false)
    else
      if predRows pruneRows = 0 then (s.erase element rest, true)
      else pruneLoop id callerUid start (s.erase element rest) (predRows pruneRows) rest

def prune (pruneRows : ℕ) (callerUid : UInt32) : Buffer × Bool :=
  let (s', it) := s.getOldest id
  pruneLoop id callerUid (s.oldestStart id) s' pruneRows it

def register (start : ℕ) (logMask : LogId → Bool) : Buffer :=
  { s with
    readers := s.readers ++
      [⟨.create start logMask, none, start, [], s.logs.filter fun e => logMask e.logId && decide (start ≤ e.sequence)⟩] }

def resume : List LogBufferElement :=
  match r.flushing with
  | none => r.state.begin s.logs
  | some q => (s.iterator q).tail

/-- The reader takes the lock, starts `FlushTo` or goes on in it, and gives the lock back to flush the
next element or because `FlushTo` is done. -/
def flushTo : Reader :=
  match r.state.scan (s.resume r) with
  | (state, none) => { r with state := { state with start := state.start + 1 }, flushing := none }
  | (state, some element) =>
    { r with state := state, flushing := some element.sequence, flushed := r.flushed ++ [element] }

end Buffer

inductive Step (allowed : Buffer → Reader → Prop) : Buffer → Buffer → Prop
  | log (s : Buffer) (logId : LogId) (realtime : LogTime) (uid pid tid : UInt32) (msg : Msg) :
    Step allowed s (s.log logId realtime uid pid tid msg)
  | prune (s : Buffer) (id : LogId) (pruneRows : ℕ) (callerUid : UInt32) :
    Step allowed s (s.prune id pruneRows callerUid).1
  | register (s : Buffer) (start : ℕ) (logMask : LogId → Bool) : Step allowed s (s.register start logMask)
  | flushTo (s : Buffer) (i : ℕ) (r : Reader) (hr : s.readers[i]? = some r) (ha : allowed s r) :
    Step allowed s { s with readers := s.readers.set i (s.flushTo r) }

@[simp] def initial : Buffer := ⟨[], fun _ => none, 1, []⟩

/-- The runs in which a reader enters or goes on in `FlushTo` only when `allowed` says so. -/
def system (allowed : Buffer → Reader → Prop) : System Buffer where
  Init s := s = initial
  Step := Step allowed

def Unread (s : Buffer) (r : Reader) : Prop :=
  r.flushing ≠ none ∨ ∃ e ∈ s.logs, r.state.start ≤ e.sequence

variable {s : Buffer} {logs pre rest : List LogBufferElement} {element : LogBufferElement} {id : LogId}

/-- What is known of a kept iterator: the elements in front of it are of other logs. -/
def HintOk (logs : List LogBufferElement) (id : LogId) : Option ℕ → Prop
  | none => True
  | some q => ∃ l₁ e l₂, logs = l₁ ++ e :: l₂ ∧ e.sequence = q ∧ ∀ x ∈ l₁, x.logId ≠ id

theorem dropWhile_sequence (h : Ordered (pre ++ element :: rest)) :
    (pre ++ element :: rest).dropWhile (·.sequence ≠ element.sequence) = element :: rest := by
  have hpre : ∀ x ∈ pre, decide (x.sequence ≠ element.sequence) := by
    intro x hx
    have := h.split.1 x hx
    simp only [decide_not, Bool.not_eq_eq_eq_not, Bool.not_true, decide_eq_false_iff_not]
    omega
  rw [dropWhile_append_of_pos hpre, dropWhile_cons_of_neg (by simp)]

theorem eraseP_sequence (h : Ordered (pre ++ element :: rest)) :
    (pre ++ element :: rest).eraseP (·.sequence = element.sequence) = pre ++ rest := by
  have hpre : ∀ x ∈ pre, ¬ decide (x.sequence = element.sequence) := by
    intro x hx
    have := h.split.1 x hx
    simp only [decide_eq_true_eq]
    omega
  rw [eraseP_append_right _ hpre, eraseP_cons_of_pos (by simp)]

theorem append_cons_cases {l₁ l₂ : List LogBufferElement} {e : LogBufferElement}
    (h : pre ++ element :: rest = l₁ ++ e :: l₂) :
    (pre = l₁ ∧ element = e) ∨ (∃ m, l₁ = pre ++ element :: m ∧ rest = m ++ e :: l₂) ∨
      ∃ m, pre = l₁ ++ e :: m ∧ l₂ = m ++ element :: rest := by
  obtain ⟨m, h₁, h₂⟩ | ⟨m, h₁, h₂⟩ := append_eq_append_iff.mp h
  · cases m with
    | nil => exact .inl ⟨by rw [h₁, append_nil], (cons.inj h₂).1⟩
    | cons x m =>
      obtain ⟨rfl, h₃⟩ := cons.inj h₂
      exact .inr (.inl ⟨m, h₁, h₃⟩)
  · cases m with
    | nil => exact .inl ⟨by rw [h₁, append_nil], (cons.inj h₂).1.symm⟩
    | cons x m =>
      obtain ⟨rfl, h₃⟩ := cons.inj h₂
      exact .inr (.inr ⟨m, h₁, h₃⟩)

theorem getOldest_snd (ho : Ordered s.logs) (hh : HintOk s.logs id (s.oldest id)) :
    (s.getOldest id).2 = s.logs.dropWhile (·.logId ≠ id) := by
  have hhi : (s.oldestHint id).dropWhile (·.logId ≠ id) = s.logs.dropWhile (·.logId ≠ id) := by
    rw [Buffer.oldestHint]
    cases hq : s.oldest id with
    | none => rfl
    | some q =>
      rw [hq] at hh
      obtain ⟨l₁, e, l₂, hl, rfl, hpre⟩ := hh
      rw [hl] at ho
      simp only [Buffer.iterator, hl]
      rw [dropWhile_sequence ho, dropWhile_append_of_pos]
      intro x hx
      simpa using hpre x hx
  rw [Buffer.getOldest, hhi]
  cases s.logs.dropWhile (·.logId ≠ id) with
  | nil => rfl
  | cons e l => rfl

theorem HintOk.of_dropWhile {l : List LogBufferElement} (h : logs.dropWhile (·.logId ≠ id) = element :: l) :
    HintOk logs id (some element.sequence) := by
  refine ⟨logs.takeWhile (·.logId ≠ id), element, l, ?_, rfl, ?_⟩
  · rw [← h, takeWhile_append_dropWhile]
  · intro x hx
    have hall : (logs.takeWhile fun x => decide (x.logId ≠ id)).all (fun x => decide (x.logId ≠ id)) :=
      all_takeWhile
    exact of_decide_eq_true (all_eq_true.mp hall x hx)

theorem HintOk.erase (ho : Ordered (pre ++ element :: rest)) {q : Option ℕ} (h : HintOk (pre ++ element :: rest) id q) :
    HintOk (pre ++ rest) id (if q = some element.sequence then rest.head?.map (·.sequence) else q) := by
  split
  next hq =>
    subst hq
    obtain ⟨l₁, e, l₂, hl, he, hpre⟩ := h
    have hs : pre = l₁ := by
      obtain ⟨h, -⟩ | ⟨m, -, h⟩ | ⟨m, h, -⟩ := append_cons_cases hl
      · exact h
      · have := ho.split.2 e (by simp [h])
        omega
      · have := ho.split.1 e (by simp [h])
        omega
    subst hs
    cases rest with
    | nil => trivial
    | cons x rest => exact ⟨pre, x, rest, rfl, rfl, hpre⟩
  next hq =>
    cases q with
    | none => trivial
    | some q =>
      obtain ⟨l₁, e, l₂, hl, rfl, hpre⟩ := h
      obtain ⟨-, rfl⟩ | ⟨m, h₁, h₂⟩ | ⟨m, h₁, h₂⟩ := append_cons_cases hl
      · exact absurd rfl hq
      · refine ⟨pre ++ m, e, l₂, by rw [h₂, append_assoc], rfl, fun x hx => hpre x ?_⟩
        rw [h₁]
        obtain hx | hx := mem_append.mp hx
        · exact mem_append_left _ hx
        · exact mem_append_right _ (mem_cons_of_mem _ hx)
      · exact ⟨l₁, e, m ++ rest, by rw [h₁, append_assoc, cons_append], rfl, hpre⟩

structure ListInv (s : Buffer) : Prop where
  ordered : Ordered s.logs
  hints : ∀ id, HintOk s.logs id (s.oldest id)

theorem ListInv.getOldest (h : ListInv s) (id : LogId) : ListInv (s.getOldest id).1 := by
  have hsnd := getOldest_snd h.ordered (h.hints id)
  rw [Buffer.getOldest] at hsnd ⊢
  cases hd : (s.oldestHint id).dropWhile (·.logId ≠ id) with
  | nil => exact h
  | cons e l =>
    rw [hd] at hsnd
    refine ⟨h.ordered, fun i => ?_⟩
    simp only [update_apply]
    split_ifs with hi
    · exact hi ▸ HintOk.of_dropWhile hsnd.symm
    · exact h.hints i

theorem ListInv.erase (h : ListInv s) (hl : s.logs = pre ++ element :: rest) :
    ListInv (s.erase element rest) ∧ (s.erase element rest).logs = pre ++ rest := by
  have ho := h.ordered
  rw [hl] at ho
  have he : (s.erase element rest).logs = pre ++ rest := by
    simp only [Buffer.erase, hl]
    exact eraseP_sequence ho
  refine ⟨⟨?_, fun i => ?_⟩, he⟩
  · rw [he]
    exact ho.sublist ((Sublist.refl pre).append (sublist_cons_self element rest))
  · rw [he]
    have hh := h.hints i
    rw [hl] at hh
    exact hh.erase ho

variable {oldest : Option ℕ} {k : ℕ} {r : Reader}

theorem older_some (r : Reader) (h : oldest = some k) : ∃ k', older id oldest r = some k' ∧ k' ≤ k := by
  subst h
  simp only [older]
  split
  · exact ⟨k, rfl, Nat.le_refl k⟩
  · split
    · exact ⟨_, rfl, by omega⟩
    · exact ⟨k, rfl, Nat.le_refl k⟩

theorem older_watching (hr : r.state.logMask id) : ∃ k, older id oldest r = some k ∧ k ≤ r.state.start := by
  have hn : ¬ r.state.logMask id = false := by simp [hr]
  cases oldest with
  | none => exact ⟨_, if_neg hn, Nat.le_refl _⟩
  | some k =>
    simp only [older, if_neg hn]
    split
    · exact ⟨_, rfl, Nat.le_refl _⟩
    · exact ⟨k, rfl, by omega⟩

theorem foldl_older_some {readers : List Reader} (h : oldest = some k) :
    ∃ k', readers.foldl (older id) oldest = some k' ∧ k' ≤ k := by
  induction readers generalizing oldest k with
  | nil => exact ⟨k, h, Nat.le_refl k⟩
  | cons r readers ih =>
    obtain ⟨k₁, h₁, hle₁⟩ := older_some r h
    obtain ⟨k₂, h₂, hle₂⟩ := ih h₁
    exact ⟨k₂, h₂, Nat.le_trans hle₂ hle₁⟩

theorem oldestStart_le (hr : r ∈ s.readers) (hw : r.state.logMask id) :
    ∃ k, s.oldestStart id = some k ∧ k ≤ r.state.start := by
  rw [Buffer.oldestStart]
  obtain ⟨l₁, l₂, hl⟩ := append_of_mem hr
  rw [hl, foldl_append]
  have hold : ∃ k, older id (l₁.foldl (older id) none) r = some k ∧ k ≤ r.state.start := older_watching hw
  obtain ⟨k, hk, hle⟩ := hold
  have hre : ∃ k', l₂.foldl (older id) (older id (l₁.foldl (older id) none) r) = some k' ∧ k' ≤ k :=
    foldl_older_some hk
  obtain ⟨k', hk', hle'⟩ := hre
  exact ⟨k', hk', Nat.le_trans hle' hle⟩

/-- What pruning may do: it erases only elements that every reader watching them has passed. -/
structure Pruned (s s' : Buffer) : Prop where
  list : ListInv s'
  sublist : s'.logs.Sublist s.logs
  sequence : s'.sequence = s.sequence
  readers : s'.readers = s.readers
  kept : ∀ e ∈ s.logs, ∀ r ∈ s.readers, r.state.logMask e.logId → r.state.start ≤ e.sequence → e ∈ s'.logs

theorem Pruned.trans {s₁ s₂ s₃ : Buffer} (h : Pruned s₁ s₂) (h' : Pruned s₂ s₃) : Pruned s₁ s₃ where
  list := h'.list
  sublist := h'.sublist.trans h.sublist
  sequence := h'.sequence.trans h.sequence
  readers := h'.readers.trans h.readers
  kept e he r hr hw hle := h'.kept e (h.kept e he r hr hw hle) r (by rwa [h.readers]) hw hle

section

variable (h : ListInv s)

include h

theorem Pruned.refl : Pruned s s :=
  ⟨h, .refl _, rfl, rfl, fun _ he _ _ _ _ => he⟩

theorem Pruned.getOldest (id : LogId) : Pruned s (s.getOldest id).1 := by
  have hl := h.getOldest id
  rw [Buffer.getOldest] at hl ⊢
  split at hl
  · exact .refl h
  · exact ⟨hl, .refl _, rfl, rfl, fun _ he _ _ _ _ => he⟩

theorem Pruned.erase {pre rest : List LogBufferElement} {element : LogBufferElement}
    (hl : s.logs = pre ++ element :: rest)
    (hp : ∀ r ∈ s.readers, r.state.logMask element.logId → element.sequence < r.state.start) :
    Pruned s (s.erase element rest) := by
  obtain ⟨hinv, hlo⟩ := h.erase hl
  refine ⟨hinv, ?_, rfl, rfl, ?_⟩
  · rw [hlo, hl]
    exact (Sublist.refl pre).append (sublist_cons_self element rest)
  · intro e he r hr hw hle
    rw [hl] at he
    rw [hlo]
    obtain he | he := mem_append.mp he
    · exact mem_append_left _ he
    · obtain rfl | he := mem_cons.mp he
      · exact absurd (hp r hr hw) (Nat.not_lt.mpr hle)
      · exact mem_append_right _ he

theorem pruneLoop_pruned {callerUid : UInt32} {start : Option ℕ} {it : List LogBufferElement} {pre : List LogBufferElement}
    {rows : ℕ} (hl : s.logs = pre ++ it)
    (hs : ∀ r ∈ s.readers, r.state.logMask id → ∃ k, start = some k ∧ k ≤ r.state.start) :
    Pruned s (Buffer.pruneLoop id callerUid start s rows it).1 := by
  induction it generalizing s pre rows with
  | nil => exact .refl h
  | cons element rest ih =>
    have hsk : s.logs = (pre ++ [element]) ++ rest := by rw [hl, append_assoc, singleton_append]
    rw [Buffer.pruneLoop]
    split
    · exact ih h hsk hs
    next hid =>
      split
      · exact ih h hsk hs
      · split
        · exact .refl h
        next hany =>
          have hp : ∀ r ∈ s.readers, r.state.logMask element.logId → element.sequence < r.state.start := by
            intro r hr hw
            rw [not_not.mp hid] at hw
            obtain ⟨k, rfl, hk⟩ := hs r hr hw
            simp only [Option.any_some, decide_eq_true_eq] at hany
            omega
          have he := Pruned.erase h hl hp
          split
          · exact he
          · exact he.trans (ih he.list (h.erase hl).2 hs)

theorem prune_pruned (id : LogId) (rows : ℕ) (callerUid : UInt32) : Pruned s (s.prune id rows callerUid).1 := by
  have hold := Pruned.getOldest h id
  have hit := getOldest_snd h.ordered (h.hints id)
  have hl : (s.getOldest id).1.logs = s.logs := by
    rw [Buffer.getOldest]
    split <;> rfl
  have hs : (s.getOldest id).1.logs = s.logs.takeWhile (·.logId ≠ id) ++ (s.getOldest id).2 := by
    rw [hl, hit, takeWhile_append_dropWhile]
  refine hold.trans (pruneLoop_pruned hold.list hs fun r hr hw => ?_)
  rw [hold.readers] at hr
  exact oldestStart_le hr hw

end

end Bionic.Logd.Simple
