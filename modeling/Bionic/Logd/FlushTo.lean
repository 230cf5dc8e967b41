import Bionic.Logd.Element
import Mathlib.Data.List.Induction

namespace Bionic.Logd

open List

structure FlushToState where
  start : ℕ
  logMask : LogId → Bool
  lastTid : LogId → UInt32
  dropChattyMessages : Bool

namespace FlushToState

def create (start : ℕ) (logMask : LogId → Bool) : FlushToState :=
  ⟨start, logMask, fun _ => 0, true⟩

variable (state : FlushToState)

/-- What the loop of `FlushTo` does with an element before it lets go of the lock: whether it is flushed, and if
so whether it has the tid of the last one. -/
def visit (element : LogBufferElement) : FlushToState × Option Bool :=
  let state := { state with start := element.sequence }
  if state.logMask element.logId = false then (state, none)
  else if state.dropChattyMessages ∧ element.droppedCount ≠ 0 then (state, none)
  else
    let sameTid := state.lastTid element.logId = element.tid
    ({ state with
        dropChattyMessages := false
        lastTid := Function.update state.lastTid element.logId
          (if element.droppedCount ≠ 0 ∧ ¬ sameTid then 0 else element.tid) },
      some (decide sameTid))

def scan (state : FlushToState) : List LogBufferElement → FlushToState × Option LogBufferElement
  | [] => (state, none)
  | element :: rest =>
    match state.visit element with
    | (state, none) => state.scan rest
    | (state, some _) => (state, some element)

/-- The backward search for `start`, over the elements in front of the iterator, the nearest first. -/
def searchBack (start : ℕ) : List LogBufferElement → List LogBufferElement → List LogBufferElement
  | [], it => it
  | element :: front, it =>
    if element.sequence = start then element :: it
    else if element.sequence < start then it
    else searchBack start front (element :: it)

def begin (logs : List LogBufferElement) : List LogBufferElement :=
  if state.start ≤ 1 then logs else searchBack state.start logs.reverse []

end FlushToState

def Ordered (logs : List LogBufferElement) : Prop := logs.Pairwise (·.sequence < ·.sequence)

def after (k : ℕ) (logs : List LogBufferElement) : List LogBufferElement := logs.filter (k ≤ ·.sequence)

variable {k : ℕ} {e : LogBufferElement} {l : List LogBufferElement}

theorem after_append (l₁ l₂ : List LogBufferElement) (k : ℕ) : after k (l₁ ++ l₂) = after k l₁ ++ after k l₂ :=
  filter_append ..

theorem after_eq_nil (h : ∀ x ∈ l, x.sequence < k) : after k l = [] := by
  rw [after, filter_eq_nil_iff]
  intro x hx
  simpa using h x hx

theorem after_eq_self (h : ∀ x ∈ l, k ≤ x.sequence) : after k l = l := by
  rw [after, filter_eq_self]
  intro x hx
  simpa using h x hx

theorem Ordered.split {l₁ l₂ : List LogBufferElement} (h : Ordered (l₁ ++ e :: l₂)) :
    (∀ x ∈ l₁, x.sequence < e.sequence) ∧ ∀ x ∈ l₂, e.sequence < x.sequence := by
  rw [Ordered, pairwise_append, pairwise_cons] at h
  exact ⟨fun x hx => h.2.2 x hx e (mem_cons_self ..), h.2.1.1⟩

theorem Ordered.eq_of_sequence {logs : List LogBufferElement} (h : Ordered logs) {x y : LogBufferElement} (hx : x ∈ logs)
    (hy : y ∈ logs) (heq : x.sequence = y.sequence) : x = y := by
  obtain ⟨l₁, l₂, rfl⟩ := append_of_mem hx
  obtain hy | hy := mem_append.mp hy
  · have := h.split.1 y hy
    omega
  · obtain rfl | hy := mem_cons.mp hy
    · rfl
    · have := h.split.2 y hy
      omega

namespace FlushToState

variable {state : FlushToState} {element : LogBufferElement} {rest logs : List LogBufferElement}

theorem visit_start : (state.visit element).1.start = element.sequence := by
  simp only [visit]
  split
  · rfl
  · split <;> rfl

theorem visit_logMask : (state.visit element).1.logMask = state.logMask := by
  simp only [visit]
  split
  · rfl
  · split <;> rfl

theorem visit_isSome_iff (hd : element.droppedCount = 0) :
    (state.visit element).2.isSome = state.logMask element.logId := by
  simp only [visit]
  by_cases h : state.logMask element.logId = false
  · rw [h]
    rfl
  · rw [if_neg h, if_neg fun h' => h'.2 hd]
    exact ((Bool.not_eq_false _).mp h).symm

theorem scan_logMask : (state.scan rest).1.logMask = state.logMask := by
  induction rest generalizing state with
  | nil => rfl
  | cons element rest ih =>
    have hv : (state.visit element).1.logMask = state.logMask := visit_logMask
    rw [scan]
    split
    next st h =>
      rw [h] at hv
      rw [ih]
      exact hv
    next st _ h =>
      rw [h] at hv
      exact hv

theorem scan_cons (hd : e.droppedCount = 0) :
    state.scan (e :: rest) = if state.logMask e.logId then ((state.visit e).1, some e) else (state.visit e).1.scan rest := by
  have hso : (state.visit e).2.isSome = state.logMask e.logId := visit_isSome_iff hd
  rw [scan, ← hso]
  cases hvi : state.visit e with
  | mk st out => cases out <;> rfl

theorem scan_some (hd : ∀ e ∈ rest, e.droppedCount = 0) (h : (state.scan rest).2 = some element) :
    (state.scan rest).1.start = element.sequence ∧ state.logMask element.logId ∧
      ∃ l₁ l₂, rest = l₁ ++ element :: l₂ ∧ ∀ x ∈ l₁, state.logMask x.logId = false := by
  induction rest generalizing state with
  | nil => cases h
  | cons e rest ih =>
    rw [scan_cons (hd e (mem_cons_self ..))] at h ⊢
    cases hm : state.logMask e.logId with
    | true =>
      rw [hm] at h
      cases h
      exact ⟨visit_start, hm, [], rest, rfl, by simp⟩
    | false =>
      rw [hm] at h
      obtain ⟨h₁, h₂, l₁, l₂, rfl, hl⟩ := ih (fun x hx => hd x (mem_cons_of_mem _ hx)) h
      rw [visit_logMask] at h₂ hl
      exact ⟨h₁, h₂, e :: l₁, l₂, rfl, forall_mem_cons.2 ⟨hm, hl⟩⟩

theorem scan_none (hd : ∀ e ∈ rest, e.droppedCount = 0) (h : (state.scan rest).2 = none) :
    (∀ x ∈ rest, state.logMask x.logId = false) ∧
      (state.scan rest).1.start = (rest.getLast?.map (·.sequence)).getD state.start := by
  induction rest generalizing state with
  | nil => exact ⟨by simp, rfl⟩
  | cons e rest ih =>
    rw [scan_cons (hd e (mem_cons_self ..))] at h ⊢
    cases hm : state.logMask e.logId with
    | true =>
      rw [hm] at h
      cases h
    | false =>
      rw [hm] at h
      obtain ⟨hl, hst⟩ := ih (fun x hx => hd x (mem_cons_of_mem _ hx)) h
      rw [visit_logMask] at hl
      refine ⟨forall_mem_cons.2 ⟨hm, hl⟩, hst.trans ?_⟩
      rw [getLast?_cons, visit_start]
      cases rest.getLast? <;> rfl

theorem searchBack_eq (h : Ordered logs) (start : ℕ) (it : List LogBufferElement) :
    searchBack start logs.reverse it = after start logs ++ it := by
  induction logs using reverseRecOn generalizing it with
  | nil => rfl
  | append_singleton l e ih =>
    have hl : Ordered l := (pairwise_append.mp h).1
    have hlt : ∀ x ∈ l, x.sequence < e.sequence := h.split.1
    rw [reverse_append, reverse_singleton, singleton_append, searchBack]
    rw [after_append]
    split
    next heq =>
      rw [after_eq_nil (by rw [← heq]; exact hlt), after_eq_self (by simp [heq])]
      rfl
    next hne =>
      split
      next hle =>
        rw [after_eq_nil fun x hx => Nat.lt_trans (hlt x hx) hle, after_eq_nil (by simpa using hle)]
        rfl
      next hge =>
        have he : after start [e] = [e] := after_eq_self (by simpa using hge)
        rw [ih hl, he, append_assoc]
        rfl

theorem begin_eq (h : Ordered logs) (hpos : ∀ e ∈ logs, 1 ≤ e.sequence) : state.begin logs = after state.start logs := by
  rw [begin]
  split
  next hs =>
    rw [after_eq_self]
    intro x hx
    exact Nat.le_trans hs (hpos x hx)
  · rw [searchBack_eq h, append_nil]

end FlushToState

end Bionic.Logd
