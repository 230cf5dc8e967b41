import Bionic.Lib.System
import Bionic.Liblog.EventListWrite

namespace Bionic.EventList

open Lib Function List Nat Writer

def loggerEntryMaxPayload : ℕ := 4068

/-- The parts an event is made of: scalars, and heads of lists with their element counters. -/
inductive Token
  | scalar (s : Scalar)
  | list (elementCount : UInt8)

namespace Token

def encode : Token → List UInt8
  | scalar s => s.encode
  | list n => [eventTypeList, n]

def encodeAll (ts : List Token) : List UInt8 := ts.flatMap encode

@[simp] theorem encodeAll_nil : encodeAll [] = [] := rfl

@[simp] theorem encodeAll_cons (t : Token) (ts : List Token) : encodeAll (t :: ts) = t.encode ++ encodeAll ts := by
  simp [encodeAll]

@[simp] theorem encodeAll_append (ts us : List Token) : encodeAll (ts ++ us) = encodeAll ts ++ encodeAll us := by
  simp [encodeAll]

def counters : ℕ → List Token → List ℕ
  | _, [] => []
  | p, scalar s :: ts => counters (p + s.encode.length) ts
  | p, list _ :: ts => (p + 1) :: counters (p + 2) ts

theorem counters_append (p : ℕ) (ts us : List Token) :
    counters p (ts ++ us) = counters p ts ++ counters (p + (encodeAll ts).length) us := by
  induction ts generalizing p with
  | nil => rfl
  | cons t ts ih =>
    cases t with
    | scalar s =>
      rw [cons_append, counters, counters, ih, encodeAll_cons, length_append, add_assoc]
      rfl
    | list n =>
      rw [cons_append, counters, counters, ih, encodeAll_cons, length_append, add_assoc, cons_append]
      rfl

theorem lt_of_mem_counters {p q : ℕ} {ts : List Token} (h : q ∈ counters p ts) :
    p < q ∧ q < p + (encodeAll ts).length := by
  induction ts generalizing p with
  | nil => cases h
  | cons t ts ih =>
    rw [encodeAll_cons, length_append]
    cases t with
    | scalar s =>
      have hlt := ih h
      change p < q ∧ q < p + (s.encode.length + (encodeAll ts).length)
      omega
    | list n =>
      change p < q ∧ q < p + (2 + (encodeAll ts).length)
      rw [counters, mem_cons] at h
      cases h with
      | inl h => omega
      | inr h =>
        have hlt := ih h
        omega

theorem holds_store_counter {m : ℕ → UInt8} {p q : ℕ} {ts : List Token} (b : UInt8) (h : Holds m p (encodeAll ts))
    (hq : q ∈ counters p ts) :
    ∃ us, Holds (store m q [b]) p (encodeAll us) ∧ counters p us = counters p ts ∧
      (encodeAll us).length = (encodeAll ts).length := by
  induction ts generalizing p with
  | nil => cases hq
  | cons t ts ih =>
    rw [encodeAll_cons, holds_append] at h
    obtain ⟨ht, hr⟩ := h
    have ho : ∀ {i}, i ≠ q → store m q [b] i = m i := fun hi => store_singleton_of_ne hi
    cases t with
    | scalar s =>
      change q ∈ counters (p + s.encode.length) ts at hq
      have hlt := (lt_of_mem_counters hq).1
      obtain ⟨us, hus, hc, hl⟩ := ih hr hq
      refine ⟨scalar s :: us, ?_, ?_, ?_⟩
      · rw [encodeAll_cons, holds_append]
        exact ⟨ht.congr fun i _ hi => ho (by change i < p + s.encode.length at hi; omega), hus⟩
      · exact hc
      · rw [encodeAll_cons, encodeAll_cons, length_append, length_append, hl]
    | list n =>
      rw [counters, mem_cons] at hq
      cases hq with
      | inl hq =>
        refine ⟨list b :: ts, ?_, rfl, ?_⟩
        · rw [encodeAll_cons, holds_append]
          refine ⟨⟨?_, ?_, trivial⟩, hr.congr fun i hi _ => ho (by change p + 2 ≤ i at hi; omega)⟩
          · rw [ho (by omega)]
            exact ht.1
          · rw [hq, store_singleton]
        · rw [encodeAll_cons, encodeAll_cons, length_append, length_append]
          rfl
      | inr hq =>
        have hlt := (lt_of_mem_counters hq).1
        obtain ⟨us, hus, hc, hl⟩ := ih hr hq
        refine ⟨list n :: us, ?_, ?_, ?_⟩
        · rw [encodeAll_cons, holds_append]
          exact ⟨ht.congr fun i _ hi => ho (by change i < p + 2 at hi; omega), hus⟩
        · rw [counters, counters]
          exact congrArg ((p + 1) :: ·) hc
        · rw [encodeAll_cons, encodeAll_cons, length_append, length_append, hl]

end Token

def Call.Short : Call → Prop
  | .write (.string value maxlen) => (text value maxlen).length < 2 ^ 31
  | _ => True

variable (w : Writer)

def Cut : Call → Prop
  | .write (.string value maxlen) =>
    w.overflow = false ∧ maxEventPayload < w.pos + (5 + (text value maxlen).length) ∧ w.pos + 5 < maxEventPayload
  | _ => False

def Writer.sealHead : Writer :=
  if w.listNestDepth ≠ 0 then w else { w with storage := store w.storage 1 [.ofNat (w.count 0)] }

inductive Step : Writer → Writer → Prop
  | call (w : Writer) (c : Call) (hs : c.Short) (hc : ¬Cut w c) : Step w (c.exec w).2
  | listBuffer (w : Writer) : Step w w.sealHead

def system : System Writer where
  Init w := w = createAndroidLogger
  Step := Step

section Write

variable {w : Writer} {s : Scalar}

theorem writeFixed_cases {type : UInt8} {data : List UInt8} (hs : s.encode = type :: data) :
    (w.writeFixed type data).2 = w ∨ (w.writeFixed type data).2 = (w.fail .eio).2 ∨
      w.pos + s.encode.length ≤ maxEventPayload ∧ (w.writeFixed type data).2 = w.append s.encode := by
  by_cases ho : w.overflow
  · left
    rw [Writer.writeFixed, if_pos ho]
  · by_cases hf : w.pos + (1 + data.length) > maxEventPayload
    · right
      left
      rw [Writer.writeFixed, if_neg ho, if_pos hf]
    · have hle : w.pos + (type :: data).length ≤ maxEventPayload := by
        rw [length_cons, add_comm data.length]
        exact le_of_not_gt hf
      rw [writeFixed_of_fits (Bool.eq_false_iff.mpr ho) hle, hs]
      exact .inr (.inr ⟨hle, rfl⟩)

/-- A scalar that is not cut is written whole or not at all. -/
theorem write_cases (hpos : w.pos ≤ maxEventPayload) (hs : (Call.write s).Short) (hc : ¬Cut w (.write s)) :
    (s.write w).2 = w ∨ (s.write w).2 = (w.fail .eio).2 ∨
      w.pos + s.encode.length ≤ maxEventPayload ∧ (s.write w).2 = w.append s.encode := by
  cases s with
  | int32 value => exact writeFixed_cases (s := .int32 value) rfl
  | int64 value => exact writeFixed_cases (s := .int64 value) rfl
  | float32 value => exact writeFixed_cases (s := .float32 value) rfl
  | string value maxlen =>
    rw [Scalar.write]
    by_cases ho : w.overflow
    · left
      rw [androidLogWriteString8Len, if_pos ho]
    · have hoff : w.overflow = false := Bool.eq_false_iff.mpr ho
      by_cases hf : maxEventPayload < w.pos + (5 + (text value maxlen).length)
      · have hfull : maxEventPayload ≤ w.pos + 5 := not_lt.mp fun hlt => hc ⟨hoff, hf, hlt⟩
        right
        left
        rw [writeString_of_lt hpos hoff hs hf, if_pos hfull]
      · have hle : w.pos + (Scalar.string value maxlen).encode.length ≤ maxEventPayload := by
          rw [Scalar.length_encode_string]
          exact not_lt.mp hf
        rw [writeString_of_fits hoff hle]
        exact .inr (.inr ⟨hle, rfl⟩)

end Write

/-- The storage holds the head of the outermost list and whole tokens behind it, up to the position. -/
structure Whole (w : Writer) (ts : List Token) : Prop where
  head : w.storage 0 = eventTypeList
  body : Holds w.storage 2 (Token.encodeAll ts)
  pos : w.pos = 2 + (Token.encodeAll ts).length
  fits : w.pos ≤ maxEventPayload
  lists : ∀ d, d ≠ 0 → w.list d ≠ 0 → w.list d ∈ Token.counters 2 ts

namespace Whole

variable {w w' : Writer} {ts : List Token}

section

variable (h : Whole w ts) {s : Scalar}
include h

theorem congr (hs : w'.storage = w.storage) (hpos : w'.pos = w.pos) (hli : w'.list = w.list) : Whole w' ts := by
  obtain ⟨hh, hb, hp, hf, hl⟩ := h
  constructor
  · rw [hs, hh]
  · rw [hs]
    exact hb
  · rw [hpos, hp]
  · rw [hpos]
    exact hf
  · rw [hli]
    exact hl

theorem append {t : Token} (hf : w.pos + t.encode.length ≤ maxEventPayload)
    (hs : w'.storage = store w.storage w.pos t.encode) (hpos : w'.pos = w.pos + t.encode.length)
    (hl : ∀ d, d ≠ 0 → w'.list d ≠ 0 → w'.list d = w.list d ∨ w'.list d ∈ Token.counters w.pos [t]) :
    Whole w' (ts ++ [t]) := by
  have hold : ∀ i, i < w.pos → w'.storage i = w.storage i := by
    intro i hi
    rw [hs, store_of_lt hi]
  have hp := h.pos
  constructor
  · rw [hold 0 (by omega), h.head]
  · rw [Token.encodeAll_append, holds_append]
    constructor
    · exact h.body.congr fun i _ hi => hold i (by omega)
    · rw [← hp, hs, Token.encodeAll_cons, Token.encodeAll_nil, append_nil]
      exact holds_store _ _ _
  · rw [hpos, hp, Token.encodeAll_append, length_append, Token.encodeAll_cons, Token.encodeAll_nil, append_nil,
      add_assoc]
  · rw [hpos]
    exact hf
  · intro d hd hne
    rw [Token.counters_append, mem_append, ← hp]
    rcases hl d hd hne with heq | hmem
    · left
      rw [heq] at hne ⊢
      exact h.lists d hd hne
    · exact Or.inr hmem

theorem scalar (s : Scalar) (hf : w.pos + s.encode.length ≤ maxEventPayload) :
    Whole (w.append s.encode) (ts ++ [.scalar s]) :=
  h.append hf rfl rfl (fun _ _ _ => Or.inl rfl)

theorem write (hs : (Call.write s).Short) (hc : ¬Cut w (.write s)) : ∃ us, Whole (s.write w).2 us := by
  rcases write_cases h.fits hs hc with hw | hw | ⟨hf, hw⟩
  · exact ⟨ts, hw.symm ▸ h⟩
  · exact ⟨ts, hw.symm ▸ h.congr rfl rfl rfl⟩
  · exact ⟨ts ++ [.scalar s], hw.symm ▸ h.scalar s hf⟩

theorem listBegin : ∃ us, Whole w.androidLogWriteListBegin.2 us := by
  cases hw : w.androidLogWriteListBegin with
  | mk res w' =>
    cases res with
    | ok n =>
      obtain ⟨-, hf, rfl⟩ := writeListBegin_ok hw
      refine ⟨ts ++ [.list 0], h.append (t := .list 0) hf rfl rfl ?_⟩
      intro d hd hne
      by_cases hde : d = w.listNestDepth + 1
      · right
        change update w.list (w.listNestDepth + 1) (w.pos + 1) d ∈ _
        rw [hde, update_self]
        exact mem_cons_self
      · left
        exact update_of_ne hde _ _
    | error e =>
      have hs : w'.storage = w.storage ∧ w'.pos = w.pos ∧ w'.list = w.list := by
        rw [androidLogWriteListBegin] at hw
        simp only at hw
        split_ifs at hw
        · cases hw
          exact ⟨rfl, rfl, rfl⟩
        · cases hw
          exact ⟨rfl, rfl, rfl⟩
        · cases hw
          exact ⟨rfl, rfl, rfl⟩
        · cases hw
          exact ⟨rfl, rfl, rfl⟩
        · cases hw
      exact ⟨ts, h.congr hs.1 hs.2.1 hs.2.2⟩

theorem listEnd : ∃ us, Whole w.androidLogWriteListEnd.2 us := by
  rw [androidLogWriteListEnd]
  split_ifs with hd hz hn
  · exact ⟨ts, h.congr rfl rfl rfl⟩
  · exact ⟨ts, h.congr rfl rfl rfl⟩
  · exact ⟨ts, h.congr rfl rfl rfl⟩
  · have hmem := h.lists w.listNestDepth hz hn
    obtain ⟨us, hus, hc, hl⟩ := Token.holds_store_counter (.ofNat (w.count w.listNestDepth)) h.body hmem
    refine ⟨us, ?_, hus, ?_, h.fits, ?_⟩
    · exact (store_singleton_of_ne (by omega)).trans h.head
    · rw [hl]
      exact h.pos
    · rw [hc]
      exact h.lists

theorem sealHead : Whole w.sealHead ts := by
  rw [Writer.sealHead]
  split_ifs
  · exact h
  · have ho : ∀ {i}, i ≠ 1 → store w.storage 1 [.ofNat (w.count 0)] i = w.storage i := fun hi => store_singleton_of_ne hi
    constructor
    · exact (ho (by decide)).trans h.head
    · exact h.body.congr fun i hi _ => ho (by omega)
    · exact h.pos
    · exact h.fits
    · exact h.lists

theorem exec {c : Call} (hs : c.Short) (hc : ¬Cut w c) : ∃ us, Whole (c.exec w).2 us := by
  cases c with
  | listBegin => exact h.listBegin
  | listEnd => exact h.listEnd
  | write s => exact h.write hs hc

end

theorem invariant : system.Invariant fun w => ∃ ts, Whole w ts where
  init := by
    rintro w rfl
    refine ⟨[], ?_, trivial, rfl, by decide, ?_⟩
    · exact store_singleton (fun _ => 0) 0 eventTypeList
    · intro d hd hne
      change update (fun _ => 0) 0 1 d ≠ 0 at hne
      rw [update_of_ne hd] at hne
      exact absurd rfl hne
  step := by
    rintro w w' ⟨ts, h⟩ hs
    cases hs with
    | call c hs hc => exact h.exec hs hc
    | listBuffer => exact ⟨ts, h.sealHead⟩

end Whole

def Writer.withStorage (m : ℕ → UInt8) : Writer := { w with storage := m }

section Stores

variable {w : Writer} {m : ℕ → UInt8} {i : ℕ}

theorem store_inside_storage {p : ℕ} {bytes : List UInt8} (h : p + bytes.length ≤ maxEventPayload)
    (hi : loggerEntryMaxPayload ≤ i) : store m p bytes i = m i := by
  apply store_of_le
  have hlt : maxEventPayload ≤ loggerEntryMaxPayload := by decide
  omega

theorem writeFixed_inside (type : UInt8) (data : List UInt8) (hi : loggerEntryMaxPayload ≤ i) :
    ((w.withStorage m).writeFixed type data).2.storage i = m i := by
  rw [writeFixed]
  split_ifs with ho hf
  · rfl
  · rfl
  · apply store_inside_storage _ hi
    rw [length_cons, add_comm data.length]
    exact le_of_not_gt hf

theorem writeString_inside {value : List UInt8} {maxlen : ℕ} (hpos : w.pos ≤ maxEventPayload)
    (hs : (text value maxlen).length < 2 ^ 31) (hi : loggerEntryMaxPayload ≤ i) :
    ((w.withStorage m).androidLogWriteString8Len value maxlen).2.storage i = m i := by
  by_cases ho : w.overflow
  · rw [androidLogWriteString8Len, if_pos (show (w.withStorage m).overflow from ho)]
    rfl
  · have hoff : (w.withStorage m).overflow = false := Bool.eq_false_iff.mpr ho
    by_cases hf : maxEventPayload < w.pos + (5 + (text value maxlen).length)
    · rw [writeString_of_lt (show (w.withStorage m).pos ≤ _ from hpos) hoff hs hf]
      split_ifs with hfull
      · rfl
      · apply store_inside_storage _ hi
        simp only [cons_append, length_cons, length_append, length_leBytes, length_take]
        omega
    · have hle : (w.withStorage m).pos + (Scalar.string value maxlen).encode.length ≤ maxEventPayload := by
        rw [Scalar.length_encode_string]
        exact not_lt.mp hf
      rw [writeString_of_fits hoff hle]
      exact store_inside_storage hle hi

theorem exec_inside {ts : List Token} {c : Call} (h : Whole w ts) (hs : c.Short) (hi : loggerEntryMaxPayload ≤ i) :
    (c.exec (w.withStorage m)).2.storage i = m i := by
  cases c with
  | listBegin =>
    change (w.withStorage m).androidLogWriteListBegin.2.storage i = m i
    rw [androidLogWriteListBegin]
    split_ifs with hd hf
    · rfl
    · rfl
    · simp only
      split_ifs
      · rfl
      · rfl
      · exact store_inside_storage (le_of_not_gt hf) hi
  | listEnd =>
    change (w.withStorage m).androidLogWriteListEnd.2.storage i = m i
    rw [androidLogWriteListEnd]
    split_ifs with hde hz hn
    · rfl
    · rfl
    · rfl
    · have hp := Token.lt_of_mem_counters (h.lists w.listNestDepth hz hn)
      have hpos := h.pos
      have hf := h.fits
      apply store_inside_storage _ hi
      change w.list w.listNestDepth + 1 ≤ maxEventPayload
      omega
  | write s =>
    cases s with
    | int32 value | int64 value | float32 value => exact writeFixed_inside _ _ hi
    | string value maxlen => exact writeString_inside h.fits hs hi

end Stores

variable {w} in
/-- The buffer is made of whole tokens. -/
theorem Whole.listBuffer {ts : List Token} {bytes : List UInt8} (hw : Whole w ts)
    (hb : w.androidLogWriteListBuffer = .ok bytes) :
    bytes = load w.sealHead.storage (if w.count 0 ≤ 1 then 2 else 0) (w.pos - if w.count 0 ≤ 1 then 2 else 0) ∧
      ∃ ts, bytes = Token.encodeAll ts := by
  have hse := hw.sealHead
  have hpos := hw.pos
  by_cases hd : w.listNestDepth ≠ 0
  · rw [androidLogWriteListBuffer, if_pos hd] at hb
    cases hb
  · have hs : w.sealHead.storage = store w.storage 1 [.ofNat (w.count 0)] := by
      rw [Writer.sealHead, if_neg hd]
    have hbo := hse.body
    rw [androidLogWriteListBuffer, if_neg hd] at hb
    simp only [← hs] at hb
    by_cases hone : w.count 0 ≤ 1
    · rw [if_pos hone] at hb ⊢
      cases hb
      refine ⟨rfl, ts, ?_⟩
      have hl := hbo.load_eq
      rwa [show (Token.encodeAll ts).length = w.pos - 2 by omega] at hl
    · rw [if_neg hone] at hb ⊢
      cases hb
      refine ⟨rfl, .list (.ofNat (w.count 0)) :: ts, ?_⟩
      have hall : Holds w.sealHead.storage 0 (Token.encodeAll (.list (.ofNat (w.count 0)) :: ts)) := by
        rw [Token.encodeAll_cons, holds_append]
        refine ⟨⟨hse.head, ?_, trivial⟩, hbo⟩
        rw [hs]
        exact store_singleton _ _ _
      have hl := hall.load_eq
      have hle : (Token.encodeAll (.list (.ofNat (w.count 0)) :: ts)).length = w.pos := by
        rw [Token.encodeAll_cons, length_append]
        change 2 + _ = w.pos
        omega
      rwa [hle] at hl

end Bionic.EventList
