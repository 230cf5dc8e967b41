import Bionic.Lib.LittleEndian
import Bionic.Logd.Element
import Mathlib.Data.List.Forall2
import Mathlib.Data.List.Induction

namespace Bionic.Logd.Chatty

open Lib Function List Option LogBufferElement

inductive MatchType where
  | different
  | same
  | sameLiblog
  deriving DecidableEq, Repr

def nsPerSec : ℕ := 1000000000

def liblogLogTag : UInt32 := 1006

def sizeofEvent : ℕ := 9

def avc : List UInt8 := [41, 58, 32, 97, 118, 99, 58, 32]

def strnstr (needle : List UInt8) : List UInt8 → Option (List UInt8)
  | [] => none
  | c :: s => if (c :: s).take needle.length = needle then some (c :: s) else strnstr needle s

/-- Whether two messages are the same audit message but for its sequence number. -/
def auditIdentical (binary : Bool) (msgl msgr : List UInt8) : Bool :=
  let events := binary && decide (sizeofEvent < msgl.length) && decide (sizeofEvent < msgr.length)
  if events && decide (msgl.take (sizeofEvent - 4) ≠ msgr.take (sizeofEvent - 4)) then false
  else
    match strnstr avc (if events then msgl.drop sizeofEvent else msgl),
        strnstr avc (if events then msgr.drop sizeofEvent else msgr) with
    | some avcl, some avcr =>
      decide (avcl.length = avcr.length) && decide (avcl.drop avc.length = avcr.drop avc.length)
    | _, _ => false

def identical (elem last : LogBufferElement) : MatchType :=
  match elem.msg, last.msg with
  | some msgl, some msgr =>
    if msgl.length = 0 ∨ msgr.length = 0 then .different
    else if elem.uid ≠ last.uid ∨ elem.pid ≠ last.pid ∨ elem.tid ≠ last.tid then .different
    else if elem.realtime.nsec > last.realtime.nsec + 60 * nsPerSec then .different
    else if msgl = msgr then .same
    else if msgl.length = msgr.length ∧ elem.logId = .events ∧ msgl.length = sizeofEvent ∧
        msgl.take (sizeofEvent - 4) = msgr.take (sizeofEvent - 4) ∧ elem.getTag = liblogLogTag then .sameLiblog
    else if auditIdentical last.logId.isBinary msgl msgr then .same
    else .different
  | _, _ => .different

variable (bytes : List UInt8) {e elem last : LogBufferElement} {m : List UInt8}

def eventData : ℤ := (BitVec.ofNat 32 (leValue (bytes.drop 5))).toInt

def setEventData (data : ℤ) : List UInt8 :=
  bytes.take 5 ++ leBytes 4 (BitVec.ofInt 32 data).toNat

theorem length_setEventData (data : ℤ) : (setEventData bytes data).length < 65536 := by
  rw [setEventData, length_append, length_leBytes, length_take]
  omega

def withEventData (elem : LogBufferElement) (data : ℤ) : LogBufferElement :=
  match elem.body with
  | .message m => { elem with body := .message ⟨setEventData m.bytes data, length_setEventData m.bytes data⟩ }
  | .dropped .. => elem

/-- The list with what `LogInternal` holds back of each log: the last message and, while messages repeat, the
element that counts the ones left out. -/
structure Buffer where
  logs : List LogBufferElement
  lastLoggedElements : LogId → Option LogBufferElement
  duplicateElements : LogId → Option LogBufferElement

theorem succ_drops_ne_zero {n : ℕ} (h : n < 65535) : UInt16.ofNat (n + 1) ≠ 0 := by
  intro h0
  have hv := congrArg UInt16.toNat h0
  rw [UInt16.toNat_ofNat', UInt16.toNat_zero] at hv
  omega

namespace Buffer

variable (s : Buffer) (id : LogId)

def init : Buffer := ⟨[], fun _ => none, fun _ => none⟩

/-- `SimpleLogBuffer::LogInternal`, without the pruning that may follow. -/
@[simp] def append (elem : LogBufferElement) : Buffer := { s with logs := s.logs ++ [elem] }

@[simp] def setLast (elem : LogBufferElement) : Buffer :=
  { s with lastLoggedElements := update s.lastLoggedElements id (some elem) }

@[simp] def setDuplicate (elem : Option LogBufferElement) : Buffer :=
  { s with duplicateElements := update s.duplicateElements id elem }

@[simp] def logDuplicate (duplicate currentLast : LogBufferElement) : Buffer :=
  ((if duplicate.droppedCount > 0 then s.append duplicate else s).setDuplicate id none).append currentLast

@[simp] def dropLast (duplicate currentLast : LogBufferElement) : Buffer :=
  if h : duplicate.droppedCount < 65535 then
    s.setDuplicate id (some (currentLast.setDropped (UInt16.ofNat (duplicate.droppedCount + 1)) (succ_drops_ne_zero h)))
  else
    (s.append duplicate).setDuplicate id (some (currentLast.setDropped (UInt16.ofNat 1) (by decide)))

def sumLast (currentLast elem : LogBufferElement) : Buffer :=
  let total := eventData (currentLast.msg.getD []) + eventData (elem.msg.getD [])
  if total > 2147483647 then (s.append currentLast).setLast id elem
  else s.setLast id (withEventData elem total)

@[simp] def logInternal (elem : LogBufferElement) : Buffer :=
  let id := elem.logId
  if id = .security then s.append elem
  else
    match s.lastLoggedElements id with
    | none => (s.setLast id elem).append elem
    | some currentLast =>
      match identical elem currentLast, s.duplicateElements id with
      | .different, some duplicate => ((s.logDuplicate id duplicate currentLast).setLast id elem).append elem
      | .different, none => (s.setLast id elem).append elem
      | _, none => (s.setDuplicate id (some currentLast)).setLast id elem
      | .sameLiblog, some _ => s.sumLast id currentLast elem
      | .same, some duplicate => (s.dropLast id duplicate currentLast).setLast id elem

def pending : List LogBufferElement :=
  match s.duplicateElements id with
  | none => []
  | some duplicate =>
    (if duplicate.droppedCount > 0 then [duplicate] else []) ++ (s.lastLoggedElements id).toList

end Buffer

theorem identical_same (h : identical elem last = .same) :
    ∃ msgl msgr, elem.msg = some msgl ∧ last.msg = some msgr ∧
      (msgl = msgr ∨ auditIdentical last.logId.isBinary msgl msgr) := by
  rw [identical] at h
  split at h
  next msgl msgr hl hr =>
    refine ⟨msgl, msgr, hl, hr, ?_⟩
    split_ifs at h with h₁ h₂ h₃ h₄ h₅ h₆
    · exact Or.inl h₄
    · exact Or.inr h₆
  · cases h

theorem identical_ne_sameLiblog (h : elem.logId = .events → elem.getTag ≠ liblogLogTag)
    (last : LogBufferElement) : identical elem last ≠ .sameLiblog := by
  intro hm
  rw [identical] at hm
  split at hm
  next msgl msgr hl hr =>
    split_ifs at hm with h₁ h₂ h₃ h₄ h₅ h₆
    exact h h₅.2.1 h₅.2.2.2.2
  · cases hm

def copies (n : ℕ) : Option (List UInt8) → List (List UInt8)
  | none => []
  | some m => replicate n m

/-- A list of elements as messages: an element that stands for dropped ones is as many copies of the
next message, which is `next` at the end of the list. -/
def expandTo (next : Option (List UInt8)) : List LogBufferElement → List (List UInt8)
  | [] => []
  | e :: es =>
    (match e.msg with
      | some m => [m]
      | none => copies e.droppedCount ((es.findSome? msg).or next)) ++ expandTo next es

def expand (es : List LogBufferElement) : List (List UInt8) := expandTo none es

theorem expandTo_append (next : Option (List UInt8)) (xs ys : List LogBufferElement) :
    expandTo next (xs ++ ys) = expandTo ((ys.findSome? msg).or next) xs ++ expandTo next ys := by
  induction xs with
  | nil => rfl
  | cons e es ih =>
    rw [cons_append, expandTo, expandTo, ih, findSome?_append, Option.or_assoc, append_assoc]

theorem expandTo_message (h : e.msg = some m) (next : Option (List UInt8))
    (xs : List LogBufferElement) : expandTo next (xs ++ [e]) = expandTo (some m) xs ++ [m] := by
  simp [expandTo_append, expandTo, h]

theorem expandTo_dropped (h : e.msg = none) (m : List UInt8) (xs : List LogBufferElement) :
    expandTo (some m) (xs ++ [e]) = expandTo (some m) xs ++ replicate e.droppedCount m := by
  simp [expandTo_append, expandTo, h, copies]

section Related

variable {R : List UInt8 → List UInt8 → Prop} {elems : List LogBufferElement} {m' : List UInt8}

theorem forall₂_copies (hr : ∀ m, R m m) (h : R m m') (n : ℕ) (o : Option (List UInt8)) :
    Forall₂ R (copies n (o.or (some m))) (copies n (o.or (some m'))) := by
  cases o with
  | none => exact forall₂_iff_get.mpr ⟨by simp [copies], by simp [copies, h]⟩
  | some a => exact forall₂_same.mpr (fun x _ => hr x)

theorem forall₂_expandTo (hr : ∀ m, R m m) (h : R m m') (xs : List LogBufferElement) :
    Forall₂ R (expandTo (some m) xs) (expandTo (some m') xs) := by
  induction xs with
  | nil => exact Forall₂.nil
  | cons e es ih =>
    apply rel_append _ ih
    cases he : e.msg with
    | none => exact forall₂_copies hr h _ _
    | some a => exact Forall₂.cons (hr a) Forall₂.nil

theorem forall₂_trans (htr : ∀ a b c, R a b → R b c → R a c) {xs ys zs : List (List UInt8)}
    (h : Forall₂ R xs ys) (h' : Forall₂ R ys zs) : Forall₂ R xs zs := by
  induction h generalizing zs with
  | nil => exact h'
  | cons hab _ ih =>
    cases h' with
    | cons hbc ht => exact Forall₂.cons (htr _ _ _ hab hbc) (ih ht)

theorem forall₂_concat (hr : ∀ m, R m m) {xs ys : List (List UInt8)} (h : Forall₂ R xs ys) (m : List UInt8) :
    Forall₂ R (xs ++ [m]) (ys ++ [m]) :=
  rel_append h (Forall₂.cons (hr m) Forall₂.nil)

/-- What the buffer knows of the messages given to it, when each is to be found again up to `R`: all
are in the list, or the last ones are held back. -/
inductive Recorded (R : List UInt8 → List UInt8 → Prop) (id : LogId) (es : List LogBufferElement) (s : Buffer) : Prop
  | plain (hdup : s.duplicateElements id = none)
      (hlast : ∀ last, s.lastLoggedElements id = some last → last ∈ es)
      (hclosed : ∀ m, expandTo (some m) s.logs = expandTo none s.logs)
      (hall : Forall₂ R (es.filterMap msg) (expandTo none s.logs))
  | held (hsec : id ≠ .security) (last duplicate : LogBufferElement) (m : List UInt8)
      (hdup : s.duplicateElements id = some duplicate) (hlast : s.lastLoggedElements id = some last)
      (hmem : last ∈ es) (hmsg : last.msg = some m)
      (hall : Forall₂ R (es.filterMap msg)
        (expandTo (some m) s.logs ++ replicate duplicate.droppedCount m ++ [m]))

theorem msg_of_dropped (h : e.droppedCount > 0) : e.msg = none := by
  cases hb : e.body with
  | message m => simp [droppedCount, hb] at h
  | dropped tag count h => simp [msg, hb]

theorem droppedCount_of_msg (h : e.msg = some m) : e.droppedCount = 0 := by
  cases hb : e.body with
  | message m => simp [droppedCount, hb]
  | dropped tag count h' => simp [msg, hb] at h

namespace Recorded

variable {id : LogId} {es : List LogBufferElement} {s : Buffer} {elem duplicate : LogBufferElement} {m : List UInt8}

theorem append (hr : ∀ m, R m m) (hm : elem.msg = some m) (hdup : s.duplicateElements id = none)
    (hc : ∀ m, expandTo (some m) s.logs = expandTo none s.logs)
    (hall : Forall₂ R (es.filterMap msg) (expandTo none s.logs))
    {s' : Buffer} (hl : s'.logs = s.logs ++ [elem]) (hdup' : s'.duplicateElements id = s.duplicateElements id)
    (hla' : ∀ last, s'.lastLoggedElements id = some last → last ∈ es ++ [elem]) :
    Recorded R id (es ++ [elem]) s' := by
  apply Recorded.plain
  · rw [hdup', hdup]
  · exact hla'
  · intro m'
    rw [hl, expandTo_message hm, expandTo_message hm]
  · rw [hl, expandTo_message hm, hc]
    simpa [hm] using forall₂_concat hr hall m

theorem logDuplicate (hmsg : last.msg = some m) (hall : Forall₂ R (es.filterMap msg)
      (expandTo (some m) s.logs ++ replicate duplicate.droppedCount m ++ [m])) (id : LogId) :
    (∀ m', expandTo (some m') (s.logDuplicate id duplicate last).logs =
      expandTo none (s.logDuplicate id duplicate last).logs) ∧
    Forall₂ R (es.filterMap msg) (expandTo none (s.logDuplicate id duplicate last).logs) := by
  by_cases hd : duplicate.droppedCount > 0
  · have hl : (s.logDuplicate id duplicate last).logs = s.logs ++ [duplicate] ++ [last] := by
      simp [hd]
    rw [hl, expandTo_message hmsg, expandTo_dropped (msg_of_dropped hd)]
    refine ⟨?_, hall⟩
    intro m'
    rw [expandTo_message hmsg, expandTo_dropped (msg_of_dropped hd)]
  · have hl : (s.logDuplicate id duplicate last).logs = s.logs ++ [last] := by
      simp [hd]
    have hz : duplicate.droppedCount = 0 := Nat.eq_zero_of_not_pos hd
    rw [hz, replicate_zero, append_nil] at hall
    rw [hl, expandTo_message hmsg]
    refine ⟨?_, hall⟩
    intro m'
    rw [expandTo_message hmsg]

theorem dropLast (hr : ∀ m, R m m) (ht : ∀ a b c, R a b → R b c → R a c) (hsec : id ≠ .security)
    {m₀ : List UInt8} (hm : elem.msg = some m) (hR : R m₀ m)
    (hall : Forall₂ R (es.filterMap msg)
      (expandTo (some m₀) s.logs ++ replicate duplicate.droppedCount m₀ ++ [m₀])) :
    Recorded R id (es ++ [elem]) ((s.dropLast id duplicate last).setLast id elem) := by
  have hmo : Forall₂ R ((es ++ [elem]).filterMap msg)
      (expandTo (some m) s.logs ++ replicate (duplicate.droppedCount + 1) m ++ [m]) := by
    rw [replicate_succ', ← append_assoc]
    have hs := rel_append (rel_append (forall₂_expandTo hr hR s.logs)
      (forall₂_copies hr hR duplicate.droppedCount none)) (Forall₂.cons hR Forall₂.nil)
    have hc := forall₂_trans ht hall hs
    simpa [hm, copies] using forall₂_concat hr hc m
  by_cases hd : duplicate.droppedCount < 65535
  · apply Recorded.held hsec elem (last.setDropped (UInt16.ofNat (duplicate.droppedCount + 1)) (succ_drops_ne_zero hd)) m
    · simp [hd]
    · simp
    · exact mem_concat_self
    · exact hm
    · rw [droppedCount_setDropped, UInt16.toNat_ofNat', Nat.mod_eq_of_lt (by omega)]
      simpa [hd] using hmo
  · have hf : duplicate.droppedCount > 0 := by omega
    apply Recorded.held hsec elem (last.setDropped (UInt16.ofNat 1) (by decide)) m
    · simp [hd]
    · simp
    · exact mem_concat_self
    · exact hm
    · have hl : ((s.dropLast id duplicate last).setLast id elem).logs = s.logs ++ [duplicate] := by
        simp [hd]
      rw [hl, expandTo_dropped (msg_of_dropped hf)]
      rw [replicate_succ', ← append_assoc] at hmo
      exact hmo

theorem logInternal (hre : ∀ m, R m m) (ht : ∀ a b c, R a b → R b c → R a c) (h : Recorded R id es s)
    (hid : elem.logId = id) (hm : elem.msg = some m) (hlib : elem.logId = .events → elem.getTag ≠ liblogLogTag)
    (hsa : ∀ last ∈ es, ∀ m₀, last.msg = some m₀ → identical elem last = .same → R m₀ m) :
    Recorded R id (es ++ [elem]) (s.logInternal elem) := by
  have he : elem ∈ es ++ [elem] := mem_concat_self
  have hma := identical_ne_sameLiblog hlib
  subst hid
  cases h with
  | plain hdup hla hc hall =>
    by_cases hsec : elem.logId = .security
    · have hs : s.logInternal elem = s.append elem := by simp [hsec]
      rw [hs]
      exact append hre hm hdup hc hall rfl rfl (fun last hl => mem_append_left _ (hla last hl))
    · have hnew : ∀ last, ((s.setLast elem.logId elem).append elem).lastLoggedElements elem.logId = some last →
          last ∈ es ++ [elem] := by
        intro last hl
        simp only [Buffer.setLast, Buffer.append, update_self, some.injEq] at hl
        exact hl ▸ he
      cases hl : s.lastLoggedElements elem.logId with
      | none =>
        have hs : s.logInternal elem = (s.setLast elem.logId elem).append elem := by
          simp [hsec, hl]
        rw [hs]
        exact append hre hm hdup hc hall rfl rfl hnew
      | some last =>
        cases hi : identical elem last with
        | different =>
          have hs : s.logInternal elem = (s.setLast elem.logId elem).append elem := by
            simp [hsec, hl, hi, hdup]
          rw [hs]
          exact append hre hm hdup hc hall rfl rfl hnew
        | same =>
          have hs : s.logInternal elem = (s.setDuplicate elem.logId (some last)).setLast elem.logId elem := by
            simp [hsec, hl, hi, hdup]
          obtain ⟨msgl, msgr, -, hr, -⟩ := identical_same hi
          rw [hs]
          apply Recorded.held hsec elem last m
          · simp
          · simp
          · exact he
          · exact hm
          · rw [droppedCount_of_msg hr, replicate_zero, append_nil]
            simpa [hm, hc] using forall₂_concat hre hall m
        | sameLiblog => exact absurd hi (hma last)
  | held hsec last duplicate m₀ hdup hl hmem hmsg hall =>
    cases hi : identical elem last with
    | different =>
      have hs : s.logInternal elem =
          ((s.logDuplicate elem.logId duplicate last).setLast elem.logId elem).append elem := by
        simp [hsec, hl, hi, hdup]
      have hlo := logDuplicate (s := s) hmsg hall elem.logId
      rw [hs]
      refine append (s := s.logDuplicate elem.logId duplicate last) hre hm ?_ hlo.1 hlo.2 rfl rfl ?_
      · simp
      · intro last' hl'
        simp only [Buffer.setLast, Buffer.append, update_self, some.injEq] at hl'
        exact hl' ▸ he
    | same =>
      have hs : s.logInternal elem = (s.dropLast elem.logId duplicate last).setLast elem.logId elem := by
        simp [hsec, hl, hi, hdup]
      rw [hs]
      exact dropLast hre ht hsec hm (hsa last hmem m₀ hmsg hi) hall
    | sameLiblog => exact absurd hi (hma last)

theorem run (hr : ∀ m, R m m) (ht : ∀ a b c, R a b → R b c → R a c)
    (hid : ∀ e ∈ elems, e.logId = id) (hm : ∀ e ∈ elems, e.msg.isSome)
    (hlib : ∀ e ∈ elems, e.logId = .events → e.getTag ≠ liblogLogTag)
    (hs : ∀ last ∈ elems, ∀ e ∈ elems, ∀ m₀ m, last.msg = some m₀ → e.msg = some m →
      identical e last = .same → R m₀ m) :
    Recorded R id elems (elems.foldl Buffer.logInternal Buffer.init) := by
  induction elems using reverseRecOn with
  | nil =>
    apply Recorded.plain rfl
    · intro last hl
      cases hl
    · intro m
      rfl
    · exact Forall₂.nil
  | append_singleton es elem ih =>
    have hel : elem ∈ es ++ [elem] := mem_concat_self
    have hes : ∀ e ∈ es, e ∈ es ++ [elem] := fun e he => mem_append_left _ he
    obtain ⟨m, hmsg⟩ := isSome_iff_exists.mp (hm elem hel)
    have hrec := ih (fun e he => hid e (hes e he)) (fun e he => hm e (hes e he)) (fun e he => hlib e (hes e he))
      (fun last hl e he => hs last (hes last hl) e (hes e he))
    rw [foldl_append]
    apply hrec.logInternal hr ht (hid elem hel) hmsg (hlib elem hel)
    intro last hl m₀ hm₀ hi
    exact hs last (hes last hl) elem hel m₀ m hm₀ hmsg hi

theorem expand_pending (h : Recorded R id es s) : Forall₂ R (es.filterMap msg) (expand (s.logs ++ s.pending id)) := by
  cases h with
  | plain hdup hla hc hall =>
    have hp : s.pending id = [] := by simp [Buffer.pending, hdup]
    rw [hp, append_nil]
    exact hall
  | held hsec last duplicate m hdup hl hmem hmsg hall =>
    have hlo := (logDuplicate (s := s) hmsg hall id).2
    have hlg : (s.logDuplicate id duplicate last).logs = s.logs ++ s.pending id := by
      by_cases hd : duplicate.droppedCount > 0
      all_goals simp [Buffer.pending, hdup, hl, hd]
    rw [hlg] at hlo
    exact hlo

end Recorded

theorem expand_related (hr : ∀ m, R m m) (ht : ∀ a b c, R a b → R b c → R a c) {id : LogId}
    (hid : ∀ e ∈ elems, e.logId = id) (hm : ∀ e ∈ elems, e.msg.isSome)
    (hlib : ∀ e ∈ elems, e.logId = .events → e.getTag ≠ liblogLogTag)
    (hR : ∀ m ∈ elems.filterMap msg, ∀ m' ∈ elems.filterMap msg,
      auditIdentical id.isBinary m' m → R m m') :
    Forall₂ R (elems.filterMap msg)
      (expand ((elems.foldl Buffer.logInternal Buffer.init).logs ++
        (elems.foldl Buffer.logInternal Buffer.init).pending id)) := by
  apply Recorded.expand_pending
  apply Recorded.run hr ht hid hm hlib
  intro last hl e he m₀ m hm₀ hmsg hi
  obtain ⟨msgl, msgr, hle, hre, h⟩ := identical_same hi
  rw [hmsg, some.injEq] at hle
  rw [hm₀, some.injEq] at hre
  subst hle hre
  rw [hid last hl] at h
  cases h with
  | inl h => exact h ▸ hr m₀
  | inr h =>
    exact hR m₀ (mem_filterMap.mpr ⟨last, hl, hm₀⟩) m (mem_filterMap.mpr ⟨e, he, hmsg⟩) h

end Related

/-- The messages of one log are found again in the list and what is held back: each as itself, or as one that a
chain of audit matches joins it to. -/
theorem expand_logged (id : LogId) (elems : List LogBufferElement) (hid : ∀ e ∈ elems, e.logId = id)
    (hm : ∀ e ∈ elems, e.msg.isSome = true) (hlib : ∀ e ∈ elems, e.logId = .events → e.getTag ≠ liblogLogTag) :
    Forall₂ (Relation.ReflTransGen fun m m' => auditIdentical id.isBinary m' m = true)
      (elems.filterMap msg)
      (expand ((elems.foldl Buffer.logInternal Buffer.init).logs ++
        (elems.foldl Buffer.logInternal Buffer.init).pending id)) ∧
    ((∀ m ∈ elems.filterMap msg, ∀ m' ∈ elems.filterMap msg,
        auditIdentical id.isBinary m' m = true → m = m') →
      expand ((elems.foldl Buffer.logInternal Buffer.init).logs ++
        (elems.foldl Buffer.logInternal Buffer.init).pending id) = elems.filterMap msg) := by
  constructor
  · apply expand_related (fun m => Relation.ReflTransGen.refl) (fun a b c => Relation.ReflTransGen.trans) hid hm hlib
    intro m _ m' _ h
    exact Relation.ReflTransGen.single h
  · intro he
    have hall := expand_related (R := Eq) (fun m => rfl) (fun a b c => Eq.trans) hid hm hlib he
    rw [forall₂_eq_eq_eq] at hall
    exact hall.symm

@[simp] def mainMessage (sequence : ℕ) (m : Msg) : LogBufferElement :=
  ⟨1000, 5, 5, sequence, ⟨1, 0⟩, .main, .message m⟩

def thrice : List LogBufferElement :=
  [mainMessage 1 ⟨[4, 65], by decide⟩, mainMessage 2 ⟨[4, 65], by decide⟩, mainMessage 3 ⟨[4, 65], by decide⟩]

theorem expand_logged_thrice :
    expand ((thrice.foldl Buffer.logInternal Buffer.init).logs ++
      (thrice.foldl Buffer.logInternal Buffer.init).pending .main) = thrice.filterMap msg :=
  (expand_logged .main thrice (by simp [thrice]) (by simp [thrice, msg])
    (by simp [thrice])).2 (by simp [thrice, msg])

def audits : List LogBufferElement :=
  [mainMessage 1 ⟨[49] ++ avc ++ [120], by decide⟩, mainMessage 2 ⟨[50] ++ avc ++ [120], by decide⟩,
    mainMessage 3 ⟨[51] ++ avc ++ [120], by decide⟩]

/-- Of three equal messages the list and the last message hold two, and of three audit messages the
second is found as the third. -/
theorem thrice_audits_not_reproduced :
    expand ((thrice.foldl Buffer.logInternal Buffer.init).logs ++
      ((thrice.foldl Buffer.logInternal Buffer.init).lastLoggedElements .main).toList) ≠
        thrice.filterMap msg ∧
    expand ((audits.foldl Buffer.logInternal Buffer.init).logs ++
      (audits.foldl Buffer.logInternal Buffer.init).pending .main) ≠ audits.filterMap msg := by
  constructor
  · decide
  · decide

end Bionic.Logd.Chatty
