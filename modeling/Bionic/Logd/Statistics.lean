import Bionic.Lib.Tally
import Bionic.Logd.Element
import Mathlib.Algebra.Order.Ring.Int

namespace Bionic.Logd

open Function

structure LogStatisticsElement where
  uid : UInt32
  pid : UInt32
  tid : UInt32
  tag : UInt32
  msg : Option (List UInt8)
  msgLen : ℕ
  droppedCount : ℕ
  logId : LogId
  totalLen : ℕ

/-- The size of an element in the list: the packed record and the list's two pointers, up to a
multiple of eight. -/
def elementInListSize : ℕ := (40 + 2 * 8 + 8 - 1) / 8 * 8

def LogBufferElement.toLogStatisticsElement (e : LogBufferElement) : LogStatisticsElement where
  uid := e.uid
  pid := e.pid
  tid := e.tid
  tag := e.getTag
  msg := e.msg
  msgLen := e.msgLen
  droppedCount := e.droppedCount
  logId := e.logId
  totalLen := (elementInListSize + e.msgLen) % 65536

/-- An entry of a table of sizes. The counters are of type size_t; here an underflow shows as a
negative value. -/
structure EntryBase where
  size : ℤ
  deriving DecidableEq, Repr

structure EntryBaseDropped where
  size : ℤ
  dropped : ℤ
  deriving DecidableEq, Repr

/-- What `LogHashtable` asks of its entries. `subtract` also says whether the entry is spent. -/
class TableEntry (β : Type) where
  ofElement : LogStatisticsElement → β
  add : β → LogStatisticsElement → β
  subtract : β → LogStatisticsElement → β × Bool
  drop : β → LogStatisticsElement → β
  erase : β → LogStatisticsElement → β

instance : TableEntry EntryBase where
  ofElement e := ⟨e.totalLen⟩
  add b e := ⟨b.size + e.totalLen⟩
  subtract b e := (⟨b.size - e.totalLen⟩, b.size - e.totalLen = 0)
  drop b e := ⟨b.size - e.msgLen⟩
  erase b e := ⟨b.size - e.totalLen⟩

instance : TableEntry EntryBaseDropped where
  ofElement e := ⟨e.totalLen, e.droppedCount⟩
  add b e := ⟨b.size + e.totalLen, b.dropped + e.droppedCount⟩
  subtract b e :=
    (⟨b.size - e.totalLen, b.dropped - e.droppedCount⟩,
      b.size - e.totalLen = 0 ∧ b.dropped - e.droppedCount = 0)
  drop b e := ⟨b.size - e.msgLen, b.dropped + 1⟩
  erase b e := ⟨b.size - e.totalLen, b.dropped⟩

structure LogHashtable (κ β : Type) where
  find : κ → Option β

namespace LogHashtable

variable {κ β : Type} [DecidableEq κ] (t : LogHashtable κ β) (key : κ)

def empty : LogHashtable κ β := ⟨fun _ => none⟩

def insert (b : β) : LogHashtable κ β := ⟨update t.find key (some b)⟩

def remove : LogHashtable κ β := ⟨update t.find key none⟩

variable [TableEntry β] (t : LogHashtable κ β) (key : κ) (e : LogStatisticsElement)

def add : LogHashtable κ β :=
  match t.find key with
  | none => t.insert key (TableEntry.ofElement e)
  | some b => t.insert key (TableEntry.add b e)

def subtract : LogHashtable κ β :=
  match t.find key with
  | none => t
  | some b =>
    if (TableEntry.subtract b e).2 then t.remove key else t.insert key (TableEntry.subtract b e).1

def drop : LogHashtable κ β :=
  match t.find key with
  | none => t
  | some b => t.insert key (TableEntry.drop b e)

def erase : LogHashtable κ β :=
  match t.find key with
  | none => t
  | some b => t.insert key (TableEntry.erase b e)

end LogHashtable

abbrev DroppedTable : Type := LogHashtable UInt32 EntryBaseDropped

structure LogCounters where
  mSizes : LogId → ℤ
  mElements : LogId → ℤ
  mDroppedElements : LogId → ℤ

/-- `LogStatistics`, without its lifetime totals and time stamps. -/
structure LogStatistics extends LogCounters where
  uidTable : LogId → DroppedTable
  pidSystemTable : LogId → DroppedTable
  pidTable : DroppedTable
  tidTable : DroppedTable
  tagTable : DroppedTable
  securityTagTable : DroppedTable
  tagNameTable : LogHashtable (List UInt8) EntryBase
  enable : Bool
  trackTotalSize : Bool

def ascii (s : String) : List UInt8 := s.toList.map fun c => c.toNat.toUInt8

/-- `TagNameKey`, with the name table of the event tags as a parameter. -/
def tagNameKey (tagToName : UInt32 → Option (List UInt8)) (e : LogStatisticsElement) : List UInt8 :=
  if e.logId.isBinary then
    match if e.tag = 0 then none else tagToName e.tag with
    | some name => name
    | none => ascii "[" ++ ascii (toString e.tag.toNat) ++ ascii "]"
  else
    match e.msg with
    | none => ascii "chatty"
    | some msg =>
      match msg.tail.takeWhile (· ≠ 0) with
      | [] => ascii "<NULL>"
      | name => name

namespace LogStatistics

variable (tagToName : UInt32 → Option (List UInt8)) (s : LogStatistics) (element : LogStatisticsElement)
  (op : DroppedTable → UInt32 → LogStatisticsElement → DroppedTable)

def normalise : LogStatisticsElement :=
  if s.trackTotalSize then element else { element with totalLen := element.msgLen }

def count (id : LogId) (size elements droppedElements : ℤ) : LogStatistics :=
  { s with
    mSizes := update s.mSizes id (s.mSizes id + size)
    mElements := update s.mElements id (s.mElements id + elements)
    mDroppedElements := update s.mDroppedElements id (s.mDroppedElements id + droppedElements) }

def updateTables : LogStatistics :=
  let s := { s with
    uidTable := update s.uidTable element.logId (op (s.uidTable element.logId) element.uid element)
    pidSystemTable := if element.uid = aidSystem then
        update s.pidSystemTable element.logId (op (s.pidSystemTable element.logId) element.pid element)
      else s.pidSystemTable }
  if s.enable then
    { s with
      pidTable := op s.pidTable element.pid element
      tidTable := op s.tidTable element.tid element
      securityTagTable := if element.tag ≠ 0 ∧ element.logId = .security then
        op s.securityTagTable element.tag element else s.securityTagTable
      tagTable := if element.tag ≠ 0 ∧ element.logId ≠ .security then
        op s.tagTable element.tag element else s.tagTable }
  else s

def updateTagName (op : LogHashtable (List UInt8) EntryBase → List UInt8 → LogStatisticsElement →
      LogHashtable (List UInt8) EntryBase) : LogStatistics :=
  if s.enable then { s with tagNameTable := op s.tagNameTable (tagNameKey tagToName element) element } else s

def updateEntries (nameOp : LogHashtable (List UInt8) EntryBase → List UInt8 → LogStatisticsElement →
      LogHashtable (List UInt8) EntryBase) : LogStatistics :=
  if element.logId = .kernel then s
  else
    let s := s.updateTables element op
    if element.droppedCount = 0 then s.updateTagName tagToName element nameOp else s

def add : LogStatistics :=
  let element := s.normalise element
  let s := s.count element.logId element.totalLen 1 (if element.droppedCount ≠ 0 then 1 else 0)
  s.updateEntries tagToName element LogHashtable.add LogHashtable.add

def subtract : LogStatistics :=
  let element := s.normalise element
  let s := s.count element.logId (-element.totalLen) (-1) (if element.droppedCount ≠ 0 then -1 else 0)
  s.updateEntries tagToName element LogHashtable.subtract LogHashtable.subtract

/-- `Drop`, for an element that is about to become a dropped one. It does not normalise the element. -/
def drop : LogStatistics :=
  let s := s.count element.logId (-element.msgLen) 0 1
  (s.updateTables element LogHashtable.drop).updateTagName tagToName element LogHashtable.subtract

def erase : LogStatistics :=
  let element := if s.trackTotalSize then element else { element with totalLen := 0 }
  let s := s.count element.logId (-element.totalLen) (-1) (-1)
  s.updateTables element LogHashtable.erase

end LogStatistics

/-- An entry with a value in a group that adding and subtracting an element moves by its weight. An
entry is spent when its value is zero. -/
class MeasuredEntry (β : Type) (M : outParam Type) [AddCommGroup M] extends TableEntry β where
  val : β → M
  weight : LogStatisticsElement → M
  val_ofElement : ∀ e, val (ofElement e) = weight e
  val_add : ∀ b e, val (add b e) = val b + weight e
  val_subtract : ∀ b e, val (subtract b e).1 = val b - weight e
  spent_iff : ∀ b e, (subtract b e).2 ↔ val (subtract b e).1 = 0

instance : MeasuredEntry EntryBase ℤ where
  val b := b.size
  weight e := e.totalLen
  val_ofElement _ := rfl
  val_add _ _ := rfl
  val_subtract _ _ := rfl
  spent_iff _ _ := decide_eq_true_iff

instance : MeasuredEntry EntryBaseDropped (ℤ × ℤ) where
  val b := (b.size, b.dropped)
  weight e := (e.totalLen, e.droppedCount)
  val_ofElement _ := rfl
  val_add _ _ := rfl
  val_subtract _ _ := rfl
  spent_iff _ _ := decide_eq_true_iff.trans Prod.mk_eq_zero.symm

namespace LogHashtable

section Measured

variable {κ β M : Type} [AddCommGroup M] [MeasuredEntry β M] {t : LogHashtable κ β} {key : κ}

def val (t : LogHashtable κ β) (key : κ) : M :=
  match t.find key with
  | none => 0
  | some b => MeasuredEntry.val b

theorem val_some {b : β} (h : t.find key = some b) : t.val key = MeasuredEntry.val b := by
  rw [val, h]

theorem val_none (h : t.find key = none) : t.val key = 0 := by
  rw [val, h]

variable [DecidableEq κ] (t : LogHashtable κ β)

theorem val_insert (key key' : κ) (b : β) :
    (t.insert key b).val key' = if key = key' then MeasuredEntry.val b else t.val key' := by
  by_cases h : key = key'
  · subst h
    rw [if_pos rfl]
    exact val_some (update_self ..)
  · rw [if_neg h]
    simp only [val, insert, update_of_ne (Ne.symm h)]

theorem val_remove (key key' : κ) : (t.remove key).val key' = if key = key' then 0 else t.val key' := by
  by_cases h : key = key'
  · subst h
    rw [if_pos rfl]
    exact val_none (update_self ..)
  · rw [if_neg h]
    simp only [val, remove, update_of_ne (Ne.symm h)]

theorem val_add (key key' : κ) (e : LogStatisticsElement) :
    (t.add key e).val key' = (if key = key' then MeasuredEntry.weight β e else 0) + t.val key' := by
  rw [add]
  cases ht : t.find key with
  | none =>
    by_cases h : key = key'
    · subst h
      rw [val_insert, if_pos rfl, if_pos rfl, val_none ht, add_zero]
      exact MeasuredEntry.val_ofElement e
    · rw [val_insert, if_neg h, if_neg h, zero_add]
  | some b =>
    by_cases h : key = key'
    · subst h
      rw [val_insert, if_pos rfl, if_pos rfl, val_some ht, add_comm]
      exact MeasuredEntry.val_add b e
    · rw [val_insert, if_neg h, if_neg h, zero_add]

theorem val_subtract (key key' : κ) (e : LogStatisticsElement) (h0 : t.val key = 0 → MeasuredEntry.weight β e = 0) :
    (t.subtract key e).val key' = (if key = key' then -MeasuredEntry.weight β e else 0) + t.val key' := by
  rw [subtract]
  cases ht : t.find key with
  | none => rw [h0 (val_none ht), neg_zero, ite_self, zero_add]
  | some b =>
    have hval : MeasuredEntry.val (TableEntry.subtract b e).1 = -MeasuredEntry.weight β e + MeasuredEntry.val b := by
      rw [MeasuredEntry.val_subtract, sub_eq_neg_add]
    have hsp := MeasuredEntry.spent_iff b e
    by_cases h : key = key'
    · subst h
      rw [if_pos rfl, val_some ht, ← hval]
      by_cases hs : (TableEntry.subtract b e).2
      · simp only [hs, if_true, val_remove, hsp.mp hs]
      · simp only [hs, Bool.false_eq_true, if_false, val_insert, if_true]
    · rw [if_neg h, zero_add]
      by_cases hs : (TableEntry.subtract b e).2
      · simp only [hs, if_true, val_remove, if_neg h]
      · simp only [hs, Bool.false_eq_true, if_false, val_insert, if_neg h]

end Measured

variable {κ : Type} [DecidableEq κ] (t : LogHashtable κ EntryBaseDropped)

theorem val_drop (key key' : κ) (e : LogStatisticsElement) (h0 : t.val key ≠ 0) :
    (t.drop key e).val key' = (if key = key' then (-(e.msgLen : ℤ), 1) else 0) + t.val key' := by
  rw [drop]
  cases ht : t.find key with
  | none => exact absurd (val_none ht) h0
  | some b =>
    rw [val_insert]
    by_cases h : key = key'
    · subst h
      rw [if_pos rfl, if_pos rfl, val_some ht]
      exact Prod.ext (sub_eq_neg_add b.size e.msgLen) (add_comm b.dropped 1)
    · rw [if_neg h, if_neg h, zero_add]

theorem val_erase (key key' : κ) {e : LogStatisticsElement}
    (h0 : e.totalLen = 0) : (t.erase key e).val key' = t.val key' := by
  rw [erase]
  cases ht : t.find key with
  | none => rfl
  | some b =>
    rw [val_insert]
    by_cases h : key = key'
    · subst h
      rw [if_pos rfl, val_some ht]
      refine Prod.ext ?_ rfl
      change b.size - (e.totalLen : ℤ) = b.size
      rw [h0, Nat.cast_zero, sub_zero]
    · rw [if_neg h]

end LogHashtable

end Bionic.Logd
