import Bionic.Logd.Statistics

namespace Bionic.Logd

open Function

inductive TableIx where
  | uid (id : LogId)
  | pidSystem (id : LogId)
  | pid
  | tid
  | tag
  | securityTag

def TableIx.slot (e : LogStatisticsElement) : TableIx → Option UInt32
  | .uid id => if id = e.logId then some e.uid else none
  | .pidSystem id => if id = e.logId ∧ e.uid = aidSystem then some e.pid else none
  | .pid => some e.pid
  | .tid => some e.tid
  | .tag => if e.tag ≠ 0 ∧ e.logId ≠ .security then some e.tag else none
  | .securityTag => if e.tag ≠ 0 ∧ e.logId = .security then some e.tag else none

/-- The key of an element in a table. Elements of the kernel log have none: `Add` and `Subtract`
return before the tables. -/
def TableIx.key (ix : TableIx) (e : LogStatisticsElement) : Option UInt32 :=
  if e.logId = .kernel then none else ix.slot e

/-- The key of an element in the tag-name table, which holds no dropped elements. -/
def tagNameOf (tagToName : UInt32 → Option (List UInt8)) (e : LogStatisticsElement) : Option (List UInt8) :=
  if e.logId = .kernel then none else if e.droppedCount = 0 then some (tagNameKey tagToName e) else none

theorem TableIx.key_congr {a b : LogStatisticsElement} (hu : a.uid = b.uid) (hp : a.pid = b.pid) (ht : a.tid = b.tid)
    (hg : a.tag = b.tag) (hid : a.logId = b.logId) (ix : TableIx) : ix.key a = ix.key b := by
  obtain ⟨⟩ := a
  obtain ⟨⟩ := b
  subst hu hp ht hg hid
  cases ix <;> rfl

namespace LogStatistics

def table (s : LogStatistics) : TableIx → DroppedTable
  | .uid id => s.uidTable id
  | .pidSystem id => s.pidSystemTable id
  | .pid => s.pidTable
  | .tid => s.tidTable
  | .tag => s.tagTable
  | .securityTag => s.securityTagTable

theorem table_updateTables {s : LogStatistics} (he : s.enable) (element : LogStatisticsElement)
    (op : DroppedTable → UInt32 → LogStatisticsElement → DroppedTable) (ix : TableIx) :
    (s.updateTables element op).table ix =
      match ix.slot element with
      | none => s.table ix
      | some key => op (s.table ix) key element := by
  simp only [updateTables, he, if_true]
  cases ix with
  | uid id =>
    simp only [table, TableIx.slot]
    by_cases h : id = element.logId
    · subst h
      rw [update_self, if_pos rfl]
    · rw [update_of_ne h, if_neg h]
  | pidSystem id =>
    simp only [table, TableIx.slot]
    by_cases hu : element.uid = aidSystem
    · by_cases h : id = element.logId
      · subst h
        rw [if_pos hu, update_self, if_pos ⟨rfl, hu⟩]
      · rw [if_pos hu, update_of_ne h, if_neg fun h' => h h'.1]
    · rw [if_neg hu, if_neg fun h' => hu h'.2]
  | pid => rfl
  | tid => rfl
  | tag | securityTag =>
    simp only [table, TableIx.slot]
    split_ifs <;> rfl

section Frame

variable {tagToName : UInt32 → Option (List UInt8)} {s : LogStatistics} {element : LogStatisticsElement}
  (op : DroppedTable → UInt32 → LogStatisticsElement → DroppedTable)
  (nameOp : LogHashtable (List UInt8) EntryBase → List UInt8 → LogStatisticsElement →
    LogHashtable (List UInt8) EntryBase)

structure SameRest (s s' : LogStatistics) : Prop where
  counters : s'.toLogCounters = s.toLogCounters
  enable : s'.enable = s.enable
  trackTotalSize : s'.trackTotalSize = s.trackTotalSize

theorem SameRest.trans {s₁ s₂ s₃ : LogStatistics} (h : SameRest s₁ s₂) (h' : SameRest s₂ s₃) : SameRest s₁ s₃ :=
  ⟨h'.counters.trans h.counters, h'.enable.trans h.enable, h'.trackTotalSize.trans h.trackTotalSize⟩

theorem updateTables_rest : SameRest s (s.updateTables element op) := by
  simp only [updateTables]
  split <;> exact ⟨rfl, rfl, rfl⟩

theorem updateTables_tagNameTable : (s.updateTables element op).tagNameTable = s.tagNameTable := by
  simp only [updateTables]
  split <;> rfl

theorem updateTagName_rest : SameRest s (s.updateTagName tagToName element nameOp) := by
  rw [updateTagName]
  split <;> exact ⟨rfl, rfl, rfl⟩

theorem updateTagName_table : (s.updateTagName tagToName element nameOp).table = s.table := by
  rw [updateTagName]
  split <;> rfl

theorem updateEntries_rest : SameRest s (s.updateEntries tagToName element op nameOp) := by
  simp only [updateEntries]
  split
  · exact ⟨rfl, rfl, rfl⟩
  · split
    · exact (updateTables_rest op).trans (updateTagName_rest nameOp)
    · exact updateTables_rest op

theorem erase_rest (ht : s.trackTotalSize = false) :
    SameRest (s.count element.logId 0 (-1) (-1)) (s.erase element) := by
  simp only [erase, ht]
  exact updateTables_rest _

end Frame

section Entries

variable {tagToName : UInt32 → Option (List UInt8)} {s : LogStatistics} {element : LogStatisticsElement}
  {op : DroppedTable → UInt32 → LogStatisticsElement → DroppedTable}
  {nameOp : LogHashtable (List UInt8) EntryBase → List UInt8 → LogStatisticsElement →
    LogHashtable (List UInt8) EntryBase} {d : ℤ × ℤ} {ix : TableIx}

theorem val_updateTables (he : s.enable) (hop : ∀ slot key, ix.slot element = some slot →
      (op (s.table ix) slot element).val key = (if slot = key then d else 0) + (s.table ix).val key) (key : UInt32) :
    ((s.updateTables element op).table ix).val key =
      (if ix.slot element = some key then d else 0) + (s.table ix).val key := by
  rw [table_updateTables he]
  cases h : ix.slot element with
  | none => rw [if_neg (by simp), zero_add]
  | some slot =>
    simp only [Option.some.injEq]
    exact hop slot key h

theorem val_erase (he : s.enable) (ht : s.trackTotalSize = false) (ix : TableIx) (key : UInt32) :
    ((s.erase element).table ix).val key = (s.table ix).val key := by
  simp only [erase, ht, Bool.false_eq_true, if_false]
  rw [table_updateTables (by exact he)]
  cases TableIx.slot { element with totalLen := 0 } ix with
  | none => rfl
  | some slot => exact LogHashtable.val_erase _ slot key rfl

theorem val_updateEntries (he : s.enable) (hop : ∀ slot key, ix.key element = some slot →
      (op (s.table ix) slot element).val key = (if slot = key then d else 0) + (s.table ix).val key) (key : UInt32) :
    ((s.updateEntries tagToName element op nameOp).table ix).val key =
      (if ix.key element = some key then d else 0) + (s.table ix).val key := by
  simp only [updateEntries]
  by_cases hk : element.logId = .kernel
  · have hkey : ix.key element = none := if_pos hk
    rw [if_pos hk, hkey, if_neg (by simp), zero_add]
  · have hkey : ix.key element = ix.slot element := if_neg hk
    rw [hkey] at hop ⊢
    have hv := val_updateTables he hop key
    rw [if_neg hk]
    split
    · rwa [updateTagName_table]
    · exact hv

theorem tagName_updateEntries {d : ℤ} (he : s.enable) (hop : ∀ name key, tagNameOf tagToName element = some name →
      (nameOp s.tagNameTable name element).val key = (if name = key then d else 0) + s.tagNameTable.val key)
    (key : List UInt8) :
    (s.updateEntries tagToName element op nameOp).tagNameTable.val key =
      (if tagNameOf tagToName element = some key then d else 0) + s.tagNameTable.val key := by
  simp only [updateEntries]
  by_cases hk : element.logId = .kernel
  · have hkey : tagNameOf tagToName element = none := if_pos hk
    rw [if_pos hk, hkey, if_neg (by simp), zero_add]
  · have hkey : tagNameOf tagToName element = _ := if_neg hk
    rw [if_neg hk]
    by_cases hd : element.droppedCount = 0
    · rw [if_pos hd] at hkey
      rw [if_pos hd, updateTagName, (updateTables_rest op).enable, he, updateTables_tagNameTable, hkey]
      simp only [Option.some.injEq]
      exact hop _ key hkey
    · rw [if_neg hd] at hkey
      rw [if_neg hd, updateTables_tagNameTable, hkey, if_neg (by simp), zero_add]

end Entries

end LogStatistics

end Bionic.Logd
