import Bionic.Lib.System
import Bionic.Logd.StatisticsUpdates

namespace Bionic.Logd

open Lib Function LogStatistics LogHashtable

namespace LogBufferElement

variable (e : LogBufferElement)

abbrev logKey : Option LogId := some e.logId

def isDropped : ℤ := if e.droppedCount ≠ 0 then 1 else 0

def weight : ℤ × ℤ := (e.msgLen, e.droppedCount)

end LogBufferElement

open LogBufferElement

structure Tallied (s : LogStatistics) (logs : List LogBufferElement) : Prop where
  enable : s.enable
  untracked : s.trackTotalSize = false
  sizes : ∀ id, s.mSizes id = tally logKey (fun e => (e.msgLen : ℤ)) logs id
  elements : ∀ id, s.mElements id = tally logKey (fun _ => (1 : ℤ)) logs id
  droppedElements : ∀ id, s.mDroppedElements id = tally logKey isDropped logs id
  tables : ∀ ix key, (s.table ix).val key = tally (fun e => ix.key e.toLogStatisticsElement) weight logs key

variable (tagToName : UInt32 → Option (List UInt8))

def TagNamesTallied (s : LogStatistics) (logs : List LogBufferElement) : Prop :=
  ∀ key, s.tagNameTable.val key = tally (fun e => tagNameOf tagToName e.toLogStatisticsElement) (fun e => (e.msgLen : ℤ)) logs key

theorem weight_nonneg (e : LogBufferElement) : 0 ≤ e.weight :=
  ⟨Int.natCast_nonneg _, Int.natCast_nonneg _⟩

theorem normalise_eq {s : LogStatistics} (h : s.trackTotalSize = false) (e : LogStatisticsElement) :
    s.normalise e = { e with totalLen := e.msgLen } := by
  rw [normalise, h]
  rfl

theorem isDropped_setDropped (e : LogBufferElement) {c : UInt16} (hc : c ≠ 0) : (e.setDropped c hc).isDropped = 1 := by
  have h : c.toNat ≠ 0 := fun h => hc (UInt16.toNat_inj.mp h)
  rw [isDropped, droppedCount_setDropped, if_pos h]

theorem key_normalised (ix : TableIx) (e : LogStatisticsElement) :
    TableIx.key ix { e with totalLen := e.msgLen } = ix.key e :=
  TableIx.key_congr rfl rfl rfl rfl rfl ix

theorem key_setDropped (ix : TableIx) (e : LogBufferElement) {c : UInt16} (hc : c ≠ 0) :
    ix.key (e.setDropped c hc).toLogStatisticsElement = ix.key e.toLogStatisticsElement := by
  apply TableIx.key_congr <;> try rfl
  exact getTag_setDropped e c hc

theorem update_tally {f T T' : LogId → ℤ} (hf : ∀ k, f k = T k) {id : LogId} {d : ℤ}
    (hT : ∀ k, T' k = (if some id = some k then d else 0) + T k) (k : LogId) :
    update f id (f id + d) k = T' k := by
  rw [hT]
  by_cases h : k = id
  · subst h
    rw [update_self, if_pos rfl, hf, add_comm]
  · rw [update_of_ne h, if_neg fun he => h (Option.some.inj he).symm, zero_add, hf]

namespace Tallied

variable {tagToName : UInt32 → Option (List UInt8)} {s s' : LogStatistics} {logs logs' l₁ l₂ l₃ : List LogBufferElement}
  {e f : LogBufferElement} {c : UInt16}

theorem of_count (h : Tallied s logs) {id : LogId} {d₁ d₂ d₃ : ℤ} (hr : LogStatistics.SameRest (s.count id d₁ d₂ d₃) s')
    (h₁ : ∀ k, tally logKey (fun e => (e.msgLen : ℤ)) logs' k =
      (if some id = some k then d₁ else 0) + tally logKey (fun e => (e.msgLen : ℤ)) logs k)
    (h₂ : ∀ k, tally logKey (fun _ => (1 : ℤ)) logs' k =
      (if some id = some k then d₂ else 0) + tally logKey (fun _ => (1 : ℤ)) logs k)
    (h₃ : ∀ k, tally logKey isDropped logs' k =
      (if some id = some k then d₃ else 0) + tally logKey isDropped logs k)
    (ht : ∀ ix key, (s'.table ix).val key = tally (fun e => ix.key e.toLogStatisticsElement) weight logs' key) :
    Tallied s' logs' where
  enable := hr.enable.trans h.enable
  untracked := hr.trackTotalSize.trans h.untracked
  sizes k := by
    rw [hr.counters]
    exact update_tally h.sizes h₁ k
  elements k := by
    rw [hr.counters]
    exact update_tally h.elements h₂ k
  droppedElements k := by
    rw [hr.counters]
    exact update_tally h.droppedElements h₃ k
  tables := ht

theorem add (h : Tallied s logs) (e : LogBufferElement) :
    Tallied (s.add tagToName e.toLogStatisticsElement) (logs ++ [e]) := by
  have happ : ∀ {κ M : Type} [DecidableEq κ] [AddCommMonoid M] (key : LogBufferElement → Option κ)
      (w : LogBufferElement → M) (k : κ), tally key w (logs ++ [e]) k =
        (if key e = some k then w e else 0) + tally key w logs k := by
    intro κ M _ _ key w k
    rw [tally_middle, List.append_nil]
  simp only [LogStatistics.add, normalise_eq h.untracked]
  refine h.of_count (LogStatistics.updateEntries_rest _ _) (happ _ _) (happ _ _) (happ _ _) fun ix key => ?_
  rw [happ, ← h.tables]
  refine val_updateEntries ?_ (fun slot key _ => val_add _ slot key _) key
  exact h.enable

theorem weight_eq_zero (h : Tallied s logs) (he : e ∈ logs) {ix : TableIx} {key : UInt32}
    (hk : ix.key e.toLogStatisticsElement = some key) (h0 : (s.table ix).val key = 0) : e.weight = 0 := by
  apply le_antisymm
  · rw [← h0, h.tables]
    exact le_tally weight_nonneg he hk
  · exact weight_nonneg e

theorem subtract (h : Tallied s (l₁ ++ e :: l₂)) : Tallied (s.subtract tagToName e.toLogStatisticsElement) (l₁ ++ l₂) := by
  simp only [LogStatistics.subtract, normalise_eq h.untracked]
  refine h.of_count (LogStatistics.updateEntries_rest _ _) (tally_remove _ _ l₁ l₂ e) (tally_remove _ _ l₁ l₂ e)
    (fun k => ?_) fun ix key => ?_
  · rw [tally_remove _ _ l₁ l₂ e]
    congr 2
    by_cases hd : e.droppedCount ≠ 0
    · rw [isDropped, if_pos hd]
      exact (if_pos hd).symm
    · rw [isDropped, if_neg hd]
      exact (if_neg hd).symm
  · rw [tally_remove _ _ l₁ l₂ e, ← h.tables, ← key_normalised]
    refine val_updateEntries ?_ (fun slot key hs => val_subtract _ slot key _ fun h0 => ?_) key
    · exact h.enable
    · exact h.weight_eq_zero (by simp) hs h0

theorem drop (h : Tallied s (l₁ ++ e :: l₂)) (hk : e.logId ≠ .kernel) (hd : e.droppedCount = 0) (hm : 0 < e.msgLen)
    (hc : c.toNat = 1) (hc0 : c ≠ 0) :
    Tallied (s.drop tagToName e.toLogStatisticsElement) (l₁ ++ e.setDropped c hc0 :: l₂) := by
  have hkey : ∀ ix : TableIx, ix.key (e.setDropped c hc0).toLogStatisticsElement = ix.key e.toLogStatisticsElement :=
    fun ix => key_setDropped ix e hc0
  have hlog : logKey (e.setDropped c hc0) = logKey e := rfl
  refine h.of_count ((updateTables_rest _).trans (updateTagName_rest _))
    (fun k => ?_) (fun k => ?_) (fun k => ?_) fun ix key => ?_
  · rw [tally_replace _ _ l₁ l₂ hlog, msgLen_setDropped, Nat.cast_zero, zero_sub]
    rfl
  · rw [tally_replace _ _ l₁ l₂ hlog, sub_self, ite_self, ite_self]
  · rw [tally_replace _ _ l₁ l₂ hlog, isDropped_setDropped, isDropped, if_neg (not_not.mpr hd), sub_zero]
    rfl
  · rw [tally_replace _ _ l₁ l₂ (hkey ix), ← h.tables]
    have hw : (e.setDropped c hc0).weight - e.weight = (-(e.msgLen : ℤ), 1) := by
      simp [weight, hd, hc]
    have hsl : ix.key e.toLogStatisticsElement = ix.slot e.toLogStatisticsElement := if_neg hk
    rw [hw, LogStatistics.drop, LogStatistics.updateTagName_table, hsl]
    refine LogStatistics.val_updateTables ?_ (fun slot key hs => val_drop _ slot key _ fun h0 => ?_) key
    · exact h.enable
    · have hz := h.weight_eq_zero (by simp) (hsl.trans hs) h0
      rw [weight, Prod.mk_eq_zero] at hz
      omega

/-- Merging a dropped element into an earlier one with the same keys. -/
theorem coalesce (h : Tallied s (l₁ ++ f :: (l₂ ++ e :: l₃))) (hid : f.logId = e.logId) (hf : f.droppedCount ≠ 0)
    (he : e.droppedCount ≠ 0) (hkey : ∀ ix : TableIx, ix.key f.toLogStatisticsElement = ix.key e.toLogStatisticsElement)
    (hc : c.toNat = f.droppedCount + e.droppedCount) (hc0 : c ≠ 0) :
    Tallied (s.erase e.toLogStatisticsElement) (l₁ ++ f.setDropped c hc0 :: (l₂ ++ l₃)) := by
  have hlog : logKey f = logKey e := congrArg some hid
  have hlog' : logKey (f.setDropped c hc0) = logKey e := hlog
  refine h.of_count (erase_rest h.untracked) (fun k => ?_) (fun k => ?_) (fun k => ?_) fun ix key => ?_
  · rw [tally_merge _ _ l₁ l₂ l₃ hlog hlog', msgLen_of_dropped hf, msgLen_of_dropped he]
    rfl
  · rw [tally_merge _ _ l₁ l₂ l₃ hlog hlog']
    rfl
  · rw [tally_merge _ _ l₁ l₂ l₃ hlog hlog', isDropped_setDropped, isDropped, isDropped, if_pos hf, if_pos he]
    rfl
  · have hw : (f.setDropped c hc0).weight - (f.weight + e.weight) = 0 := by
      simp [weight, msgLen_of_dropped hf, msgLen_of_dropped he, hc]
    rw [tally_merge _ _ l₁ l₂ l₃ (hkey ix) ((key_setDropped ix f hc0).trans (hkey ix)), hw, ite_self, zero_add, ← h.tables]
    exact val_erase h.enable h.untracked ix key

end Tallied

section TagNames

variable {tagToName : UInt32 → Option (List UInt8)} {stats : LogStatistics} {logs l₁ l₂ l₃ : List LogBufferElement}
  {e f : LogBufferElement}

theorem tagNameOf_dropped (h : e.droppedCount ≠ 0) : tagNameOf tagToName e.toLogStatisticsElement = none := by
  rw [tagNameOf]
  split
  · rfl
  · exact if_neg h

theorem TagNamesTallied.add (h : TagNamesTallied tagToName stats logs) (ht : Tallied stats logs) (e : LogBufferElement) :
    TagNamesTallied tagToName (stats.add tagToName e.toLogStatisticsElement) (logs ++ [e]) := by
  intro key
  rw [tally_middle, List.append_nil, ← h key]
  simp only [LogStatistics.add, normalise_eq ht.untracked]
  refine LogStatistics.tagName_updateEntries ?_ (fun name key _ => val_add _ name key _) key
  exact ht.enable

theorem TagNamesTallied.msgLen_eq_zero (h : TagNamesTallied tagToName stats logs) (he : e ∈ logs) {key : List UInt8}
    (hk : tagNameOf tagToName e.toLogStatisticsElement = some key) (h0 : stats.tagNameTable.val key = 0) :
    (e.msgLen : ℤ) = 0 := by
  apply le_antisymm
  · rw [← h0, h key]
    exact le_tally (w := fun e : LogBufferElement => (e.msgLen : ℤ)) (fun e => Int.natCast_nonneg _) he hk
  · exact Int.natCast_nonneg _

theorem TagNamesTallied.subtract (h : TagNamesTallied tagToName stats (l₁ ++ e :: l₂))
    (ht : Tallied stats (l₁ ++ e :: l₂)) :
    TagNamesTallied tagToName (stats.subtract tagToName e.toLogStatisticsElement) (l₁ ++ l₂) := by
  intro key
  rw [tally_remove _ _ l₁ l₂ e, ← h key]
  simp only [LogStatistics.subtract, normalise_eq ht.untracked]
  refine LogStatistics.tagName_updateEntries ?_ (fun name key hn => val_subtract _ name key _ fun h0 => ?_) key
  · exact ht.enable
  · exact h.msgLen_eq_zero (by simp) hn h0

theorem TagNamesTallied.coalesce (h : TagNamesTallied tagToName stats (l₁ ++ f :: (l₂ ++ e :: l₃)))
    (hf : f.droppedCount ≠ 0) (he : e.droppedCount ≠ 0) {c : UInt16} (hc0 : c ≠ 0) :
    TagNamesTallied tagToName (stats.erase e.toLogStatisticsElement) (l₁ ++ f.setDropped c hc0 :: (l₂ ++ l₃)) := by
  intro key
  have hc : (f.setDropped c hc0).droppedCount ≠ 0 := fun h => hc0 (UInt16.toNat_inj.mp h)
  have hn : tagNameOf tagToName e.toLogStatisticsElement = none := tagNameOf_dropped he
  rw [tally_merge _ _ l₁ l₂ l₃ ((tagNameOf_dropped hf).trans hn.symm) ((tagNameOf_dropped hc).trans hn.symm),
    hn, if_neg (by simp), zero_add, ← h key]
  exact congrArg (·.val key) (updateTables_tagNameTable _)

end TagNames

/-- The key `Prune` coalesces dropped elements by. The three numbers overlap in it. -/
def logBufferElementKey (e : LogBufferElement) : UInt64 :=
  e.uid.toUInt64 <<< 32 ||| e.pid.toInt32.toInt64.toUInt64 <<< 16 ||| e.tid.toInt32.toInt64.toUInt64

structure Chatty where
  logs : List LogBufferElement
  stats : LogStatistics

/-- A change to the buffer together with the statistics: an element is appended or erased, becomes a dropped
one, or the dropped `e` is merged into the dropped `f`. -/
inductive Change where
  | log (e : LogBufferElement)
  | erase (e : LogBufferElement)
  | drop (e : LogBufferElement)
  | coalesce (f e : LogBufferElement)

inductive Chatty.Step (tagToName : UInt32 → Option (List UInt8)) : Chatty → Change → Chatty → Prop
  | log (s : Chatty) (e : LogBufferElement) :
    Step tagToName s (.log e) ⟨s.logs ++ [e], s.stats.add tagToName e.toLogStatisticsElement⟩
  | erase (stats : LogStatistics) (l₁ l₂ : List LogBufferElement) (e : LogBufferElement) :
    Step tagToName ⟨l₁ ++ e :: l₂, stats⟩ (.erase e) ⟨l₁ ++ l₂, stats.subtract tagToName e.toLogStatisticsElement⟩
  | drop (stats : LogStatistics) (l₁ l₂ : List LogBufferElement) (e : LogBufferElement)
    (hw : e.logId.worstUidEnabled) (hd : e.droppedCount = 0) :
    Step tagToName ⟨l₁ ++ e :: l₂, stats⟩ (.drop e)
      ⟨l₁ ++ e.setDropped 1 (by decide) :: l₂, stats.drop tagToName e.toLogStatisticsElement⟩
  | coalesce (stats : LogStatistics) (l₁ l₂ l₃ : List LogBufferElement) (f e : LogBufferElement)
    (hid : f.logId = e.logId) (hf : f.droppedCount ≠ 0) (he : e.droppedCount ≠ 0)
    (hkey : logBufferElementKey f = logBufferElementKey e)
    (c : UInt16) (hc : c.toNat = f.droppedCount + e.droppedCount) (hc0 : c ≠ 0) :
    Step tagToName ⟨l₁ ++ f :: (l₂ ++ e :: l₃), stats⟩ (.coalesce f e)
      ⟨l₁ ++ f.setDropped c hc0 :: (l₂ ++ l₃), stats.erase e.toLogStatisticsElement⟩

def LogStatistics.initial : LogStatistics where
  mSizes _ := 0
  mElements _ := 0
  mDroppedElements _ := 0
  uidTable _ := .empty
  pidSystemTable _ := .empty
  pidTable := .empty
  tidTable := .empty
  tagTable := .empty
  securityTagTable := .empty
  tagNameTable := .empty
  enable := true
  trackTotalSize := false

/-- Only elements with a message are dropped, and only elements that agree in all keys are merged. -/
def Change.Keyed : Change → Prop
  | .log _ => True
  | .erase _ => True
  | .drop e => 0 < e.msgLen
  | .coalesce f e => f.uid = e.uid ∧ f.pid = e.pid ∧ f.tid = e.tid ∧ f.getTag = e.getTag

variable {tagToName : UInt32 → Option (List UInt8)} {stats : LogStatistics} {logs : List LogBufferElement}
  {e f : LogBufferElement} {c : Change}

theorem Change.Keyed.key_eq (h : Change.Keyed (.coalesce f e)) (hid : f.logId = e.logId) (ix : TableIx) :
    ix.key f.toLogStatisticsElement = ix.key e.toLogStatisticsElement := by
  obtain ⟨hu, hp, ht, hg⟩ := h
  exact TableIx.key_congr hu hp ht hg hid ix

theorem Tallied.step {s s' : Chatty} (h : Tallied s.stats s.logs) (hc : c.Keyed)
    (hs : s.Step tagToName c s') : Tallied s'.stats s'.logs := by
  cases hs with
  | log s e => exact h.add e
  | erase stats l₁ l₂ e => exact h.subtract
  | drop stats l₁ l₂ e hw hd =>
    have hk : e.logId ≠ .kernel := by
      intro hk
      rw [hk] at hw
      cases hw
    exact h.drop hk hd hc rfl _
  | coalesce stats l₁ l₂ l₃ f e hid hf he hkey c hco hc0 =>
    exact h.coalesce hid hf he (Change.Keyed.key_eq hc hid) hco hc0

theorem TagNamesTallied.step {s s' : Chatty} (h : TagNamesTallied tagToName s.stats s.logs)
    (ht : Tallied s.stats s.logs) (hc : ∀ e, c ≠ .drop e) (hs : s.Step tagToName c s') :
    TagNamesTallied tagToName s'.stats s'.logs := by
  cases hs with
  | log s e => exact h.add ht e
  | erase stats l₁ l₂ e => exact h.subtract ht
  | drop stats l₁ l₂ e hw hd => exact absurd rfl (hc e)
  | coalesce stats l₁ l₂ l₃ f e hid hf he hkey c hco hc0 => exact h.coalesce hf he hc0

section Example

def note (uid : UInt32) (sequence : ℕ) : LogBufferElement where
  uid := uid
  pid := 7
  tid := 7
  sequence := sequence
  realtime := ⟨0, sequence.toUInt32⟩
  logId := .main
  body := .message ⟨ascii "\x04b\x00hi", by decide⟩

def noted : Chatty :=
  ⟨[note 10001 1, note 10002 2],
    (initial.add (fun _ => none) (note 10001 1).toLogStatisticsElement).add (fun _ => none)
      (note 10002 2).toLogStatisticsElement⟩

def dropped : Chatty :=
  ⟨[note 10001 1, (note 10002 2).setDropped 1 (by decide)],
    noted.stats.drop (fun _ => none) (note 10002 2).toLogStatisticsElement⟩

end Example

end Bionic.Logd
