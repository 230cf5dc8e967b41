import Bionic.Lib.System
import Bionic.Libcutils.HashmapCalls

namespace Bionic.Cutils

open Lib Option List

variable {K V : Type} {ops : KeyOps K} {map : Hashmap K V} {dict : K → Option V}

theorem growTo_pos (minimumBucketCount : Nat) {rounds bucketCount : Nat} (h : 0 < bucketCount) :
    0 < growTo minimumBucketCount rounds bucketCount := by
  induction rounds generalizing bucketCount with
  | zero => exact h
  | succ rounds ih =>
    rw [growTo]
    split
    · exact ih (Nat.mul_pos h (by decide))
    · exact h

theorem represents_create (ops : KeyOps K) (initialCapacity : Nat) :
    Represents ops (hashmapCreate initialCapacity : Hashmap K V) fun _ => none := by
  refine ⟨fun _ => [], [], ⟨growTo_pos _ (by decide), ⟨fun _ => rfl, ?_⟩, nodup_nil, ?_, ?_, ?_, rfl⟩, ?_, ?_⟩
  · intro i j a ha
    cases ha
  · simp
  · simp
  · simp
  · intro a c k ha
    cases ha
  · exact fun _ => rfl

section Runs

variable [DecidableEq K]

abbrev Tracked (K V : Type) := Hashmap K V × (K → Option V)

def afterPut (ops : KeyOps K) (dict : K → Option V) (key : K) (value : V) : PutResult V → K → Option V
  | .enomem => dict
  | .old _ => putKey ops dict key value

inductive Step (ops : KeyOps K) : Tracked K V → Tracked K V → Prop
  | put (map : Hashmap K V) (dict : K → Option V) (newEntry : Option Nat) (calloc : Bool) (key : K) (value : V)
      (r : PutResult V) (map' : Hashmap K V) (hfresh : ∀ entry, newEntry = some entry → map.cells entry = none)
      (hcall : hashmapPut ops newEntry calloc map key value = some (r, map')) :
      Step ops (map, dict) (map', afterPut ops dict key value r)
  | get (map : Hashmap K V) (dict : K → Option V) : Step ops (map, dict) (map, dict)
  | remove (map : Hashmap K V) (dict : K → Option V) (key : K) (r : Option V) (map' : Hashmap K V)
      (hcall : hashmapRemove ops map key = some (r, map')) :
      Step ops (map, dict) (map', removeKey ops dict key)

def system (ops : KeyOps K) : System (Tracked K V) where
  Init s := ∃ initialCapacity, s = (hashmapCreate initialCapacity, fun _ => none)
  Step := Step ops

theorem represents_invariant (ops : KeyOps K) : (system ops).Invariant fun s : Tracked K V => Represents ops s.1 s.2 where
  init s hs := by
    obtain ⟨initialCapacity, rfl⟩ := hs
    exact represents_create ops initialCapacity
  step s s' hs hst := by
    cases hst with
    | put map dict newEntry calloc key value r map' hf hc =>
      rcases hashmapPut_spec hs newEntry calloc hf key value with ⟨hput, -, -⟩ | ⟨map'', hput, hrep⟩
      · rw [hput] at hc
        cases hc
        exact hs
      · rw [hput] at hc
        cases hc
        exact hrep
    | get map dict => exact hs
    | remove map dict key r map' hc =>
      obtain ⟨map'', hr, hrep⟩ := hashmapRemove_spec hs key
      rw [hr] at hc
      cases hc
      exact hrep

/-- After any calls the map is the finite map of the successful puts and removals: get, put, remove and the size
agree with it, and a loop calls its callback once for each key. -/
theorem hashmap_finite_map (ops : KeyOps K) (s : Tracked K V) (hs : (system ops).Reachable s) :
    (∀ key, hashmapGet ops s.1 key = some (s.2 key)) ∧
    (∀ newEntry calloc key value, (∀ entry, newEntry = some entry → s.1.cells entry = none) →
      (hashmapPut ops newEntry calloc s.1 key value = some (.enomem, s.1) ∧ newEntry = none ∧ s.2 key = none) ∨
      ∃ map', hashmapPut ops newEntry calloc s.1 key value = some (.old (s.2 key), map')) ∧
    (∀ key, ∃ map', hashmapRemove ops s.1 key = some (s.2 key, map')) ∧
    ∃ cs : List (Cell K V), s.1.size = cs.length ∧ cs.Pairwise (fun c d => ¬Same ops c.key d.key) ∧
      (∀ c ∈ cs, s.2 c.key = some c.value) ∧ (∀ key, s.2 key ≠ none → ∃ c ∈ cs, Same ops c.key key) ∧
      ∀ {S : Type} (callback : K → V → S → Verdict S) (context : S), ∃ map',
        hashmapForEach ops callback s.1 context =
          some ((visit callback cs context).1, map', (visit callback cs context).2.1) ∧
        Represents ops map' ((visit callback cs context).2.2.foldl (removeKey ops) s.2) := by
  have hrep := (represents_invariant ops).reachable hs
  refine ⟨hashmapGet_eq hrep, ?_, ?_, ?_⟩
  · intro newEntry calloc key value hf
    rcases hashmapPut_spec hrep newEntry calloc hf key value with hfa | ⟨map', hput, -⟩
    · exact .inl hfa
    · exact .inr ⟨map', hput⟩
  · intro key
    obtain ⟨map', hr, -⟩ := hashmapRemove_spec hrep key
    exact ⟨map', hr⟩
  · obtain ⟨cs, hsi, hre⟩ := hashmapForEach_spec hrep
    exact ⟨cs, hsi.symm, hre⟩

end Runs

section StrParms

variable {char : UInt8 → BitVec 32} {dict : CStr → Option V} {map : Hashmap CStr V}

theorem same_str_iff {a b : CStr} : Same (strOps char) a b ↔ a.text = b.text := by
  constructor
  · rintro (rfl | h)
    · rfl
    · exact beq_iff_eq.mp h
  · exact fun h => .inr (beq_iff_eq.mpr h)

theorem foldl_removeKey [DecidableEq K] (keys : List K) (dict : K → Option V) (k : K) :
    keys.foldl (removeKey ops) dict k = if ∃ key ∈ keys, Same ops key k then none else dict k := by
  induction keys generalizing dict with
  | nil => simp
  | cons key keys ih =>
    rw [foldl_cons, ih]
    simp only [removeKey, mem_cons]
    by_cases hk : Same ops key k <;> by_cases hks : ∃ key ∈ keys, Same ops key k <;> simp [hk, hks]

theorem visit_removePair_all (cs : List (Cell CStr V)) : visit removePair cs none = (true, none, cs.map (·.key)) := by
  induction cs with
  | nil => rfl
  | cons c cs ih => simp only [visit, removePair, if_true, ih, map_cons, singleton_append]

theorem visit_removePair_key (key : CStr) (cs : List (Cell CStr V)) :
    (visit removePair cs (some key)).2.2 = ((cs.find? fun c => key.text = c.key.text).map (·.key)).toList := by
  induction cs with
  | nil => rfl
  | cons c cs ih =>
    by_cases hc : key.text = c.key.text
    · simp [visit, removePair, hc]
    · simp [visit, removePair, hc, ih]

theorem strParmsDel_all (h : Represents (strOps char) map dict) : ∃ map',
    strParmsDel char map none = some map' ∧ Represents (strOps char) map' fun _ => none := by
  obtain ⟨cs, -, -, -, hco, hl⟩ := hashmapForEach_spec h
  obtain ⟨map', hrun, hrep⟩ := hl removePair none
  refine ⟨map', by rw [strParmsDel, hrun, map_some], ?_⟩
  convert hrep using 1
  funext k
  rw [visit_removePair_all, foldl_removeKey]
  split
  · rfl
  · rename_i hnot
    by_contra hs
    obtain ⟨c, hc, hsa⟩ := hco k (Ne.symm hs)
    exact hnot ⟨c.key, mem_map_of_mem hc, hsa⟩

theorem strParmsDel_key (h : Represents (strOps char) map dict) (key : CStr) : ∃ map',
    strParmsDel char map (some key) = some map' ∧ Represents (strOps char) map' (removeKey (strOps char) dict key) := by
  obtain ⟨cs, -, -, -, hco, hl⟩ := hashmapForEach_spec h
  obtain ⟨map', hrun, hrep⟩ := hl removePair (some key)
  refine ⟨map', by rw [strParmsDel, hrun, map_some], ?_⟩
  convert hrep using 1
  funext k
  rw [visit_removePair_key, removeKey]
  cases hf : cs.find? fun c => key.text = c.key.text with
  | none =>
    have hn := find?_eq_none.mp hf
    simp only [map_none, toList_none, foldl_nil, ite_eq_right_iff]
    intro hkey
    by_contra hs
    obtain ⟨c, hc, hsa⟩ := hco k (Ne.symm hs)
    refine hn c hc (decide_eq_true ?_)
    rw [same_str_iff.mp hkey, same_str_iff.mp hsa]
  | some c =>
    have hc := find?_some hf
    rw [decide_eq_true_iff] at hc
    simp only [map_some, toList_some, foldl_cons, foldl_nil, removeKey, same_str_iff, hc]

def keyA : CStr := ⟨100, [97]⟩

def keyB : CStr := ⟨101, [98]⟩

def byteOps : KeyOps CStr := strOps fun c => c.toNat

def putEntry (map : Hashmap CStr Nat) (entry : Nat) (key : CStr) (value : Nat) : Hashmap CStr Nat :=
  ((hashmapPut byteOps (some entry) true map key value).map (·.2)).getD map

/-- Both keys are in one bucket. -/
def twoEntries : Hashmap CStr Nat := putEntry (putEntry (hashmapCreate 5) 1 keyA 7) 2 keyB 8

theorem twoEntries_reachable :
    (system byteOps).Reachable (twoEntries, putKey byteOps (putKey byteOps (fun _ => none) keyA 7) keyB 8) := by
  have hc : (system byteOps).Reachable ((hashmapCreate 5 : Hashmap CStr Nat), fun _ => none) := .of_init ⟨5, rfl⟩
  have hone : (system byteOps).Reachable (putEntry (hashmapCreate 5) 1 keyA 7, putKey byteOps (fun _ => none) keyA 7) :=
    hc.step (.put _ _ (some 1) true keyA 7 (.old none) _ (fun _ _ => rfl) rfl)
  refine hone.step (.put _ _ (some 2) true keyB 8 (.old none) _ ?_ rfl)
  rintro _ ⟨⟩
  rfl

theorem strParmsDel_all_twoEntries : ∃ map', strParmsDel (fun c => c.toNat) twoEntries none = some map' ∧
    Represents byteOps map' fun _ => none :=
  strParmsDel_all ((represents_invariant byteOps).reachable twoEntries_reachable)

theorem strParmsDel_key_twoEntries : ∃ map', strParmsDel (fun c => c.toNat) twoEntries (some keyA) = some map' ∧
    hashmapGet byteOps map' keyA = some none ∧ hashmapGet byteOps map' keyB = some (some 8) := by
  obtain ⟨map', hdel, hrep⟩ := strParmsDel_key ((represents_invariant byteOps).reachable twoEntries_reachable) keyA
  exact ⟨map', hdel, hashmapGet_eq hrep keyA, hashmapGet_eq hrep keyB⟩

/-- The key is found under another pointer to the same text, behind the other key of its bucket. -/
theorem hashmap_finite_map_twoEntries : twoEntries.bucketOf byteOps keyA = twoEntries.bucketOf byteOps keyB ∧
    hashmapGet byteOps twoEntries ⟨200, [98]⟩ = some (some 8) :=
  ⟨by decide, (hashmap_finite_map byteOps _ twoEntries_reachable).1 ⟨200, [98]⟩⟩

end StrParms

end Bionic.Cutils
