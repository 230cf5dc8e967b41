import Bionic.Libcutils.Hashmap

namespace Bionic.Cutils

open Lib Function List Hashmap

variable {K V : Type} {ops : KeyOps K}

section Same

variable {a b c : K}

/-- Two keys are the same for a map if they are one pointer or compare equal. -/
def Same (ops : KeyOps K) (a b : K) : Prop := a = b ∨ ops.equals a b

instance [DecidableEq K] (a b : K) : Decidable (Same ops a b) := instDecidableOr

theorem Same.refl (a : K) : Same ops a a := .inl rfl

theorem Same.symm (h : Same ops a b) : Same ops b a := by
  cases h with
  | inl h => exact .inl h.symm
  | inr h => exact .inr (ops.symm h)

theorem Same.trans (h : Same ops a b) (h' : Same ops b c) : Same ops a c := by
  cases h with
  | inl h => exact h ▸ h'
  | inr h =>
    cases h' with
    | inl h' => exact h' ▸ .inr h
    | inr h' => exact .inr (ops.trans h h')

theorem Same.hashKey_eq (h : Same ops a b) : hashKey ops a = hashKey ops b := by
  cases h with
  | inl h => rw [h]
  | inr h => rw [hashKey, ops.hash_eq h, hashKey]

theorem equalKeys_iff [DecidableEq K] : equalKeys ops a (hashKey ops a) b (hashKey ops b) ↔ Same ops a b := by
  rw [equalKeys]
  by_cases hab : a = b
  · simp [hab, Same]
  · rw [if_neg hab]
    constructor
    · intro h
      split at h
      · cases h
      · exact .inr h
    · intro h
      rw [if_neg (not_not_intro h.hashKey_eq)]
      exact h.resolve_left hab

end Same

theorem calculateIndex_lt {bucketCount : Nat} (h : 0 < bucketCount) (hash : BitVec 32) :
    calculateIndex bucketCount hash < bucketCount := by
  have : calculateIndex bucketCount hash ≤ bucketCount - 1 := Nat.and_le_right
  omega

/-- A map whose entries are `ents`: each is in the chain its hash asks for, and no two keys are the same. -/
structure Good (ops : KeyOps K) (map : Hashmap K V) (chains : Nat → List Nat) (ents : List Nat) : Prop where
  pos : 0 < map.bucketCount
  table : map.links.Table chains
  nodup : ents.Nodup
  mem : ∀ i a, a ∈ chains i ↔
    a ∈ ents ∧ ∃ c, map.cells a = some c ∧ calculateIndex map.bucketCount c.hash = i
  cell : ∀ a ∈ ents, ∃ c, map.cells a = some c ∧ c.hash = hashKey ops c.key
  distinct : ∀ a ∈ ents, ∀ b ∈ ents, ∀ c d, map.cells a = some c → map.cells b = some d → Same ops c.key d.key → a = b
  size_eq : map.size = ents.length

variable {map : Hashmap K V} {chains : Nat → List Nat} {ents : List Nat} {c : Cell K V} {a : Nat} {key : K}

namespace Good

section

variable (h : Good ops map chains ents)
include h

theorem hash_of_cell (ha : a ∈ ents) (hc : map.cells a = some c) : c.hash = hashKey ops c.key := by
  obtain ⟨c', hc', hh⟩ := h.cell a ha
  rw [hc] at hc'
  cases hc'
  exact hh

theorem length_chain_le (i : Nat) : (chains i).length ≤ map.size := by
  rw [h.size_eq]
  exact (subperm_of_subset (h.table.linked i).nodup fun a ha => ((h.mem i a).mp ha).1).length_le

theorem not_mem_of_free (ha : map.cells a = none) : a ∉ ents := by
  intro hmem
  obtain ⟨c, hc, -⟩ := h.cell a hmem
  rw [ha] at hc
  cases hc

theorem mem_chain_of_same (ha : a ∈ ents)
    (hc : map.cells a = some c) (hkey : Same ops c.key key) : a ∈ chains (map.bucketOf ops key) := by
  refine (h.mem _ a).mpr ⟨ha, c, hc, ?_⟩
  rw [h.hash_of_cell ha hc, hkey.hashKey_eq, bucketOf]

end

section Find

variable [DecidableEq K]

section

variable (h : Good ops map chains ents)
include h

theorem matchesKey_eq (key : K) (ha : a ∈ ents)
    (hc : map.cells a = some c) : map.matchesKey ops key a = some (decide (Same ops c.key key)) := by
  rw [matchesKey, hc, Option.map_some, h.hash_of_cell ha hc, Option.some_inj, Bool.eq_iff_iff, equalKeys_iff,
    decide_eq_true_iff]

theorem findKey_absent (hab : ∀ a ∈ ents, ∀ c, map.cells a = some c → ¬Same ops c.key key) :
    map.findKey ops key = some ((Place.head (map.bucketOf ops key)).after (chains (map.bucketOf ops key)), none) := by
  refine Links.walk_append (h.table.linked_whole _) ?_ ?_ ?_
  · intro a ha
    obtain ⟨hmem, c, hc, -⟩ := (h.mem _ a).mp ha
    rw [h.matchesKey_eq key hmem hc, decide_eq_false (hab a hmem c hc)]
  · rintro a ⟨⟩
  · exact Nat.lt_succ_of_le (h.length_chain_le _)

theorem findKey_at {l₁ l₂ : List Nat}
    (hs : chains (map.bucketOf ops key) = l₁ ++ a :: l₂) (hc : map.cells a = some c) (hkey : Same ops c.key key) :
    map.findKey ops key = some ((Place.head (map.bucketOf ops key)).after l₁, some a) := by
  have he : ∀ b ∈ l₁ ++ a :: l₂, b ∈ ents := fun b hb => ((h.mem (map.bucketOf ops key) b).mp (hs ▸ hb)).1
  have ha : a ∈ ents := he a mem_append_cons_self
  have hlen := h.length_chain_le (map.bucketOf ops key)
  have hl : Linked map.links.next (map.links.get (.head (map.bucketOf ops key))) (l₁ ++ a :: l₂) :=
    hs ▸ h.table.linked _
  refine Links.walk_append hl ?_ ?_ ?_
  · intro b hb
    have hbe := he b (mem_append_left _ hb)
    obtain ⟨d, hd, -⟩ := h.cell b hbe
    rw [h.matchesKey_eq key hbe hd, decide_eq_false]
    intro hsa
    have heq := h.distinct b hbe a ha d c hd hc (hsa.trans hkey.symm)
    exact (nodup_append.mp hl.nodup).2.2 b hb a mem_cons_self heq
  · rintro b ⟨⟩
    rw [h.matchesKey_eq key ha hc, decide_eq_true hkey]
  · rw [hs, length_append] at hlen
    omega

theorem findKey_present (ha : a ∈ ents) (hc : map.cells a = some c) (hkey : Same ops c.key key) : ∃ l₁ l₂,
      chains (map.bucketOf ops key) = l₁ ++ a :: l₂ ∧
      map.findKey ops key = some ((Place.head (map.bucketOf ops key)).after l₁, some a) := by
  obtain ⟨l₁, l₂, hs⟩ := append_of_mem (h.mem_chain_of_same ha hc hkey)
  exact ⟨l₁, l₂, hs, h.findKey_at hs hc hkey⟩

end

end Find

section

variable (h : Good ops map chains ents)

include h

theorem setValue (hc : map.cells a = some c) (value : V) : Good ops (map.setValue a c value) chains ents := by
  -- an entry has the key and the hash it had
  have hba : ∀ b d, update map.cells a (some { c with value := value }) b = some d →
      ∃ d', map.cells b = some d' ∧ d'.key = d.key ∧ d'.hash = d.hash := by
    intro b d hd
    by_cases hb : b = a
    · subst hb
      rw [update_self] at hd
      cases hd
      exact ⟨c, hc, rfl, rfl⟩
    · rw [update_of_ne hb] at hd
      exact ⟨d, hd, rfl, rfl⟩
  have hf : ∀ b d', map.cells b = some d' →
      ∃ d, update map.cells a (some { c with value := value }) b = some d ∧ d'.key = d.key ∧ d'.hash = d.hash := by
    intro b d' hd'
    by_cases hb : b = a
    · subst hb
      rw [hc] at hd'
      cases hd'
      exact ⟨_, update_self .., rfl, rfl⟩
    · exact ⟨d', by rw [update_of_ne hb, hd'], rfl, rfl⟩
  refine { h with mem := ?_, cell := ?_, distinct := ?_ }
  · intro i b
    rw [h.mem]
    refine and_congr_right fun _ => ⟨?_, ?_⟩
    · rintro ⟨d', hd', hi⟩
      obtain ⟨d, hd, -, hh⟩ := hf b d' hd'
      exact ⟨d, hd, hh ▸ hi⟩
    · rintro ⟨d, hd, hi⟩
      obtain ⟨d', hd', -, hh⟩ := hba b d hd
      exact ⟨d', hd', hh ▸ hi⟩
  · intro b hb
    obtain ⟨d', hd', hh'⟩ := h.cell b hb
    obtain ⟨d, hd, hkey, hh⟩ := hf b d' hd'
    exact ⟨d, hd, by rw [← hh, hh', hkey]⟩
  · intro b hb b' hb' d e hd he hs
    obtain ⟨d', hd', hkey, -⟩ := hba b d hd
    obtain ⟨e', he', hkey', -⟩ := hba b' e he
    rw [← hkey, ← hkey'] at hs
    exact h.distinct b hb b' hb' d' e' hd' he' hs

theorem insert (value : V) (hf : map.cells a = none)
    (ha : ∀ a ∈ ents, ∀ c, map.cells a = some c → ¬Same ops c.key key) :
    Good ops
      (map.addEntry ((Place.head (map.bucketOf ops key)).after (chains (map.bucketOf ops key))) a
        ⟨key, hashKey ops key, value⟩)
      (update chains (map.bucketOf ops key) (chains (map.bucketOf ops key) ++ [a])) (a :: ents) := by
  have hnew := h.not_mem_of_free hf
  have hch : ∀ i, a ∉ chains i := fun i hi => hnew ((h.mem i a).mp hi).1
  have hne : ∀ b ∈ ents, b ≠ a := fun b hb heq => hnew (heq ▸ hb)
  refine ⟨h.pos, ?_, nodup_cons.mpr ⟨hnew, h.nodup⟩, ?_, ?_, ?_, ?_⟩
  · exact (h.table.set_next hch none).append hch (update_self ..)
  · intro i b
    by_cases hb : b = a
    · subst hb
      simp only [addEntry, update_self, mem_cons, true_or, true_and, Option.some.injEq,
        exists_eq_left']
      by_cases hi : i = map.bucketOf ops key
      · subst hi
        simp [bucketOf]
      · rw [update_of_ne hi]
        exact iff_of_false (hch i) fun heq => hi heq.symm
    · have hmem := h.mem i b
      by_cases hi : i = map.bucketOf ops key
      · subst hi
        simp only [addEntry, update_self, update_of_ne hb, mem_append, mem_cons, hb, false_or,
          not_mem_nil, or_false]
        exact hmem
      · simp only [addEntry, update_of_ne hi, update_of_ne hb, mem_cons, hb, false_or]
        exact hmem
  · intro b hb
    cases mem_cons.mp hb with
    | inl hb =>
      subst hb
      exact ⟨_, update_self .., rfl⟩
    | inr hb =>
      simp only [addEntry, update_of_ne (hne b hb)]
      exact h.cell b hb
  · intro b hb b' hb' c d hc hd hs
    simp only [addEntry] at hc hd
    rcases mem_cons.mp hb with rfl | hold
    · rw [update_self] at hc
      cases hc
      rcases mem_cons.mp hb' with rfl | hold'
      · rfl
      · rw [update_of_ne (hne b' hold')] at hd
        exact absurd hs.symm (ha b' hold' d hd)
    · rw [update_of_ne (hne b hold)] at hc
      rcases mem_cons.mp hb' with rfl | hold'
      · rw [update_self] at hd
        cases hd
        exact absurd hs (ha b hold c hc)
      · rw [update_of_ne (hne b' hold')] at hd
        exact h.distinct b hold b' hold' c d hc hd hs
  · rw [addEntry, length_cons, h.size_eq]

theorem unlink {i : Nat} {l₁ l₂ : List Nat} (hi : chains i = l₁ ++ a :: l₂) :
    Good ops (map.freeEntry ((Place.head i).after l₁) a)
      (update chains i (l₁ ++ l₂)) (ents.erase a) := by
  have hac : a ∈ chains i := hi ▸ mem_append_cons_self
  have ha := ((h.mem i a).mp hac).1
  have hmem : ∀ b, b ∈ ents.erase a ↔ b ≠ a ∧ b ∈ ents := fun b => h.nodup.mem_erase_iff
  have hn : (l₁ ++ a :: l₂).Nodup := hi ▸ (h.table.linked i).nodup
  refine ⟨h.pos, h.table.unlink hi, h.nodup.erase a, ?_, ?_, ?_, ?_⟩
  · intro j b
    by_cases hb : b = a
    · subst hb
      refine iff_of_false ?_ fun hb => ((hmem b).mp hb.1).1 rfl
      by_cases hj : j = i
      · subst hj
        rw [update_self]
        exact (nodup_middle.mp hn |> nodup_cons.mp).1
      · rw [update_of_ne hj]
        exact fun hbj => hj (h.table.disjoint hbj hac)
    · simp only [freeEntry, update_of_ne hb, hmem, ne_eq, hb, not_false_eq_true, true_and]
      rw [← h.mem]
      by_cases hj : j = i
      · subst hj
        simp [hi, hb]
      · rw [update_of_ne hj]
  · intro b hb
    simp only [freeEntry, update_of_ne ((hmem b).mp hb).1]
    exact h.cell b ((hmem b).mp hb).2
  · intro b hb b' hb' c d hc hd hs
    simp only [freeEntry, update_of_ne ((hmem b).mp hb).1] at hc
    simp only [freeEntry, update_of_ne ((hmem b').mp hb').1] at hd
    exact h.distinct b ((hmem b).mp hb).2 b' ((hmem b').mp hb').2 c d hc hd hs
  · rw [freeEntry, length_erase_of_mem ha, h.size_eq]

end

end Good

variable {cells : Nat → Option (Cell K V)} {n : Nat} {old : Nat → Option Nat}

/-- In the middle of an expansion to `n` buckets: the entries of `moved` are in their new chains, the others still have
their old links. -/
structure Moving (cells : Nat → Option (Cell K V)) (n : Nat) (old : Nat → Option Nat) (new : Links Nat Nat)
    (chains : Nat → List Nat) (moved : Nat → Prop) : Prop where
  table : new.Table chains
  mem : ∀ i a, a ∈ chains i ↔ moved a ∧ ∃ c, cells a = some c ∧ calculateIndex n c.hash = i
  frame : ∀ a, ¬moved a → new.next a = old a

variable {new : Links Nat Nat} {chains : Nat → List Nat} {moved : Nat → Prop} {fuel : Nat}

section

variable (h : Moving cells n old new chains moved)
include h

theorem Moving.congr {moved' : Nat → Prop} (hiff : ∀ a, moved' a ↔ moved a) :
    Moving cells n old new chains moved' := by
  obtain rfl : moved' = moved := funext fun a => propext (hiff a)
  exact h

theorem Moving.push {a : Nat} (ha : ¬moved a) {c : Cell K V} (hc : cells a = some c) :
    Moving cells n old
      ((new.set (.next a) (new.head (calculateIndex n c.hash))).set (.head (calculateIndex n c.hash)) (some a))
      (update chains (calculateIndex n c.hash) (a :: chains (calculateIndex n c.hash)))
      (fun b => b = a ∨ moved b) := by
  have hch : ∀ i, a ∉ chains i := fun i hi => ha ((h.mem i a).mp hi).1
  refine ⟨h.table.push hch, ?_, ?_⟩
  · intro i b
    by_cases hb : b = a
    · subst hb
      simp only [true_or, true_and, hc, Option.some.injEq, exists_eq_left']
      by_cases hi : i = calculateIndex n c.hash
      · subst hi
        simp
      · rw [update_of_ne hi]
        exact iff_of_false (hch i) fun heq => hi heq.symm
    · simp only [hb, false_or]
      rw [← h.mem]
      by_cases hi : i = calculateIndex n c.hash
      · subst hi
        simp [hb]
      · rw [update_of_ne hi]
  · intro b hb
    simp only [not_or] at hb
    rw [← h.frame b hb.2]
    exact update_of_ne hb.1 _ _

theorem Moving.moveChain {l : List Nat} {p : Option Nat}
    (hl : Linked old p l) (hnew : ∀ a ∈ l, ¬moved a) (hce : ∀ a ∈ l, ∃ c, cells a = some c)
    (hf : l.length ≤ fuel) : ∃ new' chains',
      moveChain cells n fuel p new = some new' ∧ Moving cells n old new' chains' (fun b => b ∈ l ∨ moved b) := by
  induction l generalizing p new chains moved fuel with
  | nil =>
    refine ⟨new, chains, ?_, ?_⟩
    · rw [linked_nil.mp hl, Cutils.moveChain]
    · simpa using h
  | cons a l ih =>
    obtain ⟨fuel, rfl⟩ := Nat.exists_eq_succ_of_ne_zero (Nat.ne_zero_of_lt hf)
    obtain ⟨c, hc⟩ := hce a mem_cons_self
    have hn := nodup_cons.mp hl.nodup
    have hne : new.next a = old a := h.frame a (hnew a mem_cons_self)
    have hr : ∀ b ∈ l, ¬(b = a ∨ moved b) := by
      rintro b hb (rfl | hmo)
      · exact hn.1 hb
      · exact hnew b (mem_cons_of_mem a hb) hmo
    obtain ⟨new', chains', hrun, hm⟩ := ih (h.push (hnew a mem_cons_self) hc) hl.2 hr
      (fun b hb => hce b (mem_cons_of_mem a hb)) (Nat.le_of_succ_le_succ hf)
    refine ⟨new', chains', ?_, ?_⟩
    · rw [hl.1, Cutils.moveChain, hc, hne]
      exact hrun
    · apply hm.congr
      intro b
      rw [mem_cons, or_assoc, or_left_comm]

end

theorem Moving.moveBuckets {head : Nat → Option Nat} {chains₀ : Nat → List Nat}
    (ht : Links.Table ⟨head, old⟩ chains₀) (hc : ∀ i, ∀ a ∈ chains₀ i, ∃ c, cells a = some c)
    (hf : ∀ i, (chains₀ i).length ≤ fuel) {is : List Nat} (his : is.Nodup)
    (h : Moving cells n old new chains moved) (hnew : ∀ i ∈ is, ∀ a ∈ chains₀ i, ¬moved a) : ∃ new' chains',
      is.foldlM (fun new i => Cutils.moveChain cells n fuel (head i) new) new = some new' ∧
      Moving cells n old new' chains' (fun b => (∃ i ∈ is, b ∈ chains₀ i) ∨ moved b) := by
  induction is generalizing new chains moved with
  | nil =>
    refine ⟨new, chains, rfl, ?_⟩
    simpa using h
  | cons i is ih =>
    have hi := nodup_cons.mp his
    obtain ⟨new₁, chains₁, hrun₁, hm₁⟩ := h.moveChain (ht.linked i) (hnew i mem_cons_self) (hc i) (hf i)
    have hr : ∀ j ∈ is, ∀ a ∈ chains₀ j, ¬(a ∈ chains₀ i ∨ moved a) := by
      rintro j hj a ha (hai | hmo)
      · exact hi.1 (ht.disjoint ha hai ▸ hj)
      · exact hnew j (mem_cons_of_mem i hj) a ha hmo
    obtain ⟨new', chains', hrun, hm⟩ := ih hi.2 hm₁ hr
    refine ⟨new', chains', ?_, ?_⟩
    · rw [foldlM_cons, hrun₁]
      exact hrun
    · apply hm.congr
      intro b
      simp only [mem_cons, exists_eq_or_imp]
      rw [or_assoc, or_left_comm]

variable {map : Hashmap K V} {ents : List Nat}

theorem Good.expandIfNecessary (h : Good ops map chains ents) (calloc : Bool) : ∃ map' chains',
    expandIfNecessary calloc map = some map' ∧ Good ops map' chains' ents ∧ map'.cells = map.cells := by
  rw [Cutils.expandIfNecessary]
  split
  · cases calloc with
    | false => exact ⟨map, chains, rfl, h, rfl⟩
    | true =>
      have he : Moving map.cells (map.bucketCount * 2) map.links.next ⟨fun _ => none, map.links.next⟩ (fun _ => [])
          fun _ => False := by
        refine ⟨⟨fun _ => rfl, ?_⟩, by simp, fun _ _ => rfl⟩
        intro i j a ha
        cases ha
      obtain ⟨new, chains', hrun, hm⟩ := he.moveBuckets h.table
        (fun i a ha => ((h.mem i a).mp ha).2.imp fun c hc => hc.1)
        (fun i => (h.length_chain_le i).trans (Nat.le_succ _)) nodup_range fun _ _ _ _ => id
      refine ⟨{ map with links := new, bucketCount := map.bucketCount * 2 }, chains', ?_, ?_, rfl⟩
      · rw [if_pos rfl]
        exact Option.bind_eq_some_iff.mpr ⟨new, hrun, rfl⟩
      · -- every entry was in a bucket below the count, so all of them have been moved
        have hall : ∀ a, ((∃ i ∈ range map.bucketCount, a ∈ chains i) ∨ False) ↔ a ∈ ents := by
          intro a
          constructor
          · rintro (⟨i, -, ha⟩ | hf)
            · exact ((h.mem i a).mp ha).1
            · exact hf.elim
          · intro ha
            obtain ⟨c, hc, -⟩ := h.cell a ha
            refine .inl ⟨calculateIndex map.bucketCount c.hash, ?_, (h.mem _ a).mpr ⟨ha, c, hc, rfl⟩⟩
            exact mem_range.mpr (calculateIndex_lt h.pos c.hash)
        refine { h with pos := ?_, table := hm.table, mem := ?_ }
        · exact Nat.mul_pos h.pos (by decide)
        · intro i a
          rw [hm.mem, hall]
  · exact ⟨map, chains, rfl, h, rfl⟩

end Bionic.Cutils
