import Bionic.Libcutils.HashmapInv

namespace Bionic.Cutils

open Lib Function List Option Hashmap

variable {K V : Type} {ops : KeyOps K} {map : Hashmap K V} {chains : Nat → List Nat} {ents : List Nat}
  {dict : K → Option V} {key : K}

/-- The entries are a finite map: `dict` has the value of each entry at all keys that are the same as its key, and none
at the other keys. -/
structure Reads (ops : KeyOps K) (map : Hashmap K V) (ents : List Nat) (dict : K → Option V) : Prop where
  hit : ∀ {a c k}, a ∈ ents → map.cells a = some c → Same ops c.key k → dict k = some c.value
  miss : ∀ {k}, (∀ a ∈ ents, ∀ c, map.cells a = some c → ¬Same ops c.key k) → dict k = none

def Represents (ops : KeyOps K) (map : Hashmap K V) (dict : K → Option V) : Prop :=
  ∃ chains ents, Good ops map chains ents ∧ Reads ops map ents dict

section Dict

variable [DecidableEq K]

def putKey (ops : KeyOps K) (dict : K → Option V) (key : K) (value : V) : K → Option V :=
  fun k => if Same ops key k then some value else dict k

def removeKey (ops : KeyOps K) (dict : K → Option V) (key : K) : K → Option V :=
  fun k => if Same ops key k then none else dict k

end Dict

namespace Reads

theorem absent (h : Reads ops map ents dict) (hn : dict key = none) :
    ∀ a ∈ ents, ∀ c, map.cells a = some c → ¬Same ops c.key key := by
  intro a ha c hc hs
  rw [h.hit ha hc hs] at hn
  cases hn

theorem present (h : Reads ops map ents dict) {value : V} (hs : dict key = some value) :
    ∃ a ∈ ents, ∃ c, map.cells a = some c ∧ Same ops c.key key ∧ c.value = value := by
  by_contra hnot
  have hn : dict key = none := h.miss fun a ha c hc hsa => by
    refine hnot ⟨a, ha, c, hc, hsa, ?_⟩
    have := h.hit ha hc hsa
    rw [hs] at this
    exact (some.inj this).symm
  rw [hs] at hn
  cases hn

variable [DecidableEq K] {a : Nat} {c : Cell K V} {key : K}

theorem setValue (hg : Good ops map chains ents) (h : Reads ops map ents dict) (ha : a ∈ ents)
    (hc : map.cells a = some c) (hkey : Same ops c.key key) (value : V) :
    Reads ops (map.setValue a c value) ents (putKey ops dict key value) := by
  refine ⟨?_, ?_⟩
  · intro b d k hb hd hs
    rw [setValue_cells] at hd
    by_cases hba : b = a
    · subst hba
      rw [update_self] at hd
      cases hd
      exact if_pos (hkey.symm.trans hs)
    · rw [update_of_ne hba] at hd
      rw [putKey, if_neg]
      · exact h.hit hb hd hs
      · intro hk
        exact hba (hg.distinct b hb a ha d c hd hc (hs.trans (hkey.trans hk).symm))
  · intro k hk
    have hkc : ¬Same ops c.key k := hk a ha { c with value := value } (update_self ..)
    rw [putKey, if_neg fun hs => hkc (hkey.trans hs)]
    refine h.miss fun b hb d hd => ?_
    by_cases hba : b = a
    · subst hba
      rw [hc] at hd
      cases hd
      exact hkc
    · exact hk b hb d (by rw [setValue_cells, update_of_ne hba, hd])

theorem addEntry (hg : Good ops map chains ents) (h : Reads ops map ents dict) (hf : map.cells a = none)
    (ha : ∀ a ∈ ents, ∀ c, map.cells a = some c → ¬Same ops c.key key) (p : Place Nat Nat) (value : V) :
    Reads ops (map.addEntry p a ⟨key, hashKey ops key, value⟩) (a :: ents) (putKey ops dict key value) := by
  have hne : ∀ b ∈ ents, b ≠ a := fun b hb heq => hg.not_mem_of_free hf (heq ▸ hb)
  refine ⟨?_, ?_⟩
  · intro b d k hb hd hs
    rw [addEntry_cells] at hd
    rcases mem_cons.mp hb with rfl | hb
    · rw [update_self] at hd
      cases hd
      exact if_pos hs
    · rw [update_of_ne (hne b hb)] at hd
      rw [putKey, if_neg fun hk => ha b hb d hd (hs.trans hk.symm)]
      exact h.hit hb hd hs
  · intro k hk
    rw [putKey, if_neg (hk a mem_cons_self _ (update_self ..))]
    refine h.miss fun b hb d hd => hk b (mem_cons_of_mem a hb) d ?_
    rw [addEntry_cells, update_of_ne (hne b hb), hd]

theorem freeEntry (hg : Good ops map chains ents) (h : Reads ops map ents dict) (ha : a ∈ ents)
    (hc : map.cells a = some c) (hkey : Same ops c.key key) (p : Place Nat Nat) :
    Reads ops (map.freeEntry p a) (ents.erase a) (removeKey ops dict key) := by
  have hmem : ∀ b, b ∈ ents.erase a ↔ b ≠ a ∧ b ∈ ents := fun b => hg.nodup.mem_erase_iff
  refine ⟨?_, ?_⟩
  · intro b d k hb hd hs
    obtain ⟨hba, hb⟩ := (hmem b).mp hb
    rw [freeEntry_cells, update_of_ne hba] at hd
    rw [removeKey, if_neg]
    · exact h.hit hb hd hs
    · intro hk
      exact hba (hg.distinct b hb a ha d c hd hc (hs.trans (hkey.trans hk).symm))
  · intro k hk
    rw [removeKey]
    split
    · rfl
    · rename_i hkey'
      refine h.miss fun b hb d hd hs => ?_
      by_cases hba : b = a
      · subst hba
        rw [hc] at hd
        cases hd
        exact hkey' (hkey.symm.trans hs)
      · exact hk b ((hmem b).mpr ⟨hba, hb⟩) d (by rw [freeEntry_cells, update_of_ne hba, hd]) hs

end Reads

section Calls

variable [DecidableEq K]

section

variable (h : Represents ops map dict) (key : K)

include h

theorem hashmapGet_eq : hashmapGet ops map key = some (dict key) := by
  obtain ⟨chains, ents, hg, hr⟩ := h
  cases hd : dict key with
  | none =>
    rw [hashmapGet, hg.findKey_absent (hr.absent hd)]
    rfl
  | some value =>
    obtain ⟨a, ha, c, hc, hs, rfl⟩ := hr.present hd
    obtain ⟨l₁, l₂, -, hf⟩ := hg.findKey_present ha hc hs
    simp only [hashmapGet, hf, bind_eq_bind, bind_some, hc]

theorem hashmapRemove_spec : ∃ map',
    hashmapRemove ops map key = some (dict key, map') ∧ Represents ops map' (removeKey ops dict key) := by
  obtain ⟨chains, ents, hg, hr⟩ := h
  cases hd : dict key with
  | none =>
    have hab := hr.absent hd
    refine ⟨map, ?_, chains, ents, hg, ?_⟩
    · rw [hashmapRemove, hg.findKey_absent hab]
      rfl
    · have hs : removeKey ops dict key = dict := by
        funext k
        rw [removeKey]
        split
        · rename_i hk
          refine (hr.miss fun a ha c hc hck => ?_).symm
          exact hab a ha c hc (hck.trans hk.symm)
        · rfl
      rwa [hs]
  | some value =>
    obtain ⟨a, ha, c, hc, hs, rfl⟩ := hr.present hd
    obtain ⟨l₁, l₂, hsp, hf⟩ := hg.findKey_present ha hc hs
    refine ⟨map.freeEntry ((Place.head (map.bucketOf ops key)).after l₁) a, ?_, _, _, hg.unlink hsp,
      hr.freeEntry hg ha hc hs _⟩
    simp only [hashmapRemove, hf, bind_eq_bind, bind_some, hc]

theorem hashmapPut_spec (newEntry : Option Nat) (calloc : Bool)
    (hfe : ∀ entry, newEntry = some entry → map.cells entry = none) (key : K) (value : V) :
    (hashmapPut ops newEntry calloc map key value = some (.enomem, map) ∧ newEntry = none ∧ dict key = none) ∨
      ∃ map', hashmapPut ops newEntry calloc map key value = some (.old (dict key), map') ∧
        Represents ops map' (putKey ops dict key value) := by
  obtain ⟨chains, ents, hg, hr⟩ := h
  cases hd : dict key with
  | none =>
    have hab := hr.absent hd
    have hf := hg.findKey_absent hab
    cases newEntry with
    | none =>
      refine .inl ⟨?_, rfl, rfl⟩
      have hl : map.links.get ((Place.head (map.bucketOf ops key)).after (chains (map.bucketOf ops key))) = none :=
        Links.get_after (hg.table.linked_whole _)
      simp only [hashmapPut, hf, bind_eq_bind, bind_some]
      rw [← hl, Links.set_get]
    | some entry =>
      have hfr := hfe entry rfl
      obtain ⟨map', chains', he, hg', hce⟩ := (hg.insert value hfr hab).expandIfNecessary calloc
      have hr' := hr.addEntry hg hfr hab
        ((Place.head (map.bucketOf ops key)).after (chains (map.bucketOf ops key))) value
      refine .inr ⟨map', ?_, chains', entry :: ents, hg', ?_⟩
      · simp only [hashmapPut, hf, bind_eq_bind, bind_some, he]
      · refine ⟨fun ha hc => hr'.hit ha (hce ▸ hc), fun hk => hr'.miss fun a ha c hc => hk a ha c ?_⟩
        rw [hce, hc]
  | some old =>
    obtain ⟨a, ha, c, hc, hs, rfl⟩ := hr.present hd
    obtain ⟨l₁, l₂, -, hf⟩ := hg.findKey_present ha hc hs
    refine .inr ⟨map.setValue a c value, ?_, chains, ents, hg.setValue hc value,
      hr.setValue hg ha hc hs value⟩
    simp only [hashmapPut, hf, bind_eq_bind, bind_some, hc]

end

end Calls

variable {S : Type} (callback : K → V → S → Verdict S)

/-- A callback called on the cells in turn as long as it lets the loop go on: whether it did to the end, its last
context and the keys it removed. -/
def visit (callback : K → V → S → Verdict S) : List (Cell K V) → S → Bool × S × List K
  | [], context => (true, context, [])
  | cell :: cells, context =>
    let verdict := callback cell.key cell.value context
    let removed := if verdict.remove then [cell.key] else []
    if verdict.shouldContinue then
      let rest := visit callback cells verdict.context
      (rest.1, rest.2.1, removed ++ rest.2.2)
    else (false, verdict.context, removed)

theorem visit_append (cs ds : List (Cell K V)) (context : S) :
    visit callback (cs ++ ds) context =
      if (visit callback cs context).1 then
        ((visit callback ds (visit callback cs context).2.1).1, (visit callback ds (visit callback cs context).2.1).2.1,
          (visit callback cs context).2.2 ++ (visit callback ds (visit callback cs context).2.1).2.2)
      else visit callback cs context := by
  induction cs generalizing context with
  | nil => rfl
  | cons c cs ih =>
    simp only [cons_append, visit]
    cases (callback c.key c.value context).shouldContinue with
    | false => rfl
    | true =>
      simp only [if_true, ih]
      split <;> simp

variable [DecidableEq K] {cs : List (Cell K V)} {c : Cell K V} (context : S)

structure Elsewhere (map : Hashmap K V) (chains : Nat → List Nat) (i : Nat) (rest : List Nat) (map' : Hashmap K V)
    (chains' : Nat → List Nat) : Prop where
  bucketCount_eq : map'.bucketCount = map.bucketCount
  chains_eq : ∀ j, j ≠ i → chains' j = chains j
  cells_eq : ∀ a, a ∉ rest → map'.cells a = map.cells a

theorem hashmapRemove_at (hg : Good ops map chains ents) {i a : Nat} {l₁ l₂ : List Nat}
    (hi : chains i = l₁ ++ a :: l₂) (hc : map.cells a = some c) :
    hashmapRemove ops map c.key = some (some c.value, map.freeEntry ((Place.head i).after l₁) a) := by
  obtain ⟨ha, c', hc', hin⟩ := (hg.mem i a).mp (hi ▸ mem_append_cons_self)
  rw [hc] at hc'
  cases hc'
  have hb : map.bucketOf ops c.key = i := by rw [Hashmap.bucketOf, ← hg.hash_of_cell ha hc, hin]
  have hf := hg.findKey_at (hb.symm ▸ hi) hc (.refl c.key)
  rw [hb] at hf
  simp only [hashmapRemove, hf, Option.bind_eq_bind, Option.bind_some, hc]

theorem runCallback_spec {i a : Nat}
    {done rest : List Nat} (hg : Good ops map chains ents) (hr : Reads ops map ents dict)
    (hi : chains i = done ++ a :: rest) (hp : Linked map.links.next (map.links.next a) rest)
    (hc : map.cells a = some c) : ∃ map₁ chains₁ ents₁ done₁,
      runCallback ops callback map context c = some ((callback c.key c.value context).shouldContinue, map₁,
        (callback c.key c.value context).context) ∧
      Good ops map₁ chains₁ ents₁ ∧
      Reads ops map₁ ents₁
        ((if (callback c.key c.value context).remove then [c.key] else []).foldl (removeKey ops) dict) ∧
      chains₁ i = done₁ ++ rest ∧ Linked map₁.links.next (map.links.next a) rest ∧
      Elsewhere map chains i [a] map₁ chains₁ := by
  rw [runCallback]
  cases (callback c.key c.value context).remove with
  | false =>
    refine ⟨map, chains, ents, done ++ [a], rfl, hg, hr, ?_, hp, rfl, fun _ _ => rfl, fun _ _ => rfl⟩
    rw [hi, append_assoc]
    rfl
  | true =>
    have ha : a ∈ ents := ((hg.mem i a).mp (hi ▸ mem_append_cons_self)).1
    have hn : (done ++ a :: rest).Nodup := hi ▸ (hg.table.linked i).nodup
    refine ⟨_, _, _, done, ?_, hg.unlink hi, hr.freeEntry hg ha hc (.refl c.key) _, ?_, ?_, rfl, ?_, ?_⟩
    · simp only [if_true, hashmapRemove_at hg hi hc, Option.map_some]
    · rw [update_self]
    · apply Links.linked_set_after hp
      intro b hb hd
      exact (nodup_append.mp hn).2.2 b hd b (mem_cons_of_mem a hb) rfl
    · exact fun j hj => update_of_ne hj _ _
    · exact fun b hb => update_of_ne (fun heq : b = a => hb (mem_singleton.mpr heq)) _ _

theorem forEachEntry_spec {i : Nat} {done rest : List Nat}
    {p : Option Nat} {fuel : Nat} (hg : Good ops map chains ents)
    (hr : Reads ops map ents dict) (hi : chains i = done ++ rest) (hp : Linked map.links.next p rest)
    (hcs : rest.map map.cells = cs.map some) (hf : rest.length ≤ fuel) : ∃ map' chains' ents',
      forEachEntry ops callback fuel p (map, context) =
        some ((visit callback cs context).1, map', (visit callback cs context).2.1) ∧
      Good ops map' chains' ents' ∧ Reads ops map' ents' ((visit callback cs context).2.2.foldl (removeKey ops) dict) ∧
      Elsewhere map chains i rest map' chains' := by
  induction rest generalizing map chains ents dict done p cs context fuel with
  | nil =>
    obtain rfl : cs = [] := by simpa using hcs.symm
    rw [linked_nil.mp hp]
    refine ⟨map, chains, ents, ?_, hg, hr, rfl, fun _ _ => rfl, fun _ _ => rfl⟩
    rw [forEachEntry, visit]
  | cons a rest ih =>
    obtain ⟨fuel, rfl⟩ := Nat.exists_eq_succ_of_ne_zero (Nat.ne_zero_of_lt hf)
    cases cs with
    | nil => cases hcs
    | cons c cs =>
      obtain ⟨hc, hcs⟩ := cons.inj hcs
      obtain ⟨map₁, chains₁, ents₁, done₁, hrun, hg₁, hr₁, hi₁, hp₁, he₁⟩ :=
        runCallback_spec callback context hg hr hi hp.2 hc
      have hcs₁ : rest.map map₁.cells = cs.map some := by
        rw [← hcs]
        apply map_congr_left
        intro b hb
        apply he₁.cells_eq
        rw [mem_singleton]
        rintro rfl
        exact (nodup_cons.mp hp.nodup).1 hb
      have hs : forEachEntry ops callback (fuel + 1) (some a) (map, context) =
          if (callback c.key c.value context).shouldContinue then
            forEachEntry ops callback fuel (map.links.next a) (map₁, (callback c.key c.value context).context)
          else some (false, map₁, (callback c.key c.value context).context) := by
        simp only [forEachEntry, hc, hrun, Option.bind_eq_bind, Option.bind_some]
      rw [hp.1, hs, visit]
      cases (callback c.key c.value context).shouldContinue with
      | false =>
        refine ⟨map₁, chains₁, ents₁, rfl, hg₁, hr₁, he₁.bucketCount_eq, he₁.chains_eq, fun b hb => ?_⟩
        exact he₁.cells_eq b fun hba => hb (mem_singleton.mp hba ▸ mem_cons_self)
      | true =>
        obtain ⟨map', chains', ents', hl, hg', hr', he⟩ :=
          ih (callback c.key c.value context).context hg₁ hr₁ hi₁ hp₁ hcs₁ (Nat.le_of_succ_le_succ hf)
        refine ⟨map', chains', ents', hl, hg', ?_, he.bucketCount_eq.trans he₁.bucketCount_eq, ?_, ?_⟩
        · rw [if_pos rfl, foldl_append]
          exact hr'
        · exact fun j hj => (he.chains_eq j hj).trans (he₁.chains_eq j hj)
        · intro b hb
          rw [mem_cons, not_or] at hb
          rw [he.cells_eq b hb.2, he₁.cells_eq b fun hba => hb.1 (mem_singleton.mp hba)]

theorem forEachBucket_spec {rounds i : Nat} (hg : Good ops map chains ents) (hr : Reads ops map ents dict)
    (hcs : ((range' i rounds).flatMap chains).map map.cells = cs.map some) : ∃ map',
      forEachBucket ops callback rounds i (map, context) =
        some ((visit callback cs context).1, map', (visit callback cs context).2.1) ∧
      Represents ops map' ((visit callback cs context).2.2.foldl (removeKey ops) dict) := by
  induction rounds generalizing map chains ents dict context i cs with
  | zero =>
    obtain rfl : cs = [] := by simpa using hcs.symm
    exact ⟨map, rfl, chains, ents, hg, hr⟩
  | succ rounds ih =>
    rw [range'_succ, flatMap_cons, map_append] at hcs
    obtain ⟨cs₁, cs₂, rfl, hcs₁, hcs₂⟩ := map_eq_append_iff.mp hcs.symm
    obtain ⟨map₁, chains₁, ents₁, hrun, hg₁, hr₁, he⟩ := forEachEntry_spec callback context hg hr
      (show chains i = [] ++ chains i from rfl) (hg.table.linked i) hcs₁.symm
      ((hg.length_chain_le i).trans (Nat.le_succ _))
    have hs : forEachBucket ops callback (rounds + 1) i (map, context) =
        if (visit callback cs₁ context).1 then
          forEachBucket ops callback rounds (i + 1) (map₁, (visit callback cs₁ context).2.1)
        else some (false, map₁, (visit callback cs₁ context).2.1) := by
      simp only [forEachBucket, hrun, Option.bind_eq_bind, Option.bind_some]
    rw [hs, visit_append]
    cases hgo : (visit callback cs₁ context).1 with
    | false => exact ⟨map₁, by simp [hgo], chains₁, ents₁, hg₁, by simpa using hr₁⟩
    | true =>
      -- the later buckets are as they were
      have hc : (range' (i + 1) rounds).flatMap chains₁ = (range' (i + 1) rounds).flatMap chains := by
        apply flatMap_congr
        intro j hj
        apply he.chains_eq
        have := (mem_range'_1.mp hj).1
        omega
      have hcs₂' : ((range' (i + 1) rounds).flatMap chains₁).map map₁.cells = cs₂.map some := by
        rw [hc, hcs₂]
        apply map_congr_left
        intro a ha
        obtain ⟨j, hj, haj⟩ := mem_flatMap.mp ha
        apply he.cells_eq
        intro hai
        have := hg.table.disjoint haj hai
        have := (mem_range'_1.mp hj).1
        omega
      obtain ⟨map', hl, hrep⟩ := ih (visit callback cs₁ context).2.1 hg₁ hr₁ hcs₂'
      refine ⟨map', ?_, ?_⟩
      · simpa using hl
      · rw [if_pos rfl, foldl_append]
        exact hrep

theorem map_eq_map_some {α β : Type} (f : α → Option β) {l : List α} (h : ∀ a ∈ l, ∃ b, f a = some b) :
    l.map f = (l.filterMap f).map some := by
  induction l with
  | nil => rfl
  | cons a l ih =>
    obtain ⟨b, hb⟩ := h a mem_cons_self
    rw [map_cons, filterMap_cons_some hb, map_cons, hb, ih fun c hc => h c (mem_cons_of_mem a hc)]

/-- One list of keys and values, no two keys the same, has `hashmapForEach` call every callback on its elements
in turn, also when the callback removes keys. -/
theorem hashmapForEach_spec (h : Represents ops map dict) : ∃ cs : List (Cell K V),
    cs.length = map.size ∧ cs.Pairwise (fun c d => ¬Same ops c.key d.key) ∧
    (∀ c ∈ cs, dict c.key = some c.value) ∧ (∀ key, dict key ≠ none → ∃ c ∈ cs, Same ops c.key key) ∧
    ∀ {S : Type} (callback : K → V → S → Verdict S) (context : S), ∃ map',
      hashmapForEach ops callback map context =
        some ((visit callback cs context).1, map', (visit callback cs context).2.1) ∧
      Represents ops map' ((visit callback cs context).2.2.foldl (removeKey ops) dict) := by
  obtain ⟨chains, ents, hg, hr⟩ := h
  have hmem : ∀ a, a ∈ (range' 0 map.bucketCount).flatMap chains ↔ a ∈ ents := by
    intro a
    rw [mem_flatMap]
    constructor
    · rintro ⟨i, -, ha⟩
      exact ((hg.mem i a).mp ha).1
    · intro ha
      obtain ⟨c, hc, -⟩ := hg.cell a ha
      refine ⟨calculateIndex map.bucketCount c.hash, ?_, (hg.mem _ a).mpr ⟨ha, c, hc, rfl⟩⟩
      have := calculateIndex_lt hg.pos c.hash
      rw [mem_range'_1]
      omega
  have hn : ((range' 0 map.bucketCount).flatMap chains).Nodup := by
    rw [nodup_flatMap]
    refine ⟨fun i _ => (hg.table.linked i).nodup, ?_⟩
    apply Pairwise.imp _ nodup_range'
    intro i j hij a hai haj
    exact hij (hg.table.disjoint hai haj)
  have hce : ∀ a ∈ (range' 0 map.bucketCount).flatMap chains, ∃ c, map.cells a = some c := fun a ha =>
    (hg.cell a ((hmem a).mp ha)).imp fun c hc => hc.1
  have hcs := map_eq_map_some map.cells hce
  refine ⟨((range' 0 map.bucketCount).flatMap chains).filterMap map.cells, ?_, ?_, ?_, ?_, ?_⟩
  · have hlen := congrArg length hcs
    rw [length_map, length_map] at hlen
    rw [← hlen, hg.size_eq]
    exact ((perm_ext_iff_of_nodup hn hg.nodup).mpr hmem).length_eq
  · rw [pairwise_filterMap]
    apply Pairwise.imp_of_mem _ hn
    intro a b ha hb hab c hc d hd hs
    exact hab (hg.distinct a ((hmem a).mp ha) b ((hmem b).mp hb) c d hc hd hs)
  · intro c hc
    obtain ⟨a, ha, hac⟩ := mem_filterMap.mp hc
    exact hr.hit ((hmem a).mp ha) hac (.refl c.key)
  · intro key hkey
    obtain ⟨value, hv⟩ := Option.ne_none_iff_exists'.mp hkey
    obtain ⟨a, ha, c, hc, hs, -⟩ := hr.present hv
    exact ⟨c, mem_filterMap.mpr ⟨a, (hmem a).mpr ha, hc⟩, hs⟩
  · intro S callback context
    exact forEachBucket_spec callback context hg hr hcs

end Bionic.Cutils
