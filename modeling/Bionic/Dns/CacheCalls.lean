import Bionic.Dns.Cache

namespace Bionic.Dns

open Lib Function List Option

variable {cache : Cache} {chains : Nat → List Nat} {lru lru₁ lru₂ : List (Nat × Entry)} {x : Nat × Entry}
  {fuel : Nat}

theorem Shows.of_pending (h : Shows cache chains lru) (pending : List UInt32) :
    Shows { cache with pending := pending } chains lru :=
  ⟨h.pos, h.table, h.ring, h.cells, h.mem, h.self, h.distinct, h.num, h.le⟩

section Remove

theorem Shows.other (h : Shows cache chains (lru₁ ++ x :: lru₂)) {y : Nat × Entry} (hy : y ∈ lru₁ ++ lru₂) : y.1 ≠ x.1 := by
  have hn := h.nodup
  rw [map_append, map_cons, nodup_middle, nodup_cons, ← map_append] at hn
  intro heq
  exact hn.1 (heq ▸ mem_map_of_mem hy)

theorem Shows.removeP (h : Shows cache chains (lru₁ ++ x :: lru₂)) {i : Nat} {l₁ l₂ : List Nat}
    (hs : chains i = l₁ ++ x.1 :: l₂) : ∃ cache',
      cache.removeP ((Place.head i).after l₁) = some cache' ∧
      Shows cache' (update chains i (l₁ ++ l₂)) (lru₁ ++ lru₂) ∧ cache'.maxEntries = cache.maxEntries := by
  have hx : x ∈ lru₁ ++ x :: lru₂ := mem_append_cons_self
  have hl : Linked cache.links.next (cache.links.get (.head i)) (l₁ ++ x.1 :: l₂) := hs ▸ h.table.linked i
  have hget := Links.get_after hl
  rw [head?_cons] at hget
  have hold : ∀ y ∈ lru₁ ++ lru₂, y ∈ lru₁ ++ x :: lru₂ := by
    intro y hy
    rw [mem_append] at hy
    rw [mem_append, mem_cons]
    exact hy.imp_right .inr
  have hxi : x.1 ∈ chains i := hs ▸ mem_append_cons_self
  have hr : ∀ j, ∀ a ∈ update chains i (l₁ ++ l₂) j, a ∈ chains j := by
    intro j a ha
    rw [update_apply] at ha
    split_ifs at ha with hj
    · rw [hj, hs, mem_append, mem_cons]
      exact (mem_append.mp ha).imp_right .inr
    · exact ha
  refine ⟨cache.dropEntry ((Place.head i).after l₁) x.1, ?_, ⟨h.pos, h.table.unlink hs, ?_, ?_, ?_, ?_, ?_, ?_, ?_⟩,
    rfl⟩
  · rw [Cache.removeP, hget, bind_eq_bind, bind_some, h.cells x hx]
    rfl
  · have hri := h.ring
    rw [map_append] at hri
    rw [map_append]
    exact hri.remove
  · intro y hy
    rw [← h.cells y (hold y hy)]
    exact update_of_ne (h.other hy) _ _
  · intro j a
    constructor
    · intro ha
      obtain ⟨e, he, hi⟩ := (h.mem j a).mp (hr j a ha)
      refine ⟨e, ?_, hi⟩
      rw [mem_append, mem_cons] at he
      rcases he with he | rfl | he
      · exact mem_append_left _ he
      · have hj : j = i := h.table.disjoint (hr j a ha) hxi
        subst hj
        rw [update_self] at ha
        have hn : (l₁ ++ a :: l₂).Nodup := hs ▸ (h.table.linked j).nodup
        exact absurd ha (nodup_cons.mp (nodup_middle.mp hn)).1
      · exact mem_append_right _ he
    · rintro ⟨e, he, hi⟩
      have ha := (h.mem j a).mpr ⟨e, hold _ he, hi⟩
      by_cases hj : j = i
      · subst hj
        have hne : a ≠ x.1 := h.other he
        rw [hs, mem_append, mem_cons] at ha
        rw [update_self, mem_append]
        exact ha.imp_right fun ha => ha.resolve_left hne
      · rwa [update_of_ne hj]
  · exact fun y hy => h.self y (hold y hy)
  · intro j
    have hsub : (update chains i (l₁ ++ l₂) j).Sublist (chains j) := by
      by_cases hj : j = i
      · subst hj
        rw [update_self, hs]
        exact (Sublist.refl l₁).append (sublist_cons_self _ _)
      · rw [update_of_ne hj]
    exact ((h.distinct j).sublist hsub).imp fun hab d e hd he => hab d e (hold _ hd) (hold _ he)
  · have := h.num
    simp only [length_append, length_cons, Cache.dropEntry] at this ⊢
    omega
  · exact (Nat.sub_le _ _).trans h.le

end Remove

/-- A new entry goes to the end of its chain and to the front of the MRU list. -/
theorem Shows.addP (h : Shows cache chains lru) {hash : UInt32} {query : List UInt8} {entry : Nat}
    (habs : ∀ y ∈ lru, y.2.matches hash query = false) (hs : entryEquals query query)
    (hf : cache.cells entry = none) (hr : cache.numEntries < cache.maxEntries) (answer : List UInt8)
    (expires : Int) : ∃ chains' e,
      Shows (cache.addP ((Place.head (cache.index hash)).after (chains (cache.index hash))) entry hash query answer expires)
        chains' ((entry, e) :: lru) ∧
      e.query = query ∧ e.answer = answer ∧ e.expires = expires := by
  have hnew := h.not_mem_of_free hf
  have hc : ∀ i, entry ∉ chains i := by
    intro i hi
    obtain ⟨e, he, -⟩ := (h.mem i entry).mp hi
    exact hnew (mem_map_of_mem he)
  have hne : ∀ y ∈ lru, y.1 ≠ entry := fun y hy heq => hnew (heq ▸ mem_map_of_mem hy)
  have hn : ∀ e, (entry, e) ∉ lru := fun e he => hne _ he rfl
  refine ⟨update chains (cache.index hash) (chains (cache.index hash) ++ [entry]),
    ⟨hash, query, answer, expires, cache.lastId + 1⟩, ⟨h.pos, ?_, ?_, ?_, ?_, ?_, ?_, ?_, hr⟩, rfl, rfl, rfl⟩
  · exact (h.table.set_next hc none).append hc (update_self ..)
  · exact h.ring.pushFront hnew
  · refine forall_mem_cons.mpr ⟨update_self .., fun y hy => ?_⟩
    rw [← h.cells y hy]
    exact update_of_ne (hne y hy) _ _
  · intro i a
    by_cases ha : a = entry
    · subst ha
      by_cases hi : i = cache.index hash
      · subst hi
        simp only [update_self, mem_append, mem_singleton, or_true, true_iff]
        exact ⟨_, mem_cons_self, rfl⟩
      · rw [update_of_ne hi]
        refine iff_of_false (hc i) ?_
        rintro ⟨e, he, hin⟩
        rcases mem_cons.mp he with heq | he
        · cases heq
          exact hi hin.symm
        · exact hn e he
    · have hold : (∃ e, (a, e) ∈ (entry, Entry.mk hash query answer expires (cache.lastId + 1)) :: lru ∧
          cache.index e.hash = i) ↔ ∃ e, (a, e) ∈ lru ∧ cache.index e.hash = i := by
        simp [ha]
      refine Iff.trans ?_ hold.symm
      rw [← h.mem]
      by_cases hi : i = cache.index hash
      · subst hi
        simp [ha]
      · rw [update_of_ne hi]
  · exact forall_mem_cons.mpr ⟨hs, h.self⟩
  · intro i
    have hold : (chains i).Pairwise fun a b => ∀ d e,
        (a, d) ∈ (entry, Entry.mk hash query answer expires (cache.lastId + 1)) :: lru →
        (b, e) ∈ (entry, Entry.mk hash query answer expires (cache.lastId + 1)) :: lru →
        ¬d.matches e.hash e.query := by
      refine (h.distinct i).imp_of_mem ?_
      intro a b ha hb hab d e hd he
      refine hab d e ((mem_cons.mp hd).resolve_left ?_) ((mem_cons.mp he).resolve_left ?_)
      · rintro ⟨⟩
        exact hc i ha
      · rintro ⟨⟩
        exact hc i hb
    by_cases hi : i = cache.index hash
    · subst hi
      rw [update_self, pairwise_append]
      refine ⟨hold, pairwise_singleton _ _, ?_⟩
      intro a ha b hb d e hd he
      obtain rfl := mem_singleton.mp hb
      have hda : (a, d) ∈ lru := by
        refine (mem_cons.mp hd).resolve_left ?_
        rintro ⟨⟩
        exact hc _ ha
      rcases mem_cons.mp he with heq | he
      · cases heq
        rw [habs _ hda]
        exact Bool.false_ne_true
      · exact absurd he (hn e)
    · rw [update_of_ne hi]
      exact hold
  · rw [length_cons, ← h.num]
    rfl

theorem Shows.bump (h : Shows cache chains (lru₁ ++ x :: lru₂)) :
    Shows { cache with mru := (cache.mru.remove x.1).pushFront x.1 } chains (x :: (lru₁ ++ lru₂)) := by
  have hp : (x :: (lru₁ ++ lru₂)).Perm (lru₁ ++ x :: lru₂) := perm_middle.symm
  have hr := h.ring
  rw [map_append] at hr
  refine ⟨h.pos, h.table, ?_, ?_, ?_, ?_, ?_, ?_, h.le⟩
  · rw [map_cons, map_append]
    apply hr.remove.pushFront
    rw [← map_append]
    intro hx
    obtain ⟨y, hy, heq⟩ := mem_map.mp hx
    exact h.other hy heq
  · exact fun y hy => h.cells y (hp.mem_iff.mp hy)
  · intro i a
    rw [h.mem]
    simp only [hp.mem_iff]
    rfl
  · exact fun y hy => h.self y (hp.mem_iff.mp hy)
  · intro i
    simp only [hp.mem_iff]
    exact h.distinct i
  · rw [hp.length_eq]
    exact h.num

def unexpired (now : Int) (lru : List (Nat × Entry)) : List (Nat × Entry) := lru.filter fun x => now < x.2.expires

def roomIn (maxEntries : Nat) (now : Int) (lru : List (Nat × Entry)) : List (Nat × Entry) :=
  if maxEntries ≤ lru.length then
    if maxEntries ≤ (unexpired now lru).length then (unexpired now lru).dropLast else unexpired now lru
  else lru

theorem roomIn_sublist (maxEntries : Nat) (now : Int) (lru : List (Nat × Entry)) :
    (roomIn maxEntries now lru).Sublist lru := by
  rw [roomIn]
  split
  · split
    · exact (dropLast_sublist _).trans filter_sublist
    · exact filter_sublist
  · exact Sublist.refl lru

section Room

/-- The loop over the MRU list removes the entries that have expired from the part it still has to go through. -/
theorem Shows.removeExpiredFrom {now : Int} {done rest : List (Nat × Entry)}
    (h : Shows cache chains (done ++ rest)) (hf : rest.length ≤ fuel) : ∃ cache' chains',
      Cache.removeExpiredFrom now fuel (rest.map Prod.fst).head? cache = some cache' ∧
      Shows cache' chains' (done ++ unexpired now rest) ∧ cache'.maxEntries = cache.maxEntries := by
  induction rest generalizing cache chains done fuel with
  | nil => exact ⟨cache, chains, by rw [map_nil, head?_nil, Cache.removeExpiredFrom], h, rfl⟩
  | cons x rest ih =>
    obtain ⟨fuel, rfl⟩ := Nat.exists_eq_succ_of_ne_zero (Nat.ne_zero_of_lt hf)
    have hf := Nat.le_of_succ_le_succ hf
    have hx : x ∈ done ++ x :: rest := mem_append_cons_self
    have hn : cache.mru.next (some x.1) = (rest.map Prod.fst).head? := by
      have hr := h.ring
      rw [map_append, map_cons] at hr
      exact hr.next_at
    simp only [map_cons, head?_cons, Cache.removeExpiredFrom, h.cells x hx, bind_eq_bind,
      bind_some, hn, unexpired, filter_cons]
    by_cases hnow : now ≥ x.2.expires
    · obtain ⟨l₁, l₂, hs, hlo⟩ := h.lookupP_self hx
      obtain ⟨cache₁, hre, h₁, hmax₁⟩ := h.removeP hs
      obtain ⟨cache', chains', hl, h', hmax'⟩ := ih h₁ hf
      refine ⟨cache', chains', ?_, ?_, hmax'.trans hmax₁⟩
      · simp only [if_pos hnow, hlo, bind_some, hre]
        exact hl
      · rw [decide_eq_false (by omega)]
        exact h'
    · have hs : done ++ x :: rest = (done ++ [x]) ++ rest := by rw [append_assoc, singleton_append]
      rw [hs] at h
      obtain ⟨cache', chains', hl, h', hmax'⟩ := ih h hf
      refine ⟨cache', chains', ?_, ?_, hmax'⟩
      · rw [if_neg hnow]
        exact hl
      · rw [decide_eq_true (by omega), if_pos rfl, ← singleton_append, ← append_assoc]
        exact h'

theorem Shows.removeExpired (h : Shows cache chains lru) (now : Int) : ∃ cache' chains',
    cache.removeExpired now = some cache' ∧ Shows cache' chains' (unexpired now lru) ∧
    cache'.maxEntries = cache.maxEntries := by
  have hf : cache.mru.next none = (lru.map Prod.fst).head? := DLinks.Path.next_start h.ring
  rw [Cache.removeExpired, hf]
  have hw : Shows cache chains ([] ++ lru) := h
  exact hw.removeExpiredFrom (le_of_eq h.num.symm)

theorem Shows.removeOldest (h : Shows cache chains (lru ++ [x])) : ∃ cache' chains',
    cache.removeOldest = some cache' ∧ Shows cache' chains' lru ∧
    cache'.maxEntries = cache.maxEntries := by
  have hx : x ∈ lru ++ [x] := mem_append_cons_self
  have hla : cache.mru.prev none = some x.1 := by
    have hpr := DLinks.Path.prev_end h.ring
    rwa [map_append, map_singleton, DLinks.lastFrom_concat] at hpr
  obtain ⟨l₁, l₂, hs, hl⟩ := h.lookupP_self hx
  obtain ⟨cache', hr, h', hmax⟩ := h.removeP hs
  rw [append_nil] at h'
  refine ⟨cache', _, ?_, h', hmax⟩
  simp only [Cache.removeOldest, hla, bind_eq_bind, bind_some, h.cells x hx, hl, hr]

theorem Shows.makeRoom (h : Shows cache chains lru) (now : Int) : ∃ cache' chains',
    makeRoom now cache = some cache' ∧ Shows cache' chains' (roomIn cache.maxEntries now lru) ∧
    cache'.maxEntries = cache.maxEntries ∧ (cache.numEntries < cache.maxEntries → cache' = cache ∧ chains' = chains) := by
  rw [Dns.makeRoom, roomIn, ← h.num]
  by_cases hf : cache.maxEntries ≤ cache.numEntries
  · obtain ⟨cache₁, chains₁, he, h₁, hmax₁⟩ := h.removeExpired now
    rw [if_pos hf, if_pos hf, he, bind_eq_bind, bind_some, hmax₁, h₁.num]
    by_cases hs : cache.maxEntries ≤ (unexpired now lru).length
    · have hne : unexpired now lru ≠ [] := ne_nil_of_length_pos (h.pos.trans_le hs)
      rw [← dropLast_append_getLast hne] at h₁
      obtain ⟨cache', chains', holdest, h', hmax'⟩ := h₁.removeOldest
      refine ⟨cache', chains', ?_, ?_, hmax'.trans hmax₁, fun hlt => absurd hf (by omega)⟩
      · rw [if_pos hs, holdest]
      · rwa [if_pos hs]
    · refine ⟨cache₁, chains₁, ?_, ?_, hmax₁, fun hlt => absurd hf (by omega)⟩
      · rw [if_neg hs]
      · rwa [if_neg hs]
  · rw [if_neg hf, if_neg hf]
    exact ⟨cache, chains, rfl, h, rfl, fun _ => ⟨rfl, rfl⟩⟩

theorem length_roomIn_lt {maxEntries : Nat} (hmax : 0 < maxEntries) (hle : lru.length ≤ maxEntries) (now : Int) :
    (roomIn maxEntries now lru).length < maxEntries := by
  have hsub : (unexpired now lru).length ≤ lru.length := length_filter_le _ _
  rw [roomIn]
  split
  · split
    · rw [length_dropLast]
      omega
    · omega
  · omega

end Room

section Flush

structure Flushing (cache : Cache) (chains : Nat → List Nat) : Prop where
  table : cache.links.Table chains
  cells : ∀ i, ∀ a ∈ chains i, ∃ e, cache.cells a = some e

theorem Flushing.flushChain {nn : Nat} {l : List Nat} (h : Flushing cache chains) (hl : chains nn = l)
    (hf : l.length < fuel) : ∃ cache', Cache.flushChain nn fuel cache = some cache' ∧
      Flushing cache' (update chains nn []) ∧ cache'.maxEntries = cache.maxEntries := by
  induction l generalizing cache chains fuel with
  | nil =>
    obtain ⟨fuel, rfl⟩ := Nat.exists_eq_succ_of_ne_zero (Nat.ne_zero_of_lt hf)
    have hh := h.table.linked nn
    rw [hl, linked_nil] at hh
    refine ⟨cache, ?_, ?_, rfl⟩
    · rw [Cache.flushChain, hh]
    · rwa [← hl, update_eq_self]
  | cons a l ih =>
    obtain ⟨fuel, rfl⟩ := Nat.exists_eq_succ_of_ne_zero (Nat.ne_zero_of_lt hf)
    have hh := h.table.linked nn
    rw [hl, linked_cons] at hh
    obtain ⟨e, he⟩ := h.cells nn a (hl ▸ mem_cons_self)
    have hs : chains nn = [] ++ a :: l := hl
    have h₁ : Flushing
        { cache with
          links := cache.links.set (.head nn) (cache.links.next a)
          cells := update cache.cells a none }
        (update chains nn l) := by
      refine ⟨h.table.unlink hs, ?_⟩
      intro i b hb
      have hne : b ≠ a := by
        rintro rfl
        by_cases hi : i = nn
        · subst hi
          rw [update_self] at hb
          have hn := (h.table.linked i).nodup
          rw [hl] at hn
          exact (nodup_cons.mp hn).1 hb
        · rw [update_of_ne hi] at hb
          exact hi (h.table.disjoint hb (hl ▸ mem_cons_self))
      have hold : b ∈ chains i := by
        rw [update_apply] at hb
        split_ifs at hb with hi
        · exact hi ▸ hl ▸ mem_cons_of_mem a hb
        · exact hb
      obtain ⟨d, hd⟩ := h.cells i b hold
      exact ⟨d, (update_of_ne hne _ _).trans hd⟩
    obtain ⟨cache', hlo, h', hmax⟩ := ih h₁ (update_self ..) (Nat.lt_of_succ_lt_succ hf)
    rw [update_idem] at h'
    refine ⟨cache', ?_, h', hmax⟩
    simp only [Cache.flushChain, hh.1, he]
    exact hlo

theorem Flushing.flushChains (is : List Nat) (h : Flushing cache chains)
    (hf : ∀ i, (chains i).length < fuel) : ∃ cache',
      is.foldlM (fun c nn => Cache.flushChain nn fuel c) cache = some cache' ∧
      Flushing cache' (fun i => if i ∈ is then [] else chains i) ∧ cache'.maxEntries = cache.maxEntries := by
  induction is generalizing cache chains with
  | nil => exact ⟨cache, rfl, by simpa using h, rfl⟩
  | cons nn is ih =>
    obtain ⟨cache₁, hc, h₁, hmax₁⟩ := h.flushChain rfl (hf nn)
    have hf₁ : ∀ i, (update chains nn [] i).length < fuel := by
      intro i
      rw [update_apply]
      split_ifs
      · exact (Nat.zero_le _).trans_lt (hf i)
      · exact hf i
    obtain ⟨cache', hl, h', hmax'⟩ := ih h₁ hf₁
    refine ⟨cache', ?_, ?_, hmax'.trans hmax₁⟩
    · rw [foldlM_cons, hc]
      exact hl
    · convert h' using 2 with i
      by_cases hi : i = nn
      · simp [hi]
      · simp [hi]

theorem Shows.flush (h : Shows cache chains lru) : ∃ cache',
    cache.flush = some cache' ∧ Shows cache' (fun _ => []) [] := by
  have hf : Flushing cache chains := by
    refine ⟨h.table, fun i a ha => ?_⟩
    obtain ⟨e, he, -⟩ := (h.mem i a).mp ha
    exact ⟨e, h.cells _ he⟩
  obtain ⟨cache', hl, h', hmax⟩ := hf.flushChains (range cache.maxEntries)
    fun i => Nat.lt_succ_of_le (h.length_chain_le i)
  have hem : (fun i => if i ∈ range cache.maxEntries then [] else chains i) = fun _ => [] := by
    funext i
    split
    · rfl
    · rename_i hi
      rw [mem_range] at hi
      refine eq_nil_iff_forall_not_mem.mpr fun a ha => hi ?_
      obtain ⟨e, -, rfl⟩ := (h.mem i a).mp ha
      exact Nat.mod_lt _ h.pos
  rw [hem] at h'
  refine ⟨cache'.reset, by rw [Cache.flush, hl, map_some], ⟨?_, h'.table, ?_, ?_, ?_, ?_, ?_, rfl, Nat.zero_le _⟩⟩
  · exact hmax ▸ h.pos
  · simp [DLinks.Ring, DLinks.Path, Cache.reset]
  · simp
  · simp
  · simp
  · exact fun _ => Pairwise.nil

end Flush

end Bionic.Dns
