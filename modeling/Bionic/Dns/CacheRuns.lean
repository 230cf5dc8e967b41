import Bionic.Dns.CacheCalls
import Bionic.Lib.System

namespace Bionic.Dns

open Lib Function List Option

variable {cache : Cache} {chains : Nat → List Nat} {lru : List (Nat × Entry)}
  {query : List UInt8}

/-- A lookup changes nothing, drops a matching entry that has expired, or returns the answer of a matching one
and makes it the most recently used. -/
inductive LookupOutcome (query : List UInt8) (now : Int) (lru : List (Nat × Entry)) :
    LookupResult → List (Nat × Entry) → Prop
  | unchanged (r : LookupResult) (hr : ∀ e answer, r ≠ .found e answer) : LookupOutcome query now lru r lru
  | stale (lru₁ : List (Nat × Entry)) (x : Nat × Entry) (lru₂ : List (Nat × Entry)) (hlru : lru = lru₁ ++ x :: lru₂)
      (hexpired : x.2.expires ≤ now) : LookupOutcome query now lru .notFound (lru₁ ++ lru₂)
  | found (lru₁ : List (Nat × Entry)) (x : Nat × Entry) (lru₂ : List (Nat × Entry)) (hlru : lru = lru₁ ++ x :: lru₂)
      (hequals : entryEquals x.2.query query) (hnow : now < x.2.expires) :
      LookupOutcome query now lru (.found x.1 x.2.answer) (x :: (lru₁ ++ lru₂))

def Looks (query : List UInt8) (now : Int) (lru : List (Nat × Entry)) (call : Option (LookupResult × Cache)) : Prop :=
  ∃ r cache' chains' lru', call = some (r, cache') ∧ LookupOutcome query now lru r lru' ∧ Shows cache' chains' lru'

theorem lookupEntry_spec (h : Shows cache chains lru) {y : Nat × Entry} (hy : y ∈ lru)
    (hm : y.2.matches (hashQuery query) query) {i : Nat} {l₁ l₂ : List Nat}
    (hs : chains i = l₁ ++ y.1 :: l₂) (answersize : Nat) (now : Int) :
    Looks query now lru (lookupEntry cache ((Place.head i).after l₁) y.1 answersize now) := by
  have heq : entryEquals y.2.query query := by
    rw [Entry.matches, Bool.and_eq_true] at hm
    exact hm.2
  have hc := h.cells y hy
  obtain ⟨lru₁, lru₂, rfl⟩ := append_of_mem hy
  by_cases he : now ≥ y.2.expires
  · obtain ⟨cache', hr, h', -⟩ := h.removeP hs
    refine ⟨.notFound, cache', _, _, ?_, .stale lru₁ y lru₂ rfl he, h'⟩
    simp only [lookupEntry, hc, bind_eq_bind, bind_some, if_pos he, hr]
  · by_cases hl : y.2.answer.length > answersize
    · refine ⟨.unsupported, cache, chains, _, ?_, .unchanged _ (by simp), h⟩
      simp only [lookupEntry, hc, bind_eq_bind, bind_some, if_neg he, if_pos hl]
    · have hnow : now < y.2.expires := by omega
      by_cases hf : some y.1 = cache.mru.next none
      · -- an entry that is the first one already stays where it is
        have hnil : lru₁ = [] := by
          cases lru₁ with
          | nil => rfl
          | cons z lru₁ =>
            have hh : cache.mru.next none = some z.1 := DLinks.Path.next_start h.ring
            rw [hh] at hf
            exact absurd (some.inj hf).symm (h.other mem_cons_self)
        subst hnil
        refine ⟨.found y.1 y.2.answer, cache, chains, _, ?_, .found [] y lru₂ rfl heq hnow, h⟩
        simp only [lookupEntry, hc, bind_eq_bind, bind_some, if_neg he, if_neg hl,
          if_neg (not_not_intro hf)]
      · refine ⟨.found y.1 y.2.answer, _, chains, _, ?_, .found lru₁ y lru₂ rfl heq hnow, h.bump⟩
        simp only [lookupEntry, hc, bind_eq_bind, bind_some, if_neg he, if_neg hl,
          if_pos hf]

theorem Shows.resumeLookup (h : Shows cache chains lru) (query : List UInt8) (answersize : Nat) (now : Int) :
    Looks query now lru (resumeLookup cache query answersize now) := by
  rcases h.lookupP_cases (hashQuery query) query with ⟨-, hl⟩ | ⟨y, hy, hm, l₁, l₂, hs, hl⟩
  · refine ⟨.notFound, cache, chains, lru, ?_, .unchanged _ (by simp), h⟩
    rw [Dns.resumeLookup, hl]
    rfl
  · rw [Dns.resumeLookup, hl]
    exact lookupEntry_spec h hy hm hs answersize now

theorem Shows.resolvCacheLookup (h : Shows cache chains lru) (query : List UInt8) (answersize : Nat) (now : Int)
    (alloc : Bool) : Looks query now lru (resolvCacheLookup cache query answersize now alloc) := by
  rw [Dns.resolvCacheLookup]
  by_cases hc : checkQuery query
  · rw [hc, Bool.not_true, if_neg Bool.false_ne_true]
    rcases h.lookupP_cases (hashQuery query) query with ⟨-, hl⟩ | ⟨y, hy, hm, l₁, l₂, hs, hl⟩
    · rw [hl]
      simp only [bind_eq_bind, bind_some]
      by_cases hp : cache.pending.contains (hashQuery query)
      · rw [if_pos hp]
        exact ⟨.waits, cache, chains, lru, rfl, .unchanged _ (by simp), h⟩
      · rw [if_neg hp]
        cases alloc with
        | false => exact ⟨.notFound, cache, chains, lru, rfl, .unchanged _ (by simp), h⟩
        | true => exact ⟨.notFound, _, chains, lru, rfl, .unchanged _ (by simp), h.of_pending _⟩
    · rw [hl]
      exact lookupEntry_spec h hy hm hs answersize now
  · rw [Bool.not_eq_true] at hc
    rw [hc]
    exact ⟨.unsupported, cache, chains, lru, rfl, .unchanged _ (by simp), h⟩

/-- An add changes nothing if the query is not one to cache or has a match; otherwise a full cache makes room,
and the answer may become the most recently used entry. -/
inductive AddOutcome (getTTL : List UInt8 → Nat) (maxEntries : Nat) (query answer : List UInt8) (nowExpired nowAdd : Int)
    (newEntry : Option Nat) (lru : List (Nat × Entry)) : Bool → List (Nat × Entry) → Prop
  | ignored (h : checkQuery query = false ∨ ∃ y ∈ lru, y.2.matches (hashQuery query) query) :
      AddOutcome getTTL maxEntries query answer nowExpired nowAdd newEntry lru false lru
  | dropped (hcheck : checkQuery query) (habsent : ∀ y ∈ lru, y.2.matches (hashQuery query) query = false) :
      AddOutcome getTTL maxEntries query answer nowExpired nowAdd newEntry lru false (roomIn maxEntries nowExpired lru)
  | stored (entry : Nat) (e : Entry) (hnew : newEntry = some entry) (hcheck : checkQuery query)
      (habsent : ∀ y ∈ lru, y.2.matches (hashQuery query) query = false) (hquery : e.query = query)
      (hanswer : e.answer = answer) (hexpires : e.expires = getTTL answer + nowAdd) (httl : 0 < getTTL answer) :
      AddOutcome getTTL maxEntries query answer nowExpired nowAdd newEntry lru true
        ((entry, e) :: roomIn maxEntries nowExpired lru)

variable {getTTL : List UInt8 → Nat}

theorem Shows.resolvCacheAdd (h : Shows cache chains lru)
    (hs : checkQuery query → entryEquals query query) (answer : List UInt8) (nowExpired nowAdd : Int)
    {newEntry : Option Nat}
    (hf : ∀ entry room, newEntry = some entry → Dns.makeRoom nowExpired cache = some room → room.cells entry = none) :
    ∃ r cache' chains' lru', resolvCacheAdd getTTL cache query answer nowExpired nowAdd newEntry = some (r, cache') ∧
      AddOutcome getTTL cache.maxEntries query answer nowExpired nowAdd newEntry lru r lru' ∧ Shows cache' chains' lru' := by
  rw [Dns.resolvCacheAdd]
  by_cases hc : checkQuery query
  · rw [hc, Bool.not_true, if_neg Bool.false_ne_true]
    rcases h.lookupP_cases (hashQuery query) query with ⟨ha, hl⟩ | ⟨y, hy, hm, l₁, l₂, -, hl⟩
    · obtain ⟨room, chains₁, hr, h₁, hmax₁, hsa⟩ := h.makeRoom nowExpired
      have ha₁ : ∀ y ∈ roomIn cache.maxEntries nowExpired lru, y.2.matches (hashQuery query) query = false :=
        fun y hy => ha y ((roomIn_sublist _ _ _).subset hy)
      have hag : searchAgain cache room
          ((Place.head (cache.index (hashQuery query))).after (chains (cache.index (hashQuery query)))) query =
          some ((Place.head (room.index (hashQuery query))).after (chains₁ (room.index (hashQuery query))), none) := by
        rw [searchAgain]
        split
        · exact h₁.lookupP_absent ha₁
        · rename_i hle
          obtain ⟨rfl, rfl⟩ := hsa (by omega)
          rfl
      simp only [hl, bind_eq_bind, bind_some, hr, hag]
      by_cases httl : getTTL answer > 0
      · simp only [addAnswer, if_pos httl]
        cases newEntry with
        | none =>
          exact ⟨false, _, chains₁, _, rfl, .dropped hc ha, h₁.of_pending _⟩
        | some entry =>
          have hle : room.numEntries < room.maxEntries := by
            rw [h₁.num, hmax₁]
            exact length_roomIn_lt h.pos (h.num ▸ h.le) nowExpired
          obtain ⟨chains', e, h', hq, han, he⟩ := h₁.addP ha₁ (hs hc)
            (hf entry room rfl hr) hle answer (getTTL answer + nowAdd)
          exact ⟨true, _, chains', _, rfl, .stored entry e rfl hc ha hq han he httl, h'.of_pending _⟩
      · simp only [addAnswer, if_neg httl]
        exact ⟨false, _, chains₁, _, rfl, .dropped hc ha, h₁.of_pending _⟩
    · rw [hl]
      exact ⟨false, _, chains, lru, rfl, .ignored (.inr ⟨y, hy, hm⟩), h.of_pending _⟩
  · rw [Bool.not_eq_true] at hc
    rw [hc]
    exact ⟨false, cache, chains, lru, rfl, .ignored (.inl hc), h⟩

structure Stored where
  query : List UInt8
  answer : List UInt8
  ttl : Nat
  time : Int
deriving DecidableEq, Repr

/-- The cache of one network with the lookups that wait, the answers stored since the last flush and, for each
entry, when it was last added or found. -/
structure CacheRun where
  cache : Cache
  waiting : List (List UInt8 × Nat)
  stored : List Stored
  ticks : Nat
  lastUse : Nat → Nat

namespace CacheRun

def create (maxEntries : Nat) : CacheRun := ⟨.create maxEntries, [], [], 0, fun _ => 0⟩

def use (t : CacheRun) (entry : Nat) : CacheRun :=
  { t with ticks := t.ticks + 1, lastUse := update t.lastUse entry t.ticks }

def afterLookup (t : CacheRun) (r : LookupResult) (cache : Cache) : CacheRun :=
  match r with
  | .found entry _ => { t with cache := cache }.use entry
  | _ => { t with cache := cache }

def afterAdd (t : CacheRun) (s : Stored) (newEntry : Option Nat) (r : Bool) (cache : Cache) : CacheRun :=
  match r, newEntry with
  | true, some entry => { t with cache := cache, stored := s :: t.stored }.use entry
  | _, _ => { t with cache := cache }

def Plain (query : List UInt8) : Prop := checkQuery query → arCount query = 0

/-- The calls on the cache. The memory of a new entry is not in use when it is allocated. -/
inductive Step (getTTL : List UInt8 → Nat) : CacheRun → CacheRun → Prop
  | lookup (t : CacheRun) (query : List UInt8) (answersize : Nat) (now : Int) (alloc : Bool) (r : LookupResult)
      (cache' : Cache) (hplain : Plain query)
      (hcall : resolvCacheLookup t.cache query answersize now alloc = some (r, cache')) :
      Step getTTL t
        { t.afterLookup r cache' with
          waiting := if r = .waits then (query, answersize) :: t.waiting else t.waiting }
  | resume (t : CacheRun) (query : List UInt8) (answersize : Nat) (now : Int) (r : LookupResult) (cache' : Cache)
      (hwaits : (query, answersize) ∈ t.waiting)
      (hcall : resumeLookup t.cache query answersize now = some (r, cache')) :
      Step getTTL t { t.afterLookup r cache' with waiting := t.waiting.erase (query, answersize) }
  | add (t : CacheRun) (query answer : List UInt8) (nowExpired nowAdd : Int) (newEntry : Option Nat) (r : Bool)
      (cache' : Cache) (hplain : Plain query)
      (hfresh : ∀ entry room, newEntry = some entry → makeRoom nowExpired t.cache = some room → room.cells entry = none)
      (hcall : resolvCacheAdd getTTL t.cache query answer nowExpired nowAdd newEntry = some (r, cache')) :
      Step getTTL t (t.afterAdd ⟨query, answer, getTTL answer, nowAdd⟩ newEntry r cache')
  | flush (t : CacheRun) (cache' : Cache) (hcall : t.cache.flush = some cache') :
      Step getTTL t { t with cache := cache', stored := [] }

def system (getTTL : List UInt8 → Nat) : System CacheRun where
  Init t := ∃ maxEntries, 1 ≤ maxEntries ∧ t = create maxEntries
  Step := Step getTTL

/-- The entries come from the answers stored since the last flush and stand in the order of their last use. -/
structure Tracks (t : CacheRun) (lru : List (Nat × Entry)) : Prop where
  stored : ∀ x ∈ lru, ∃ s ∈ t.stored, s.query = x.2.query ∧ s.answer = x.2.answer ∧ x.2.expires = s.ttl + s.time
  used : ∀ x ∈ lru, t.lastUse x.1 < t.ticks
  order : lru.Pairwise fun x y => t.lastUse y.1 < t.lastUse x.1

variable {t : CacheRun} {lru lru' : List (Nat × Entry)} {getTTL : List UInt8 → Nat} {query answer : List UInt8}
  {now : Int}

theorem Tracks.sublist (h : t.Tracks lru) (hsub : lru'.Sublist lru) : t.Tracks lru' :=
  ⟨fun x hx => h.stored x (hsub.subset hx), fun x hx => h.used x (hsub.subset hx), h.order.sublist hsub⟩

theorem Tracks.use (h : t.Tracks lru) {x : Nat × Entry} (hnew : ∀ y ∈ lru, y.1 ≠ x.1)
    (hst : ∃ s ∈ t.stored, s.query = x.2.query ∧ s.answer = x.2.answer ∧ x.2.expires = s.ttl + s.time) :
    (t.use x.1).Tracks (x :: lru) := by
  have hs : ∀ y ∈ lru, (t.use x.1).lastUse y.1 = t.lastUse y.1 := fun y hy => update_of_ne (hnew y hy) _ _
  have hf : (t.use x.1).lastUse x.1 = t.ticks := update_self ..
  refine ⟨forall_mem_cons.mpr ⟨hst, h.stored⟩, forall_mem_cons.mpr ⟨?_, fun y hy => ?_⟩, ?_⟩
  · rw [hf]
    exact Nat.lt_succ_self _
  · rw [hs y hy]
    exact (h.used y hy).trans (Nat.lt_succ_self _)
  · refine pairwise_cons.mpr ⟨?_, ?_⟩
    · intro y hy
      rw [hf, hs y hy]
      exact h.used y hy
    · refine h.order.imp_of_mem ?_
      intro y z hy hz hyz
      rwa [hs y hy, hs z hz]

def Inv (t : CacheRun) : Prop := ∃ chains lru, Shows t.cache chains lru ∧ t.Tracks lru

theorem Tracks.afterLookup (h : t.Tracks lru) (hn : (lru.map Prod.fst).Nodup)
    {r : LookupResult} (ho : LookupOutcome query now lru r lru') (cache' : Cache) :
    (t.afterLookup r cache').Tracks lru' := by
  cases ho with
  | unchanged r hr =>
    cases r with
    | found e answer => exact absurd rfl (hr e answer)
    | unsupported | notFound | waits => exact ⟨h.stored, h.used, h.order⟩
  | stale lru₁ x lru₂ hlru he =>
    subst hlru
    have hsub : (lru₁ ++ lru₂).Sublist (lru₁ ++ x :: lru₂) := (Sublist.refl _).append (sublist_cons_self _ _)
    have := h.sublist hsub
    exact ⟨this.stored, this.used, this.order⟩
  | found lru₁ x lru₂ hlru heu hnow =>
    subst hlru
    have hsub : (lru₁ ++ lru₂).Sublist (lru₁ ++ x :: lru₂) := (Sublist.refl _).append (sublist_cons_self _ _)
    have hre : { t with cache := cache' }.Tracks (lru₁ ++ lru₂) :=
      ⟨(h.sublist hsub).stored, (h.sublist hsub).used, (h.sublist hsub).order⟩
    apply hre.use
    · intro y hy heq
      rw [map_append, map_cons, nodup_middle, nodup_cons, ← map_append] at hn
      exact hn.1 (heq ▸ mem_map_of_mem hy)
    · exact h.stored x mem_append_cons_self

theorem afterLookup_cache (t : CacheRun) (r : LookupResult) (cache : Cache) : (t.afterLookup r cache).cache = cache := by
  cases r <;> rfl

theorem Tracks.afterAdd (h : t.Tracks lru) {nowExpired nowAdd : Int}
    {newEntry : Option Nat} {r : Bool} {cache' : Cache} {chains' : Nat → List Nat}
    (ho : AddOutcome getTTL t.cache.maxEntries query answer nowExpired nowAdd newEntry lru r lru')
    (hsh' : Shows cache' chains' lru') :
    (t.afterAdd ⟨query, answer, getTTL answer, nowAdd⟩ newEntry r cache').Tracks lru' := by
  cases ho with
  | ignored _ => exact ⟨h.stored, h.used, h.order⟩
  | dropped hc ha =>
    have hr := h.sublist (roomIn_sublist t.cache.maxEntries nowExpired lru)
    exact ⟨hr.stored, hr.used, hr.order⟩
  | stored entry e hnew hc ha hq han he httl =>
    subst hnew
    have hr := h.sublist (roomIn_sublist t.cache.maxEntries nowExpired lru)
    have hre : { t with cache := cache', stored := ⟨query, answer, getTTL answer, nowAdd⟩ :: t.stored }.Tracks
        (roomIn t.cache.maxEntries nowExpired lru) := by
      refine ⟨fun x hx => ?_, hr.used, hr.order⟩
      obtain ⟨s, hs, hre⟩ := hr.stored x hx
      exact ⟨s, mem_cons_of_mem _ hs, hre⟩
    apply hre.use (x := (entry, e))
    · intro y hy heq
      have hn := hsh'.nodup
      rw [map_cons, nodup_cons] at hn
      exact hn.1 (heq ▸ mem_map_of_mem hy)
    · exact ⟨_, mem_cons_self, hq.symm, han.symm, he⟩

theorem afterAdd_cache (t : CacheRun) (s : Stored) (newEntry : Option Nat) (r : Bool) (cache : Cache) :
    (t.afterAdd s newEntry r cache).cache = cache := by
  cases r <;> cases newEntry <;> rfl

theorem Plain.self (h : Plain query) (hc : checkQuery query) : entryEquals query query :=
  entryEquals_self hc (h hc)

theorem Inv.afterLookup {chains : Nat → List Nat} (hs : Shows t.cache chains lru) (htr : t.Tracks lru) {r : LookupResult}
    {cache' : Cache} (hl : Looks query now lru (some (r, cache'))) (waiting : List (List UInt8 × Nat)) :
    Inv { t.afterLookup r cache' with waiting := waiting } := by
  obtain ⟨r, cache', chains', lru', ⟨⟩, ho, hs'⟩ := hl
  have htr' := htr.afterLookup hs.nodup ho cache'
  refine ⟨chains', lru', ?_, htr'.stored, htr'.used, htr'.order⟩
  rw [afterLookup_cache]
  exact hs'

theorem inv_invariant (getTTL : List UInt8 → Nat) : (system getTTL).Invariant Inv where
  init t ht := by
    obtain ⟨maxEntries, hmax, rfl⟩ := ht
    refine ⟨fun _ => [], [], ⟨hmax, ⟨fun _ => rfl, ?_⟩, ⟨rfl, rfl⟩, ?_, ?_, ?_, fun _ => .nil, rfl, Nat.zero_le _⟩, ?_, ?_, .nil⟩
    · intro i j a ha
      cases ha
    all_goals simp
  step t t' ht hst := by
    obtain ⟨chains, lru, hs, htr⟩ := ht
    cases hst with
    | lookup query answersize now alloc r cache' hp hc =>
      exact Inv.afterLookup hs htr (hc ▸ hs.resolvCacheLookup query answersize now alloc) _
    | resume query answersize now r cache' hw hc =>
      exact Inv.afterLookup hs htr (hc ▸ hs.resumeLookup query answersize now) _
    | add query answer nowExpired nowAdd newEntry r cache' hp hf hc =>
      obtain ⟨r', cache'', chains', lru', hc', ho, hs'⟩ :=
        hs.resolvCacheAdd hp.self answer nowExpired nowAdd hf
      cases hc.symm.trans hc'
      refine ⟨chains', lru', ?_, htr.afterAdd ho hs'⟩
      rwa [afterAdd_cache]
    | flush cache' hc =>
      obtain ⟨cache'', hc', hs'⟩ := hs.flush
      cases hc.symm.trans hc'
      refine ⟨_, [], hs', ?_, ?_, .nil⟩
      · simp
      · simp

theorem Tracks.found (h : t.Tracks lru) {e : Nat} (ho : LookupOutcome query now lru (.found e answer) lru') :
    ∃ s ∈ t.stored, entryEquals s.query query ∧ s.answer = answer ∧ now < s.time + s.ttl := by
  cases ho with
  | unchanged _ hr => exact absurd rfl (hr e answer)
  | found lru₁ x lru₂ hlru heq hnow =>
    obtain ⟨s, hs, hq, ha, he⟩ := h.stored x (hlru ▸ mem_append_cons_self)
    refine ⟨s, hs, ?_, ha, ?_⟩
    · rwa [hq]
    · omega

theorem Tracks.looks (h : t.Tracks lru) {call : Option (LookupResult × Cache)} (hl : Looks query now lru call) :
    ∃ r cache', call = some (r, cache') ∧ ∀ e answer, r = .found e answer →
      ∃ s ∈ t.stored, entryEquals s.query query ∧ s.answer = answer ∧ now < s.time + s.ttl := by
  obtain ⟨r, cache', chains', lru', hc, ho, -⟩ := hl
  refine ⟨r, cache', hc, ?_⟩
  rintro e answer rfl
  exact h.found ho

/-- In a full cache without an expired entry, room is made by dropping the entry that was used least recently. -/
theorem Tracks.evicted (h : t.Tracks lru) {maxEntries : Nat} (hmax : 0 < maxEntries)
    (hf : lru.length = maxEntries) (hu : ∀ x ∈ lru, now < x.2.expires) : ∃ rest x,
      lru = rest ++ [x] ∧ roomIn maxEntries now lru = rest ∧ ∀ y ∈ rest, t.lastUse x.1 < t.lastUse y.1 := by
  have hall : unexpired now lru = lru := filter_eq_self.mpr fun x hx => decide_eq_true (hu x hx)
  have hne : lru ≠ [] := ne_nil_of_length_pos (by omega)
  have hs := (dropLast_append_getLast hne).symm
  refine ⟨lru.dropLast, lru.getLast hne, hs, ?_, ?_⟩
  · rw [roomIn, hall, if_pos hf.ge, if_pos hf.ge]
  · intro y hy
    have ho := h.order
    rw [hs, pairwise_append] at ho
    exact ho.2.2 y hy _ (mem_singleton.mpr rfl)

/-- In every run the chains and the MRU list hold the same entries, `num_entries` many and at most
`max_entries`; an answer returned was stored since the last flush for an equal query and has not expired; and a
full cache drops the entry least recently added or found. -/
theorem cache_sound (getTTL : List UInt8 → Nat) (t : CacheRun) (ht : (system getTTL).Reachable t) :
    ∃ (chains : Nat → List Nat) (lru : List (Nat × Entry)),
      t.cache.links.Table chains ∧ t.cache.mru.Ring (lru.map Prod.fst) ∧
      (∀ a, a ∈ lru.map Prod.fst ↔ ∃ i < t.cache.maxEntries, a ∈ chains i) ∧
      (∀ x ∈ lru, t.cache.cells x.1 = some x.2) ∧
      t.cache.numEntries = lru.length ∧ t.cache.numEntries ≤ t.cache.maxEntries ∧
      (∀ query answersize now alloc, ∃ r cache', resolvCacheLookup t.cache query answersize now alloc = some (r, cache') ∧
        ∀ e answer, r = .found e answer →
          ∃ s ∈ t.stored, entryEquals s.query query = true ∧ s.answer = answer ∧ now < s.time + s.ttl) ∧
      (∀ query answersize now, ∃ r cache', resumeLookup t.cache query answersize now = some (r, cache') ∧
        ∀ e answer, r = .found e answer →
          ∃ s ∈ t.stored, entryEquals s.query query = true ∧ s.answer = answer ∧ now < s.time + s.ttl) ∧
      (∃ cache', t.cache.flush = some cache') ∧
      ∀ query answer nowExpired nowAdd newEntry, Plain query →
        (∀ entry room, newEntry = some entry → makeRoom nowExpired t.cache = some room → room.cells entry = none) →
        ∃ r cache', resolvCacheAdd getTTL t.cache query answer nowExpired nowAdd newEntry = some (r, cache') ∧
          (t.cache.numEntries = t.cache.maxEntries → (∀ x ∈ lru, nowExpired < x.2.expires) →
            checkQuery query = true → (∀ x ∈ lru, x.2.matches (hashQuery query) query = false) →
            ∃ rest x, lru = rest ++ [x] ∧ (∀ y ∈ rest, t.lastUse x.1 < t.lastUse y.1) ∧
              cache'.mru.Ring ((if r then newEntry.toList else []) ++ rest.map Prod.fst)) := by
  obtain ⟨chains, lru, hs, htr⟩ := (inv_invariant getTTL).reachable ht
  refine ⟨chains, lru, hs.table, hs.ring, ?_, hs.cells, hs.num, hs.le,
    fun query answersize now alloc => htr.looks (hs.resolvCacheLookup ..),
    fun query answersize now => htr.looks (hs.resumeLookup ..), ?_, ?_⟩
  · intro a
    constructor
    · intro ha
      obtain ⟨x, hx, rfl⟩ := mem_map.mp ha
      exact ⟨t.cache.index x.2.hash, Nat.mod_lt _ hs.pos, (hs.mem _ _).mpr ⟨x.2, hx, rfl⟩⟩
    · rintro ⟨i, -, ha⟩
      obtain ⟨e, he, -⟩ := (hs.mem i a).mp ha
      exact mem_map_of_mem he
  · obtain ⟨cache', hc, -⟩ := hs.flush
    exact ⟨cache', hc⟩
  · intro query answer nowExpired nowAdd newEntry hp hf
    obtain ⟨r, cache', chains', lru', hc, ho, hs'⟩ :=
      hs.resolvCacheAdd hp.self answer nowExpired nowAdd hf
    refine ⟨r, cache', hc, ?_⟩
    intro hfu hu hch hab
    obtain ⟨rest, x, hsp, hro, hl⟩ := htr.evicted hs.pos (hs.num.symm.trans hfu) hu
    refine ⟨rest, x, hsp, hl, ?_⟩
    have hr := hs'.ring
    cases ho with
    | ignored hi =>
      rcases hi with hre | ⟨y, hy, hm⟩
      · rw [hch] at hre
        cases hre
      · rw [hab y hy] at hm
        cases hm
    | dropped _ _ =>
      rw [hro] at hr
      exact hr
    | stored entry e hnew _ _ _ _ _ _ =>
      subst hnew
      rw [hro] at hr
      exact hr

def queryA (id : UInt8) : List UInt8 := [0, id, 1, 0, 0, 1, 0, 0, 0, 0, 0, 0, 1, 97, 0, 0, 1, 0, 1]

def oneAnswer : CacheRun :=
  (create 2).afterAdd ⟨queryA 1, [7], 60, 100⟩ (some 1) true
    (((resolvCacheAdd (fun _ => 60) (Cache.create 2) (queryA 1) [7] 100 100 (some 1)).map (·.2)).getD (Cache.create 2))

theorem oneAnswer_reachable : (system fun _ => 60).Reachable oneAnswer := by
  have hc : (system fun _ => 60).Reachable (create 2) := .of_init ⟨2, by decide, rfl⟩
  refine hc.step (.add (create 2) (queryA 1) [7] 100 100 (some 1) true _ (fun _ => by decide) ?_ rfl)
  rintro entry room ⟨⟩ ⟨⟩
  rfl

/-- The same query with another identification finds the answer at the time 150. -/
theorem cache_sound_oneAnswer :
    ∃ s ∈ oneAnswer.stored, entryEquals s.query (queryA 2) = true ∧ s.answer = [7] ∧ 150 < s.time + s.ttl := by
  obtain ⟨chains, lru, -, -, -, -, -, -, hl, -⟩ := cache_sound (fun _ => 60) oneAnswer oneAnswer_reachable
  obtain ⟨r, cache', hc, hf⟩ := hl (queryA 2) 10 150 true
  have hr : (resolvCacheLookup oneAnswer.cache (queryA 2) 10 150 true).map (·.1) = some (.found 1 [7]) := by decide
  rw [hc] at hr
  exact hf 1 [7] (Option.some.inj hr)

end CacheRun

end Bionic.Dns
