import Bionic.Dns.Packet
import Bionic.Lib.CircularList
import Mathlib.Algebra.Order.Ring.Int
import Mathlib.Data.List.Perm.Subperm

namespace Bionic.Dns

open Lib Function List

structure Entry where
  hash : UInt32
  query : List UInt8
  answer : List UInt8
  expires : Int
  id : Nat
deriving DecidableEq, Repr

def Entry.matches (node : Entry) (hash : UInt32) (query : List UInt8) : Bool :=
  node.hash == hash && entryEquals node.query query

/-- A `resolv_cache` with the memory of its entries: `links` has the chains, `mru` the MRU list, `cells` the
other fields of the entries that are allocated. -/
structure Cache where
  maxEntries : Nat
  numEntries : Nat
  lastId : Nat
  links : Links Nat Nat
  mru : DLinks Nat
  cells : Nat → Option Entry
  pending : List UInt32

def Cache.create (maxEntries : Nat) : Cache :=
  ⟨maxEntries, 0, 0, ⟨fun _ => none, fun _ => none⟩, ⟨fun _ => none, fun _ => none⟩, fun _ => none, []⟩

namespace Cache

variable (cache : Cache) (lookup : Place Nat Nat) (hash : UInt32) (entry : Nat)

def index : Nat := hash.toNat % cache.maxEntries

/-- `_cache_lookup_p`: where the link to the entry with this key is, or where the chain ends, and the entry. -/
def lookupP (query : List UInt8) : Option (Place Nat Nat × Option Nat) :=
  cache.links.walk (fun node => (cache.cells node).map (·.matches hash query)) (cache.numEntries + 1)
    (.head (cache.index hash))

def addP (hash : UInt32) (query answer : List UInt8) (expires : Int) : Cache :=
  { cache with
    numEntries := cache.numEntries + 1
    lastId := cache.lastId + 1
    links := (cache.links.set (.next entry) none).set lookup (some entry)
    mru := cache.mru.pushFront entry
    cells := update cache.cells entry (some ⟨hash, query, answer, expires, cache.lastId + 1⟩) }

def dropEntry : Cache :=
  { cache with
    numEntries := cache.numEntries - 1
    links := cache.links.set lookup (cache.links.next entry)
    mru := cache.mru.remove entry
    cells := update cache.cells entry none }

def removeP : Option Cache := do
  let entry ← cache.links.get lookup
  let _ ← cache.cells entry
  some (cache.dropEntry lookup entry)

def removeOldest : Option Cache := do
  let oldest ← cache.mru.prev none
  let key ← cache.cells oldest
  let (lookup, found) ← cache.lookupP key.hash key.query
  match found with
  | none => some cache
  | some _ => cache.removeP lookup

def removeExpiredFrom (now : Int) : Nat → Option Nat → Cache → Option Cache
  | _, none, cache => some cache
  | 0, some _, _ => none
  | fuel + 1, some e, cache => do
    let key ← cache.cells e
    if now ≥ key.expires then
      let (lookup, found) ← cache.lookupP key.hash key.query
      match found with
      | none => some cache
      | some _ => do
        let next := cache.mru.next (some e)
        let cache ← cache.removeP lookup
        removeExpiredFrom now fuel next cache
    else removeExpiredFrom now fuel (cache.mru.next (some e)) cache

def removeExpired (now : Int) (cache : Cache) : Option Cache :=
  removeExpiredFrom now cache.numEntries (cache.mru.next none) cache

def flushChain (nn : Nat) : Nat → Cache → Option Cache
  | 0, _ => none
  | fuel + 1, cache =>
    match cache.links.head nn with
    | none => some cache
    | some node => do
      let _ ← cache.cells node
      flushChain nn fuel
        { cache with
          links := cache.links.set (.head nn) (cache.links.next node)
          cells := update cache.cells node none }

def reset : Cache :=
  { cache with
    pending := []
    mru := ⟨update cache.mru.next none none, update cache.mru.prev none none⟩
    numEntries := 0
    lastId := 0 }

def flush : Option Cache :=
  ((range cache.maxEntries).foldlM (fun c nn => flushChain nn (cache.numEntries + 1) c) cache).map reset

/-- `_cache_notify_waiting_tid_locked`: the first pending request with this hash is taken off. -/
def notifyWaiting : Cache := { cache with pending := cache.pending.erase hash }

end Cache

inductive LookupResult
  | unsupported
  | notFound
  | found (entry : Nat) (answer : List UInt8)
  | waits
deriving DecidableEq, Repr

def lookupEntry (cache : Cache) (lookup : Place Nat Nat) (e : Nat) (answersize : Nat) (now : Int) :
    Option (LookupResult × Cache) := do
  let entry ← cache.cells e
  if now ≥ entry.expires then
    let cache ← cache.removeP lookup
    some (.notFound, cache)
  else if entry.answer.length > answersize then some (.unsupported, cache)
  else if some e ≠ cache.mru.next none then
    some (.found e entry.answer, { cache with mru := (cache.mru.remove e).pushFront e })
  else some (.found e entry.answer, cache)

/-- `_resolv_cache_lookup` up to its end or up to the wait for a pending request; `alloc` says whether the record of a
new request is allocated. -/
def resolvCacheLookup (cache : Cache) (query : List UInt8) (answersize : Nat) (now : Int) (alloc : Bool) :
    Option (LookupResult × Cache) :=
  if !checkQuery query then some (.unsupported, cache)
  else do
    let (lookup, e) ← cache.lookupP (hashQuery query) query
    match e with
    | none =>
      if cache.pending.contains (hashQuery query) then some (.waits, cache)
      else if alloc then some (.notFound, { cache with pending := cache.pending ++ [hashQuery query] })
      else some (.notFound, cache)
    | some e => lookupEntry cache lookup e answersize now

def resumeLookup (cache : Cache) (query : List UInt8) (answersize : Nat) (now : Int) :
    Option (LookupResult × Cache) := do
  let (lookup, e) ← cache.lookupP (hashQuery query) query
  match e with
  | none => some (.notFound, cache)
  | some e => lookupEntry cache lookup e answersize now

def makeRoom (now : Int) (cache : Cache) : Option Cache :=
  if cache.numEntries ≥ cache.maxEntries then do
    let cache ← cache.removeExpired now
    if cache.numEntries ≥ cache.maxEntries then cache.removeOldest else some cache
  else some cache

/-- In a full cache the search is made again, as the removals may have changed the chain. -/
def searchAgain (cache room : Cache) (lookup : Place Nat Nat) (query : List UInt8) :
    Option (Place Nat Nat × Option Nat) :=
  if cache.numEntries ≥ cache.maxEntries then room.lookupP (hashQuery query) query else some (lookup, none)

section Add

variable (getTTL : List UInt8 → Nat)

def addAnswer (cache : Cache) (lookup : Place Nat Nat) (query answer : List UInt8) (now : Int) (newEntry : Option Nat) :
    Bool × Cache :=
  if getTTL answer > 0 then
    match newEntry with
    | none => (false, cache)
    | some entry =>
      (true, cache.addP lookup entry (hashQuery query) query answer (getTTL answer + now))
  else (false, cache)

/-- `_resolv_cache_add`. The clock is read once for the expired entries and once for the new one; `newEntry` is what
`calloc` returns for it. -/
def resolvCacheAdd (cache : Cache) (query answer : List UInt8) (nowExpired nowAdd : Int) (newEntry : Option Nat) :
    Option (Bool × Cache) :=
  if !checkQuery query then some (false, cache)
  else do
    let (lookup, e) ← cache.lookupP (hashQuery query) query
    match e with
    | some _ => some (false, cache.notifyWaiting (hashQuery query))
    | none => do
      let room ← makeRoom nowExpired cache
      let (lookup, e) ← searchAgain cache room lookup query
      match e with
      | some _ => some (false, room.notifyWaiting (hashQuery query))
      | none =>
        let r := addAnswer getTTL room lookup query answer nowAdd newEntry
        some (r.1, r.2.notifyWaiting (hashQuery query))

end Add

/-- The cache holds the entries of `lru`, the most recently used first: they are the MRU list and, spread by
their hashes, the chains. No entry matches the key of one behind it in its chain. -/
structure Shows (cache : Cache) (chains : Nat → List Nat) (lru : List (Nat × Entry)) : Prop where
  pos : 0 < cache.maxEntries
  table : cache.links.Table chains
  ring : cache.mru.Ring (lru.map Prod.fst)
  cells : ∀ x ∈ lru, cache.cells x.1 = some x.2
  mem : ∀ i a, a ∈ chains i ↔ ∃ e, (a, e) ∈ lru ∧ cache.index e.hash = i
  self : ∀ x ∈ lru, entryEquals x.2.query x.2.query
  distinct : ∀ i, (chains i).Pairwise fun a b => ∀ d e, (a, d) ∈ lru → (b, e) ∈ lru → ¬d.matches e.hash e.query
  num : cache.numEntries = lru.length
  le : cache.numEntries ≤ cache.maxEntries

variable {cache : Cache} {chains : Nat → List Nat} {lru : List (Nat × Entry)} {x : Nat × Entry}

namespace Shows

section

variable (h : Shows cache chains lru) {query : List UInt8} {hash : UInt32} {a : Nat}
include h

theorem nodup : (lru.map Prod.fst).Nodup := h.ring.nodup

theorem length_chain_le (i : Nat) : (chains i).length ≤ cache.numEntries := by
  rw [h.num, ← length_map Prod.fst]
  refine (subperm_of_subset (h.table.linked i).nodup ?_).length_le
  intro a ha
  obtain ⟨e, he, -⟩ := (h.mem i a).mp ha
  exact mem_map_of_mem he

theorem entry_eq {d e : Entry} (hd : (a, d) ∈ lru) (he : (a, e) ∈ lru) : d = e := by
  have hc := h.cells _ hd
  rw [h.cells _ he] at hc
  exact (Option.some.inj hc).symm

theorem not_mem_of_free (hf : cache.cells a = none) : a ∉ lru.map Prod.fst := by
  intro ha
  obtain ⟨x, hx, rfl⟩ := mem_map.mp ha
  rw [h.cells x hx] at hf
  cases hf

theorem test_eq (hx : x ∈ lru) (hash : UInt32) (query : List UInt8) :
    (cache.cells x.1).map (·.matches hash query) = some (x.2.matches hash query) := by
  rw [h.cells x hx, Option.map_some]

theorem lookupP_at {l₁ l₂ : List Nat} (hs : chains (cache.index hash) = l₁ ++ l₂)
    (hl₁ : ∀ y ∈ lru, y.1 ∈ l₁ → y.2.matches hash query = false)
    (hl₂ : ∀ y ∈ lru, l₂.head? = some y.1 → y.2.matches hash query) :
    cache.lookupP hash query = some ((Place.head (cache.index hash)).after l₁, l₂.head?) := by
  have hlen := h.length_chain_le (cache.index hash)
  have hl : Linked cache.links.next (cache.links.get (.head (cache.index hash))) (l₁ ++ l₂) :=
    hs ▸ h.table.linked _
  have hmem : ∀ a ∈ l₁ ++ l₂, ∃ e, (a, e) ∈ lru := by
    intro a ha
    obtain ⟨e, he, -⟩ := (h.mem (cache.index hash) a).mp (hs ▸ ha)
    exact ⟨e, he⟩
  refine Links.walk_append hl ?_ ?_ ?_
  · intro a ha
    obtain ⟨e, he⟩ := hmem a (mem_append_left _ ha)
    rw [h.test_eq he, hl₁ _ he ha]
  · intro a ha
    have hh : a ∈ l₂ := mem_of_head? ha
    obtain ⟨e, he⟩ := hmem a (mem_append_right _ hh)
    rw [h.test_eq he, hl₂ _ he ha]
  · rw [hs, length_append] at hlen
    omega

theorem lookupP_absent (ha : ∀ y ∈ lru, y.2.matches hash query = false) :
    cache.lookupP hash query = some ((Place.head (cache.index hash)).after (chains (cache.index hash)), none) := by
  refine h.lookupP_at (append_nil _).symm (fun y hy _ => ha y hy) ?_
  rintro y hy ⟨⟩

theorem lookupP_self (hx : x ∈ lru) : ∃ l₁ l₂,
    chains (cache.index x.2.hash) = l₁ ++ x.1 :: l₂ ∧
    cache.lookupP x.2.hash x.2.query = some ((Place.head (cache.index x.2.hash)).after l₁, some x.1) := by
  obtain ⟨l₁, l₂, hs⟩ := append_of_mem ((h.mem _ x.1).mpr ⟨x.2, hx, rfl⟩)
  refine ⟨l₁, l₂, hs, h.lookupP_at hs ?_ ?_⟩
  · intro y hy hyl
    have hd := h.distinct (cache.index x.2.hash)
    rw [hs, pairwise_append] at hd
    exact Bool.eq_false_iff.mpr (hd.2.2 y.1 hyl x.1 mem_cons_self y.2 x.2 hy hx)
  · rintro ⟨a, e⟩ hy hh
    cases hh
    rw [h.entry_eq hy hx, Entry.matches, beq_self_eq_true, h.self x hx]
    rfl

theorem lookupP_cases (hash : UInt32) (query : List UInt8) :
    ((∀ y ∈ lru, y.2.matches hash query = false) ∧
      cache.lookupP hash query = some ((Place.head (cache.index hash)).after (chains (cache.index hash)), none)) ∨
    ∃ y ∈ lru, y.2.matches hash query ∧ ∃ l₁ l₂, chains (cache.index hash) = l₁ ++ y.1 :: l₂ ∧
      cache.lookupP hash query = some ((Place.head (cache.index hash)).after l₁, some y.1) := by
  have hi : ∀ y ∈ lru, y.2.matches hash query → y.1 ∈ chains (cache.index hash) := by
    intro y hy hm
    refine (h.mem _ _).mpr ⟨y.2, hy, ?_⟩
    rw [Entry.matches, Bool.and_eq_true, beq_iff_eq] at hm
    rw [hm.1]
  cases hf : (chains (cache.index hash)).find? (fun a => (cache.cells a).any (·.matches hash query)) with
  | none =>
    have hn : ∀ y ∈ lru, y.2.matches hash query = false := by
      intro y hy
      by_contra hm
      rw [Bool.not_eq_false] at hm
      refine find?_eq_none.mp hf y.1 (hi y hy hm) ?_
      rw [h.cells y hy, Option.any_some, hm]
    exact .inl ⟨hn, h.lookupP_absent hn⟩
  | some a =>
    obtain ⟨hm, l₁, l₂, hs, hb⟩ := find?_eq_some_iff_append.mp hf
    obtain ⟨e, he, -⟩ := (h.mem _ a).mp (hs ▸ mem_append_cons_self)
    rw [h.cells _ he] at hm
    refine .inr ⟨(a, e), he, hm, l₁, l₂, hs, h.lookupP_at hs ?_ ?_⟩
    · intro y hy hyl
      have := hb y.1 hyl
      rw [h.cells y hy, Option.any_some, Bool.not_eq_true'] at this
      exact this
    · rintro ⟨b, d⟩ hy hh
      cases hh
      rw [h.entry_eq hy he]
      exact hm

end

end Shows

end Bionic.Dns
