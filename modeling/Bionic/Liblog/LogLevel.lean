import Bionic.Lib.System
import Mathlib.Logic.Function.Basic

namespace Bionic.LogLevel

open Function

structure PropInfo where
  value : List Char
  serial : UInt32
  deriving DecidableEq

structure Area where
  find : List Char → Option PropInfo
  serial : UInt32

def Area.empty : Area := ⟨fun _ => none, 0⟩

variable (a : Area)

def Area.set (name value : List Char) : Area :=
  let len := UInt32.ofNat value.length <<< 24
  let serial :=
    match a.find name with
    | none => len
    | some p => len ||| (((p.serial ||| 1) + 1) &&& 0xffffff)
  ⟨update a.find name (some ⟨value, serial⟩), a.serial + 1⟩

structure Cache where
  pinfo : Option (List Char)
  serial : UInt32
  c : Char
  deriving DecidableEq

def Cache.empty : Cache := ⟨none, 0, '\x00'⟩

def checkCache (cache : Cache) : Bool :=
  match cache.pinfo.bind a.find with
  | none => false
  | some p => p.serial ≠ cache.serial

def booleanTrue : Char := Char.ofNat 0xff

def booleanFalse : Char := Char.ofNat 0xfe

def charOf : List Char → Char
  | [] => '\x00'
  | c :: cs =>
    if c = 't' ∨ c = 'T' then if cs.map Char.toLower = ['r', 'u', 'e'] then booleanTrue else c
    else if c = 'f' ∨ c = 'F' then if cs.map Char.toLower = ['a', 'l', 's', 'e'] then booleanFalse else c
    else c

def refreshCache (key : List Char) (cache : Cache) : Cache :=
  let pinfo := cache.pinfo.or ((a.find key).map fun _ => key)
  match pinfo.bind a.find with
  | none => cache
  | some p => ⟨pinfo, p.serial, charOf p.value⟩

inductive Level
  | verbose
  | debug
  | info
  | warn
  | error
  | fatal
  | silent
  deriving DecidableEq, Repr

/-- The level that a character stands for. Where characters are signed the value for `false` is not found. -/
def levelOf (signed : Bool) (c : Char) : Option Level :=
  if c = booleanFalse then if signed then none else some .silent
  else
    match c.toUpper with
    | 'V' => some .verbose
    | 'D' => some .debug
    | 'I' => some .info
    | 'W' => some .warn
    | 'E' => some .error
    | 'F' => some .fatal
    | 'A' => some .fatal
    | 'S' => some .silent
    | _ => none

structure Pair (α : Type) where
  persist : α
  plain : α
  deriving DecidableEq

def persistDot : List Char := ['p', 'e', 'r', 's', 'i', 's', 't', '.']

def logTag : List Char := ['l', 'o', 'g', '.', 't', 'a', 'g']

def globalKeys : Pair (List Char) := ⟨persistDot ++ logTag, logTag⟩

def tagKeys (tag : List Char) : Pair (List Char) :=
  let key := logTag ++ '.' :: tag.takeWhile (· ≠ '\x00')
  ⟨persistDot ++ key, key⟩

structure State where
  area : Area
  lastTag : List Char
  globalSerial : UInt32
  tagCache : Pair Cache
  globalCache : Pair Cache

def State.init : State := ⟨.empty, [], 0, ⟨.empty, .empty⟩, ⟨.empty, .empty⟩⟩

def State.set (s : State) (name value : List Char) : State := { s with area := s.area.set name value }

def detected (caches : Pair Cache) : Bool := checkCache a caches.persist || checkCache a caches.plain

def visit (changed : Bool) (key : List Char) (cache : Cache) : Cache :=
  if changed then refreshCache a key cache else cache

def scan (changed : Bool) (keys : Pair (List Char)) (caches : Pair Cache) : Char × Pair Cache :=
  let persist := visit a changed keys.persist caches.persist
  if persist.c ≠ '\x00' then (persist.c, ⟨persist, caches.plain⟩)
  else
    let plain := visit a changed keys.plain caches.plain
    (plain.c, ⟨persist, plain⟩)

section Query

variable (signed : Bool) (defaultTag : List Char) (s : State) (tag : List Char)

def scanTag (changed : Bool) : Char × State :=
  if tag = [] then ('\x00', s)
  else
    let caches := if s.lastTag = tag then s.tagCache else ⟨.empty, .empty⟩
    let found := scan s.area (changed || s.lastTag ≠ tag) (tagKeys tag) caches
    (found.1, { s with lastTag := tag, tagCache := found.2 })

/-- `__android_log_level` when no other thread has the lock. -/
def androidLogLevel : Option Level × State :=
  let tag := if tag = [] then defaultTag else tag
  let changed := detected s.area s.tagCache || s.area.serial ≠ s.globalSerial
  let globalChanged := detected s.area s.globalCache || s.area.serial ≠ s.globalSerial
  let own := scanTag s tag changed
  if (levelOf signed own.1).isSome then (levelOf signed own.1, { own.2 with globalSerial := s.area.serial })
  else
    let found := scan s.area globalChanged globalKeys s.globalCache
    (levelOf signed (if found.1 ≠ '\x00' then found.1 else own.1),
      { own.2 with globalSerial := s.area.serial, globalCache := found.2 })

end Query

section Uncached

variable (signed : Bool) (defaultTag : List Char) (a : Area) (tag : List Char)

def charAt (key : List Char) : Char := ((a.find key).map (charOf ·.value)).getD '\x00'

def lookup (keys : Pair (List Char)) : Char :=
  if charAt a keys.persist ≠ '\x00' then charAt a keys.persist else charAt a keys.plain

def tagLevel : Option Level :=
  let tag := if tag = [] then defaultTag else tag
  if tag = [] then none else levelOf signed (lookup a (tagKeys tag))

def uncachedLevel : Option Level := (tagLevel signed defaultTag a tag).or (levelOf signed (lookup a globalKeys))

end Uncached

open Lib

variable {a : Area} {key : List Char} {keys : Pair (List Char)} {cache : Cache} {caches : Pair Cache} {changed : Bool}

structure Good (a : Area) (key : List Char) (cache : Cache) : Prop where
  unknown : cache.pinfo = none → cache.c = '\x00'
  known : ∀ n, cache.pinfo = some n → n = key ∧ (a.find key).isSome
  value : ∀ n p, cache.pinfo = some n → a.find key = some p → p.serial = cache.serial → cache.c = charOf p.value

def Fresh (a : Area) (key : List Char) (cache : Cache) : Prop := cache.c = charAt a key

def Current (a : Area) (keys : Pair (List Char)) (caches : Pair Cache) : Prop :=
  Fresh a keys.persist caches.persist ∧ (caches.persist.c = '\x00' → Fresh a keys.plain caches.plain)

def Known (a : Area) (key : List Char) (cache : Cache) : Prop := cache.pinfo = none → a.find key = none

def PairKnown (a : Area) (keys : Pair (List Char)) (caches : Pair Cache) : Prop :=
  Known a keys.persist caches.persist ∧ (caches.persist.c = '\x00' → Known a keys.plain caches.plain)

theorem good_empty (a : Area) (key : List Char) : Good a key .empty where
  unknown _ := rfl
  known _ h := nomatch h
  value _ _ h := nomatch h

theorem Good.fresh (h : Good a key cache) (hk : Known a key cache) (hc : checkCache a cache = false) :
    Fresh a key cache := by
  rw [Fresh, charAt]
  cases hp : cache.pinfo with
  | none => rw [h.unknown hp, hk hp]; rfl
  | some n =>
    obtain ⟨rfl, hs⟩ := h.known n hp
    obtain ⟨p, hf⟩ := Option.isSome_iff_exists.mp hs
    rw [checkCache, hp, Option.bind_some, hf] at hc
    rw [hf]
    exact h.value n p hp hf (not_not.mp (of_decide_eq_false hc))

theorem current_of_known (hp : Good a keys.persist caches.persist) (hpl : Good a keys.plain caches.plain)
    (hk : PairKnown a keys caches) (hch : detected a caches = false) : Current a keys caches := by
  obtain ⟨h0, h1⟩ := Bool.or_eq_false_iff.mp hch
  exact ⟨hp.fresh hk.1 h0, fun hc => hpl.fresh (hk.2 hc) h1⟩

theorem refreshCache_spec (h : Good a key cache) :
    Good a key (refreshCache a key cache) ∧ Fresh a key (refreshCache a key cache) := by
  cases hf : a.find key with
  | none =>
    have hp : cache.pinfo = none := by
      by_contra hne
      obtain ⟨n, hn⟩ := Option.ne_none_iff_exists'.mp hne
      have hs := (h.known n hn).2
      rw [hf] at hs
      cases hs
    have hsa : refreshCache a key cache = cache := by
      rw [refreshCache, hp, hf]
      rfl
    rw [hsa]
    refine ⟨h, ?_⟩
    rw [Fresh, charAt, hf]
    exact h.unknown hp
  | some p =>
    have hnew : refreshCache a key cache = ⟨some key, p.serial, charOf p.value⟩ := by
      have hpi : cache.pinfo.or ((a.find key).map fun _ => key) = some key := by
        cases hp : cache.pinfo with
        | none => rw [hf]; rfl
        | some n => rw [(h.known n hp).1]; rfl
      rw [refreshCache, hpi, Option.bind_some, hf]
    rw [hnew]
    refine ⟨⟨fun h0 => (by cases h0), ?_, ?_⟩, ?_⟩
    · rintro n ⟨⟩
      exact ⟨rfl, by rw [hf]; rfl⟩
    · rintro n q - hq -
      cases hf.symm.trans hq
      rfl
    · rw [Fresh, charAt, hf]
      rfl

structure Sound (s : State) (keys : Pair (List Char)) (caches : Pair Cache) : Prop where
  persist : Good s.area keys.persist caches.persist
  plain : Good s.area keys.plain caches.plain
  current : s.area.serial = s.globalSerial → detected s.area caches = false → Current s.area keys caches

theorem Good.visit (h : Good a key cache) (changed : Bool) : Good a key (visit a changed key cache) := by
  cases changed with
  | false => exact h
  | true => exact (refreshCache_spec h).1

theorem Good.visit_fresh (h : Good a key cache) (hf : changed = false → Fresh a key cache) :
    Fresh a key (LogLevel.visit a changed key cache) := by
  cases changed with
  | false => exact hf rfl
  | true => exact (refreshCache_spec h).2

theorem scan_spec (hp : Good a keys.persist caches.persist)
    (hpl : Good a keys.plain caches.plain) (hcu : changed = false → Current a keys caches) :
    (scan a changed keys caches).1 = lookup a keys ∧
      Good a keys.persist (scan a changed keys caches).2.persist ∧ Good a keys.plain (scan a changed keys caches).2.plain ∧
      Current a keys (scan a changed keys caches).2 := by
  have hg := hp.visit changed
  have hf := hp.visit_fresh fun h0 => (hcu h0).1
  rw [scan, lookup, ← hf]
  by_cases hc : (visit a changed keys.persist caches.persist).c = '\x00'
  · have hf' : Fresh a keys.plain (visit a changed keys.plain caches.plain) := by
      refine hpl.visit_fresh fun h0 => (hcu h0).2 ?_
      rw [h0] at hc
      exact hc
    rw [if_neg (not_not_intro hc), if_neg (not_not_intro hc)]
    exact ⟨hf', hg, hpl.visit changed, hf, fun _ => hf'⟩
  · rw [if_pos hc, if_pos hc]
    exact ⟨rfl, hg, hpl, hf, fun h0 => absurd h0 hc⟩

section Steps

variable {signed : Bool} {defaultTag tag value name : List Char} {s : State}

structure Inv (s : State) : Prop where
  tag : Sound s (tagKeys s.lastTag) s.tagCache
  all : Sound s globalKeys s.globalCache

def queried (defaultTag tag : List Char) : List Char := if tag = [] then defaultTag else tag

def changedIn (s : State) (caches : Pair Cache) : Bool := detected s.area caches || s.area.serial ≠ s.globalSerial

theorem Sound.current_of_unchanged (h : Sound s keys caches) (hc : changedIn s caches = false) :
    Current s.area keys caches := by
  obtain ⟨hd, hs⟩ := Bool.or_eq_false_iff.mp hc
  exact h.current (not_not.mp (of_decide_eq_false hs)) hd

theorem scanTag_spec (h : Sound s (tagKeys s.lastTag) s.tagCache) (htag : tag ≠ []) :
    ∃ caches, scanTag s tag (changedIn s s.tagCache) =
        (lookup s.area (tagKeys tag), { s with lastTag := tag, tagCache := caches }) ∧
      Good s.area (tagKeys tag).persist caches.persist ∧ Good s.area (tagKeys tag).plain caches.plain ∧
      Current s.area (tagKeys tag) caches := by
  rw [scanTag, if_neg htag]
  by_cases hs : s.lastTag = tag
  · subst hs
    rw [if_pos rfl, decide_eq_false (not_not_intro rfl), Bool.or_false]
    obtain ⟨hc, hg⟩ := scan_spec h.persist h.plain h.current_of_unchanged
    exact ⟨_, Prod.ext hc rfl, hg⟩
  · rw [if_neg hs, decide_eq_true hs, Bool.or_true]
    obtain ⟨hc, hg⟩ := @scan_spec s.area (tagKeys tag) ⟨.empty, .empty⟩ true
      (good_empty s.area (tagKeys tag).persist) (good_empty s.area (tagKeys tag).plain) fun h0 => (by cases h0)
    exact ⟨_, Prod.ext hc rfl, hg⟩

theorem sound_of_current (hp : Good s.area keys.persist caches.persist) (hpl : Good s.area keys.plain caches.plain)
    (hc : Current s.area keys caches) : Sound s keys caches :=
  ⟨hp, hpl, fun _ _ => hc⟩

/-- Caches that a query leaves alone stay sound if nothing has changed since the last query, or their properties are
known. -/
theorem Sound.left_out (h : Sound s keys caches)
    (hk : s.area.serial ≠ s.globalSerial → PairKnown s.area keys caches) (t : State) (ht : t.area = s.area) :
    Sound t keys caches := by
  refine ⟨ht ▸ h.persist, ht ▸ h.plain, fun _ hd => ?_⟩
  rw [ht] at hd ⊢
  by_cases hs : s.area.serial = s.globalSerial
  · exact h.current hs hd
  · exact current_of_known h.persist h.plain (hk hs) hd

/-- A query after a change finds the properties known whose caches it leaves out. -/
def QueryAllowed (signed : Bool) (defaultTag : List Char) (s : State) (tag : List Char) : Prop :=
  s.area.serial ≠ s.globalSerial →
    (queried defaultTag tag = [] → PairKnown s.area (tagKeys s.lastTag) s.tagCache) ∧
    ((tagLevel signed defaultTag s.area tag).isSome → PairKnown s.area globalKeys s.globalCache)

/-- The serial that a property gets is not the one that a cache holds for it. -/
def ChangeAllowed (s : State) (name value : List Char) : Prop :=
  (s.area.set name value).serial ≠ s.globalSerial ∧
  ∀ cache, cache ∈ [s.tagCache.persist, s.tagCache.plain, s.globalCache.persist, s.globalCache.plain] →
    cache.pinfo = some name → ((s.area.set name value).find name).map PropInfo.serial ≠ some cache.serial

theorem tagLevel_of_nil (htag : queried defaultTag tag = []) : tagLevel signed defaultTag a tag = none := if_pos htag

theorem tagLevel_of_ne (htag : queried defaultTag tag ≠ []) :
    tagLevel signed defaultTag a tag = levelOf signed (lookup a (tagKeys (queried defaultTag tag))) := if_neg htag

theorem androidLogLevel_eq (signed : Bool) (defaultTag : List Char) (s : State) (tag : List Char) :
    androidLogLevel signed defaultTag s tag =
      let own := scanTag s (queried defaultTag tag) (changedIn s s.tagCache)
      if (levelOf signed own.1).isSome then (levelOf signed own.1, { own.2 with globalSerial := s.area.serial })
      else
        let found := scan s.area (changedIn s s.globalCache) globalKeys s.globalCache
        (levelOf signed (if found.1 ≠ '\x00' then found.1 else own.1),
          { own.2 with globalSerial := s.area.serial, globalCache := found.2 }) := rfl

theorem levelOf_fall_through {c d : Char} (h : levelOf signed c = none) :
    levelOf signed (if d ≠ '\x00' then d else c) = levelOf signed d := by
  by_cases hd : d = '\x00'
  · rw [if_neg (not_not_intro hd), h, hd]
    cases signed <;> rfl
  · rw [if_pos hd]

theorem Inv.query (h : Inv s) :
    (androidLogLevel signed defaultTag s tag).1 = uncachedLevel signed defaultTag s.area tag ∧
      (QueryAllowed signed defaultTag s tag → Inv (androidLogLevel signed defaultTag s tag).2) := by
  obtain ⟨hgl, hg, hg', hc⟩ := scan_spec h.all.persist h.all.plain h.all.current_of_unchanged
  rw [androidLogLevel_eq, uncachedLevel]
  by_cases htag : queried defaultTag tag = []
  · have hn : levelOf signed '\x00' = none := by cases signed <;> rfl
    rw [tagLevel_of_nil htag, htag, scanTag, if_pos rfl]
    dsimp only
    refine ⟨?_, fun ha => ⟨?_, ?_⟩⟩
    · rw [levelOf_fall_through hn, hgl]
      rfl
    · exact h.tag.left_out (fun hs => (ha hs).1 htag) _ rfl
    · exact sound_of_current hg hg' hc
  · obtain ⟨caches, hown, ht, ht', hta⟩ := scanTag_spec h.tag htag
    rw [tagLevel_of_ne htag, hown]
    dsimp only
    cases hl : levelOf signed (lookup s.area (tagKeys (queried defaultTag tag))) with
    | some l =>
      rw [Option.isSome_some, if_pos rfl]
      refine ⟨rfl, fun ha => ⟨sound_of_current ht ht' hta, ?_⟩⟩
      refine h.all.left_out (fun hs => (ha hs).2 ?_) _ rfl
      rw [tagLevel_of_ne htag, hl]
      rfl
    | none =>
      rw [Option.isSome_none, if_neg Bool.false_ne_true]
      refine ⟨?_, fun _ => ⟨sound_of_current ht ht' hta, sound_of_current hg hg' hc⟩⟩
      rw [levelOf_fall_through hl, hgl]
      rfl

theorem find_set_of_ne (h : key ≠ name) : (a.set name value).find key = a.find key :=
  update_of_ne h ..

theorem Good.set (h : Good a key cache)
    (hs : cache.pinfo = some name → ((a.set name value).find name).map PropInfo.serial ≠ some cache.serial) :
    Good (a.set name value) key cache := by
  by_cases hkey : key = name
  · subst hkey
    obtain ⟨p, hp⟩ : ∃ p, (a.set key value).find key = some p := ⟨_, update_self ..⟩
    refine ⟨h.unknown, fun n hn => ⟨(h.known n hn).1, by rw [hp]; rfl⟩, fun n q hn hq heq => ?_⟩
    obtain rfl := (h.known n hn).1
    exact absurd (by rw [hq, Option.map_some, heq]) (hs hn)
  · refine ⟨h.unknown, fun n hn => ?_, fun n p hn hp => ?_⟩
    · rw [find_set_of_ne hkey]
      exact h.known n hn
    · rw [find_set_of_ne hkey] at hp
      exact h.value n p hn hp

theorem Inv.set (h : Inv s) (ha : ChangeAllowed s name value) : Inv (s.set name value) := by
  obtain ⟨har, hc⟩ := ha
  refine ⟨⟨?_, ?_, fun hs => absurd hs har⟩, ⟨?_, ?_, fun hs => absurd hs har⟩⟩
  · exact h.tag.persist.set (hc _ (by simp))
  · exact h.tag.plain.set (hc _ (by simp))
  · exact h.all.persist.set (hc _ (by simp))
  · exact h.all.plain.set (hc _ (by simp))

end Steps

section Runs

variable (signed : Bool) (defaultTag : List Char)

inductive Step : State → State → Prop
  | set (s : State) (name value : List Char) (h : ChangeAllowed s name value) : Step s (s.set name value)
  | query (s : State) (tag : List Char) (h : QueryAllowed signed defaultTag s tag) :
      Step s (androidLogLevel signed defaultTag s tag).2

def runs : System State := ⟨(· = .init), Step signed defaultTag⟩

theorem inv_init : Inv .init := by
  have hs (keys : Pair (List Char)) : Sound .init keys ⟨.empty, .empty⟩ :=
    ⟨good_empty _ _, good_empty _ _, fun _ _ => ⟨rfl, fun _ => rfl⟩⟩
  exact ⟨hs _, hs _⟩

theorem inv_invariant : (runs signed defaultTag).Invariant Inv where
  init := by
    rintro s rfl
    exact inv_init
  step := by
    intro s s' h hs
    cases hs with
    | set name value ha => exact h.set ha
    | query tag ha => exact h.query.2 ha

/-- Where no serial comes round to one that a cache still holds, and no query after a change leaves out caches
whose properties are not known yet, each query gives the level that the properties have. -/
theorem log_level_uncached (s : State) (tag : List Char) (h : (runs signed defaultTag).Reachable s) :
    (androidLogLevel signed defaultTag s tag).1 = uncachedLevel signed defaultTag s.area tag :=
  ((inv_invariant signed defaultTag).reachable h).query.1

end Runs

def twoProperties : State := (State.init.set logTag ['W']).set (tagKeys ['a']).plain ['D']

theorem twoProperties_reachable : (runs false ['p']).Reachable twoProperties := by
  have hf : (runs false ['p']).Reachable (State.init.set logTag ['W']) :=
    System.Reachable.step (.of_init rfl) (Step.set State.init logTag ['W'] ⟨by decide, by decide⟩)
  exact hf.step (Step.set _ (tagKeys ['a']).plain ['D'] ⟨by decide, by decide⟩)

theorem log_level_uncached_twoProperties : (androidLogLevel false ['p'] twoProperties ['b']).1 = some .warn :=
  (log_level_uncached false ['p'] twoProperties ['b'] twoProperties_reachable).trans (by decide)

/-- A query for a tag that has a level of its own hides `log.tag` from the next query. -/
theorem global_level_missed :
    (androidLogLevel false ['p'] twoProperties ['a']).1 = some .debug ∧
      (androidLogLevel false ['p'] (androidLogLevel false ['p'] twoProperties ['a']).2 ['b']).1 = none ∧
      uncachedLevel false ['p'] (androidLogLevel false ['p'] twoProperties ['a']).2.area ['b'] = some .warn := by
  decide

end Bionic.LogLevel
