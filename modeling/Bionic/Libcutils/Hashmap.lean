import Bionic.Lib.LinkedList
import Mathlib.Data.BitVec

namespace Bionic.Cutils

open Lib Function

variable {K V S : Type}

/-- The functions a map is created with, where equal keys hash equally. -/
structure KeyOps (K : Type) where
  hash : K → BitVec 32
  equals : K → K → Bool
  symm : ∀ {a b}, equals a b → equals b a
  trans : ∀ {a b c}, equals a b → equals b c → equals a c
  hash_eq : ∀ {a b}, equals a b → hash a = hash b

structure Cell (K V : Type) where
  key : K
  hash : BitVec 32
  value : V
deriving DecidableEq, Repr

/-- A `Hashmap` with the memory of its entries: `links` has the buckets and the `next` fields, `cells` the other fields
of the entries that are allocated. -/
structure Hashmap (K V : Type) where
  links : Links Nat Nat
  bucketCount : Nat
  size : Nat
  cells : Nat → Option (Cell K V)

/-- The loop of `hashmapCreate`; the product of the capacity is below 2^64, so 64 rounds are enough. -/
def growTo (minimumBucketCount : Nat) : Nat → Nat → Nat
  | 0, bucketCount => bucketCount
  | rounds + 1, bucketCount =>
    if bucketCount ≤ minimumBucketCount then growTo minimumBucketCount rounds (bucketCount * 2) else bucketCount

def hashmapCreate (initialCapacity : Nat) : Hashmap K V where
  links := ⟨fun _ => none, fun _ => none⟩
  bucketCount := growTo (initialCapacity * 4 % 0x10000000000000000 / 3) 64 1
  size := 0
  cells _ := none

section Hash

variable (ops : KeyOps K)

def hashKey (key : K) : BitVec 32 :=
  let h := ops.hash key
  let h := h + ~~~(h <<< 9)
  let h := h ^^^ (h >>> 14)
  let h := h + (h <<< 4)
  h ^^^ (h >>> 10)

/-- The hash is an `int`: its sign is extended before the mask is applied. -/
def calculateIndex (bucketCount : Nat) (hash : BitVec 32) : Nat := (hash.signExtend 64).toNat &&& (bucketCount - 1)

def equalKeys [DecidableEq K] (keyA : K) (hashA : BitVec 32) (keyB : K) (hashB : BitVec 32) : Bool :=
  if keyA = keyB then true else if hashA ≠ hashB then false else ops.equals keyA keyB

end Hash

/-- The inner loop of `expandIfNecessary`: the entries from `entry` on go to the front of their new buckets. -/
def moveChain (cells : Nat → Option (Cell K V)) (newBucketCount : Nat) :
    Nat → Option Nat → Links Nat Nat → Option (Links Nat Nat)
  | _, none, new => some new
  | 0, some _, _ => none
  | fuel + 1, some entry, new => do
    let cell ← cells entry
    let next := new.next entry
    let index := calculateIndex newBucketCount cell.hash
    moveChain cells newBucketCount fuel next ((new.set (.next entry) (new.head index)).set (.head index) (some entry))

def expandIfNecessary (calloc : Bool) (map : Hashmap K V) : Option (Hashmap K V) :=
  if map.size > map.bucketCount * 3 / 4 then
    if calloc then do
      let newBucketCount := map.bucketCount * 2
      let new ← (List.range map.bucketCount).foldlM
        (fun new i => moveChain map.cells newBucketCount (map.size + 1) (map.links.head i) new)
        ⟨fun _ => none, map.links.next⟩
      some { map with links := new, bucketCount := newBucketCount }
    else some map
  else some map

inductive PutResult (V : Type)
  | enomem
  | old (value : Option V)
deriving DecidableEq, Repr

namespace Hashmap

variable (map : Hashmap K V) (p : Place Nat Nat) (entry : Nat) (cell : Cell K V)

def addEntry : Hashmap K V :=
  { map with
    links := (map.links.set (.next entry) none).set p (some entry)
    size := map.size + 1
    cells := update map.cells entry (some cell) }

def setValue (value : V) : Hashmap K V :=
  { map with cells := update map.cells entry (some { cell with value := value }) }

def freeEntry : Hashmap K V :=
  { map with
    links := map.links.set p (map.links.next entry)
    size := map.size - 1
    cells := update map.cells entry none }

variable (map : Hashmap K V) (p : Place Nat Nat) (entry : Nat) (cell : Cell K V) (value : V)

@[simp]
theorem addEntry_cells : (map.addEntry p entry cell).cells = update map.cells entry (some cell) := rfl

@[simp]
theorem setValue_cells :
    (map.setValue entry cell value).cells = update map.cells entry (some { cell with value := value }) := rfl

@[simp]
theorem freeEntry_cells : (map.freeEntry p entry).cells = update map.cells entry none := rfl

end Hashmap

section Operations

variable [DecidableEq K] (ops : KeyOps K)

namespace Hashmap

/-- The comparison in the loops over a chain; there is none to make with an entry that was freed. -/
def matchesKey (map : Hashmap K V) (key : K) (entry : Nat) : Option Bool :=
  (map.cells entry).map fun cell => equalKeys ops cell.key cell.hash key (hashKey ops key)

omit [DecidableEq K] in
def bucketOf (map : Hashmap K V) (key : K) : Nat := calculateIndex map.bucketCount (hashKey ops key)

def findKey (map : Hashmap K V) (key : K) : Option (Place Nat Nat × Option Nat) :=
  map.links.walk (map.matchesKey ops key) (map.size + 1) (.head (map.bucketOf ops key))

end Hashmap

/-- `newEntry` is what `malloc` returns for the new entry. -/
def hashmapPut (newEntry : Option Nat) (calloc : Bool) (map : Hashmap K V) (key : K) (value : V) :
    Option (PutResult V × Hashmap K V) := do
  let (p, current) ← map.findKey ops key
  match current with
  | none =>
    match newEntry with
    | none => some (.enomem, { map with links := map.links.set p none })
    | some entry =>
      let map' ← expandIfNecessary calloc (map.addEntry p entry ⟨key, hashKey ops key, value⟩)
      some (.old none, map')
  | some current => do
    let cell ← map.cells current
    some (.old (some cell.value), map.setValue current cell value)

def hashmapGet (map : Hashmap K V) (key : K) : Option (Option V) := do
  let (_, entry) ← map.findKey ops key
  match entry with
  | none => some none
  | some entry => do
    let cell ← map.cells entry
    some (some cell.value)

def hashmapRemove (map : Hashmap K V) (key : K) : Option (Option V × Hashmap K V) := do
  let (p, current) ← map.findKey ops key
  match current with
  | none => some (none, map)
  | some current => do
    let cell ← map.cells current
    some (some cell.value, map.freeEntry p current)

/-- What a callback of `hashmapForEach` asks for: that the visited key is removed, and that the loop goes on. -/
structure Verdict (S : Type) where
  remove : Bool
  shouldContinue : Bool
  context : S

variable (callback : K → V → S → Verdict S)

def runCallback (map : Hashmap K V) (context : S) (cell : Cell K V) : Option (Bool × Hashmap K V × S) :=
  let verdict := callback cell.key cell.value context
  if verdict.remove then
    (hashmapRemove ops map cell.key).map fun r => (verdict.shouldContinue, r.2, verdict.context)
  else some (verdict.shouldContinue, map, verdict.context)

/-- The inner loop of `hashmapForEach`; the first component says whether the callback let the loop go on. -/
def forEachEntry (callback : K → V → S → Verdict S) :
    Nat → Option Nat → Hashmap K V × S → Option (Bool × Hashmap K V × S)
  | _, none, (map, context) => some (true, map, context)
  | 0, some _, _ => none
  | fuel + 1, some entry, (map, context) => do
    let next := map.links.next entry
    let cell ← map.cells entry
    let (shouldContinue, map', context') ← runCallback ops callback map context cell
    if shouldContinue then forEachEntry callback fuel next (map', context') else some (false, map', context')

def forEachBucket (callback : K → V → S → Verdict S) :
    Nat → Nat → Hashmap K V × S → Option (Bool × Hashmap K V × S)
  | 0, _, (map, context) => some (true, map, context)
  | rounds + 1, i, (map, context) => do
    let (shouldContinue, map', context') ← forEachEntry ops callback (map.size + 1) (map.links.head i) (map, context)
    if shouldContinue then forEachBucket callback rounds (i + 1) (map', context') else some (false, map', context')

def hashmapForEach (map : Hashmap K V) (context : S) : Option (Bool × Hashmap K V × S) :=
  forEachBucket ops callback map.bucketCount 0 (map, context)

end Operations

section StrParms

structure CStr where
  address : Nat
  text : List UInt8
deriving DecidableEq, Repr

variable (char : UInt8 → BitVec 32)

/-- `str_hash_fn`; `char` gives the value of a character, which may be signed or not. -/
def strHashFn (str : CStr) : BitVec 32 :=
  str.text.foldl (fun hash c => ((hash <<< 5) + hash) + char c) 5381

def strEq (keyA keyB : CStr) : Bool := keyA.text == keyB.text

def strOps : KeyOps CStr where
  hash := strHashFn char
  equals := strEq
  symm h := by
    simp only [strEq, beq_iff_eq] at h ⊢
    exact h.symm
  trans h h' := by
    simp only [strEq, beq_iff_eq] at h h' ⊢
    exact h.trans h'
  hash_eq h := by
    simp only [strEq, beq_iff_eq] at h
    rw [strHashFn, h, strHashFn]

def removePair (key : CStr) (_ : V) (context : Option CStr) : Verdict (Option CStr) :=
  match context with
  | none => ⟨true, true, context⟩
  | some wanted => if wanted.text = key.text then ⟨true, false, context⟩ else ⟨false, true, context⟩

def strParmsDel (map : Hashmap CStr V) (key : Option CStr) : Option (Hashmap CStr V) :=
  (hashmapForEach (strOps char) removePair map key).map (·.2.1)

end StrParms

end Bionic.Cutils
