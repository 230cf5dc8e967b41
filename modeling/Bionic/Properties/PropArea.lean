import Bionic.Lib.CString
import Bionic.Lib.LinkedTrie
import Bionic.Properties.Serial

namespace Bionic.Properties

open Lib (strncmp strncmp_take strncmp_eq_zero_iff strchr strchr_eq_none_iff strchr_eq_some)

variable (one : List UInt8)

def cmpPropName (oneLen : UInt32) (two : List UInt8) (twoLen : UInt32) : Int :=
  if oneLen < twoLen then -1
  else if oneLen > twoLen then 1
  else strncmp one two oneLen.toNat

/-- The order `cmp_prop_name` puts on the tokens of names: by length, then by bytes. -/
def cmpToken (two : List UInt8) : Int :=
  if one.length < two.length then -1
  else if one.length > two.length then 1
  else strncmp one two one.length

theorem cmpToken_eq_zero_iff (two : List UInt8) : cmpToken one two = 0 ↔ one = two := by
  unfold cmpToken
  split
  · rename_i h
    refine iff_of_false (by decide) ?_
    rintro rfl
    omega
  · split
    · rename_i h
      refine iff_of_false (by decide) ?_
      rintro rfl
      omega
    · exact strncmp_eq_zero_iff rfl (by omega)

/-- `cmp_prop_name` compares as tokens the bytes it is given the length of. -/
theorem cmpPropName_eq_cmpToken {one two : List UInt8} {oneLen twoLen : UInt32} (hone : oneLen.toNat ≤ one.length)
    (htwo : twoLen.toNat = two.length) :
    cmpPropName one oneLen two twoLen = cmpToken (one.take oneLen.toNat) two := by
  have hlen : (one.take oneLen.toNat).length = oneLen.toNat := by
    rw [List.length_take, Nat.min_eq_left hone]
  simp only [cmpPropName, cmpToken, hlen, ← htwo, UInt32.lt_iff_toNat_lt, strncmp_take]

section Tokens

variable {s : List UInt8} {i : Nat}

def tokens (name : List UInt8) : List (List UInt8) := name.splitOn 46

theorem tokens_of_strchr_eq_some (h : strchr s 46 = some i) : tokens s = s.take i :: tokens (s.drop (i + 1)) := by
  obtain ⟨-, hs, hnot⟩ := strchr_eq_some h
  conv_lhs => rw [hs]
  exact List.splitOn_append_cons_self_of_not_mem hnot _

theorem tokens_eq_cons (s : List UInt8) :
    tokens s = s.take ((strchr s 46).getD s.length) ::
      (match strchr s 46 with
        | none => []
        | some i => tokens (s.drop (i + 1))) := by
  cases h : strchr s 46 with
  | none => rw [tokens, List.splitOn_eq_singleton (strchr_eq_none_iff.1 h), Option.getD_none, List.take_length]
  | some i => rw [tokens_of_strchr_eq_some h, Option.getD_some]

theorem tokens_injective {t : List UInt8} (h : tokens s = tokens t) : s = t := by
  calc s = [46].intercalate (tokens s) := (List.intercalate_splitOn 46).symm
    _ = [46].intercalate (tokens t) := by rw [h]
    _ = t := List.intercalate_splitOn 46

end Tokens

open Lib (CString)
open Lib.LinkedTrie (Slot Node)

/-- A node of the trie. Links are offsets from the start of the area's data, 0 is no link. -/
structure PropBt where
  namelen : UInt32
  prop : Nat
  left : Nat
  right : Nat
  children : Nat
  name : List UInt8
  deriving DecidableEq

namespace PropBt

variable (bt : PropBt)

def node : Node (List UInt8) := ⟨bt.name, bt.left, bt.right, bt.children⟩

def link (s : Slot) : Nat := bt.node.link s

def setLink : Slot → Nat → PropBt
  | .left, off => { bt with left := off }
  | .right, off => { bt with right := off }
  | .children, off => { bt with children := off }

end PropBt

/-- The union of `prop_info`: the value, or the legacy error with the distance to the long value. -/
inductive PropInfo.Contents where
  | value (bytes : List UInt8)
  | longProperty (errorMessage : String) (offset : Nat)
  deriving DecidableEq

structure PropInfo where
  serial : UInt32
  contents : PropInfo.Contents
  name : List UInt8
  deriving DecidableEq

namespace PropInfo

def kLongFlag : UInt32 := 0x10000

def kLongLegacyError : String := "Must use __system_property_read_callback() to read"

def newShort (name : List UInt8) (namelen : UInt32) (value : List UInt8) (valuelen : UInt32) : PropInfo where
  serial := valuelen <<< 24
  contents := .value (value.take valuelen.toNat)
  name := name.take namelen.toNat

def newLong (name : List UInt8) (namelen : UInt32) (longOffset : Nat) : PropInfo where
  serial := UInt32.ofNat kLongLegacyError.length <<< 24 ||| kLongFlag
  contents := .longProperty kLongLegacyError longOffset
  name := name.take namelen.toNat

end PropInfo

inductive Obj where
  | bt (bt : PropBt)
  | info (info : PropInfo)
  | longValue (bytes : List UInt8)
  deriving DecidableEq

def sizeofPropBt : Nat := 20
def sizeofPropInfo : Nat := 96

def paDataSize : Nat := 128 * 1024 - 128

structure PropArea where
  bytesUsed : Nat
  data : Nat → Option Obj

namespace PropArea

/-- The area as its constructor leaves it: the root node in zeroed memory and the dirty backup area. -/
def fresh : PropArea where
  bytesUsed := sizeofPropBt + (propValueMax + 3) / 4 * 4
  data := Function.update (fun _ => none) 0 (some (.bt ⟨0, 0, 0, 0, 0, []⟩))

variable (a : PropArea)

variable (off : Nat) (name : List UInt8) (namelen : UInt32) (value : List UInt8) (valuelen : UInt32) (current : Nat)
  (bt : PropBt)

def write (obj : Obj) : PropArea := { a with data := Function.update a.data off (some obj) }

def bt? : Option PropBt :=
  match a.data off with
  | some (.bt bt) => some bt
  | _ => none

def allocateObj (size : Nat) : Option (PropArea × Nat) :=
  let aligned := (size + 3) / 4 * 4
  if a.bytesUsed + aligned > paDataSize then none
  else some ({ a with bytesUsed := a.bytesUsed + aligned }, a.bytesUsed)

def newPropBt : Option (PropArea × Nat) := do
  let (a, off) ← a.allocateObj (sizeofPropBt + namelen.toNat + 1)
  return (a.write off (.bt ⟨namelen, 0, 0, 0, 0, name.take namelen.toNat⟩), off)

/-- The area changes even if the node is not made: the space of a `prop_info` without its long value is lost. -/
def newPropInfo : PropArea × Option Nat :=
  match a.allocateObj (sizeofPropInfo + namelen.toNat + 1) with
  | none => (a, none)
  | some (a, newOffset) =>
    if propValueMax ≤ valuelen.toNat then
      match a.allocateObj (valuelen + 1).toNat with
      | none => (a, none)
      | some (a, longValueOffset) =>
        let a := a.write longValueOffset (.longValue (value.take valuelen.toNat))
        (a.write newOffset (.info (.newLong name namelen (longValueOffset - newOffset))), some newOffset)
    else (a.write newOffset (.info (.newShort name namelen value valuelen)), some newOffset)

def toPropObj : Option Nat := if off > paDataSize then none else some off

/-- Enough iterations for any walk along links to larger offsets. -/
def loopFuel : Nat := paDataSize + 1

def allocLinked (s : Slot) (name : List UInt8) (namelen : UInt32) : PropArea × Option Nat :=
  match a.newPropBt name namelen with
  | none => (a, none)
  | some (a, newOffset) => (a.write current (.bt (bt.setLink s newOffset)), some newOffset)

/-- `prop_area::find_prop_bt`. The outer `none` is a walk that meets no node or does not end; the inner one is
the source's null. -/
def findPropBt (name : List UInt8) (namelen : UInt32) (allocIfNeeded : Bool) :
    Nat → PropArea → Option Nat → Option (PropArea × Option Nat)
  | 0, _, _ => none
  | _ + 1, a, none => some (a, none)
  | fuel + 1, a, some current => do
      let bt ← a.bt? current
      let ret := cmpPropName name namelen bt.name bt.namelen
      if ret = 0 then return (a, some current)
      let s : Slot := if ret < 0 then .left else .right
      if bt.link s ≠ 0 then findPropBt name namelen allocIfNeeded fuel a (toPropObj (bt.link s))
      else if ¬ allocIfNeeded then return (a, none)
      else return a.allocLinked current bt s name namelen

def childrenRoot (name : List UInt8) (namelen : UInt32) (allocIfNeeded : Bool) : PropArea × Option Nat :=
  if bt.children ≠ 0 then (a, toPropObj bt.children)
  else if allocIfNeeded then a.allocLinked current bt .children name namelen
  else (a, none)

def findNode (allocIfNeeded : Bool) :
    Nat → PropArea → (current : Nat) → (remainingName : List UInt8) → Option (PropArea × Option Nat)
  | 0, _, _, _ => none
  | fuel + 1, a, current, remainingName => do
      let sep := strchr remainingName 46
      let substrSize := UInt32.ofNat (sep.getD remainingName.length)
      if substrSize = 0 then return (a, none)
      let bt ← a.bt? current
      match a.childrenRoot current bt remainingName substrSize allocIfNeeded with
      | (a, none) => return (a, none)
      | (a, some root) =>
        match ← findPropBt remainingName substrSize allocIfNeeded loopFuel a (some root) with
        | (a, none) => return (a, none)
        | (a, some current) =>
          match sep with
          | none => return (a, some current)
          | some i => findNode allocIfNeeded fuel a current (remainingName.drop (i + 1))

def findProperty (allocIfNeeded : Bool) : Option (PropArea × Option Nat) := do
  match ← findNode allocIfNeeded (name.length + 1) a 0 name with
  | (a, none) => return (a, none)
  | (a, some current) =>
    let bt ← a.bt? current
    if bt.prop ≠ 0 then return (a, toPropObj bt.prop)
    else if allocIfNeeded then
      match a.newPropInfo name namelen value valuelen with
      | (a, none) => return (a, none)
      | (a, some newOffset) => return (a.write current (.bt { bt with prop := newOffset }), some newOffset)
    else return (a, none)

def find (name : CString) : Option (Option Nat) :=
  (a.findProperty name.bytes (UInt32.ofNat name.bytes.length) [] 0 false).map Prod.snd

/-- `prop_area::add` with `strlen` of the name and of the value; the source returns whether the node is not
null. -/
def add (name value : CString) : Option (PropArea × Option Nat) :=
  a.findProperty name.bytes (UInt32.ofNat name.bytes.length) value.bytes (UInt32.ofNat value.bytes.length) true

/-- `foreach_property` keeps the `bool` of a recursive call in an `int`. -/
def err (result : Bool) : Int := if result then 1 else 0

def visitProp (visited : List Nat) : Option (List Nat) :=
  if off ≠ 0 then (toPropObj off).map fun info => visited ++ [info] else some visited

def walkLink (walk : Option Nat → List Nat → Option (Bool × List Nat)) (off : Nat) (visited : List Nat) :
    Option (Bool × List Nat) :=
  if off ≠ 0 then walk (toPropObj off) visited else some (true, visited)

/-- `prop_area::foreach_property`, with the offsets `propfn` has been called with so far. -/
def foreachProperty : Nat → Option Nat → List Nat → Option (Bool × List Nat)
  | 0, _, _ => none
  | _ + 1, none, visited => some (false, visited)
  | fuel + 1, some trie, visited => do
      let bt ← a.bt? trie
      let (result, visited) ← walkLink (foreachProperty fuel) bt.left visited
      if err result < 0 then return (false, visited)
      match visitProp bt.prop visited with
      | none => return (false, visited)
      | some visited =>
        let (result, visited) ← walkLink (foreachProperty fuel) bt.children visited
        if err result < 0 then return (false, visited)
        let (result, visited) ← walkLink (foreachProperty fuel) bt.right visited
        if err result < 0 then return (false, visited)
        return (true, visited)

def foreach : Option (Bool × List Nat) := a.foreachProperty loopFuel (some 0) []

end PropArea

end Bionic.Properties
