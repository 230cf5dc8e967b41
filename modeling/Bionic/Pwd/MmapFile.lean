import Bionic.Pwd.AppId

namespace Bionic.Pwd

open Stdlib

/-- A pointer into the mapped file is the text from there to the end of the mapping. The bytes behind it are zero. -/
abbrev Pointer := List Char

abbrev Fields := List (Option Pointer)

def fieldText (field : Pointer) : List Char := field.takeWhile fun c => c ≠ ':' ∧ c ≠ '\n'

def copyFieldToString (source : Pointer) (max : Nat) : List Char := (fieldText source).take (max - 1)

variable (lp64 : Bool) (fields : Fields) (numFields : Nat) (file : DbFile) (q : Query)

def fieldToUid (field : Option Pointer) : Option Nat := do
  let s ← field
  let r := strtoul lp64 s 0
  if r.errno ≠ none ∨ r.rest = s ∨ r.rest.head? ≠ some ':' then none
  else some (r.value % 2 ^ 32)

/-- The second loop of ParseLine: one past the end of the line. `end_` is the last character of the mapping. -/
def skipLine : Pointer → Pointer
  | c :: c' :: rest => if c = '\n' then c' :: rest else skipLine (c' :: rest)
  | position => position.tail

def scanFields (numFields : Nat) : Nat → Fields → Pointer → Fields × Pointer
  | written, fields, c :: c' :: rest =>
    if written < numFields then
      if c = '\n' then (fields, c' :: rest)
      else if c = ':' then scanFields numFields (written + 1) (fields.set written (some (c' :: rest))) (c' :: rest)
      else scanFields numFields written fields (c' :: rest)
    else (fields, skipLine (c :: c' :: rest))
  | _, fields, position => (fields, position.tail)

def parseLine (fields : Fields) (begin_ : Pointer) : Fields × Pointer :=
  scanFields numFields 1 (fields.set 0 (some begin_)) begin_

def nameMatches : Pointer → List Char → Bool
  | c :: _, [] => c = ':'
  | c :: cs, m :: ms => if c = '\n' ∨ c = ':' then false else if c = m then nameMatches cs ms else false
  | [], _ => false

inductive Query
  | id (uid : Nat)
  | name (login : List Char)
  deriving DecidableEq

def Query.predicate : Query → Bool
  | .id uid => fieldToUid lp64 (fields[2]?.join) = some uid
  | .name login => (fields[0]?.join).any fun lineName => nameMatches lineName login

def hasPrefix (requiredPrefix : List Char) (line : Pointer) : Bool := requiredPrefix.isPrefixOf line

/-- The loop of MmapFile::Find. `fuel` bounds the number of lines. -/
def findLoop (lp64 : Bool) (numFields : Nat) (requiredPrefix : List Char) (q : Query) :
    Nat → Fields → Pointer → Option Fields
  | 0, _, _ => none
  | fuel + 1, fields, lineBeginning =>
    if lineBeginning.length ≤ 1 then none
    else
      let (fields, next) := parseLine numFields fields lineBeginning
      if hasPrefix requiredPrefix lineBeginning ∧ q.predicate lp64 fields then some fields
      else findLoop lp64 numFields requiredPrefix q fuel fields next

/-- MmapFile::Find. A file that does not end in a newline is not mapped. -/
def find (text requiredPrefix : List Char) (q : Query) : Option Fields :=
  if text.getLast? = some '\n' then
    findLoop lp64 numFields requiredPrefix q text.length (List.replicate numFields none) text
  else none

structure Passwd where
  name : List Char
  uid : Nat
  gid : Nat
  dir : List Char
  shell : List Char
  deriving DecidableEq

def passwdNumFields : Nat := 7

def toPasswdState : Option Passwd := do
  let name ← fields[0]?.join
  let dir ← fields[5]?.join
  let shell ← fields[6]?.join
  let uid ← fieldToUid lp64 fields[2]?.join
  let gid ← fieldToUid lp64 fields[3]?.join
  return ⟨copyFieldToString name kGrpPwdBufferSize, uid, gid, copyFieldToString dir kGrpPwdBufferSize,
    copyFieldToString shell kGrpPwdBufferSize⟩

structure Group where
  name : List Char
  gid : Nat
  deriving DecidableEq

def groupNumFields : Nat := 4

/-- GroupLine::ToGroupState. The only member is the name. -/
def toGroupState : Option Group := do
  let name ← fields[0]?.join
  let gid ← fieldToUid lp64 fields[2]?.join
  return ⟨copyFieldToString name kGrpPwdBufferSize, gid⟩

structure DbFile where
  text : List Char
  requiredPrefix : List Char

def findPasswd : Option Passwd :=
  (find lp64 passwdNumFields file.text file.requiredPrefix q).bind (toPasswdState lp64)

def findGroup : Option Group :=
  (find lp64 groupNumFields file.text file.requiredPrefix q).bind (toGroupState lp64)

end Bionic.Pwd
