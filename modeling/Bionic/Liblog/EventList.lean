import Bionic.Lib.LittleEndian
import Bionic.Lib.Memory

namespace Bionic.EventList

open Lib Function

def maxListNestDepth : ℕ := 8

def maxEventPayload : ℕ := 4064

def eventTypeInt : UInt8 := 0

def eventTypeLong : UInt8 := 1

def eventTypeString : UInt8 := 2

def eventTypeList : UInt8 := 3

def eventTypeFloat : UInt8 := 4

def eventTypeListStop : UInt8 := 10

inductive Errno
  | eoverflow
  | eio
  deriving DecidableEq, Repr

/-- A context for writing. `count` and `list` hold the number of elements and the place of the element counter of
the lists that are open, the outermost at `0`. -/
structure Writer where
  pos : ℕ
  count : ℕ → ℕ
  list : ℕ → ℕ
  listNestDepth : ℕ
  overflow : Bool
  storage : ℕ → UInt8

def text (value : List UInt8) (maxlen : ℕ) : List UInt8 := (value.take maxlen).takeWhile (· ≠ 0)

abbrev WriteM := Except Errno ℤ × Writer

def createAndroidLogger : Writer where
  pos := 2
  count := fun _ => 0
  list := update (fun _ => 0) 0 1
  listNestDepth := 0
  overflow := false
  storage := store (fun _ => 0) 0 [eventTypeList]

namespace Writer

variable (w : Writer) (value : UInt32)

def fail (errno : Errno) : WriteM := (.error errno, { w with overflow := true })

def counted : ℕ → ℕ := update w.count w.listNestDepth (w.count w.listNestDepth + 1)

def androidLogWriteListBegin : WriteM :=
  if w.listNestDepth > maxListNestDepth then w.fail .eoverflow
  else if w.pos + 2 > maxEventPayload then w.fail .eio
  else
    let w := { w with count := w.counted, listNestDepth := w.listNestDepth + 1 }
    if w.listNestDepth > maxListNestDepth then w.fail .eoverflow
    else if w.overflow then (.error .eio, w)
    else
      (.ok 0, { w with
        storage := store w.storage w.pos [eventTypeList, 0]
        list := update w.list w.listNestDepth (w.pos + 1)
        count := update w.count w.listNestDepth 0
        pos := w.pos + 2 })

def writeFixed (type : UInt8) (data : List UInt8) : WriteM :=
  if w.overflow then (.error .eio, w)
  else if w.pos + (1 + data.length) > maxEventPayload then w.fail .eio
  else
    (.ok 0, { w with
      count := w.counted
      storage := store w.storage w.pos (type :: data)
      pos := w.pos + (1 + data.length) })

def androidLogWriteInt32 : WriteM := w.writeFixed eventTypeInt (leBytes 4 value.toNat)

def androidLogWriteInt64 (value : UInt64) : WriteM := w.writeFixed eventTypeLong (leBytes 8 value.toNat)

def androidLogWriteFloat32 : WriteM := w.writeFixed eventTypeFloat (leBytes 4 value.toNat)

/-- A string that does not fit is cut, but the position moves as if it were not. The length is an int32_t; below zero
it lets memcpy run over the storage with all that the string has. -/
def androidLogWriteString8Len (value : List UInt8) (maxlen : ℕ) : WriteM :=
  if w.overflow then (.error .eio, w)
  else
    let len := Int.bmod (text value maxlen).length (2 ^ 32)
    let needed := 5 + len
    -- The sum is a size_t, so that one below zero is a large one.
    let cut := maxEventPayload < w.pos + needed ∨ w.pos + needed < 0
    let len := if cut then Int.bmod (maxEventPayload - w.pos - 5) (2 ^ 32) else len
    if cut ∧ len ≤ 0 then w.fail .eio
    else
      (.ok len, { w with
        count := w.counted
        storage := store w.storage w.pos
          (eventTypeString :: leBytes 4 (len % 2 ^ 32).toNat ++ value.take (len % 2 ^ 64).toNat)
        pos := ((w.pos + needed) % 2 ^ 32).toNat })

def androidLogWriteListEnd : WriteM :=
  if w.listNestDepth > maxListNestDepth then
    (.error .eoverflow, { w with overflow := true, listNestDepth := w.listNestDepth - 1 })
  else if w.listNestDepth = 0 then w.fail .eoverflow
  else if w.list w.listNestDepth = 0 then
    (.error .eoverflow, { w with overflow := true, listNestDepth := w.listNestDepth - 1 })
  else
    (.ok 0, { w with
      storage := store w.storage (w.list w.listNestDepth) [.ofNat (w.count w.listNestDepth)]
      listNestDepth := w.listNestDepth - 1 })

/-- The bytes handed to the caller. An event of one element leaves out the head of the outermost list. -/
def androidLogWriteListBuffer : Except Errno (List UInt8) :=
  if w.listNestDepth ≠ 0 then .error .eio
  else
    let storage := store w.storage 1 [.ofNat (w.count 0)]
    if w.count 0 ≤ 1 then .ok (load storage 2 (w.pos - 2)) else .ok (load storage 0 w.pos)

end Writer

/-- A context for parsing. `count` holds the numbers of elements still to come in the lists that are open. -/
structure Reader where
  pos : ℕ
  count : ℕ → ℕ
  listNestDepth : ℕ
  len : ℕ
  listStop : Bool
  storage : ℕ → UInt8

inductive Data
  | int32 (value : UInt32)
  | int64 (value : UInt64)
  | float32 (value : UInt32)
  | string (value : List UInt8)
  | list
  | listStop
  | unknown
  deriving DecidableEq, Repr

structure Element where
  data : Data
  complete : Bool
  deriving DecidableEq, Repr

def createAndroidLogParser (msg : List UInt8) : Reader where
  pos := 0
  count := fun _ => 0
  listNestDepth := 0
  len := min msg.length maxEventPayload
  listStop := false
  storage := store (fun _ => 0) 0 (msg.take maxEventPayload)

def elementCount (b : UInt8) : ℕ := if b.toNat < 128 then b.toNat else 2 ^ 32 - 256 + b.toNat

namespace Reader

variable (r : Reader) (k : ℕ) (data : Data)

def word : ℕ := leValue (load r.storage (r.pos + 1) k)

def tangible (pos : ℕ) (peek : Bool) : Element × Reader :=
  (⟨data, r.listNestDepth = 0 ∧ r.count 0 = 0⟩,
    if peek then r
    else { r with
      count := update r.count r.listNestDepth (r.count r.listNestDepth - 1)
      listStop := if r.count r.listNestDepth ≤ 1 then true else r.listStop
      pos := pos })

def readFixed (peek : Bool) : Element × Reader :=
  if r.pos + (1 + k) > r.len then (⟨.unknown, false⟩, r) else r.tangible data (r.pos + (1 + k)) peek

variable (peek : Bool)

def readString : Element × Reader :=
  if r.pos + 5 > r.len then (⟨.unknown, true⟩, r)
  else if 65535 ≤ r.word 4 ∧ r.word 4 < 2 ^ 31 then (⟨.unknown, false⟩, r)
  else
    let len := r.word 4 % 2 ^ 16
    if r.pos + 5 + len > r.len then
      if r.len - (r.pos + 5) = 0 then (⟨.unknown, true⟩, r)
      else r.tangible (.string (load r.storage (r.pos + 5) (r.len - (r.pos + 5)))) r.len peek
    else r.tangible (.string (load r.storage (r.pos + 5) len)) (r.pos + 5 + len) peek

def readList : Element × Reader :=
  if r.pos + 2 > r.len then (⟨.unknown, true⟩, r)
  else
    (⟨.list, maxListNestDepth ≤ r.listNestDepth⟩,
      if peek then r
      else
        let count := update r.count r.listNestDepth (r.count r.listNestDepth - 1)
        let n := elementCount (r.storage (r.pos + 1))
        { r with
          count := if r.listNestDepth + 1 ≤ maxListNestDepth then update count (r.listNestDepth + 1) n else count
          listStop := r.storage (r.pos + 1) = 0
          listNestDepth := r.listNestDepth + 1
          pos := r.pos + 2 })

def readListStop : Element × Reader :=
  let r' := if peek then r else { r with pos := r.pos + 1 }
  if r.listNestDepth > 0 then
    (⟨.listStop, false⟩, if peek then r' else { r' with listNestDepth := r.listNestDepth - 1 })
  else (⟨.unknown, true⟩, r')

@[simp] def stop : Element × Reader :=
  (⟨.listStop, r.count 0 = 0 ∧ (r.listNestDepth = 0 ∨ r.listNestDepth = 1 ∧ r.count 1 = 0)⟩,
    if peek then r
    else
      let r' := if r.storage r.pos = eventTypeListStop then { r with pos := r.pos + 1 } else r
      if r.listNestDepth ≠ 0 then
        { r' with
          listNestDepth := r.listNestDepth - 1
          listStop := if r.count (r.listNestDepth - 1) ≠ 0 then false else r.listStop }
      else { r' with listStop := false })

def readElement : Element × Reader :=
  let type := r.storage r.pos
  if type = eventTypeFloat then r.readFixed 4 (.float32 (.ofNat (r.word 4))) peek
  else if type = eventTypeInt then r.readFixed 4 (.int32 (.ofNat (r.word 4))) peek
  else if type = eventTypeLong then r.readFixed 8 (.int64 (.ofNat (r.word 8))) peek
  else if type = eventTypeString then r.readString peek
  else if type = eventTypeList then r.readList peek
  else if type = eventTypeListStop then r.readListStop peek
  else (⟨.unknown, false⟩, r)

def androidLogReadNextInternal : Element × Reader :=
  if r.listNestDepth > maxListNestDepth ∨ maxEventPayload / 2 ≤ r.count r.listNestDepth then
    (⟨if r.listStop ∨ r.listNestDepth ≤ maxListNestDepth ∧ r.count r.listNestDepth = 0 then .listStop else .unknown,
      true⟩, r)
  else if r.listStop then r.stop peek
  else if r.pos + 1 > r.len then (⟨.unknown, true⟩, r)
  else r.readElement peek

def androidLogReadNext : Element × Reader := r.androidLogReadNextInternal false

end Reader

end Bionic.EventList
