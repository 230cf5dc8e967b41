import Bionic.Logd.Element
import Mathlib.Data.List.Basic

namespace Bionic.Logd

open List

namespace Reader

structure Entry where
  logId : LogId
  uid : UInt32
  pid : UInt32
  sequence : ℕ
  realtime : LogTime
  droppedCount : ℕ
  deriving DecidableEq, Repr

inductive FilterResult
  | skip
  | stop
  | write
  deriving DecidableEq, Repr

structure LogWriter where
  privileged : Bool
  uid : UInt32

/-- The fields of a `LogReaderThread` that its filters use; 0 stands for every `pid` and for no `tail`. -/
structure LogReaderThread where
  pid : UInt32
  tail : ℕ
  count : ℕ
  index : ℕ
  startTime : LogTime
  skipAhead : LogId → ℕ
  release : Bool
  nonBlock : Bool

abbrev Filter := LogReaderThread → Entry → LogReaderThread × FilterResult

def LogWriter.mayRead (writer : LogWriter) (e : Entry) : Bool := writer.privileged || e.uid == writer.uid

/-- `SerializedLogBuffer::FlushTo` over the entries of the watched logs in order: which of them are written. -/
def serializedFlushTo (writer : LogWriter) (filter : Filter) :
    ℕ → LogReaderThread → List Entry → LogReaderThread × List Entry
  | _, r, [] => (r, [])
  | start, r, e :: es =>
    if e.sequence < start then serializedFlushTo writer filter start r es
    else if ¬writer.mayRead e then serializedFlushTo writer filter e.sequence r es
    else
      match filter r e with
      | (r, .skip) => serializedFlushTo writer filter e.sequence r es
      | (r, .stop) => (r, [])
      | (r, .write) =>
        let (r, written) := serializedFlushTo writer filter e.sequence r es
        (r, e :: written)

def fromEnd (start : ℕ) : List Entry → List Entry → List Entry
  | [], found => found
  | e :: before, found =>
    if e.sequence = start then e :: found else if e.sequence < start then found else fromEnd start before (e :: found)

/-- Where `SimpleLogBuffer::FlushTo` begins, looked for from the end of the buffer. -/
def startAt (start : ℕ) (es : List Entry) : List Entry :=
  if start ≤ 1 then es else fromEnd start es.reverse []

/-- The loop of `SimpleLogBuffer::FlushTo`, which a `ChattyLogBuffer` inherits. Until something is written it leaves
out the entries that stand for dropped messages, whatever the filter says. -/
def simpleFlushTo (writer : LogWriter) (logMask : LogId → Bool) (filter : Filter) :
    Bool → LogReaderThread → List Entry → LogReaderThread × List Entry
  | _, r, [] => (r, [])
  | dropChattyMessages, r, e :: es =>
    if ¬writer.mayRead e then simpleFlushTo writer logMask filter dropChattyMessages r es
    else if ¬logMask e.logId then simpleFlushTo writer logMask filter dropChattyMessages r es
    else
      match filter r e with
      | (r, .skip) => simpleFlushTo writer logMask filter dropChattyMessages r es
      | (r, .stop) => (r, [])
      | (r, .write) =>
        if dropChattyMessages && e.droppedCount ≠ 0 then simpleFlushTo writer logMask filter dropChattyMessages r es
        else
          let (r, written) := simpleFlushTo writer logMask filter false r es
          (r, e :: written)

inductive LogBuffer
  | serialized
  | simple

def LogBuffer.flushTo (buffer : LogBuffer) (writer : LogWriter) (logMask : LogId → Bool) (filter : Filter) (start : ℕ)
    (r : LogReaderThread) (es : List Entry) : LogReaderThread × List Entry :=
  match buffer with
  | .serialized => serializedFlushTo writer filter start r (es.filter (logMask ·.logId))
  | .simple => simpleFlushTo writer logMask filter true r (startAt start es)

namespace LogReaderThread

variable (r : LogReaderThread) (e : Entry)

def ok : LogReaderThread × FilterResult := (r, if r.skipAhead e.logId = 0 then .write else .skip)

/-- A reader that does not wait, before its first pass, without a request to skip or to stop. -/
structure Fresh : Prop where
  count : r.count = 0
  index : r.index = 0
  skipAhead : ∀ id, r.skipAhead id = 0
  release : r.release = false
  nonBlock : r.nonBlock

end LogReaderThread

variable {buffer : LogBuffer} {writer : LogWriter} {logMask : LogId → Bool} {start : ℕ} {r : LogReaderThread}
  {es : List Entry} {e : Entry} (filter : Filter)

structure Second (r : LogReaderThread) : Prop where
  tail : r.tail ≠ 0
  skipAhead : ∀ id, r.skipAhead id = 0
  release : r.release = false
  nonBlock : r.nonBlock

def LogReaderThread.next (r : LogReaderThread) : LogReaderThread := { r with index := r.index + 1 }

theorem Second.next (h : Second r) : Second r.next := ⟨h.tail, h.skipAhead, h.release, h.nonBlock⟩

end Reader

end Bionic.Logd
