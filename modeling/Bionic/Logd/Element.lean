import Mathlib.Data.Nat.Notation

namespace Bionic.Logd

inductive LogId where
  | main
  | radio
  | events
  | system
  | crash
  | stats
  | security
  | kernel
  deriving DecidableEq, Repr

def LogId.isBinary : LogId → Bool
  | .events | .stats | .security => true
  | _ => false

def LogId.worstUidEnabled : LogId → Bool
  | .main | .system | .radio | .events => true
  | _ => false

def aidSystem : UInt32 := 1000

structure LogTime where
  tvSec : UInt32
  tvNsec : UInt32
  deriving DecidableEq, Repr

namespace LogTime

def nsec (t : LogTime) : ℕ := t.tvSec.toNat * 1000000000 + t.tvNsec.toNat

variable (t t' : LogTime)

def lt : Bool := t.tvSec < t'.tvSec || (t.tvSec = t'.tvSec && t.tvNsec < t'.tvNsec)

def gt : Bool := t.tvSec > t'.tvSec || (t.tvSec == t'.tvSec && t.tvNsec > t'.tvNsec)

def le : Bool := !t.gt t'

def sub : LogTime :=
  if !lt t' t then ⟨0, 0⟩
  else if t.tvNsec < t'.tvNsec then ⟨t.tvSec - 1 - t'.tvSec, 1000000000 + t.tvNsec - t'.tvNsec⟩
  else ⟨t.tvSec - t'.tvSec, t.tvNsec - t'.tvNsec⟩

theorem le_total : t.le t' ∨ t'.le t := by
  simp only [le, gt, ← UInt32.toNat_inj, gt_iff_lt, UInt32.lt_iff_toNat_lt,
    Bool.not_eq_true', Bool.or_eq_false_iff, Bool.and_eq_false_iff, decide_eq_false_iff_not, beq_eq_false_iff_ne, ne_eq]
  omega

end LogTime

/-- The bytes of a message: their number fits the 16 bits of `msg_len_`. -/
structure Msg where
  bytes : List UInt8
  length_lt : bytes.length < 65536
  deriving DecidableEq, Repr

/-- The numeric tag of a binary message: the four bytes of its header, least significant first. -/
def msgToTag : List UInt8 → UInt32
  | a :: b :: c :: d :: _ =>
    a.toUInt32 + b.toUInt32 * 256 + c.toUInt32 * 65536 + d.toUInt32 * 16777216
  | _ => 0

/-- The two unions of a `LogBufferElement`. A dropped element stands for `count` messages that are
gone, and there is at least one. -/
inductive Body where
  | message (msg : Msg)
  | dropped (tag : UInt32) (count : UInt16) (count_ne_zero : count ≠ 0)
  deriving DecidableEq, Repr

structure LogBufferElement where
  uid : UInt32
  pid : UInt32
  tid : UInt32
  sequence : ℕ
  realtime : LogTime
  logId : LogId
  body : Body
  deriving DecidableEq, Repr

namespace LogBufferElement

variable (e : LogBufferElement)

def msg : Option (List UInt8) :=
  match e.body with
  | .message m => some m.bytes
  | .dropped .. => none

def msgLen : ℕ :=
  match e.body with
  | .message m => m.bytes.length
  | .dropped .. => 0

def droppedCount : ℕ :=
  match e.body with
  | .message _ => 0
  | .dropped _ count _ => count.toNat

def getTag : UInt32 :=
  if e.logId.isBinary then
    match e.body with
    | .message m => msgToTag m.bytes
    | .dropped tag _ _ => tag
  else 0

variable (value : UInt16)

def setDropped (h : value ≠ 0) : LogBufferElement :=
  { e with body := .dropped e.getTag value h }

@[simp] theorem msgLen_setDropped (h : value ≠ 0) : (e.setDropped value h).msgLen = 0 := rfl

@[simp] theorem droppedCount_setDropped (h : value ≠ 0) :
    (e.setDropped value h).droppedCount = value.toNat := rfl

@[simp] theorem getTag_setDropped (h : value ≠ 0) : (e.setDropped value h).getTag = e.getTag := by
  by_cases hb : e.logId.isBinary
  all_goals simp [getTag, setDropped, hb]

theorem msgLen_of_dropped {e : LogBufferElement} (h : e.droppedCount ≠ 0) : e.msgLen = 0 := by
  cases hb : e.body with
  | message m => simp [droppedCount, hb] at h
  | dropped tag count h => simp [msgLen, hb]

end LogBufferElement

end Bionic.Logd
