import Bionic.Lib.LittleEndian
import Bionic.Logd.Element

namespace Bionic.Pmsg

open Lib Logd List

def logIdByte : LogId → UInt8
  | .main => 0
  | .radio => 1
  | .events => 2
  | .system => 3
  | .crash => 4
  | .stats => 5
  | .security => 6
  | .kernel => 7

def logIdMax : UInt8 := 8

def loggerMagic : UInt8 := 108

def loggerEntryMaxPayload : ℕ := 4068

def nsPerSec : UInt32 := 1000000000

/-- `SNET_EVENT_LOG_TAG`, the only event that devices which are not debuggable keep. -/
def snetEventLogTag : ℕ := 1397638484

structure Header where
  len : UInt16
  uid : UInt16
  pid : UInt16
  id : UInt8
  tid : UInt16
  sec : UInt32
  nsec : UInt32
  deriving DecidableEq, Repr

def sizeofHeaders : ℕ := 18

namespace Header

def bytes (h : Header) : List UInt8 :=
  loggerMagic :: leBytes 2 h.len.toNat ++ leBytes 2 h.uid.toNat ++ leBytes 2 h.pid.toNat ++ h.id :: leBytes 2 h.tid.toNat ++
    leBytes 4 h.sec.toNat ++ leBytes 4 h.nsec.toNat

def field (buf : List UInt8) (offset size : ℕ) : ℕ := leValue ((buf.drop offset).take size)

def ofBytes (buf : List UInt8) : Header where
  len := .ofNat (field buf 1 2)
  uid := .ofNat (field buf 3 2)
  pid := .ofNat (field buf 5 2)
  id := .ofNat (field buf 7 1)
  tid := .ofNat (field buf 8 2)
  sec := .ofNat (field buf 10 4)
  nsec := .ofNat (field buf 14 4)

theorem ofNat_leBytes_two (n : UInt16) : UInt16.ofNat (leValue (leBytes 2 n.toNat)) = n := by
  have hlt : n.toNat < 256 ^ 2 := n.toNat_lt
  rw [leValue_leBytes, Nat.mod_eq_of_lt hlt, UInt16.ofNat_toNat]

theorem ofNat_leBytes_four (n : UInt32) : UInt32.ofNat (leValue (leBytes 4 n.toNat)) = n := by
  have hlt : n.toNat < 256 ^ 4 := n.toNat_lt
  rw [leValue_leBytes, Nat.mod_eq_of_lt hlt, UInt32.ofNat_toNat]

theorem ofBytes_bytes_append (h : Header) (bytes : List UInt8) : ofBytes (h.bytes ++ bytes) = h := by
  have hid : UInt8.ofNat (field (h.bytes ++ bytes) 7 1) = h.id := UInt8.ofNat_toNat
  obtain ⟨len, uid, pid, id, tid, sec, nsec⟩ := h
  rw [ofBytes]
  congr
  · exact ofNat_leBytes_two len
  · exact ofNat_leBytes_two uid
  · exact ofNat_leBytes_two pid
  · exact ofNat_leBytes_two tid
  · exact ofNat_leBytes_four sec
  · exact ofNat_leBytes_four nsec

end Header

/-- The process that writes, on a device that may be debuggable and whose `/dev/pmsg0` may be open. -/
structure Writer where
  debuggable : Bool
  opened : Bool
  uid : UInt16
  pid : UInt16
  tid : UInt16

def gather : ℕ → List (List UInt8) → List UInt8
  | _, [] => []
  | size, v :: vs =>
    if size + v.length > loggerEntryMaxPayload then v.take (v.length - (size + v.length - loggerEntryMaxPayload))
    else v ++ gather (size + v.length) vs

inductive Errno
  | eperm
  | einval
  | ebadf
  deriving DecidableEq, Repr

def pmsgWrite (w : Writer) (logId : LogId) (sec nsec : UInt32) (vec : List (List UInt8)) :
    Except Errno ℕ × List UInt8 :=
  if ¬w.debuggable ∧ logId ≠ .events ∧ logId ≠ .security then (.error .eperm, [])
  else if ¬w.debuggable ∧ logId = .events ∧ (vec.headD []).length < 4 then (.error .einval, [])
  else if ¬w.debuggable ∧ logId = .events ∧ leValue ((vec.headD []).take 4) ≠ snetEventLogTag then (.error .eperm, [])
  else if ¬w.opened then (.error .ebadf, [])
  else
    let payload := gather 0 vec
    let header : Header :=
      { len := .ofNat (sizeofHeaders + payload.length), uid := w.uid, pid := w.pid, id := logIdByte logId, tid := w.tid
        sec := sec, nsec := nsec }
    let ret := sizeofHeaders + payload.length
    (.ok (if ret > sizeofHeaders then ret - 4 else ret), header.bytes ++ payload)

structure LogMsg where
  pid : UInt16
  tid : UInt16
  sec : UInt32
  nsec : UInt32
  lid : UInt8
  uid : UInt16
  msg : List UInt8
  deriving DecidableEq, Repr

structure LoggerList where
  logMask : UInt32
  startSec : UInt32
  startNsec : UInt32
  pid : UInt16

def sizeofBuf : ℕ := 19

def corrupt (buf : List UInt8) : Bool :=
  let h := Header.ofBytes buf
  let prio := buf.getD 18 0
  buf.headD 0 ≠ loggerMagic ∨ h.len.toNat ≤ sizeofBuf ∨ h.len.toNat > sizeofBuf + loggerEntryMaxPayload ∨
    h.id ≥ logIdMax ∨ h.nsec ≥ nsPerSec ∨
    h.id ≠ logIdByte .events ∧ h.id ≠ logIdByte .security ∧ (prio = 0 ∨ prio = 1 ∨ prio ≥ 8)

def resync (buf : List UInt8) : List UInt8 := (buf.drop 1).dropWhile (· ≠ loggerMagic)

def LoggerList.takes (l : LoggerList) (h : Header) : Bool :=
  l.logMask &&& (1 <<< h.id.toUInt32) ≠ 0 ∧
    (l.startSec = 0 ∧ l.startNsec = 0 ∨
      l.startSec ≤ h.sec ∧ (l.startSec ≠ h.sec ∨ l.startNsec ≤ h.nsec)) ∧
    (l.pid = 0 ∨ l.pid = h.pid)

inductive ReadResult
  | msg (m : LogMsg) (rest : List UInt8)
  | eagain
  | eio

theorem length_resync_lt {buf : List UInt8} (h : buf.length = sizeofBuf) : (resync buf).length < sizeofBuf := by
  have hle : (resync buf).length ≤ (buf.drop 1).length := (dropWhile_suffix _).length_le
  rw [length_drop, h] at hle
  exact Nat.lt_of_le_of_lt hle (by decide)

theorem length_rest {n : ℕ} {pre file : List UInt8} (h : (pre ++ file.take (n - pre.length)).length = n) :
    n + (file.drop (n - pre.length)).length = pre.length + file.length := by
  rw [length_append, length_take] at h
  rw [length_drop]
  omega

/-- The next record of the file that the reader takes, from the bytes `pre` read already and those of the file. -/
def pmsgRead (l : LoggerList) (pre file : List UInt8) : ReadResult :=
  let buf := pre ++ file.take (sizeofBuf - pre.length)
  let rest := file.drop (sizeofBuf - pre.length)
  if _h : buf.length ≠ sizeofBuf then if buf = [] then .eagain else .eio
  else if corrupt buf then pmsgRead l (resync buf) rest
  else
    let header := Header.ofBytes buf
    let size := header.len.toNat - sizeofBuf
    if l.takes header then
      if (rest.take size).length ≠ size then .eio
      else
        .msg
          { pid := header.pid, tid := header.tid, sec := header.sec, nsec := header.nsec, lid := header.id
            uid := header.uid, msg := buf.drop 18 ++ rest.take size }
          (rest.drop size)
    else pmsgRead l [] (rest.drop size)
termination_by pre.length + file.length
decreasing_by
  · have hlength := Decidable.not_not.mp _h
    exact (Nat.add_lt_add_right (length_resync_lt hlength) _).trans_eq (length_rest hlength)
  · have hlength := length_rest (Decidable.not_not.mp _h)
    rw [length_nil, length_drop, Nat.zero_add]
    refine Nat.lt_of_le_of_lt (Nat.sub_le _ _) (Nat.lt_of_lt_of_eq (Nat.lt_add_of_pos_left ?_) hlength)
    decide

def Header.msg (h : Header) (payload : List UInt8) : LogMsg :=
  { pid := h.pid, tid := h.tid, sec := h.sec, nsec := h.nsec, lid := h.id, uid := h.uid, msg := payload }

structure Header.Valid (h : Header) (prio : UInt8) (size : ℕ) : Prop where
  len : h.len.toNat = sizeofBuf + size
  pos : 0 < size
  le : size ≤ loggerEntryMaxPayload
  id : h.id < logIdMax
  nsec : h.nsec < nsPerSec
  prio : h.id = logIdByte .events ∨ h.id = logIdByte .security ∨ 2 ≤ prio ∧ prio < 8

variable {h : Header} {prio : UInt8} {size : ℕ}

theorem Header.Valid.not_corrupt (hv : h.Valid prio size) : corrupt (h.bytes ++ [prio]) = false := by
  have hlen := hv.len
  have hpos := hv.pos
  have hle := hv.le
  rw [corrupt, ofBytes_bytes_append]
  refine decide_eq_false ?_
  rintro (hm | hsh | hl | hid | hn | ⟨he, hs, hp⟩)
  · exact hm rfl
  · omega
  · omega
  · exact absurd hv.id (UInt8.not_lt.mpr hid)
  · exact absurd hv.nsec (UInt32.not_lt.mpr hn)
  · obtain hev | hsec | ⟨hlow, hh⟩ := hv.prio
    · exact he hev
    · exact hs hsec
    · obtain rfl | rfl | hge := hp
      · exact absurd hlow (by decide)
      · exact absurd hlow (by decide)
      · exact absurd hh (UInt8.not_lt.mpr hge)

theorem pmsgRead_record {l : LoggerList} {data rest : List UInt8} (hv : h.Valid prio data.length) (ht : l.takes h) :
    pmsgRead l [] (h.bytes ++ prio :: (data ++ rest)) = .msg (h.msg (prio :: data)) rest := by
  have hbuf : ([] ++ (h.bytes ++ prio :: (data ++ rest)).take (sizeofBuf - 0)) = h.bytes ++ [prio] := rfl
  have hr : (h.bytes ++ prio :: (data ++ rest)).drop (sizeofBuf - 0) = data ++ rest := rfl
  have hs : h.len.toNat - sizeofBuf = data.length := by rw [hv.len, Nat.add_sub_cancel_left]
  rw [pmsgRead, length_nil, hbuf, hr, hv.not_corrupt, if_neg Bool.false_ne_true]
  rw [Header.ofBytes_bytes_append, if_pos ht, hs, take_left, if_neg (not_not_intro rfl), drop_left]
  rfl

theorem pmsgRead_nil (l : LoggerList) : pmsgRead l [] [] = .eagain := by
  rw [pmsgRead]
  rfl

theorem gather_of_le {vs : List (List UInt8)} (h : size + vs.flatten.length ≤ loggerEntryMaxPayload) :
    gather size vs = vs.flatten := by
  induction vs generalizing size with
  | nil => rfl
  | cons v vs ih =>
    rw [flatten_cons, length_append] at h
    rw [gather, if_neg (by omega), ih (by omega), flatten_cons]

end Bionic.Pmsg
