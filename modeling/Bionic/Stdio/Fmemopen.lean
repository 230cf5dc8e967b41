import Bionic.Lib.Memory
import Mathlib.Algebra.Order.Ring.Int
import Mathlib.Data.List.GetD

namespace Bionic.Fmemopen

open Lib

def sizeT (x : ℤ) : ℕ := (x % 2 ^ 64).toNat

def intT (x : ℤ) : ℤ := Int.bmod x (2 ^ 32)

def fposT (x : ℤ) : ℤ := Int.bmod x (2 ^ 64)

inductive Errno
  | ENOSPC
  | EINVAL
  deriving DecidableEq, Repr

inductive Whence
  | seekSet
  | seekCur
  | seekEnd
  | unknown
  deriving DecidableEq, Repr

/-- The cookie of a stream. The cells of `buf` go on behind the capacity, with whatever lies there. -/
structure Cookie where
  buf : ℕ → UInt8
  capacity : ℕ
  size : ℕ
  offset : ℕ
  append : Bool

/-- What a call returns: its value or errno, the bytes copied out, and the number of cells of `buf` that hold
everything it has read or stored. -/
structure Reply where
  ret : Except Errno ℤ
  bytes : List UInt8
  extent : ℕ

variable (ck : Cookie) (buf : List UInt8) (n : ℤ)

def fmemopenRead : Reply × Cookie :=
  let n := if sizeT n > sizeT (ck.size - ck.offset) then intT (sizeT (ck.size - ck.offset)) else n
  if n > 0 then
    (⟨.ok n, load ck.buf ck.offset n.toNat, ck.offset + n.toNat⟩, { ck with offset := sizeT (ck.offset + n) })
  else (⟨.ok n, [], 0⟩, ck)

def put : Reply × Cookie :=
  if n > 0 then
    let stored := store ck.buf ck.offset (buf.take n.toNat)
    let offset := sizeT (ck.offset + n)
    if offset ≥ ck.size then
      if buf.getD (n - 1).toNat 0 ≠ 0 then
        (⟨.ok n, [], offset + 1⟩, { ck with buf := store stored offset [0], offset := offset, size := offset })
      else (⟨.ok n, [], ck.offset + n.toNat⟩, { ck with buf := stored, offset := offset, size := offset })
    else (⟨.ok n, [], ck.offset + n.toNat⟩, { ck with buf := stored, offset := offset })
  else (⟨.ok n, [], 0⟩, ck)

/-- Undoes any seeking or reading on an append-only stream. -/
def Cookie.rewind : Cookie := if ck.append then { ck with offset := ck.size } else ck

def spaceForNull : ℕ :=
  if 0 < buf.length ∧ buf.getD (buf.length - 1) 0 ≠ 0 then 1 else 0

def fmemopenWrite : Reply × Cookie :=
  let ck := ck.rewind
  if sizeT (buf.length + spaceForNull buf) > sizeT (ck.capacity - ck.offset) then
    let n := intT (sizeT (ck.capacity - ck.offset - spaceForNull buf))
    if n ≤ 0 then (⟨.error .ENOSPC, [], 0⟩, ck) else put ck buf n
  else put ck buf buf.length

def seekTo (offset : ℕ) : Reply × Cookie := (⟨.ok (fposT offset), [], 0⟩, { ck with offset := offset })

def fmemopenSeek (offset : ℤ) (whence : Whence) : Reply × Cookie :=
  if whence = .seekSet ∧ offset ≥ 0 ∧ sizeT offset ≤ ck.capacity then seekTo ck (sizeT offset)
  else if whence = .seekCur ∧ sizeT (ck.offset + offset) ≤ ck.capacity then seekTo ck (sizeT (ck.offset + offset))
  else if whence = .seekEnd ∧ offset ≤ 0 ∧ sizeT (-offset) ≤ ck.size then seekTo ck (sizeT (ck.size + offset))
  else (⟨.error .EINVAL, [], 0⟩, ck)

/-- The first letter of the mode; a `+` behind it makes no difference to the cookie. -/
inductive Mode
  | r
  | w
  | a
  deriving DecidableEq, Repr

def strnlen (buf : ℕ → UInt8) (n : ℕ) : ℕ := ((load buf 0 n).takeWhile (· ≠ 0)).length

/-- The cookie `fmemopen` makes for the memory `buf`, the caller's or a zeroed allocation. -/
def fmemopen (buf : ℕ → UInt8) (capacity : ℕ) : Mode → Cookie
  | .a => ⟨buf, capacity, strnlen buf capacity, strnlen buf capacity, true⟩
  | .r => ⟨buf, capacity, capacity, 0, false⟩
  | .w => ⟨if capacity > 0 then store buf 0 [0] else buf, capacity, 0, 0, false⟩

inductive Call
  | read (n : ℕ) (h : n < 2 ^ 31)
  | write (data : List UInt8) (h : data.length < 2 ^ 31)
  | seek (offset : ℤ) (whence : Whence) (h : -2 ^ 63 ≤ offset ∧ offset < 2 ^ 63)

def Cookie.call : Call → Reply × Cookie
  | .read n _ => fmemopenRead ck n
  | .write data _ => fmemopenWrite ck data
  | .seek offset whence _ => fmemopenSeek ck offset whence

variable {ck : Cookie} {buf : List UInt8} {n k : ℕ}

structure Cookie.Bounded (ck : Cookie) : Prop where
  capacity_lt : ck.capacity < 2 ^ 64
  size_le : ck.size ≤ ck.capacity
  offset_le : ck.offset ≤ ck.capacity

def Cookie.position (ck : Cookie) : ℕ := ck.rewind.offset

theorem sizeT_natCast (h : n < 2 ^ 64) : sizeT n = n := by
  rw [sizeT]
  omega

theorem sizeT_add (h : n + k < 2 ^ 64) : sizeT ((n : ℤ) + k) = n + k := sizeT_natCast h

theorem sizeT_sub (h : n < 2 ^ 64) (hle : k ≤ n) : sizeT ((n : ℤ) - k) = n - k := by
  rw [sizeT]
  omega

theorem intT_natCast (h : n < 2 ^ 31) : intT n = n := by
  apply Int.bmod_eq_of_le
  · omega
  · omega

theorem Cookie.rewind_buf (ck : Cookie) : ck.rewind.buf = ck.buf := by
  rw [Cookie.rewind]
  split <;> rfl

theorem Cookie.rewind_size (ck : Cookie) : ck.rewind.size = ck.size := by
  rw [Cookie.rewind]
  split <;> rfl

theorem Cookie.rewind_capacity (ck : Cookie) : ck.rewind.capacity = ck.capacity := by
  rw [Cookie.rewind]
  split <;> rfl

theorem Cookie.Bounded.rewind (h : ck.Bounded) : ck.rewind.Bounded := by
  rw [Cookie.rewind]
  split
  · exact ⟨h.capacity_lt, h.size_le, h.size_le⟩
  · exact h

/-- No call changes or reads a cell behind the capacity, and size and offset stay within it. -/
structure Safe (ck : Cookie) (reply : Reply) (ck' : Cookie) : Prop where
  extent_le : reply.extent ≤ ck.capacity
  behind : ∀ i, ck.capacity ≤ i → ck'.buf i = ck.buf i
  capacity_eq : ck'.capacity = ck.capacity
  size_le : ck'.size ≤ ck.capacity
  offset_le : ck'.offset ≤ ck.capacity

theorem Safe.bounded {reply : Reply} {ck' : Cookie} (h : Safe ck reply ck') (hb : ck.Bounded) : ck'.Bounded := by
  obtain ⟨-, -, hcap, hs, ho⟩ := h
  rw [← hcap] at hs ho
  exact ⟨by rw [hcap]; exact hb.capacity_lt, hs, ho⟩

/-- The read of a byte array: what is stored between the offset and the size, `n` bytes at most. -/
structure Reads (ck : Cookie) (n : ℕ) (reply : Reply) (ck' : Cookie) : Prop where
  ret : reply.ret = .ok ((min n (ck.size - ck.offset) : ℕ) : ℤ)
  bytes : reply.bytes = load ck.buf ck.offset (min n (ck.size - ck.offset))
  next : ck' = { ck with offset := ck.offset + min n (ck.size - ck.offset) }

/-- The write of the first `k` bytes to a byte array, with a NUL behind them if they are not followed by
anything. -/
structure Stores (ck : Cookie) (data : List UInt8) (k : ℕ) (reply : Reply) (ck' : Cookie) : Prop where
  le : k ≤ data.length
  ret : reply.ret = .ok (k : ℤ)
  copied : load ck'.buf ck.position k = data.take k
  frame : ∀ i, i < ck.position ∨ ck.position + k < i → ck'.buf i = ck.buf i
  behind : ck'.buf (ck.position + k) = ck.buf (ck.position + k) ∨
    ck.size ≤ ck.position + k ∧ ck'.buf (ck.position + k) = 0
  offset : ck'.offset = ck.position + k
  size : ck'.size = if k = 0 then ck.size else max ck.size (ck.position + k)
  terminated : ck.size < ck'.size → ck'.buf (ck.position + k - 1) = 0 ∨ ck'.buf (ck.position + k) = 0

structure Refuses (ck : Cookie) (reply : Reply) (ck' : Cookie) : Prop where
  ret : reply.ret = .error .ENOSPC
  buf : ck'.buf = ck.buf
  size : ck'.size = ck.size

def Whence.base (ck : Cookie) : Whence → ℕ
  | .seekSet => 0
  | .seekCur => ck.offset
  | .seekEnd => ck.size
  | .unknown => 0

structure Seeks (ck : Cookie) (offset : ℤ) (whence : Whence) (reply : Reply) (ck' : Cookie) : Prop where
  next : ck' = { ck with offset := ck'.offset }
  moved : reply.ret = .ok (fposT ck'.offset) ∧ ck'.offset = sizeT (whence.base ck + offset) ∨
    reply.ret = .error .EINVAL ∧ ck'.offset = ck.offset

theorem read_eq (hb : ck.Bounded) (hn : n < 2 ^ 31) (h : n = 0 ∨ ck.offset ≤ ck.size) :
    ∃ extent ≤ ck.size, fmemopenRead ck n = (⟨.ok ((min n (ck.size - ck.offset) : ℕ) : ℤ),
      load ck.buf ck.offset (min n (ck.size - ck.offset)), extent⟩,
      { ck with offset := ck.offset + min n (ck.size - ck.offset) }) := by
  have hcap := hb.capacity_lt
  have hs := hb.size_le
  have hcut : (if sizeT n > sizeT ((ck.size : ℤ) - ck.offset) then intT (sizeT ((ck.size : ℤ) - ck.offset)) else n) =
      ((min n (ck.size - ck.offset) : ℕ) : ℤ) := by
    rw [sizeT_natCast (by omega)]
    obtain rfl | hle := h
    · rw [if_neg (by omega), Nat.zero_min]
    · rw [sizeT_sub (by omega) hle]
      split
      · rw [intT_natCast (by omega), Nat.min_eq_right (by omega)]
      · rw [Nat.min_eq_left (by omega)]
  rw [fmemopenRead, hcut]
  generalize hk : min n (ck.size - ck.offset) = k
  by_cases hpos : k = 0
  · subst hpos
    exact ⟨0, Nat.zero_le _, rfl⟩
  · refine ⟨ck.offset + k, by omega, ?_⟩
    simp only [Int.natCast_pos, Nat.pos_of_ne_zero hpos, if_true, Int.toNat_natCast]
    rw [sizeT_add (by omega)]

/-- Behind the size the difference of size and offset is taken modulo `2 ^ 64`. -/
theorem read_past (hb : ck.Bounded) (hn : n < 2 ^ 31) (hpos : 0 < n) (h : ck.size < ck.offset) :
    ∃ k : ℤ, 0 < k ∧ (fmemopenRead ck n).1.ret = .ok k := by
  have hcap := hb.capacity_lt
  have ho := hb.offset_le
  have hd : sizeT ((ck.size : ℤ) - ck.offset) = 2 ^ 64 + ck.size - ck.offset := by
    rw [sizeT]
    omega
  simp only [fmemopenRead]
  rw [sizeT_natCast (by omega)]
  split
  next hlt =>
    rw [intT_natCast (by omega), if_pos (by omega)]
    exact ⟨_, by omega, rfl⟩
  next hge =>
    rw [if_pos (by omega)]
    exact ⟨n, by omega, rfl⟩

theorem put_zero : put ck buf (0 : ℕ) = (⟨.ok (0 : ℕ), [], 0⟩, ck) := rfl

theorem put_eq (hk : 0 < k) (hlt : ck.offset + k < 2 ^ 64) :
    put ck buf (k : ℕ) =
      if ck.size ≤ ck.offset + k ∧ buf.getD (k - 1) 0 ≠ 0 then
        (⟨.ok (k : ℤ), [], ck.offset + k + 1⟩, { ck with
          buf := store (store ck.buf ck.offset (buf.take k)) (ck.offset + k) [0]
          offset := ck.offset + k
          size := ck.offset + k })
      else (⟨.ok (k : ℤ), [], ck.offset + k⟩, { ck with
          buf := store ck.buf ck.offset (buf.take k)
          offset := ck.offset + k
          size := max ck.size (ck.offset + k) }) := by
  have hp : ((k : ℤ) - 1).toNat = k - 1 := by omega
  have hpos : (k : ℤ) > 0 := by omega
  rw [put, if_pos hpos, hp, Int.toNat_natCast, sizeT_add hlt]
  by_cases hs : ck.size ≤ ck.offset + k
  · rw [Nat.max_eq_right hs]
    simp only [hs, if_true, true_and]
  · rw [Nat.max_eq_left (by omega)]
    simp only [ge_iff_le, hs, if_false, false_and]

theorem store_terminated {m : ℕ → UInt8} {p : ℕ} {data : List UInt8} (hk : 0 < k) (hle : k ≤ data.length)
    (h : data.getD (k - 1) 0 = 0) : store m p (data.take k) (p + k - 1) = 0 := by
  have hlen : (data.take k).length = k := by rw [List.length_take, Nat.min_eq_left hle]
  have hadd : p + k - 1 = p + (k - 1) := by omega
  rw [List.getD_eq_getElem _ _ (by omega)] at h
  rw [hadd, store_inside (by omega), List.getElem_take, h]

theorem put_stores (hb : ck.Bounded) (hk : 0 < k) (hle : k ≤ buf.length) (hr : ck.offset + k ≤ ck.capacity)
    (hend : ck.offset + k < ck.capacity ∨ buf.getD (k - 1) 0 = 0) (ha : ck.position = ck.offset) :
    Stores ck buf k (put ck buf (k : ℕ)).1 (put ck buf (k : ℕ)).2 ∧
      Safe ck (put ck buf (k : ℕ)).1 (put ck buf (k : ℕ)).2 := by
  have hcap := hb.capacity_lt
  have hs := hb.size_le
  have hlen : (buf.take k).length = k := by rw [List.length_take, Nat.min_eq_left hle]
  rw [put_eq hk (by omega)]
  have hc : load (store ck.buf ck.offset (buf.take k)) ck.offset k = buf.take k := by
    have h := load_store ck.buf ck.offset (buf.take k)
    rwa [hlen] at h
  have hout : ∀ i, i < ck.offset ∨ ck.offset + k ≤ i → store ck.buf ck.offset (buf.take k) i = ck.buf i := by
    rintro i (hi | hi)
    · exact store_of_lt hi
    · exact store_of_le (by omega)
  split
  next h =>
    have hlt : ck.offset + k < ck.capacity := hend.resolve_right h.2
    have hnul : ∀ i, i ≠ ck.offset + k → store (store ck.buf ck.offset (buf.take k)) (ck.offset + k) [0] i =
        store ck.buf ck.offset (buf.take k) i := fun i hi => store_singleton_of_ne hi
    have hz := store_singleton (store ck.buf ck.offset (buf.take k)) (ck.offset + k) 0
    refine ⟨⟨hle, rfl, ?_, ?_, ?_, ?_, ?_, ?_⟩, ⟨hlt, ?_, rfl, hr, hr⟩⟩
    · rw [ha]
      exact (load_congr fun i _ hi => hnul i (by omega)).trans hc
    · intro i hi
      exact (hnul i (by omega)).trans (hout i (by omega))
    · rw [ha]
      exact .inr ⟨h.1, hz⟩
    · rw [ha]
    · rw [if_neg (by omega), ha, Nat.max_eq_right h.1]
    · intro _
      rw [ha]
      exact .inr hz
    · intro i hi
      exact (hnul i (by omega)).trans (hout i (by omega))
  next h =>
    refine ⟨⟨hle, rfl, ?_, ?_, ?_, ?_, ?_, ?_⟩, ⟨hr, fun i hi => hout i (by omega), rfl, ?_, hr⟩⟩
    · rw [ha]
      exact hc
    · intro i hi
      rw [ha] at hi
      exact hout i (by omega)
    · rw [ha]
      exact .inl (hout _ (by omega))
    · rw [ha]
    · rw [if_neg (by omega), ha]
    · intro hg
      rw [ha]
      replace hg : ck.size < max ck.size (ck.offset + k) := hg
      have hl : buf.getD (k - 1) 0 = 0 := by
        apply Classical.byContradiction
        intro hne
        exact h ⟨by omega, hne⟩
      exact .inl (store_terminated hk hle hl)
    · exact Nat.max_le.mpr ⟨hs, hr⟩

end Bionic.Fmemopen
