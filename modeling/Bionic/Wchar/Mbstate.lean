import Mathlib.Data.Nat.Notation

namespace Bionic.Wchar

structure MbState where
  seq0 : UInt8
  seq1 : UInt8
  seq2 : UInt8
  seq3 : UInt8
  deriving DecidableEq, Repr

namespace MbState

def init : MbState := ⟨0, 0, 0, 0⟩

variable (s : MbState)

@[simp] def bytesSoFar : ℕ :=
  if s.seq2 ≠ 0 then 3
  else if s.seq1 ≠ 0 then 2
  else if s.seq0 ≠ 0 then 1
  else 0

def setByte (i : ℕ) (byte : UInt8) : MbState :=
  match i with
  | 0 => { s with seq0 := byte }
  | 1 => { s with seq1 := byte }
  | 2 => { s with seq2 := byte }
  | _ => { s with seq3 := byte }

def getByte : ℕ → UInt8
  | 0 => s.seq0
  | 1 => s.seq1
  | 2 => s.seq2
  | _ => s.seq3

end MbState

def mbsinit (s : MbState) : Bool := s = .init

inductive Errno
  | einval
  | eilseq
  deriving DecidableEq, Repr

/-- What a conversion returns; the first three stand for the largest values of `size_t`. -/
inductive Ret
  | illegal (errno : Errno)
  | incomplete
  | surrogate
  | count (n : ℕ)
  deriving DecidableEq, Repr

structure Result (α : Type) where
  ret : Ret
  stored : Option α
  state : MbState
  deriving DecidableEq, Repr

def resetAndReturnIllegal {α : Type} (errno : Errno) : Result α := ⟨.illegal errno, none, .init⟩

@[simp] def resetAndReturn {α : Type} (n : ℕ) (stored : Option α) : Result α := ⟨.count n, stored, .init⟩

/-- The mask, the length and the lower bound that a first byte gives. -/
def leadOf (ch : UInt8) : Option (UInt8 × ℕ × ℕ) :=
  if ch &&& 0x80 = 0 then some (0x7f, 1, 0)
  else if ch &&& 0xe0 = 0xc0 then some (0x1f, 2, 0x80)
  else if ch &&& 0xf0 = 0xe0 then some (0x0f, 3, 0x800)
  else if ch &&& 0xf8 = 0xf0 then some (0x07, 4, 0x10000)
  else none

def fill (state : MbState) (i : ℕ) : ℕ → List UInt8 → Option MbState
  | 0, _ => some state
  | _, [] => some state
  | wanted + 1, ch :: s =>
    if ¬mbsinit state ∧ ch &&& 0xc0 ≠ 0x80 then none else fill (state.setByte i ch) (i + 1) wanted s

def decode (state : MbState) (mask : UInt8) : ℕ → ℕ
  | 0 => (state.getByte 0 &&& mask).toNat
  | i + 1 => decode state mask i <<< 6 ||| (state.getByte (i + 1) &&& 0x3f).toNat

def finish (pc32 : Bool) (state : MbState) (mask : UInt8) (length lowerBound bytesWanted : ℕ) : Result ℕ :=
  let c32 := decode state mask (length - 1)
  if c32 < lowerBound then resetAndReturnIllegal .eilseq
  else if 0xd800 ≤ c32 ∧ c32 ≤ 0xdfff ∨ c32 > 0x10ffff then resetAndReturnIllegal .eilseq
  else resetAndReturn (if c32 = 0 then 0 else bytesWanted) (if pc32 then some c32 else none)

/-- The conversion of the bytes `s`, or of no bytes at all for a null pointer; `pc32` says whether there is a place to
store a character. -/
def mbrtoc32 (pc32 : Bool) (s : Option (List UInt8)) (state : MbState) : Result ℕ :=
  if state.getByte 3 ≠ 0 then resetAndReturnIllegal .einval
  else
    let pc32 := pc32 && s.isSome
    match s.getD [0] with
    | [] => ⟨.count 0, none, state⟩
    | first :: rest =>
      if mbsinit state ∧ first &&& ~~~0x7f = 0 then
        ⟨.count (if first ≠ 0 then 1 else 0), if pc32 then some first.toNat else none, state⟩
      else
        let bytesSoFar := state.bytesSoFar
        match leadOf (if bytesSoFar > 0 then state.getByte 0 else first) with
        | none => resetAndReturnIllegal .eilseq
        | some (mask, length, lowerBound) =>
          let bytesWanted := length - bytesSoFar
          match fill state bytesSoFar bytesWanted (first :: rest) with
          | none => resetAndReturnIllegal .eilseq
          | some state =>
            if (first :: rest).length < bytesWanted then ⟨.incomplete, none, state⟩
            else finish pc32 state mask length lowerBound bytesWanted

def encode (lead : ℕ) : ℕ → ℕ → List UInt8
  | 0, c32 => [.ofNat (c32 &&& 0xff ||| lead)]
  | i + 1, c32 => encode lead i (c32 >>> 6) ++ [.ofNat (c32 &&& 0x3f ||| 0x80)]

def c32rtomb (s : Bool) (c32 : ℕ) (state : MbState) : Result (List UInt8) :=
  if ¬s then resetAndReturn 1 none
  else if c32 = 0 then resetAndReturn 1 (some [0])
  else if ¬mbsinit state then resetAndReturnIllegal .eilseq
  else if c32 &&& 0xffffff80 = 0 then ⟨.count 1, some [.ofNat c32], state⟩
  else if c32 &&& 0xfffff800 = 0 then ⟨.count 2, some (encode 0xc0 1 c32), state⟩
  else if c32 &&& 0xffff0000 = 0 then ⟨.count 3, some (encode 0xe0 2 c32), state⟩
  else if c32 &&& 0xffe00000 = 0 then ⟨.count 4, some (encode 0xf0 3 c32), state⟩
  else ⟨.illegal .eilseq, none, state⟩

def isHighSurrogate (c16 : ℕ) : Prop := 0xd800 ≤ c16 ∧ c16 < 0xdc00

instance (c16 : ℕ) : Decidable (isHighSurrogate c16) := instDecidableAnd

def isLowSurrogate (c16 : ℕ) : Prop := 0xdc00 ≤ c16 ∧ c16 < 0xe000

instance (c16 : ℕ) : Decidable (isLowSurrogate c16) := instDecidableAnd

/-- The conversion of a code unit. The second half of a pair is converted with the own state of `c32rtomb`, which is
never anything but initial. -/
def c16rtomb (s : Bool) (c16 : ℕ) (state : MbState) : Result (List UInt8) :=
  if mbsinit state then
    if isHighSurrogate c16 then
      let c32 := (c16 &&& 0xffff27ff) <<< 10
      ⟨.count 0, none,
        (state.setByte 3 (.ofNat ((c32 &&& 0xff0000) >>> 16))).setByte 2 (.ofNat ((c32 &&& 0x00ff00) >>> 8))⟩
    else if isLowSurrogate c16 then resetAndReturnIllegal .einval
    else c32rtomb s c16 state
  else if ¬isLowSurrogate c16 then resetAndReturnIllegal .einval
  else
    let c32 := ((state.getByte 3).toNat <<< 16 ||| (state.getByte 2).toNat <<< 8 ||| c16 &&& 0xffff23ff) + 0x10000
    { c32rtomb s c32 .init with state := .init }

def beginSurrogate (c32 nconv : ℕ) (state : MbState) : Result ℕ :=
  let c32 := c32 - 0x10000
  let trail := c32 &&& 0x3ff ||| 0xdc00
  ⟨.surrogate, some ((c32 &&& 0xffc00) >>> 10 ||| 0xd800),
    ((state.setByte 0 (.ofNat (trail &&& 0x00ff))).setByte 1 (.ofNat ((trail &&& 0xff00) >>> 8))).setByte 3 (.ofNat nconv)⟩

def finishSurrogate (state : MbState) : Result ℕ :=
  resetAndReturn (state.getByte 3).toNat (some ((state.getByte 1).toNat <<< 8 ||| (state.getByte 0).toNat))

/-- The conversion of bytes to code units. For a null character nothing is stored. -/
def mbrtoc16 (s : Option (List UInt8)) (state : MbState) : Result ℕ :=
  if state.getByte 3 ≠ 0 then finishSurrogate state
  else
    let r := mbrtoc32 true s state
    match r.ret with
    | .count 0 => resetAndReturn 0 none
    | .count nconv =>
      match r.stored with
      | none => resetAndReturn nconv none
      | some c32 =>
        if c32 > 0x10ffff then resetAndReturnIllegal .eilseq
        else if c32 < 0x10000 then resetAndReturn nconv (some c32)
        else beginSurrogate c32 nconv r.state
    | ret => ⟨ret, none, r.state⟩

end Bionic.Wchar
