import Bionic.Lib.LittleEndian
import Bionic.Wchar.Mbstate

namespace Bionic.Iconv

open Lib Wchar

inductive Encoding
  | usAscii
  | utf8
  | utf16le
  | utf16be
  | utf32le
  | utf32be
  | wcharT
  deriving DecidableEq, Repr

inductive Mode
  | error
  | ignore
  | translit
  deriving DecidableEq, Repr

inductive Errno
  | eilseq
  | einval
  | e2big
  deriving DecidableEq, Repr

structure Converter where
  srcEncoding : Encoding
  dstEncoding : Encoding
  mode : Mode
  deriving DecidableEq, Repr

/-- The rest of an `__iconv_t` during a call. The two buffers are the offset of `*src_buf` from where it was when the
call began, and the bytes written so far. -/
structure State where
  wc : ℕ
  srcBytesUsed : UInt64
  ps : MbState
  replacementCount : ℕ
  ignored : Bool
  srcPos : UInt64
  srcBytesLeft : UInt64
  dst : List UInt8
  dstBytesLeft : UInt64
  deriving DecidableEq, Repr

/-- How a step of a call ends: the call goes on, it returns -1, it has read outside its buffer, or the fuel was short. -/
inductive Outcome
  | go (s : State)
  | fail (errno : Errno) (s : State)
  | fault
  | fuel
  deriving DecidableEq, Repr

def swap16 (w : ℕ) : ℕ := byteSwap 2 w

def swap32 (w : ℕ) : ℕ := byteSwap 4 w

def in16 (src : List UInt8) (swap : Bool) : ℕ := if swap then swap16 (leValue src) else leValue src

def in32 (src : List UInt8) (swap : Bool) : ℕ := if swap then swap32 (leValue src) else leValue src

def out16 (ch : ℕ) (swap : Bool) : List UInt8 := leBytes 2 (if swap then swap16 ch else ch)

def out32 (ch : ℕ) (swap : Bool) : List UInt8 := leBytes 4 (if swap then swap32 ch else ch)

variable (cv : Converter) (input : List UInt8) (s : State) (swap : Bool)

def read (pos n : ℕ) : Option (List UInt8) :=
  if pos + n ≤ input.length then some ((input.drop pos).take n) else none

/-- How the `switch` of `GetNext` ends; `illegal` is with `errno` set to `EILSEQ`. -/
inductive Got
  | char (wc : ℕ) (used : UInt64) (ps : MbState)
  | illegal (used : UInt64) (ps : MbState)
  | fail (errno : Errno) (ps : MbState)
  | fault
  deriving DecidableEq, Repr

def getAscii : Got :=
  match read input s.srcPos.toNat 1 with
  | some [b] => if b > 0x7f then .illegal 1 s.ps else .char b.toNat 1 s.ps
  | _ => .fault

def Got.ofResult (wc : ℕ) (r : Result ℕ) : Got :=
  match r.ret with
  | .illegal .eilseq => .illegal (-1) r.state
  | .illegal .einval => .char wc (-1) r.state
  | .incomplete => .fail .einval r.state
  | .surrogate => .char wc (-3) r.state
  | .count n => .char (r.stored.getD wc) (.ofNat n) r.state

/-- `mbrtoc32` looks at no byte behind those that are left. -/
def getUtf8 : Got :=
  match read input s.srcPos.toNat s.srcBytesLeft.toNat with
  | none => .fault
  | some bytes => .ofResult s.wc (mbrtoc32 true (some bytes) s.ps)

def getUtf16 : Got :=
  if s.srcBytesLeft < 2 then .fail .einval s.ps
  else
    match read input s.srcPos.toNat 2 with
    | none => .fault
    | some src =>
      let wc := in16 src swap
      if wc ≥ 0xd800 ∧ wc ≤ 0xdfff then
        if wc ≥ 0xdc00 then .fail .eilseq s.ps
        else if s.srcBytesLeft < 4 then .fail .einval s.ps
        else
          match read input (s.srcPos.toNat + 2) 2 with
          | none => .fault
          | some src => .char (0x10000 + (wc - 0xd800) <<< 10 + in16 src swap - 0xdc00) 4 s.ps
      else .char wc 2 s.ps

def getUtf32 : Got :=
  if s.srcBytesLeft < 4 then .fail .einval s.ps
  else
    match read input s.srcPos.toNat 4 with
    | none => .fault
    | some src => .char (in32 src swap) 4 s.ps

def getChar (src : Encoding) (input : List UInt8) (s : State) : Got :=
  match src with
  | .usAscii => getAscii input s
  | .utf8 => getUtf8 input s
  | .utf16le => getUtf16 input s false
  | .utf16be => getUtf16 input s true
  | .utf32le | .wcharT => getUtf32 input s false
  | .utf32be => getUtf32 input s true

def State.advance : State :=
  { s with srcPos := s.srcPos + s.srcBytesUsed, srcBytesLeft := s.srcBytesLeft - s.srcBytesUsed }

def State.skip : State := { s.advance with ignored := true }

def State.substitute : State := { s with wc := 0x3f, replacementCount := s.replacementCount + 1 }

def getNext (cv : Converter) (input : List UInt8) : ℕ → State → Outcome
  | 0, _ => .fuel
  | fuel + 1, s =>
    match getChar cv.srcEncoding input s with
    | .fault => .fault
    | .fail errno ps => .fail errno { s with ps }
    | .char wc used ps => .go { s with wc, srcBytesUsed := used, ps }
    | .illegal used ps =>
      let s := { s with srcBytesUsed := used, ps }
      match cv.mode with
      | .error => .fail .eilseq s
      | .ignore => getNext cv input fuel s.skip
      | .translit => .go s.substitute

/-- The `switch` of `Convert`: the bytes of the character, or none with `errno` set to `EILSEQ`. -/
def putChar (dst : Encoding) (wc : ℕ) (ps : MbState) : Option (List UInt8) × MbState :=
  match dst with
  | .usAscii => (if wc > 0x7f then none else some [.ofNat wc], ps)
  | .utf8 =>
    let r := c32rtomb true wc ps
    match r.ret with
    | .count _ => (r.stored, r.state)
    | _ => (none, r.state)
  | .utf16le => (some (putUtf16 false), ps)
  | .utf16be => (some (putUtf16 true), ps)
  | .utf32le | .wcharT => (some (out32 wc false), ps)
  | .utf32be => (some (out32 wc true), ps)
where
  putUtf16 (swap : Bool) : List UInt8 :=
    if wc < 0x10000 then out16 wc swap
    else
      let wc := wc - 0x10000
      out16 ((0xd800 ||| wc >>> 10) % 0x10000) swap ++ out16 (0xdc00 ||| wc &&& 0x3ff) swap

def State.emit (buf : List UInt8) : Outcome :=
  if s.dstBytesLeft.toNat < buf.length then .fail .e2big s
  else .go { s.advance with dst := s.dst ++ buf, dstBytesLeft := s.dstBytesLeft - .ofNat buf.length }

def convert (cv : Converter) : ℕ → State → Outcome
  | 0, _ => .fuel
  | fuel + 1, s =>
    let (buf, ps) := putChar cv.dstEncoding s.wc s.ps
    let s := { s with ps }
    match buf with
    | some buf => s.emit buf
    | none =>
      match cv.mode with
      | .ignore => .go s.skip
      | .translit => convert cv fuel s.substitute
      | .error => .fail .eilseq s

def turn (fuel : ℕ) (s : State) : Outcome :=
  match getNext cv input fuel s with
  | .go s => convert cv fuel s
  | o => o

def loop (cv : Converter) (input : List UInt8) : ℕ → State → Outcome
  | 0, _ => .fuel
  | fuel + 1, s =>
    if s.srcBytesLeft > 0 then
      match turn cv input (fuel + 1) s with
      | .go s => loop cv input fuel s
      | o => o
    else .go s

inductive Return
  | count (n : ℕ)
  | error (errno : Errno)
  deriving DecidableEq, Repr

def done : Return :=
  if cv.mode = .translit then .count s.replacementCount
  else if s.ignored then .error .eilseq
  else .count 0

def State.start (srcBytesLeft dstBytesLeft : UInt64) : State :=
  ⟨0, 0, .init, 0, false, 0, srcBytesLeft, [], dstBytesLeft⟩

/-- A call for all of the input, unless it reads outside of it or the fuel is short. -/
def iconv (dstBytesLeft : UInt64) (fuel : ℕ) : Option (Return × State) :=
  match loop cv input fuel (.start (.ofNat input.length) dstBytesLeft) with
  | .go s => some (done cv s, s)
  | .fail errno s => some (.error errno, s)
  | .fault => none
  | .fuel => none

end Bionic.Iconv
