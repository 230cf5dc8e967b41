import Mathlib.Tactic.IntervalCases
import Bionic.Linker.Symbols

namespace Bionic.Linker.GnuHashNeon

open List Lib

abbrev Chunk := Fin 8 → UInt8

abbrev Lanes := Fin 4 → UInt32

def kStep (n : Nat) : UInt32 := 33 ^ n

/-- `kStepN1` to `kStepN7`: `0x3e0f83e1` is the inverse of 33. -/
def kStepN (n : Nat) : UInt32 := 0x3e0f83e1 ^ n

def ignoreMask (offset : Fin 8) : Chunk := fun i => if i < offset then 0xff else 0

def initAccum (offset : Nat) : UInt32 :=
  (range offset).foldl (fun accum i => accum - 0xff * kStepN (i + 1)) (5381 * kStepN offset)

def kFinalInclineTable (i : Nat) : UInt32 := if 1 ≤ i ∧ i < 8 then kStep (7 - i) else 0

def low (chunk : Chunk) : Fin 4 → UInt8 := fun i => chunk (i.castAdd 4)

def high (chunk : Chunk) : Fin 4 → UInt8 := fun i => chunk (i.natAdd 4)

/-- `vmlal_u16` and `vmlaq_u32` on the widened bytes. -/
def accumulate (accum : Lanes) (bytes : Fin 4 → UInt8) (incline : Lanes) : Lanes :=
  fun i => accum i + (bytes i).toUInt32 * incline i

def advance (accum : Lanes) (bytes : Fin 4 → UInt8) : Lanes :=
  accumulate (fun i => accum i * kStep 8) bytes fun i => kStep (3 - i)

def sum (accum : Lanes) : UInt32 := accum 0 + accum 2 + (accum 1 + accum 3)

/-- `num_valid_bits >> 3`: the bytes before the first NUL. -/
def numValid (chunk : Chunk) : Nat := ((ofFn chunk).takeWhile (· != 0)).length

def finish (chunk : Chunk) (lo hi : Lanes) : UInt32 :=
  let n := numValid chunk
  let lo := fun i => lo i * kStep (4 + n) + hi i * kStep n
  let lo := accumulate lo (low chunk) fun i => kFinalInclineTable (8 - n + i)
  sum (accumulate lo (high chunk) fun i => kFinalInclineTable (8 - n + 4 + i))

/-- The loop; `len` is `chunk_ptr - name`. -/
def hashChunks : List Chunk → Lanes → Lanes → UInt32 → Option (UInt32 × UInt32)
  | [], _, _, _ => none
  | chunk :: chunks, lo, hi, len =>
    if 0 ∈ ofFn chunk then some (finish chunk lo hi, len + UInt32.ofNat (numValid chunk))
    else hashChunks chunks (advance lo (low chunk)) (advance hi (high chunk)) (len + 8)

/-- The name starts `offset` bytes into the first of the aligned chunks. -/
def calculateGnuHashNeon (chunks : List Chunk) (offset : Fin 8) : Option (UInt32 × UInt32) :=
  match chunks with
  | [] => none
  | chunk :: chunks =>
    hashChunks ((fun i => chunk i ||| ignoreMask offset i) :: chunks) (fun _ => 0)
      (fun i => if i = 0 then initAccum offset else 0) (0 - UInt32.ofNat offset)

def bytesOf (chunks : List Chunk) : List UInt8 := chunks.flatMap ofFn

def value (lo hi : Lanes) : UInt32 := sum lo * kStep 4 + sum hi

variable {chunk : Chunk} {lo hi : Lanes}

theorem gnuHashStep_eq (h : UInt32) (c : UInt8) : gnuHashStep h c = h * 33 + c.toUInt32 := by
  have hs : h <<< 5 = h * 32 := by
    apply UInt32.toNat_inj.1
    simp [Nat.shiftLeft_eq]
  rw [gnuHashStep, hs]
  grind

@[simp] theorem val_three : ((3 : Fin 4) : Nat) = 3 :=
  rfl

theorem value_advance : value (advance lo (low chunk)) (advance hi (high chunk)) =
    (ofFn chunk).foldl gnuHashStep (value lo hi) := by
  simp [gnuHashStep_eq, value, advance, accumulate, sum, low, high, kStep]
  grind

theorem numValid_lt (h : 0 ∈ ofFn chunk) : numValid chunk < 8 := by
  have hp := takeWhile_prefix (· != 0) (l := ofFn chunk)
  refine lt_of_le_of_ne hp.length_le fun he => ?_
  have hs := takeWhile_eq_self_iff.1 (hp.eq_of_length (he.trans length_ofFn.symm)) 0 h
  cases hs

theorem finish_eq (h : 0 ∈ ofFn chunk) :
    finish chunk lo hi = ((ofFn chunk).takeWhile (· != 0)).foldl gnuHashStep (value lo hi) := by
  have hn := numValid_lt h
  rw [prefix_iff_eq_take.1 <| takeWhile_prefix (· != 0), finish, ← numValid]
  generalize numValid chunk = n at hn ⊢
  interval_cases n <;>
    simp [gnuHashStep_eq, value, accumulate, sum, low, high, kStep, kFinalInclineTable] <;> grind

theorem hashChunks_eq {chunks : List Chunk} (h : 0 ∈ bytesOf chunks) (lo hi : Lanes) (len : UInt32) :
    hashChunks chunks lo hi len = some (((bytesOf chunks).takeWhile (· != 0)).foldl gnuHashStep (value lo hi),
      len + UInt32.ofNat ((bytesOf chunks).takeWhile (· != 0)).length) := by
  induction chunks generalizing lo hi len with
  | nil => cases h
  | cons chunk chunks ih =>
    rw [bytesOf, flatMap_cons, ← bytesOf] at h ⊢
    rw [hashChunks]
    split
    case isTrue hz =>
      have hl : ((ofFn chunk).takeWhile (· != 0)).length ≠ (ofFn chunk).length := by
        rw [length_ofFn]
        exact (numValid_lt hz).ne
      rw [takeWhile_append, if_neg hl, finish_eq hz, numValid]
    case isFalse hz =>
      have hp : ∀ b ∈ ofFn chunk, (b != 0) = true := by
        intro b hb
        simpa using ne_of_mem_of_not_mem hb hz
      rw [ih ((mem_append.1 h).resolve_left hz), takeWhile_append_of_pos hp, foldl_append, value_advance,
        length_append, length_ofFn, UInt32.ofNat_add, UInt32.add_assoc]
      rfl

/-- The masked bytes in front of the name bring the accumulator to the hash's start value. -/
theorem foldl_initAccum (offset : Fin 8) :
    (replicate offset 0xff).foldl gnuHashStep (initAccum offset) = 5381 := by
  revert offset
  decide

theorem ofFn_masked (chunk : Chunk) (offset : Fin 8) :
    ofFn (fun i => chunk i ||| ignoreMask offset i) = replicate offset 0xff ++ (ofFn chunk).drop offset := by
  have hm : ∀ b : UInt8, b ||| 0xff = 0xff := fun b => UInt8.or_neg_one
  obtain ⟨n, hn⟩ := offset
  interval_cases n <;> simp [ignoreMask, hm]

theorem calculateGnuHashNeon_eq (chunks : List Chunk) (offset : Fin 8) (name : CString)
    (h : stringAt (bytesOf chunks) offset = some name.bytes) :
    calculateGnuHashNeon chunks offset = some (calculateGnuHash name) := by
  obtain ⟨hz, hs⟩ := Option.ite_none_right_eq_some.1 h
  rw [Option.some.injEq] at hs
  cases chunks with
  | nil => simp [bytesOf] at hz
  | cons chunk chunks =>
    have hb : bytesOf ((fun i => chunk i ||| ignoreMask offset i) :: chunks) =
        replicate offset 0xff ++ (bytesOf (chunk :: chunks)).drop offset := by
      rw [bytesOf, flatMap_cons, ofFn_masked, append_assoc, bytesOf, flatMap_cons, drop_append_of_le_length]
      rw [length_ofFn]
      exact offset.isLt.le
    have hv : value (fun _ => 0) (fun i => if i = 0 then initAccum offset else 0) = initAccum offset := by
      simp [value, sum]
    have hl : ∀ k n : UInt32, 0 - k + (k + n) = n := by grind
    rw [calculateGnuHashNeon, hashChunks_eq (hb ▸ mem_append_right _ hz), hb, takeWhile_append_of_pos (by simp),
      hs, foldl_append, hv, foldl_initAccum, length_append, length_replicate, UInt32.ofNat_add, hl]
    rfl

theorem calculateGnuHashNeon_misaligned :
    calculateGnuHashNeon [fun _ => 97, fun i => if i < 5 then 98 else 0] 6 =
      some (calculateGnuHash ⟨[97, 97, 98, 98, 98, 98, 98], by simp⟩) :=
  calculateGnuHashNeon_eq _ 6 _ (by decide)

end Bionic.Linker.GnuHashNeon
