import Bionic.Liblog.EventList

namespace Bionic.EventList

open Lib Function List Nat

inductive Scalar
  | int32 (value : UInt32)
  | int64 (value : UInt64)
  | float32 (value : UInt32)
  | string (value : List UInt8) (maxlen : ℕ)

namespace Scalar

def encode : Scalar → List UInt8
  | int32 value => eventTypeInt :: leBytes 4 value.toNat
  | int64 value => eventTypeLong :: leBytes 8 value.toNat
  | float32 value => eventTypeFloat :: leBytes 4 value.toNat
  | string value maxlen => eventTypeString :: leBytes 4 (text value maxlen).length ++ text value maxlen

def data : Scalar → Data
  | int32 value => .int32 value
  | int64 value => .int64 value
  | float32 value => .float32 value
  | string value maxlen => .string (text value maxlen)

def write (w : Writer) : Scalar → WriteM
  | int32 value => w.androidLogWriteInt32 value
  | int64 value => w.androidLogWriteInt64 value
  | float32 value => w.androidLogWriteFloat32 value
  | string value maxlen => w.androidLogWriteString8Len value maxlen

theorem length_encode_string (value : List UInt8) (maxlen : ℕ) :
    (string value maxlen).encode.length = 5 + (text value maxlen).length := by
  simp only [encode, cons_append, length_cons, length_append, length_leBytes]
  omega

end Scalar

inductive Call
  | listBegin
  | listEnd
  | write (s : Scalar)

namespace Call

def exec (w : Writer) : Call → WriteM
  | listBegin => w.androidLogWriteListBegin
  | listEnd => w.androidLogWriteListEnd
  | write s => s.write w

def result : Call → ℤ
  | write (.string value maxlen) => (text value maxlen).length
  | _ => 0

end Call

/-- The calls in turn, as long as they succeed and cut no string. -/
def writeAll : List Call → Writer → Option Writer
  | [], w => some w
  | c :: cs, w =>
    match c.exec w with
    | (.ok n, w') => if n = c.result then writeAll cs w' else none
    | (.error _, _) => none

inductive Forest
  | nil
  | scalar (s : Scalar) (rest : Forest)
  | list (inner rest : Forest)

namespace Forest

def calls : Forest → List Call
  | nil => []
  | scalar s rest => .write s :: rest.calls
  | list inner rest => .listBegin :: (inner.calls ++ .listEnd :: rest.calls)

def length : Forest → ℕ
  | nil => 0
  | scalar _ rest => rest.length + 1
  | list _ rest => rest.length + 1

def depth : Forest → ℕ
  | nil => 0
  | scalar _ rest => rest.depth
  | list inner rest => max (inner.depth + 1) rest.depth

def encode : Forest → List UInt8
  | nil => []
  | scalar s rest => s.encode ++ rest.encode
  | list inner rest => eventTypeList :: UInt8.ofNat inner.length :: (inner.encode ++ rest.encode)

end Forest

variable {c : Call} {cs : List Call}

theorem writeAll_cons {w w' : Writer} (h : writeAll (c :: cs) w = some w') :
    ∃ v, c.exec w = (.ok c.result, v) ∧ writeAll cs v = some w' := by
  rw [writeAll] at h
  split at h
  · rename_i n v heq
    split at h
    · rename_i hn
      exact ⟨v, hn ▸ heq, h⟩
    · cases h
  · cases h

theorem writeAll_cons_of_ok {w v : Writer} (h : c.exec w = (.ok c.result, v)) :
    writeAll (c :: cs) w = writeAll cs v := by
  rw [writeAll, h]
  exact if_pos rfl

theorem writeAll_append {ds : List Call} {w w' : Writer} (h : writeAll (cs ++ ds) w = some w') :
    ∃ v, writeAll cs w = some v ∧ writeAll ds v = some w' := by
  induction cs generalizing w with
  | nil => exact ⟨w, rfl, h⟩
  | cons c cs ih =>
    obtain ⟨u, hu, hr⟩ := writeAll_cons h
    obtain ⟨v, hv, hd⟩ := ih hr
    exact ⟨v, (writeAll_cons_of_ok hu).trans hv, hd⟩

namespace Writer

variable {w w' : Writer}

def append (w : Writer) (bytes : List UInt8) : Writer :=
  { w with count := w.counted, storage := store w.storage w.pos bytes, pos := w.pos + bytes.length }

variable {type : UInt8} {bytes : List UInt8} {n : ℤ}

theorem writeFixed_ok (h : w.writeFixed type bytes = (.ok n, w')) :
    w.pos + (type :: bytes).length ≤ maxEventPayload ∧ w' = w.append (type :: bytes) := by
  rw [writeFixed] at h
  split at h
  · cases h
  · split at h
    · cases h
    · rename_i hf
      cases h
      rw [append, length_cons, add_comm bytes.length]
      exact ⟨le_of_not_gt hf, rfl⟩

theorem take_text (value : List UInt8) (maxlen : ℕ) : value.take (text value maxlen).length = text value maxlen := by
  have hp : text value maxlen <+: value :=
    ( takeWhile_prefix _).trans ( take_prefix maxlen value)
  exact (prefix_iff_eq_take.mp hp).symm

variable {value : List UInt8} {maxlen : ℕ} {s : Scalar} {f : Forest}

section Strings

theorem len_of_lt {n : ℕ} (h : n < 2 ^ 31) : Int.bmod n (2 ^ 32) = n :=
  Int.bmod_eq_of_le (by omega) (by omega)

theorem writeString_of_fits (ho : w.overflow = false)
    (hf : w.pos + (Scalar.string value maxlen).encode.length ≤ maxEventPayload) :
    w.androidLogWriteString8Len value maxlen =
      (.ok (text value maxlen).length, w.append (Scalar.string value maxlen).encode) := by
  rw [append, Scalar.length_encode_string]
  rw [Scalar.length_encode_string, maxEventPayload] at hf
  have hpos : (((w.pos : ℤ) + (5 + (text value maxlen).length)) % 2 ^ 32).toNat =
      w.pos + (5 + (text value maxlen).length) := by omega
  have hlen : (((text value maxlen).length : ℤ) % 2 ^ 32).toNat = (text value maxlen).length := by omega
  have hcopy : (((text value maxlen).length : ℤ) % 2 ^ 64).toNat = (text value maxlen).length := by omega
  rw [androidLogWriteString8Len, if_neg (Bool.eq_false_iff.mp ho), len_of_lt (by omega)]
  dsimp only
  have hcut : ¬((maxEventPayload : ℤ) < w.pos + (5 + (text value maxlen).length) ∨
      (w.pos : ℤ) + (5 + (text value maxlen).length) < 0) := by
    rw [maxEventPayload]
    omega
  rw [if_neg (by simp only [hcut, false_and, not_false_eq_true]), if_neg hcut, hpos, hlen, hcopy, take_text]
  rfl

variable (hpos : w.pos ≤ maxEventPayload)

include hpos

/-- What becomes of a string that does not fit. -/
theorem writeString_of_lt (ho : w.overflow = false) (hn : (text value maxlen).length < 2 ^ 31)
    (hlt : maxEventPayload < w.pos + (5 + (text value maxlen).length)) :
    w.androidLogWriteString8Len value maxlen =
      if maxEventPayload ≤ w.pos + 5 then w.fail .eio
      else
        (.ok (maxEventPayload - w.pos - 5 : ℕ), { w with
          count := w.counted
          storage := store w.storage w.pos (eventTypeString :: leBytes 4 (maxEventPayload - w.pos - 5) ++
            value.take (maxEventPayload - w.pos - 5))
          pos := w.pos + (5 + (text value maxlen).length) }) := by
  have hcut : (maxEventPayload : ℤ) < w.pos + (5 + (text value maxlen).length) ∨
      (w.pos : ℤ) + (5 + (text value maxlen).length) < 0 := by omega
  have hmax : maxEventPayload = 4064 := rfl
  have hroom : Int.bmod (maxEventPayload - w.pos - 5) (2 ^ 32) = maxEventPayload - w.pos - 5 :=
    Int.bmod_eq_of_le (by omega) (by omega)
  have hmove : (((w.pos : ℤ) + (5 + (text value maxlen).length)) % 2 ^ 32).toNat =
      w.pos + (5 + (text value maxlen).length) := by omega
  rw [androidLogWriteString8Len, if_neg (Bool.eq_false_iff.mp ho), len_of_lt hn]
  simp only [hcut, if_true, true_and, hroom, hmove]
  by_cases hfull : maxEventPayload ≤ w.pos + 5
  · rw [if_pos hfull, if_pos (by omega)]
  · have hcast : (maxEventPayload - w.pos - 5 : ℤ) = (maxEventPayload - w.pos - 5 : ℕ) := by omega
    have hlen : (((maxEventPayload - w.pos - 5 : ℕ) : ℤ) % 2 ^ 32).toNat = maxEventPayload - w.pos - 5 := by omega
    have hcopy : (((maxEventPayload - w.pos - 5 : ℕ) : ℤ) % 2 ^ 64).toNat = maxEventPayload - w.pos - 5 := by omega
    rw [if_neg hfull, if_neg (by omega), hcast, hlen, hcopy]

theorem writeString_ok (h : w.androidLogWriteString8Len value maxlen = (.ok (text value maxlen).length, w')) :
    w.pos + (Scalar.string value maxlen).encode.length ≤ maxEventPayload ∧
      w' = w.append (Scalar.string value maxlen).encode := by
  by_cases ho : w.overflow
  · rw [androidLogWriteString8Len, if_pos ho] at h
    cases h
  have hoff : w.overflow = false := Bool.eq_false_iff.mpr ho
  have hn : (text value maxlen).length < 2 ^ 31 := by
    have hlt (x : ℤ) : Int.bmod x (2 ^ 32) < 2 ^ 31 := Int.bmod_lt (by decide)
    rw [androidLogWriteString8Len, if_neg ho] at h
    dsimp only at h
    split_ifs at h
    · nomatch congrArg Prod.fst h
    · exact Int.ofNat_lt.mp (Except.ok.inj (Prod.mk.inj h).1 ▸ hlt _)
    · nomatch congrArg Prod.fst h
    · exact Int.ofNat_lt.mp (Except.ok.inj (Prod.mk.inj h).1 ▸ hlt _)
  have hf : w.pos + (Scalar.string value maxlen).encode.length ≤ maxEventPayload := by
    rw [Scalar.length_encode_string]
    by_contra hlo
    rw [writeString_of_lt hpos hoff hn (Nat.lt_of_not_le hlo)] at h
    split at h
    · cases h
    · injection h with hlen
      injection hlen with hlen
      omega
  rw [writeString_of_fits hoff hf] at h
  cases h
  exact ⟨hf, rfl⟩

end Strings

theorem write_ok (hpos : w.pos ≤ maxEventPayload) (h : s.write w = (.ok (Call.write s).result, w')) :
    w.pos + s.encode.length ≤ maxEventPayload ∧ w' = w.append s.encode := by
  cases s with
  | int32 value | int64 value | float32 value => exact writeFixed_ok h
  | string value maxlen => exact writeString_ok hpos h

theorem writeFixed_of_fits (ho : w.overflow = false) (hf : w.pos + (type :: bytes).length ≤ maxEventPayload) :
    w.writeFixed type bytes = (.ok 0, w.append (type :: bytes)) := by
  rw [length_cons, add_comm bytes.length] at hf
  rw [writeFixed, if_neg (Bool.eq_false_iff.mp ho), if_neg (not_lt.mpr hf), append, length_cons,
    add_comm bytes.length]

theorem writeListBegin_ok (h : w.androidLogWriteListBegin = (.ok n, w')) :
    w.listNestDepth + 1 ≤ maxListNestDepth ∧ w.pos + 2 ≤ maxEventPayload ∧
      w' = { w with
        storage := store w.storage w.pos [eventTypeList, 0]
        list := update w.list (w.listNestDepth + 1) (w.pos + 1)
        count := update w.counted (w.listNestDepth + 1) 0
        listNestDepth := w.listNestDepth + 1
        pos := w.pos + 2 } := by
  rw [androidLogWriteListBegin] at h
  split at h
  · cases h
  · split at h
    · cases h
    · rename_i hf
      dsimp only at h
      split at h
      · cases h
      · rename_i hd
        split at h
        · cases h
        · cases h
          exact ⟨le_of_not_gt hd, le_of_not_gt hf, rfl⟩

theorem writeListEnd_ok (h : w.androidLogWriteListEnd = (.ok n, w')) :
    w.listNestDepth ≠ 0 ∧
      w' = { w with
        storage := store w.storage (w.list w.listNestDepth) [.ofNat (w.count w.listNestDepth)]
        listNestDepth := w.listNestDepth - 1 } := by
  rw [androidLogWriteListEnd] at h
  split at h
  · cases h
  · split at h
    · cases h
    · rename_i hd
      split at h
      · cases h
      · cases h
        exact ⟨hd, rfl⟩

/-- What the calls of a forest do to a context: the bytes of the forest are behind the old ones, and the innermost
list has its elements. -/
structure Wrote (w : Writer) (f : Forest) (w' : Writer) : Prop where
  overflow : w'.overflow = w.overflow
  depth : w'.listNestDepth = w.listNestDepth
  pos : w'.pos = w.pos + f.encode.length
  fits : w.pos ≤ maxEventPayload → w'.pos ≤ maxEventPayload
  nested : w.listNestDepth ≤ maxListNestDepth → w.listNestDepth + f.depth ≤ maxListNestDepth
  count : w'.count w.listNestDepth = w.count w.listNestDepth + f.length
  outer : ∀ i, i < w.listNestDepth → w'.count i = w.count i
  list : ∀ i, i ≤ w.listNestDepth → w'.list i = w.list i
  below : ∀ i, i < w.pos → w'.storage i = w.storage i
  holds : Holds w'.storage w.pos f.encode

theorem wrote_nil : Wrote w .nil w where
  overflow := rfl
  depth := rfl
  pos := rfl
  fits := id
  nested := id
  count := rfl
  outer _ _ := rfl
  list _ _ := rfl
  below _ _ := rfl
  holds := trivial

theorem wrote_scalar (hf : w.pos + s.encode.length ≤ maxEventPayload)
    (h : Wrote (w.append s.encode) f w') : Wrote w (.scalar s f) w' where
  overflow := h.overflow
  depth := h.depth
  pos := by
    rw [h.pos, Forest.encode, length_append, ← add_assoc]
    rfl
  fits _ := h.fits hf
  nested := h.nested
  count := by
    have hc : (w.append s.encode).count w.listNestDepth = w.count w.listNestDepth + 1 := update_self ..
    rw [Forest.length, ← Nat.add_assoc, Nat.add_right_comm, ← hc]
    exact h.count
  outer i hi := (h.outer i hi).trans (update_of_ne (Nat.ne_of_lt hi) ..)
  list := h.list
  below i hi := (h.below i (Nat.lt_add_right _ hi)).trans (store_of_lt hi)
  holds := by
    refine holds_append.mpr ⟨?_, h.holds⟩
    exact (holds_store w.storage w.pos s.encode).congr fun i _ hi => h.below i hi

theorem wrote_list {inner rest : Forest} {v u x : Writer} (hb : w.androidLogWriteListBegin = (.ok n, v))
    (hin : Wrote v inner u) (hend : u.androidLogWriteListEnd = (.ok n, x)) (hr : Wrote x rest w') :
    Wrote w (.list inner rest) w' := by
  obtain ⟨hd, hf, rfl⟩ := writeListBegin_ok hb
  obtain ⟨-, hx⟩ := writeListEnd_ok hend
  have hu : u.listNestDepth = w.listNestDepth + 1 := hin.depth
  have hul : u.list u.listNestDepth = w.pos + 1 := by
    rw [hu, hin.list _ (le_refl _)]
    exact update_self ..
  have huc : u.count u.listNestDepth = inner.length := by
    rw [hu]
    refine hin.count.trans ?_
    dsimp only
    rw [update_self, zero_add]
  have hxd : x.listNestDepth = w.listNestDepth := by
    rw [hx]
    exact congrArg (· - 1) hu
  have hxs : x.storage = store u.storage (w.pos + 1) [.ofNat inner.length] := by
    rw [hx]
    rw [hul, huc]
  have hxp : x.pos = w.pos + 2 + inner.encode.length := by
    rw [hx]
    exact hin.pos
  have hxc (i : ℕ) (hi : i ≤ w.listNestDepth) : x.count i = w.counted i := by
    rw [hx]
    refine (hin.outer i (lt_succ_of_le hi)).trans ?_
    exact update_of_ne (by omega) ..
  have hxl (i : ℕ) (hi : i ≤ w.listNestDepth) : x.list i = w.list i := by
    rw [hx]
    refine (hin.list i (le_succ_of_le hi)).trans ?_
    exact update_of_ne (by omega) ..
  have hxb (i : ℕ) (hi : i < w.pos) : x.storage i = w.storage i := by
    rw [hxs, store_of_lt (by omega), hin.below i (by dsimp only; omega)]
    exact store_of_lt hi
  have hxt : x.storage w.pos = eventTypeList := by
    rw [hxs, store_of_lt (lt_succ_self _), hin.below _ (by dsimp only; omega)]
    exact (holds_store w.storage w.pos [eventTypeList, 0]).1
  have hxi : Holds x.storage (w.pos + 2) inner.encode := by
    refine hin.holds.congr fun i hi _ => ?_
    dsimp only at hi
    rw [hxs, store_singleton_of_ne (by omega)]
  refine ⟨?_, hr.depth.trans hxd, ?_, fun _ => ?_, fun _ => ?_, ?_, fun i hi => ?_, fun i hi => ?_,
    fun i hi => ?_, ?_⟩
  · refine hr.overflow.trans ?_
    rw [hx]
    exact hin.overflow
  · rw [hr.pos, hxp, Forest.encode, length_cons, length_cons, length_append]
    omega
  · refine hr.fits ?_
    rw [hxp]
    exact hin.pos ▸ hin.fits hf
  · have hne := hr.nested (by omega)
    have hn := hin.nested hd
    dsimp only at hn
    rw [Forest.depth]
    omega
  · have hc := hr.count
    rw [hxd, hxc _ (le_refl _), counted, update_self] at hc
    rw [hc, Forest.length]
    omega
  · rw [hr.outer i (by omega), hxc i (Nat.le_of_lt hi), counted]
    exact update_of_ne (Nat.ne_of_lt hi) ..
  · rw [hr.list i (by omega), hxl i hi]
  · rw [hr.below i (by omega), hxb i hi]
  · refine ⟨?_, ?_, holds_append.mpr ⟨?_, hxp ▸ hr.holds⟩⟩
    · rw [hr.below _ (by omega), hxt]
    · rw [hr.below _ (by omega), hxs, store_singleton]
    · exact hxi.congr fun i _ hi => hr.below i (by omega)

theorem wrote_of_writeAll (hpos : w.pos ≤ maxEventPayload) (h : writeAll f.calls w = some w') : Wrote w f w' := by
  induction f generalizing w w' with
  | nil =>
    cases h
    exact wrote_nil
  | scalar s rest ih =>
    obtain ⟨v, hv, hr⟩ := writeAll_cons h
    obtain ⟨hf, rfl⟩ := write_ok hpos hv
    exact wrote_scalar hf (ih hf hr)
  | list inner rest ihInner ihRest =>
    obtain ⟨v, hv, ht⟩ := writeAll_cons h
    obtain ⟨u, hu, hc⟩ := writeAll_append ht
    obtain ⟨x, hx, hr⟩ := writeAll_cons hc
    obtain ⟨-, hf, hv'⟩ := writeListBegin_ok hv
    obtain ⟨-, hx'⟩ := writeListEnd_ok hx
    have hin := ihInner (hv' ▸ hf) hu
    exact wrote_list hv hin hx (ihRest (hx' ▸ hin.fits (hv' ▸ hf)) hr)

end Writer

theorem writeAll_string_of_fits {w : Writer} {value : List UInt8} {maxlen : ℕ} (ho : w.overflow = false)
    (hf : w.pos + (Scalar.string value maxlen).encode.length ≤ maxEventPayload) :
    writeAll (.write (.string value maxlen) :: cs) w = writeAll cs (w.append (Scalar.string value maxlen).encode) :=
  writeAll_cons_of_ok (c := .write (.string value maxlen)) (Writer.writeString_of_fits ho hf)

/-- The calls of a forest in as many open lists as others follow, each of which is closed before the next. -/
def closing : Forest → List Forest → List Call
  | f, [] => f.calls
  | f, g :: gs => f.calls ++ .listEnd :: closing g gs

theorem closing_list (f g : Forest) (gs : List Forest) :
    closing (.list f g) gs = .listBegin :: closing f (g :: gs) := by
  cases gs with
  | nil => rfl
  | cons h gs => simp only [closing, Forest.calls, cons_append, append_assoc]

/-- Calls that succeed and leave no list open are those of a forest. -/
theorem exists_closing {w w' : Writer} (h : writeAll cs w = some w') (hpos : w.pos ≤ maxEventPayload)
    (hc : w'.listNestDepth = 0) : ∃ f gs, cs = closing f gs ∧ gs.length = w.listNestDepth := by
  induction cs generalizing w with
  | nil =>
    cases h
    exact ⟨.nil, [], rfl, hc.symm⟩
  | cons c cs ih =>
    obtain ⟨v, hv, hr⟩ := writeAll_cons h
    cases c with
    | write s =>
      obtain ⟨hf, rfl⟩ := Writer.write_ok hpos hv
      obtain ⟨f, gs, rfl, hl⟩ := ih hr hf
      exact ⟨.scalar s f, gs, by cases gs <;> rfl, hl⟩
    | listBegin =>
      obtain ⟨-, hf, rfl⟩ := Writer.writeListBegin_ok hv
      obtain ⟨f, gs, rfl, hl⟩ := ih hr hf
      obtain ⟨g, gs, rfl⟩ := exists_cons_of_length_eq_add_one hl
      exact ⟨.list f g, gs, (closing_list f g gs).symm, succ.inj hl⟩
    | listEnd =>
      obtain ⟨hd, rfl⟩ := Writer.writeListEnd_ok hv
      obtain ⟨f, gs, rfl, hl⟩ := ih hr hpos
      exact ⟨.nil, f :: gs, rfl, by rw [length_cons, hl]; exact succ_pred hd⟩

end Bionic.EventList
