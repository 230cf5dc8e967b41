import Bionic.Lib.LittleEndian
import Bionic.Lib.Memory

namespace Bionic.Records

open Lib List Nat

def headerSize : ℕ := 4

/-- The buffer is memory of `maxRecordLen + headerSize` bytes, and the pointers into it are offsets. -/
structure RecordStream where
  maxRecordLen : ℕ
  buffer : ℕ → UInt8
  unconsumed : ℕ
  readEnd : ℕ

namespace RecordStream

variable (rs : RecordStream)

def bufferEnd : ℕ := rs.maxRecordLen + headerSize

def new (maxRecordLen : ℕ) (buffer : ℕ → UInt8) : RecordStream := ⟨maxRecordLen, buffer, 0, 0⟩

end RecordStream

def ntohl (bs : List UInt8) : ℕ := leValue bs.reverse

def getEndOfRecord (buffer : ℕ → UInt8) (pBegin pEnd : ℕ) : Option ℕ :=
  if pEnd < pBegin + headerSize then none
  else
    let pRet := pBegin + headerSize + ntohl (load buffer pBegin headerSize)
    if pEnd < pRet then none else some pRet

variable (rs : RecordStream)

def getNextRecord : Option (ℕ × ℕ) × RecordStream :=
  match getEndOfRecord rs.buffer rs.unconsumed rs.readEnd with
  | some recordEnd =>
    let recordStart := rs.unconsumed + headerSize
    (some (recordStart, recordEnd - recordStart), { rs with unconsumed := recordEnd })
  | none => (none, rs)

inductive Out
  | record (data : List UInt8) (len : ℕ)
  | endOfStream
  | eagain
  | efbig
  deriving DecidableEq

def compact : RecordStream :=
  if rs.unconsumed ≠ 0 then
    let toMove := rs.readEnd - rs.unconsumed
    { rs with
      buffer := store rs.buffer 0 (load rs.buffer rs.unconsumed toMove)
      readEnd := toMove
      unconsumed := 0 }
  else rs

def found (start len : ℕ) : Out := .record (load rs.buffer start len) len

/-- A call, where `read n` are the bytes that a read of at most `n` gives, none at the end of the stream. With the result
are the bytes that were read. -/
def recordStreamGetNext (read : ℕ → List UInt8) : Out × RecordStream × List UInt8 :=
  match getNextRecord rs with
  | (some (start, len), rs) => (found rs start len, rs, [])
  | (none, rs) =>
    if rs.unconsumed = 0 ∧ rs.readEnd = rs.bufferEnd then (.efbig, rs, [])
    else
      let rs := compact rs
      let bytes := read (rs.bufferEnd - rs.readEnd)
      if bytes = [] then (.endOfStream, rs, [])
      else
        let rs := { rs with buffer := store rs.buffer rs.readEnd bytes, readEnd := rs.readEnd + bytes.length }
        match getNextRecord rs with
        | (none, rs) => (.eagain, rs, bytes)
        | (some (start, len), rs) => (found rs start len, rs, bytes)

/-- A read of a stream gives some of its bytes, as many as there is room for at most, and none only at its end. -/
def Reads (stream : List UInt8) (read : ℕ → List UInt8) : Prop :=
  ∀ n, 0 < n → read n <+: stream ∧ (read n).length ≤ n ∧ (read n = [] → stream = [])

/-- The results of successive calls, each of which reads from what the earlier ones left of the stream. -/
inductive Calls : RecordStream → List UInt8 → List Out → Prop
  | nil (rs : RecordStream) (stream : List UInt8) : Calls rs stream []
  | cons {rs rs' : RecordStream} {stream rest bytes : List UInt8} {out : Out} {outs : List Out} (read : ℕ → List UInt8)
      (hread : Reads stream read) (hcall : recordStreamGetNext rs read = (out, rs', bytes))
      (hrest : stream = bytes ++ rest) (hcalls : Calls rs' rest outs) : Calls rs stream (out :: outs)

def frame (record : List UInt8) : List UInt8 := (leBytes headerSize record.length).reverse ++ record

/-- What is to be returned for records: each in turn, before it perhaps some requests to try again, and behind the last
one only that the stream is at its end. -/
inductive Delivers : List (List UInt8) → List Out → Prop
  | nil (records : List (List UInt8)) : Delivers records []
  | again {record : List UInt8} {records : List (List UInt8)} {outs : List Out} (h : Delivers (record :: records) outs) :
      Delivers (record :: records) (.eagain :: outs)
  | record {record : List UInt8} {records : List (List UInt8)} {outs : List Out} (h : Delivers records outs) :
      Delivers (record :: records) (.record record record.length :: outs)
  | endOfStream {outs : List Out} (h : Delivers [] outs) : Delivers [] (.endOfStream :: outs)

structure Holding (rs : RecordStream) (held : List UInt8) : Prop where
  bytes : Holds rs.buffer rs.unconsumed held
  readEnd : rs.readEnd = rs.unconsumed + held.length
  inside : rs.readEnd ≤ rs.bufferEnd

variable {rs : RecordStream} {held stream record more : List UInt8} {records : List (List UInt8)} {outs : List Out}

theorem length_frame (record : List UInt8) : (frame record).length = headerSize + record.length := by
  rw [frame, length_append, length_reverse, length_leBytes]

theorem ntohl_header {n : ℕ} (h : n < 2 ^ 32) : ntohl (leBytes headerSize n).reverse = n := by
  rw [ntohl, reverse_reverse, leValue_leBytes]
  exact mod_eq_of_lt h

theorem getNextRecord_some (h : Holding rs (frame record ++ more)) (hl : record.length < 2 ^ 32) :
    ∃ rs', getNextRecord rs = (some (rs.unconsumed + headerSize, record.length), rs') ∧ Holding rs' more ∧
      rs'.maxRecordLen = rs.maxRecordLen ∧ found rs' (rs.unconsumed + headerSize) record.length = .record record record.length := by
  have hend := h.readEnd
  rw [length_append, length_frame] at hend
  obtain ⟨hf, hm⟩ := holds_append.mp h.bytes
  obtain ⟨hh, hr⟩ := holds_append.mp hf
  have hlo : load rs.buffer rs.unconsumed headerSize = (leBytes headerSize record.length).reverse := by
    have hlen : (leBytes headerSize record.length).reverse.length = headerSize := by
      rw [length_reverse, length_leBytes]
    exact hlen ▸ hh.load_eq
  have hfi : getEndOfRecord rs.buffer rs.unconsumed rs.readEnd = some (rs.unconsumed + headerSize + record.length) := by
    rw [getEndOfRecord, if_neg (by omega), hlo, ntohl_header hl]
    exact if_neg (by omega)
  rw [length_frame, ← add_assoc] at hm
  refine ⟨{ rs with unconsumed := rs.unconsumed + headerSize + record.length }, ?_, ⟨hm, ?_, h.inside⟩, rfl, ?_⟩
  · rw [getNextRecord, hfi]
    dsimp only
    rw [Nat.add_sub_cancel_left]
  · dsimp only
    omega
  · exact congrArg (Out.record · record.length) hr.load_eq

theorem getNextRecord_none (h : Holding rs held) (hb : held ++ stream = frame record ++ more)
    (hle : record.length < 2 ^ 32) (hs : held.length < headerSize + record.length) :
    getNextRecord rs = (none, rs) := by
  have hend := h.readEnd
  have hf : getEndOfRecord rs.buffer rs.unconsumed rs.readEnd = none := by
    rw [getEndOfRecord]
    by_cases hh : rs.readEnd < rs.unconsumed + headerSize
    · exact if_pos hh
    · have ht : held.take headerSize = (leBytes headerSize record.length).reverse := by
        have heq := congrArg (take headerSize) hb
        rw [take_append_of_le_length (by omega), frame, append_assoc, take_left'] at heq
        · exact heq
        · rw [length_reverse, length_leBytes]
      have hlo : load rs.buffer rs.unconsumed headerSize = (leBytes headerSize record.length).reverse := by
        have hlen : (held.take headerSize).length = headerSize := length_take_of_le (by omega)
        have hho : Holds rs.buffer rs.unconsumed (held.take headerSize) :=
          (holds_append.mp ((take_append_drop headerSize held).symm ▸ h.bytes)).1
        have hl := hho.load_eq
        rw [hlen] at hl
        exact hl.trans ht
      rw [if_neg hh, hlo, ntohl_header hle]
      exact if_pos (by omega)
  rw [getNextRecord, hf]

theorem getNextRecord_empty (h : Holding rs []) : getNextRecord rs = (none, rs) := by
  have hend := h.readEnd
  rw [length_nil] at hend
  rw [getNextRecord, getEndOfRecord, if_pos]
  rw [headerSize]
  omega

theorem Holding.compact (h : Holding rs held) : Holding (compact rs) held ∧ (compact rs).unconsumed = 0 := by
  have hend := h.readEnd
  have hi := h.inside
  by_cases hz : rs.unconsumed = 0
  · rw [Records.compact, if_neg (not_not_intro hz)]
    exact ⟨h, hz⟩
  · have hm : rs.readEnd - rs.unconsumed = held.length := by omega
    rw [Records.compact, if_pos hz]
    dsimp only
    rw [hm, h.bytes.load_eq]
    have hr : held.length ≤ rs.bufferEnd := by omega
    exact ⟨⟨holds_store rs.buffer 0 held, (zero_add _).symm, hr⟩, rfl⟩

theorem Holding.store {bytes : List UInt8} (h : Holding rs held) (hr : bytes.length ≤ rs.bufferEnd - rs.readEnd) :
    Holding { rs with buffer := store rs.buffer rs.readEnd bytes, readEnd := rs.readEnd + bytes.length } (held ++ bytes) where
  bytes := by
    have hend := h.readEnd
    rw [holds_append]
    refine ⟨h.bytes.congr fun i _ hi => store_of_lt (by omega), ?_⟩
    rw [← hend]
    exact holds_store _ _ _
  readEnd := by
    have hend := h.readEnd
    dsimp only
    rw [length_append]
    omega
  inside := by
    have hin := h.inside
    exact (Nat.le_sub_iff_add_le' hin).mp hr

/-- What the buffer holds and what is still to be read are the records that are not delivered yet. -/
structure Good (rs : RecordStream) (stream : List UInt8) (records : List (List UInt8)) : Prop where
  holding : ∃ held, Holding rs held ∧ held ++ stream = (records.map frame).flatten
  short : ∀ record ∈ records, record.length ≤ rs.maxRecordLen ∧ record.length < 2 ^ 32

theorem compact_maxRecordLen (rs : RecordStream) : (compact rs).maxRecordLen = rs.maxRecordLen := by
  rw [compact]
  split <;> rfl

theorem frame_cases (h : held ++ stream = frame record ++ more) :
    (∃ rest, held = frame record ++ rest ∧ rest ++ stream = more) ∨ held.length < headerSize + record.length := by
  obtain ⟨rest, hr, hs⟩ | ⟨rest, hr, hm⟩ := append_eq_append_iff.mp h
  · cases rest with
    | nil =>
      rw [append_nil] at hr
      exact Or.inl ⟨[], by rw [hr, append_nil], hs⟩
    | cons b rest =>
      right
      rw [← length_frame, hr, length_append, length_cons]
      omega
  · exact Or.inl ⟨rest, hr, hm.symm⟩

section Step

variable {read : ℕ → List UInt8}

theorem getNext_reads (h : Holding rs held) (hn : getNextRecord rs = (none, rs)) (hro : held.length < rs.bufferEnd)
    (hr : Reads stream read) :
    (∃ rs', stream = [] ∧ recordStreamGetNext rs read = (.endOfStream, rs', []) ∧ Holding rs' held ∧
      rs'.maxRecordLen = rs.maxRecordLen) ∨
      ∃ bytes rest rs', bytes ≠ [] ∧ stream = bytes ++ rest ∧ Holding rs' (held ++ bytes) ∧
        rs'.maxRecordLen = rs.maxRecordLen ∧
        recordStreamGetNext rs read =
          match getNextRecord rs' with
          | (none, rs) => (.eagain, rs, bytes)
          | (some (start, len), rs) => (found rs start len, rs, bytes) := by
  have hend := h.readEnd
  obtain ⟨hc, hz⟩ := h.compact
  have hce := hc.readEnd
  have hbu : (compact rs).bufferEnd = rs.bufferEnd := congrArg (· + headerSize) (compact_maxRecordLen rs)
  have hf : ¬(rs.unconsumed = 0 ∧ rs.readEnd = rs.bufferEnd) := by omega
  obtain ⟨⟨rest, hre⟩, hl, he⟩ := hr ((compact rs).bufferEnd - (compact rs).readEnd) (by omega)
  rw [recordStreamGetNext, hn]
  dsimp only
  rw [if_neg hf]
  by_cases hb : read ((compact rs).bufferEnd - (compact rs).readEnd) = []
  · rw [if_pos hb]
    exact Or.inl ⟨_, he hb, rfl, hc, compact_maxRecordLen rs⟩
  · rw [if_neg hb]
    exact Or.inr ⟨_, rest, _, hb, hre.symm, hc.store hl, compact_maxRecordLen rs, rfl⟩

/-- What a call does: it delivers the next record, or asks for more of it, or is at the end. -/
theorem Good.call (h : Good rs stream records) (hre : Reads stream read) :
    ∃ out rs' bytes rest, recordStreamGetNext rs read = (out, rs', bytes) ∧ stream = bytes ++ rest ∧
      (records = [] ∧ out = .endOfStream ∧ Good rs' rest [] ∨
        ∃ record records', records = record :: records' ∧
          (out = .record record record.length ∧ Good rs' rest records' ∨
            out = .eagain ∧ bytes ≠ [] ∧ Good rs' rest records)) := by
  obtain ⟨held, hh, hb⟩ := h.holding
  cases records with
  | nil =>
    obtain ⟨rfl, rfl⟩ := append_eq_nil_iff.mp hb
    obtain ⟨rs', -, hc, hh', -⟩ | ⟨bytes, rest, rs', hne, hst, -⟩ :=
      getNext_reads hh (getNextRecord_empty hh) (succ_pos _) hre
    · exact ⟨_, rs', [], [], hc, rfl, Or.inl ⟨rfl, rfl, ⟨[], hh', rfl⟩, by simp⟩⟩
    · exact absurd (append_eq_nil_iff.mp hst.symm).1 hne
  | cons record records =>
    rw [map_cons, flatten_cons] at hb
    obtain ⟨hle, hlt⟩ := h.short record mem_cons_self
    have hs (r : List UInt8) (hr : r ∈ records) := h.short r (mem_cons_of_mem record hr)
    obtain ⟨held', rfl, hh'⟩ | hfew := frame_cases hb
    · obtain ⟨rs', hn, hh'', hmax, hf⟩ := getNextRecord_some hh hlt
      refine ⟨.record record record.length, rs', [], stream, ?_, rfl, Or.inr ⟨record, records, rfl, Or.inl ⟨rfl, ?_⟩⟩⟩
      · rw [recordStreamGetNext, hn]
        dsimp only
        rw [hf]
      · exact ⟨⟨held', hh'', hh'⟩, hmax.symm ▸ hs⟩
    · have hro : held.length < rs.bufferEnd := by
        rw [RecordStream.bufferEnd]
        omega
      obtain ⟨rs', rfl, -⟩ | ⟨bytes, rest, rs', hne, rfl, hh', hmax, hc⟩ :=
        getNext_reads hh (getNextRecord_none hh hb hlt hfew) hro hre
      · have hl := congrArg length hb
        rw [append_nil, length_append, length_frame] at hl
        omega
      · rw [← append_assoc] at hb
        obtain ⟨held', heq, hm⟩ | hfew' := frame_cases hb
        · rw [heq] at hh'
          obtain ⟨rs'', hn, hh'', hmax', hf⟩ := getNextRecord_some hh' hlt
          refine ⟨.record record record.length, rs'', bytes, rest, ?_, rfl, Or.inr ⟨record, records, rfl, Or.inl ⟨rfl, ?_⟩⟩⟩
          · rw [hc, hn]
            dsimp only
            rw [hf]
          · exact ⟨⟨held', hh'', hm⟩, (hmax'.trans hmax).symm ▸ hs⟩
        · refine ⟨.eagain, rs', bytes, rest, ?_, rfl, Or.inr ⟨record, records, rfl, Or.inr ⟨rfl, hne, ?_⟩⟩⟩
          · rw [hc, getNextRecord_none hh' hb hlt hfew']
          · exact ⟨⟨_, hh', hb⟩, hmax.symm ▸ h.short⟩

end Step

theorem delivers_of_calls (hca : Calls rs stream outs) (h : Good rs stream records) :
    Delivers records outs ∧ outs.count .eagain ≤ stream.length := by
  induction hca generalizing records with
  | nil => exact ⟨.nil _, zero_le _⟩
  | @cons rs rs' stream rest bytes out outs read hre hc hr hca ih =>
    obtain ⟨out', rs'', bytes', rest', hc', hr', hcs⟩ := h.call hre
    obtain ⟨rfl, hp⟩ := Prod.mk.inj (hc.symm.trans hc')
    obtain ⟨rfl, rfl⟩ := Prod.mk.inj hp
    obtain rfl := append_cancel_left (hr.symm.trans hr')
    have hl : stream.length = bytes.length + rest.length := by rw [hr, length_append]
    obtain ⟨rfl, rfl, hg⟩ | ⟨record, records, rfl, ⟨rfl, hg⟩ | ⟨rfl, hne, hg⟩⟩ := hcs
    · obtain ⟨hd, hco⟩ := ih hg
      refine ⟨.endOfStream hd, ?_⟩
      rw [count_cons_of_ne (by simp)]
      omega
    · obtain ⟨hd, hco⟩ := ih hg
      refine ⟨.record hd, ?_⟩
      rw [count_cons_of_ne (by simp)]
      omega
    · obtain ⟨hd, hco⟩ := ih hg
      have hpos := length_pos_iff.mpr hne
      refine ⟨.again hd, ?_⟩
      rw [count_cons_self]
      omega

def delivered (outs : List Out) : List (List UInt8 × ℕ) :=
  outs.filterMap fun
    | .record data len => some (data, len)
    | _ => none

theorem Delivers.length_le (h : Delivers records outs) (hend : .endOfStream ∉ outs) :
    outs.length ≤ records.length + outs.count .eagain := by
  induction h with
  | nil => exact zero_le _
  | again _ ih =>
    have hle := ih fun hmem => hend (mem_cons_of_mem _ hmem)
    rw [count_cons_self, length_cons]
    omega
  | record _ ih =>
    have hle := ih fun hmem => hend (mem_cons_of_mem _ hmem)
    rw [count_cons_of_ne (by simp), length_cons, length_cons]
    omega
  | endOfStream => exact absurd mem_cons_self hend

theorem Delivers.delivered_eq (h : Delivers records outs) (hend : .endOfStream ∈ outs) :
    delivered outs = records.map fun record => (record, record.length) := by
  induction h with
  | nil => cases hend
  | again _ ih => exact ih (mem_of_ne_of_mem (by simp) hend)
  | record _ ih => exact congrArg (_ :: ·) (ih (mem_of_ne_of_mem (by simp) hend))
  | @endOfStream outs h ih =>
    by_cases hmem : .endOfStream ∈ outs
    · exact ih hmem
    · cases h with
      | nil => rfl
      | endOfStream => exact absurd mem_cons_self hmem

/-- Calls on a stream of records that are not too long deliver them in turn and then report the end of the stream, and
enough calls deliver all of them. -/
theorem records_delivered (maxRecordLen : ℕ) (buffer : ℕ → UInt8) (records : List (List UInt8)) (outs : List Out)
    (hshort : ∀ record ∈ records, record.length ≤ maxRecordLen ∧ record.length < 2 ^ 32)
    (hcalls : Calls (.new maxRecordLen buffer) (records.map frame).flatten outs) :
    Delivers records outs ∧
      (records.length + (records.map frame).flatten.length < outs.length →
        .endOfStream ∈ outs ∧ delivered outs = records.map fun record => (record, record.length)) := by
  have hg : Good (.new maxRecordLen buffer) (records.map frame).flatten records :=
    ⟨⟨[], ⟨trivial, rfl, zero_le _⟩, rfl⟩, hshort⟩
  obtain ⟨hd, hc⟩ := delivers_of_calls hcalls hg
  refine ⟨hd, fun hm => ?_⟩
  have hend : .endOfStream ∈ outs := by
    by_contra hmem
    have hle := hd.length_le hmem
    omega
  exact ⟨hend, hd.delivered_eq hend⟩

def oneByte (stream : List UInt8) (n : ℕ) : List UInt8 := if n = 0 then [] else stream.take 1

theorem oneByte_reads (stream : List UInt8) : Reads stream (oneByte stream) := by
  intro n hn
  rw [oneByte, if_neg (ne_of_gt hn)]
  refine ⟨ take_prefix 1 stream, ?_, fun h => ?_⟩
  · rw [length_take]
    omega
  · simpa using h

/-- The record `a` and an empty one, read byte by byte. -/
theorem records_delivered_bytewise :
    ∃ outs, Calls (.new 1 fun _ => 0) [0, 0, 0, 1, 97, 0, 0, 0, 0] outs ∧
      outs = replicate 4 .eagain ++ .record [97] 1 :: (replicate 3 .eagain ++ [.record [] 0, .endOfStream]) ∧
      Delivers [[97], []] outs := by
  have hc : Calls (.new 1 fun _ => 0) [0, 0, 0, 1, 97, 0, 0, 0, 0]
      (replicate 4 .eagain ++ .record [97] 1 :: (replicate 3 .eagain ++ [.record [] 0, .endOfStream])) := by
    iterate 10 refine .cons (oneByte _) (oneByte_reads _) rfl rfl ?_
    exact .nil _ _
  exact ⟨_, hc, rfl, (records_delivered 1 (fun _ => 0) [[97], []] _ (by decide) hc).1⟩

end Bionic.Records
