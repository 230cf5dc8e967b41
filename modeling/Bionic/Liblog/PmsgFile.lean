import Bionic.Liblog.Pmsg
import Mathlib.Data.List.DropRight

namespace Bionic.Pmsg

open Lib Logd List Nat

def fileMaxSequence : ℕ := 256

def fileSequence : ℕ := 1000

def newline : UInt8 := 10

def formFeed : UInt8 := 12

def slash : UInt8 := 47

def colon : UInt8 := 58

variable (b : UInt8) (pfx name tag : List UInt8) (logId : Option LogId) (prio : UInt8) (m : LogMsg) (n : Names)

def isprint : Bool := 32 ≤ b ∧ b < 127

def isspace : Bool := b = 32 ∨ 9 ≤ b ∧ b ≤ 13

def isdigit : Bool := 48 ≤ b ∧ b ≤ 57

def strnrchrFrom (buf : List UInt8) (len : ℕ) (c : UInt8) : ℕ → ℕ
  | 0 => len
  | 1 => len
  | k + 2 => if buf.getD (k + 1) 0 = c then k + 1 else strnrchrFrom buf len c (k + 1)

/-- The last place of a byte, but for the first, among `len` bytes; `len` if there is none. -/
def strnrchr (buf : List UInt8) (len : ℕ) (c : UInt8) : ℕ := strnrchrFrom buf len c len

def fileTag (filename : List UInt8) : List UInt8 :=
  let dir := filename.rdropWhile (· ≠ slash)
  let base := filename.rtakeWhile (· ≠ slash)
  if dir = [] then filename else dir.dropLast.rtakeWhile (· ≠ slash) ++ colon :: base

/-- The room for content in a packet; the subtraction is that of a `size_t`. -/
def packetLen : ℕ := (2 ^ 64 + loggerEntryMaxPayload - 1 - (tag.length + 1)) % 2 ^ 64

/-- How much of the content goes into the next packet: all of it if it fits, else up to a newline if there is one. -/
def transfer (packetLen : ℕ) (buf : List UInt8) : ℕ :=
  if buf.length > packetLen then
    let n := strnrchr buf (packetLen - 1) newline
    if n < buf.length ∧ buf.getD n 0 = newline then n + 1 else n
  else buf.length

/-- The number of bytes that are not written, for want of sequence numbers, and the bytes of the records. -/
def writeFrom (w : Writer) (logId : LogId) (prio : UInt8) (sec : UInt32) (tag : List UInt8) :
    ℕ → ℕ → List UInt8 → Except Errno ℕ × List UInt8
  | _, _, [] => (.ok 0, [])
  | 0, _, buf => (.ok buf.length, [])
  | left + 1, sequence, buf =>
    let n := transfer (packetLen tag) buf
    match pmsgWrite w logId sec (.ofNat (sequence * fileSequence)) [[prio], tag ++ [0], buf.take n] with
    | (.error e, bytes) => (.error e, bytes)
    | (.ok 0, bytes) => (.ok buf.length, bytes)
    | (.ok (_ + 1), bytes) =>
      let more := writeFrom w logId prio sec tag left (sequence + 1) (buf.drop n)
      (more.1, bytes ++ more.2)

def pmsgFileWrite (w : Writer) (logId : LogId) (prio : UInt8) (sec : UInt32) (filename buf : List UInt8) :
    Except Errno ℕ × List UInt8 :=
  if logId = .kernel ∨ logId = .events ∨ logId = .security then (.error .einval, [])
  else
    let wrote := writeFrom w logId prio sec (fileTag filename) fileMaxSequence 0 buf
    (wrote.1.map (buf.length - ·), wrote.2)

structure Names where
  id : UInt8
  prio : UInt8
  name : List UInt8
  content : List LogMsg
  deriving DecidableEq, Repr

def isFileTag : Bool → List UInt8 → Bool
  | split, [] => split
  | split, b :: bs =>
    if b = 0 then split
    else if ¬isprint b ∨ isspace b ∨ bs = [] then false
    else if b = colon then if split then false else isFileTag true bs
    else isFileTag split bs

def shiftPrefix : List UInt8 :=
  let isSeparator := fun b => b = slash ∨ b = colon
  let base := pfx.rtakeWhile (¬isSeparator ·)
  let dir := pfx.rdropWhile (¬isSeparator ·)
  if dir = [] then pfx else dir.dropLast.rtakeWhile (¬isSeparator ·) ++ dir.drop (dir.length - 1) ++ base

/-- A slash in the prefix may stand for the colon in the tag. -/
def hasPrefix : Bool :=
  pfx.isPrefixOf tag ∨
    colon ∉ pfx ∧ slash ∈ pfx ∧
      (pfx.takeWhile (· ≠ slash) ++ colon :: (pfx.dropWhile (· ≠ slash)).drop 1).isPrefixOf tag

def cstring (bytes : List UInt8) : List UInt8 := bytes.takeWhile (· ≠ 0)

def ullongMax : ℕ := 2 ^ 64 - 1

def firstNumber : ℕ :=
  let digits := (name.dropWhile (¬isdigit ·)).takeWhile isdigit
  min (digits.foldl (fun n d => 10 * n + (d.toNat - 48)) 0) ullongMax

def precedes (a b : Names) : Bool :=
  if firstNumber a.name ≠ firstNumber b.name then firstNumber a.name > firstNumber b.name else b.name < a.name

def insertName (x : Names) (names : List Names) : List Names :=
  names.rdropWhile (precedes x) ++ x :: names.rtakeWhile (precedes x)

def insertContent (content : List LogMsg) : List LogMsg :=
  let others := content.filter (·.nsec ≠ m.nsec)
  others.rdropWhile (¬·.nsec < m.nsec) ++ m :: others.rtakeWhile (¬·.nsec < m.nsec)

def Names.isFor : Bool :=
  n.name = cstring (m.msg.drop 1) ∧ n.id = m.lid ∧ n.prio = m.msg.headD 0

def updateFirst {α : Type} (p : α → Bool) (f : α → α) : List α → List α
  | [] => []
  | x :: xs => if p x then f x :: xs else x :: updateFirst p f xs

def addMessage (names : List Names) (m : LogMsg) : List Names :=
  let tag := m.msg.drop 1
  if m.nsec.toNat % fileSequence ≠ 0 ∨ m.nsec.toNat / fileSequence ≥ fileMaxSequence then names
  else if ¬isFileTag false tag then names
  else if pfx ≠ [] ∧ ¬hasPrefix pfx (cstring tag) then names
  else if prio ≠ 0 ∧ m.msg.headD 0 < prio then names
  else
    let names :=
      if names.any (·.isFor m) then names else insertName ⟨m.lid, m.msg.headD 0, cstring tag, []⟩ names
    updateFirst (·.isFor m) (fun n => { n with content := insertContent m n.content }) names

def collect (l : LoggerList) (pfx : List UInt8) (prio : UInt8) : ℕ → List UInt8 → List Names → List Names
  | 0, _, names => names
  | n + 1, file, names =>
    match pmsgRead l [] file with
    | .msg m rest => collect l pfx prio n rest (addMessage pfx prio names m)
    | _ => names

def assemble (tagLen : ℕ) : ℕ → List LogMsg → List UInt8
  | _, [] => []
  | sequence, m :: ms =>
    if m.msg.length ≤ tagLen + 1 then assemble tagLen sequence ms
    else
      replicate ((m.nsec.toNat - sequence + (fileSequence - 1)) / fileSequence) formFeed ++
        m.msg.drop (tagLen + 1) ++ assemble tagLen (m.nsec.toNat + fileSequence) ms

structure Callback where
  id : UInt8
  prio : UInt8
  filename : List UInt8
  buf : List UInt8
  deriving DecidableEq, Repr

def toFilename : List UInt8 := updateFirst (· = colon) (fun _ => slash) name

def deliver : Option Callback :=
  let buf := assemble (n.name.length + 1) 0 n.content
  if buf = [] then none else some ⟨n.id, n.prio, toFilename n.name, buf⟩

def fileMask : UInt32 :=
  (match logId with
    | none => 0xffffffff
    | some id => 1 <<< (logIdByte id).toUInt32) &&&
  ~~~(1 <<< (logIdByte .kernel).toUInt32 ||| 1 <<< (logIdByte .events).toUInt32 ||| 1 <<< (logIdByte .security).toUInt32)

/-- `__android_log_pmsg_file_read`: the calls of the callback. A record has at least one byte, so that the length of the
stream is enough for its messages. -/
def pmsgFileRead (pfx : List UInt8) (file : List UInt8) : Except Errno (List Callback) :=
  if fileMask logId = 0 then .error .einval
  else
    let names := collect ⟨fileMask logId, 0, 0, 0⟩ (shiftPrefix pfx) prio file.length file []
    .ok (names.filterMap deliver)

theorem strnrchrFrom_bounds {buf : List UInt8} {len k : ℕ} {c : UInt8} (hlen : 1 ≤ len) (hk : k ≤ len) :
    1 ≤ strnrchrFrom buf len c k ∧ strnrchrFrom buf len c k ≤ len := by
  induction k with
  | zero => exact ⟨hlen, le_refl len⟩
  | succ k ih =>
    cases k with
    | zero => exact ⟨hlen, le_refl len⟩
    | succ k =>
      rw [strnrchrFrom]
      split
      · exact ⟨le_add_left 1 k, le_of_succ_le hk⟩
      · exact ih (le_of_succ_le hk)

theorem transfer_bounds {n : ℕ} {buf : List UInt8} (hn : 2 ≤ n) (hbuf : buf ≠ []) :
    1 ≤ transfer n buf ∧ transfer n buf ≤ n ∧ transfer n buf ≤ buf.length := by
  have hpos := length_pos_iff.mpr hbuf
  rw [transfer]
  split
  · rename_i hl
    have hp : 1 ≤ strnrchr buf (n - 1) newline ∧ strnrchr buf (n - 1) newline ≤ n - 1 :=
      strnrchrFrom_bounds (by omega) (le_refl _)
    dsimp only
    split <;> omega
  · omega

section Stream

variable (w : Writer) (logId : LogId) (prio : UInt8) (sec : UInt32) (tag : List UInt8)

def pieceHeader (sequence : ℕ) (piece : List UInt8) : Header :=
  { len := .ofNat (sizeofBuf + (tag ++ 0 :: piece).length), uid := w.uid, pid := w.pid, id := logIdByte logId, tid := w.tid
    sec := sec, nsec := .ofNat (sequence * fileSequence) }

def pieceStream : ℕ → List (List UInt8) → List UInt8
  | _, [] => []
  | sequence, piece :: pieces =>
    (pieceHeader w logId sec tag sequence piece).bytes ++ prio :: ((tag ++ 0 :: piece) ++ pieceStream (sequence + 1) pieces)

variable {w logId prio sec tag} {bytes buf : List UInt8}

theorem pmsgWrite_piece {nsec : UInt32} {piece : List UInt8} {n : ℕ}
    (hfi : 1 + (tag.length + 1) + piece.length ≤ loggerEntryMaxPayload)
    (h : pmsgWrite w logId sec nsec [[prio], tag ++ [0], piece] = (.ok n, bytes)) :
    bytes = Header.bytes
        { len := .ofNat (sizeofBuf + (tag ++ 0 :: piece).length), uid := w.uid, pid := w.pid, id := logIdByte logId
          tid := w.tid, sec := sec, nsec := nsec } ++ prio :: (tag ++ 0 :: piece) := by
  have hf : [[prio], tag ++ [0], piece].flatten = prio :: (tag ++ 0 :: piece) := by
    simp only [flatten_cons, flatten_nil, append_nil, cons_append, nil_append,
      append_assoc]
  have hg : gather 0 [[prio], tag ++ [0], piece] = prio :: (tag ++ 0 :: piece) := by
    rw [gather_of_le, hf]
    rw [hf, length_cons, length_append, length_cons]
    omega
  have hlen : sizeofHeaders + (prio :: (tag ++ 0 :: piece)).length = sizeofBuf + (tag ++ 0 :: piece).length := by
    rw [length_cons, sizeofHeaders, sizeofBuf]
    omega
  rw [pmsgWrite, hg] at h
  split at h
  · cases h
  · split at h
    · cases h
    · split at h
      · cases h
      · split at h
        · cases h
        · dsimp only at h
          rw [hlen] at h
          exact (Prod.mk.inj h).2.symm

/-- What is written of a file whose content all gets a sequence number: records of pieces that make up the content. -/
structure Pieces (packetLen left : ℕ) (buf : List UInt8) (pieces : List (List UInt8)) : Prop where
  flatten : pieces.flatten = buf
  nonempty : ∀ piece ∈ pieces, piece ≠ []
  fits : ∀ piece ∈ pieces, piece.length ≤ packetLen
  length : pieces.length ≤ left

theorem writeFrom_succ {left sequence : ℕ} (hbuf : buf ≠ [])
    (h : writeFrom w logId prio sec tag (left + 1) sequence buf = (.ok 0, bytes)) :
    ∃ n first more,
      pmsgWrite w logId sec (.ofNat (sequence * fileSequence))
        [[prio], tag ++ [0], buf.take (transfer (packetLen tag) buf)] = (.ok n, first) ∧
      writeFrom w logId prio sec tag left (sequence + 1) (buf.drop (transfer (packetLen tag) buf)) = (.ok 0, more) ∧
      bytes = first ++ more := by
  rw [writeFrom] at h
  · split at h
    · cases h
    · rw [Prod.mk.injEq, Except.ok.injEq, length_eq_zero_iff] at h
      exact absurd h.1 hbuf
    · rename_i n first heq
      obtain ⟨hok, hb⟩ := Prod.mk.inj h
      exact ⟨n + 1, first, _, heq, Prod.ext hok rfl, hb.symm⟩
  · exact hbuf

theorem writeFrom_pieces {left sequence : ℕ} (hr : 2 ≤ packetLen tag)
    (hfi : 1 + (tag.length + 1) + packetLen tag ≤ loggerEntryMaxPayload)
    (h : writeFrom w logId prio sec tag left sequence buf = (.ok 0, bytes)) :
    ∃ pieces, Pieces (packetLen tag) left buf pieces ∧ bytes = pieceStream w logId prio sec tag sequence pieces := by
  induction left generalizing sequence buf bytes with
  | zero =>
    cases buf with
    | nil =>
      cases h
      exact ⟨[], ⟨rfl, nofun, nofun, le_refl 0⟩, rfl⟩
    | cons b buf => cases h
  | succ left ih =>
    by_cases hbuf : buf = []
    · subst hbuf
      cases h
      exact ⟨[], ⟨rfl, nofun, nofun, zero_le _⟩, rfl⟩
    · obtain ⟨hpos, hle, hl⟩ := transfer_bounds hr hbuf
      have hpi : (buf.take (transfer (packetLen tag) buf)).length = transfer (packetLen tag) buf :=
        length_take_of_le hl
      obtain ⟨n, first, more, hf, hm, rfl⟩ := writeFrom_succ hbuf h
      obtain ⟨pieces, hp, rfl⟩ := ih hm
      refine ⟨buf.take (transfer (packetLen tag) buf) :: pieces, ⟨?_, ?_, ?_, ?_⟩, ?_⟩
      · rw [flatten_cons, hp.flatten, take_append_drop]
      · rintro piece (_ | ⟨_, hmem⟩)
        · exact ne_nil_of_length_pos (hpi.symm ▸ hpos)
        · exact hp.nonempty piece hmem
      · rintro piece (_ | ⟨_, hmem⟩)
        · exact hpi.trans_le hle
        · exact hp.fits piece hmem
      · exact succ_le_succ hp.length
      · rw [pmsgWrite_piece (by omega) hf, pieceStream, pieceHeader, append_assoc, cons_append]

end Stream

section Lists

variable {α : Type} {p : α → Bool} {f : α → α} {x : α} {xs ys names others : List α}

theorem updateFirst_append (hxs : ∀ y ∈ xs, p y = false) (hx : p x) :
    updateFirst p f (xs ++ x :: ys) = xs ++ f x :: ys := by
  induction xs with
  | nil => exact if_pos hx
  | cons y xs ih =>
    have hy := hxs y (mem_cons_self ..)
    rw [cons_append, updateFirst, hy, ih fun z hz => hxs z (mem_cons_of_mem y hz)]
    rfl

theorem updateFirst_perm (h : names.Perm (x :: others)) (hx : p x) (ho : ∀ y ∈ others, p y = false) :
    (updateFirst p f names).Perm (f x :: others) := by
  obtain ⟨xs, ys, rfl⟩ := append_of_mem (h.mem_iff.mpr (mem_cons_self ..))
  have hr : (xs ++ ys).Perm others := (perm_cons x).mp (perm_middle.symm.trans h)
  rw [updateFirst_append (fun y hy => ho y (hr.subset (mem_append_left ys hy))) hx]
  exact perm_middle.trans (hr.cons _)

end Lists

theorem insertName_perm (x : Names) (names : List Names) : (insertName x names).Perm (x :: names) := by
  refine perm_middle.trans ((perm_cons x).mpr (.of_eq ?_))
  exact rdropWhile_append_rtakeWhile ..

theorem insertContent_last {m : LogMsg} {content : List LogMsg} (h : ∀ x ∈ content, x.nsec < m.nsec) :
    insertContent m content = content ++ [m] := by
  have hf : content.filter (·.nsec ≠ m.nsec) = content :=
    filter_eq_self.mpr fun x hx => decide_eq_true (UInt32.ne_of_lt (h x hx))
  have hl (hne : content ≠ []) : ¬decide (¬(content.getLast hne).nsec < m.nsec) := by
    rw [decide_eq_true_eq, not_not]
    exact h _ (getLast_mem hne)
  rw [insertContent, hf, rdropWhile_eq_self_iff.mpr hl, rtakeWhile_eq_nil_iff.mpr hl]

def Plain (bs : List UInt8) : Prop := ∀ b ∈ bs, isprint b ∧ isspace b = false ∧ b ≠ slash ∧ b ≠ colon

instance (bs : List UInt8) : Decidable (Plain bs) := decidableBAll _ bs

theorem ne_zero_of_isprint {b : UInt8} (h : isprint b) : b ≠ 0 := by
  rintro rfl
  exact absurd h (by decide)

theorem isFileTag_append {split : Bool} {xs ys : List UInt8} (hxs : Plain xs) (hys : ys ≠ []) :
    isFileTag split (xs ++ ys) = isFileTag split ys := by
  induction xs with
  | nil => rfl
  | cons b xs ih =>
    obtain ⟨hp, hs, -, hco⟩ := hxs b (mem_cons_self ..)
    have hne : xs ++ ys ≠ [] := append_ne_nil_of_right_ne_nil xs hys
    rw [cons_append, isFileTag, if_neg (ne_zero_of_isprint hp), if_neg, if_neg hco]
    · exact ih fun c hc => hxs c (mem_cons_of_mem b hc)
    · rw [hp, hs]
      simp [hne]

section Tag

variable {dir base piece : List UInt8}

def tagOf (dir base : List UInt8) : List UInt8 := dir ++ colon :: base

theorem isFileTag_tagOf (hdir : Plain dir) (hb : Plain base) : isFileTag false (tagOf dir base ++ 0 :: piece) := by
  have hc : ¬(¬isprint colon ∨ isspace colon ∨ base ++ 0 :: piece = []) := by
    rintro (h | h | h)
    · exact h (by decide)
    · exact absurd h (by decide)
    · exact absurd h (append_ne_nil_of_right_ne_nil base (cons_ne_nil 0 piece))
  rw [tagOf, append_assoc, cons_append, isFileTag_append hdir (cons_ne_nil _ _), isFileTag, if_neg (by decide),
    if_neg hc, if_pos rfl, isFileTag_append hb (cons_ne_nil 0 piece)]
  rfl

theorem tagOf_ne_zero (hdir : Plain dir) (hba : Plain base) : ∀ b ∈ tagOf dir base, b ≠ 0 := by
  intro b hb
  rw [tagOf, mem_append, mem_cons] at hb
  obtain hb | rfl | hb := hb
  · exact ne_zero_of_isprint (hdir b hb).1
  · decide
  · exact ne_zero_of_isprint (hba b hb).1

theorem cstring_append {tag : List UInt8} (h : ∀ b ∈ tag, b ≠ 0) : cstring (tag ++ 0 :: piece) = tag := by
  rw [cstring, takeWhile_append_of_pos fun b hb => decide_eq_true (h b hb)]
  exact append_nil tag

theorem toFilename_tagOf (hdir : Plain dir) : toFilename (tagOf dir base) = dir ++ slash :: base :=
  updateFirst_append (fun b hb => decide_eq_false (hdir b hb).2.2.2) (decide_eq_true rfl)

theorem fileTag_eq (hdir : Plain dir) (hba : Plain base) : fileTag (dir ++ slash :: base) = tagOf dir base := by
  have hnot (bs : List UInt8) (h : Plain bs) : ∀ b ∈ bs, decide (b ≠ slash) :=
    fun b hb => decide_eq_true (h b hb).2.2.1
  have hr : (dir ++ slash :: base).reverse = base.reverse ++ slash :: dir.reverse := by
    rw [reverse_append, reverse_cons, append_assoc]
    rfl
  have hba' : ∀ b ∈ base.reverse, decide (b ≠ slash) := fun b hb => hnot base hba b (mem_reverse.mp hb)
  have hd : (dir ++ slash :: base).rdropWhile (· ≠ slash) = dir ++ [slash] := by
    rw [rdropWhile, hr, dropWhile_append_of_pos hba', dropWhile_cons_of_neg (by decide),
      reverse_cons, reverse_reverse]
  have ht : (dir ++ slash :: base).rtakeWhile (· ≠ slash) = base := by
    rw [rtakeWhile, hr, takeWhile_append_of_pos hba', takeWhile_cons_of_neg (by decide),
      append_nil, reverse_reverse]
  rw [fileTag, hd, ht, if_neg (append_ne_nil_of_right_ne_nil dir (cons_ne_nil _ _)), dropLast_concat,
    rtakeWhile_eq_self_iff.mpr (hnot dir hdir)]
  rfl

end Tag

end Bionic.Pmsg
