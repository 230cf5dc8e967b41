import Bionic.Liblog.EventListResults
import Bionic.Logd.LogTagsKeys
import Mathlib.Data.List.TakeWhile

namespace Bionic.EventTags

open Lib EventList Pmsg List

structure AddCall where
  tag : UInt32
  uid : UInt32
  name : Str
  format : Str
  deriving DecidableEq, Repr

/-- The events and the security events of any time and process. -/
def persistList : LoggerList := ⟨1 <<< (logIdByte .events).toUInt32 ||| 1 <<< (logIdByte .security).toUInt32, 0, 0, 0⟩

def readTagEvent (ctx : Reader) : Option (UInt32 × Str × Str) :=
  match ctx.androidLogReadNext with
  | (⟨.list, _⟩, ctx) =>
    match ctx.androidLogReadNext with
    | (⟨.int32 tag, _⟩, ctx) =>
      match ctx.androidLogReadNext with
      | (⟨.string name, _⟩, ctx) =>
        match ctx.androidLogReadNext with
        | (⟨.string format, _⟩, ctx) =>
          match ctx.androidLogReadNext with
          | (⟨.listStop, true⟩, _) => some (tag, name, format)
          | _ => none
        | _ => none
      | _ => none
    | _ => none
  | _ => none

def addCallOf (m : LogMsg) : Option AddCall :=
  if m.msg.length ≤ 4 then none
  else if leValue (m.msg.take 4) ≠ tagDefLogTag then none
  else
    (readTagEvent (createAndroidLogParser (m.msg.drop 4))).map fun (tag, name, format) => ⟨tag, m.uid.toUInt32, name, format⟩

def persistCalls : ℕ → List UInt8 → List AddCall
  | 0, _ => []
  | n + 1, file =>
    match pmsgRead persistList [] file with
    | .msg m rest => (addCallOf m).toList ++ persistCalls n rest
    | _ => []

def addCalls (file : List UInt8) : List AddCall := persistCalls file.length file

def readPersistEventLogTags (env : Env) (t : LogTags) (file : List UInt8) : LogTags :=
  (addCalls file).foldl (fun t c => addEventLogTags env t c.tag c.uid c.name c.format none) t

def recipients (t : LogTags) (tag uid : UInt32) : List UInt32 :=
  match t.tag2uid tag with
  | none => [aidRoot]
  | some uids => if uid ≠ aidRoot then [uid] else uids

def sign (tag : UInt32) : UInt32 := if tag ≥ 0x80000000 then 1 else 0

def tagForest (tag : UInt32) (name format : Str) : Forest :=
  .scalar (.int32 (sign tag)) (.scalar (.string name name.length) (.scalar (.string format format.length) .nil))

def Fits (name format : Str) : Prop := 17 + name.length + format.length ≤ maxEventPayload

instance (name format : Str) : Decidable (Fits name format) := Nat.decLe ..

variable {env : Env} {t : LogTags} {tag uid : UInt32} {name format : Str} (s : Str)

theorem text_length_le : (text s s.length).length ≤ s.length := by
  rw [text, take_length]
  exact ( takeWhile_prefix _).length_le

theorem text_eq_self_iff : text s s.length = s ↔ 0 ∉ s := by
  rw [text, take_length, takeWhile_eq_self_iff]
  constructor
  · exact fun hall hz => absurd (hall 0 hz) (by decide)
  · rintro hz b hb
    apply decide_eq_true
    rintro rfl
    exact hz hb

theorem sign_eq_self_iff : sign tag = tag ↔ tag = 0 := by
  rw [sign]
  constructor
  · intro h
    split at h
    · rename_i hge
      subst h
      exact absurd hge (by decide)
    · exact h.symm
  · rintro rfl
    rfl

theorem length_tagForest :
    (listBytes (tagForest tag name format)).length =
      17 + (text name name.length).length + (text format format.length).length := by
  simp only [listBytes, tagForest, Forest.encode, length_cons, length_append, Scalar.encode, length_leBytes,
    length_nil]
  omega

theorem Fits.length_le (h : Fits name format) (tag : UInt32) : (listBytes (tagForest tag name format)).length ≤ maxEventPayload := by
  rw [length_tagForest]
  have hn := text_length_le name
  have hf := text_length_le format
  exact Nat.le_trans (Nat.add_le_add (Nat.add_le_add_left hn 17) hf) h

theorem tagEvent_eq (h : Fits name format) : tagEvent tag name format = some (listBytes (tagForest tag name format)) := by
  have hl := h.length_le tag
  rw [length_tagForest] at hl
  obtain ⟨u, hint, hu, hup⟩ : ∃ u, createAndroidLogger.androidLogWriteInt32 (sign tag) = (.ok 0, u) ∧
      u.overflow = false ∧ u.pos = 7 :=
    ⟨_, Writer.writeFixed_of_fits rfl (by decide : 2 + 5 ≤ maxEventPayload), rfl, rfl⟩
  obtain ⟨v, hn, hv, hvp⟩ : ∃ v,
      u.androidLogWriteString8Len name name.length = (.ok (text name name.length).length, v) ∧
        v.overflow = false ∧ v.pos = 7 + (5 + (text name name.length).length) := by
    refine ⟨_, Writer.writeString_of_fits hu ?_, hu, ?_⟩
    · rw [Scalar.length_encode_string]
      omega
    · rw [Writer.append, hup, Scalar.length_encode_string]
  obtain ⟨w, hf⟩ : ∃ w,
      v.androidLogWriteString8Len format format.length = (.ok (text format format.length).length, w) := by
    refine ⟨_, Writer.writeString_of_fits hv ?_⟩
    rw [hvp, Scalar.length_encode_string]
    omega
  have hall : writeAll (tagForest tag name format).calls createAndroidLogger = some w := by
    calc
      _ = writeAll [.write (.string name name.length), .write (.string format format.length)] u :=
        writeAll_cons_of_ok (c := .write (.int32 (sign tag))) (w := createAndroidLogger) hint
      _ = writeAll [.write (.string format format.length)] v :=
        writeAll_cons_of_ok (c := .write (.string name name.length)) hn
      _ = some w := writeAll_cons_of_ok (c := .write (.string format format.length)) hf
  have hb : w.androidLogWriteListBuffer = .ok (listBytes (tagForest tag name format)) :=
    (Writer.wrote_of_writeAll (by decide) hall).listBuffer_eq
  rw [sign] at hint
  unfold tagEvent
  simp only [hint, hn, hf, hb]
  exact if_neg (cons_ne_nil _ _)

theorem readTagEvent_eq (h : Fits name format) :
    readTagEvent (createAndroidLogParser (listBytes (tagForest tag name format))) =
      some (sign tag, text name name.length, text format format.length) := by
  have hl : (tagForest tag name format).length ≤ 127 := (by decide : 3 ≤ 127)
  have hd : (tagForest tag name format).depth < maxListNestDepth := (by decide : 0 < 8)
  obtain ⟨r, hr, hs⟩ :=
    (exists_readAll_iff _ _ _).mp ((readAll_list_iff (tagForest tag name format) (h.length_le tag)).mpr ⟨hl, trivial, hd⟩)
  have hh {ts : List Data} {d : Data} {r r' : Reader} (h : r.reads (d :: ts) = some r') :
      ∃ u, r.androidLogReadNext = (⟨d, false⟩, u) ∧ u.reads ts = some r' := by
    rw [Reader.reads] at h
    split at h
    · rename_i heq
      exact ⟨_, Prod.ext heq rfl, h⟩
    · cases h
  obtain ⟨u, hli, hr⟩ := hh hr
  obtain ⟨v, hint, hr⟩ := hh hr
  obtain ⟨w, hn, hr⟩ := hh hr
  obtain ⟨x, hf, hr⟩ := hh hr
  obtain rfl := Option.some.inj hr
  have hla : x.androidLogReadNext = (⟨.listStop, true⟩, x.androidLogReadNext.2) := Prod.ext hs rfl
  rw [readTagEvent, hli]
  dsimp only
  rw [hint]
  dsimp only [Scalar.data]
  rw [hn]
  dsimp only [Scalar.data]
  rw [hf]
  dsimp only [Scalar.data]
  rw [hla]

theorem addCallOf_eq {m : LogMsg} (hf : Fits name format)
    (hmsg : m.msg = 237 :: 3 :: 0 :: 0 :: listBytes (tagForest tag name format)) :
    addCallOf m = some ⟨sign tag, m.uid.toUInt32, text name name.length, text format format.length⟩ := by
  have htag : leValue (m.msg.take 4) = tagDefLogTag := by
    rw [hmsg]
    rfl
  have hd : m.msg.drop 4 = listBytes (tagForest tag name format) := by
    rw [hmsg]
    rfl
  have hl : ¬m.msg.length ≤ 4 := by
    rw [hmsg]
    simp [listBytes]
  rw [addCallOf, if_neg hl, if_neg (not_not_intro htag), hd, readTagEvent_eq hf]
  rfl

theorem persistCalls_record (hf : Fits name format) (hn : env.nsec < nsPerSec) (n : ℕ) (rest : List UInt8) :
    persistCalls (n + 1) (tagRecord env (listBytes (tagForest tag name format)) uid ++ rest) =
      ⟨sign tag, uid.toUInt16.toUInt32, text name name.length, text format format.length⟩ :: persistCalls n rest := by
  have hl := hf.length_le tag
  rw [maxEventPayload] at hl
  generalize hb : listBytes (tagForest tag name format) = buffer at *
  let header : Header :=
    { len := .ofNat (sizeofHeaders + 4 + buffer.length), uid := uid.toUInt16, pid := env.pid
      id := logIdByte .events, tid := env.tid, sec := env.sec, nsec := env.nsec }
  have hr : tagRecord env buffer uid ++ rest = header.bytes ++ 237 :: ((3 :: 0 :: 0 :: buffer) ++ rest) :=
    append_assoc ..
  have hlen : header.len.toNat = sizeofBuf + (3 :: 0 :: 0 :: buffer).length := by
    have hmod : header.len.toNat = (sizeofHeaders + 4 + buffer.length) % 2 ^ 16 := UInt16.toNat_ofNat'
    rw [hmod, sizeofHeaders, sizeofBuf, length_cons, length_cons, length_cons]
    omega
  have hv : header.Valid 237 (3 :: 0 :: 0 :: buffer).length := by
    refine ⟨hlen, Nat.succ_pos _, ?_, (by decide : logIdByte .events < logIdMax), hn, Or.inl rfl⟩
    rw [Pmsg.loggerEntryMaxPayload, length_cons, length_cons, length_cons]
    omega
  have hm : persistList.logMask &&& (1 <<< (logIdByte .events).toUInt32) ≠ 0 := by decide
  have ht : persistList.takes header := decide_eq_true ⟨hm, Or.inl ⟨rfl, rfl⟩, Or.inl rfl⟩
  rw [hr, persistCalls, pmsgRead_record hv ht]
  dsimp only
  rw [addCallOf_eq hf (congrArg (fun b => 237 :: 3 :: 0 :: 0 :: b) hb.symm)]
  rfl

theorem persistCalls_records (hf : Fits name format) (hns : env.nsec < nsPerSec) (uids : List UInt32) :
    ∀ n, uids.length ≤ n →
      persistCalls n ((uids.map (tagRecord env (listBytes (tagForest tag name format)))).flatten) =
        uids.map fun u => ⟨sign tag, u.toUInt16.toUInt32, text name name.length, text format format.length⟩ := by
  induction uids with
  | nil =>
    intro n _
    cases n with
    | zero => rfl
    | succ n =>
      rw [map_nil, flatten_nil, persistCalls, pmsgRead_nil]
      rfl
  | cons u uids ih =>
    intro n hn
    cases n with
    | zero => cases hn
    | succ n =>
      rw [map_cons, flatten_cons, persistCalls_record hf hns, ih n (Nat.le_of_succ_le_succ hn), map_cons]

theorem length_le_records (buffer : List UInt8) (uids : List UInt32) :
    uids.length ≤ (uids.map (tagRecord env buffer)).flatten.length := by
  induction uids with
  | nil => exact Nat.zero_le _
  | cons u uids ih =>
    have hpos : 0 < (tagRecord env buffer u).length := Nat.succ_pos _
    rw [map_cons, flatten_cons, length_append, length_cons]
    omega

theorem toUInt32_toUInt16 {u : UInt32} (h : u < 0x10000) : u.toUInt16.toUInt32 = u := by
  apply UInt32.toNat_inj.mp
  exact Nat.mod_eq_of_lt (UInt32.lt_iff_toNat_lt.mp h)

theorem writePmsg_snd (hn : t.tag2name tag = some name) (hf : Fits name (formatOf t tag))
    (hw : (writePmsgEventLogTags env t tag uid).2 ≠ []) :
    (writePmsgEventLogTags env t tag uid).2 =
      (recipients t tag uid).map (tagRecord env (listBytes (tagForest tag name (formatOf t tag)))) := by
  have he : tagEvent tag ((t.tag2name tag).getD []) ((t.tag2format tag).getD []) =
      some (listBytes (tagForest tag name (formatOf t tag))) := by
    rw [hn]
    exact tagEvent_eq hf
  rw [writePmsgEventLogTags] at hw ⊢
  cases ht : t.tag2total tag with
  | none =>
    rw [ht] at hw
    exact absurd rfl hw
  | some lastTotal =>
    rw [ht] at hw
    dsimp only at hw ⊢
    rw [he] at hw ⊢
    rw [recipients]
    split
    · rename_i hr
      rw [if_pos hr] at hw
      exact absurd rfl hw
    · rename_i hr
      rw [if_neg hr] at hw
      split
      · rename_i hc
        rw [if_pos hc] at hw
        exact absurd rfl hw
      · cases t.tag2uid tag with
        | none => rfl
        | some uids =>
          dsimp only
          split <;> rfl

/-- The calls for what is written for a tag have the sign of its number and the texts up to a null byte. -/
theorem addCalls_written (hn : t.tag2name tag = some name) (hf : Fits name (formatOf t tag))
    (hw : (writePmsgEventLogTags env t tag uid).2 ≠ []) (hns : env.nsec < nsPerSec) :
    addCalls (writePmsgEventLogTags env t tag uid).2.flatten =
      (recipients t tag uid).map fun u =>
        ⟨sign tag, u.toUInt16.toUInt32, text name name.length, text (formatOf t tag) (formatOf t tag).length⟩ := by
  rw [writePmsg_snd hn hf hw]
  exact persistCalls_records hf hns _ _ (length_le_records _ _)

/-- The records written for a tag lead to calls with its number, users, name and format exactly if the number is
zero and the texts are free of null bytes. -/
theorem persisted_tag_restored (env : Env) (t : LogTags) (tag uid : UInt32) (name : Str)
    (hname : t.tag2name tag = some name) (hfits : Fits name (formatOf t tag))
    (hwrites : (writePmsgEventLogTags env t tag uid).2 ≠ []) (hnsec : env.nsec < nsPerSec)
    (huids : ∀ u ∈ recipients t tag uid, u < 0x10000) :
    addCalls (writePmsgEventLogTags env t tag uid).2.flatten = (recipients t tag uid).map (⟨tag, ·, name, formatOf t tag⟩) ↔
      tag = 0 ∧ 0 ∉ name ∧ 0 ∉ formatOf t tag := by
  rw [addCalls_written hname hfits hwrites hnsec, map_inj_left, ← sign_eq_self_iff, ← text_eq_self_iff,
    ← text_eq_self_iff]
  constructor
  · intro hs
    obtain ⟨u, hu⟩ := exists_mem_of_ne_nil (recipients t tag uid) fun hnil => hwrites (by
      rw [writePmsg_snd hname hfits hwrites, hnil]
      rfl)
    have hc := hs u hu
    injection hc with htag _ hn hf
    exact ⟨htag, hn, hf⟩
  · rintro ⟨htag, hn, hf⟩ u hu
    rw [htag, hn, hf, toUInt32_toUInt16 (huids u hu)]

def started : Env := ⟨0, true, 1, 1, 0, 0⟩

def oneTagDb (tag : UInt32) : LogTags := created started .empty 7 [97] [102] tag

theorem persisted_tag_restored_zero :
    addCalls (writePmsgEventLogTags started (oneTagDb 0) 0 7).2.flatten = [⟨0, 7, [97], [102]⟩] :=
  (persisted_tag_restored started (oneTagDb 0) 0 7 [97] rfl (by decide) (cons_ne_nil _ _) (by decide)
    (forall_mem_singleton.mpr (by decide))).mpr ⟨rfl, by decide, by decide⟩

/-- The record for the tag 5 is one for the tag 0. -/
theorem persisted_number_lost :
    addCalls (writePmsgEventLogTags started (oneTagDb 5) 5 7).2.flatten = [⟨0, 7, [97], [102]⟩] := by
  have hw : (writePmsgEventLogTags started (oneTagDb 5) 5 7).2 ≠ [] := cons_ne_nil _ _
  have hf : Fits [97] (formatOf (oneTagDb 5) 5) := by decide
  exact addCalls_written rfl hf hw (by decide)

end Bionic.EventTags
