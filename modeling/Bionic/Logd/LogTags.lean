import Bionic.Liblog.EventList
import Bionic.Liblog.Pmsg

namespace Bionic.EventTags

open Lib Function

abbrev Str := List UInt8

def emptyTag : UInt32 := 0xffffffff

def aidRoot : UInt32 := 0

def maxPerUid : ℕ := 256

def plus : UInt8 := 43

def tagDefLogTag : ℕ := 1005

structure LogTags where
  key2tag : Str → Option UInt32
  tag2uid : UInt32 → Option (List UInt32)
  tag2name : UInt32 → Option Str
  tag2format : UInt32 → Option Str
  uid2count : UInt32 → Option ℕ
  tag2total : UInt32 → Option UInt64

def LogTags.empty : LogTags := ⟨fun _ => none, fun _ => none, fun _ => none, fun _ => none, fun _ => none, fun _ => none⟩

/-- What a call finds around it: the bytes logged so far, and what goes into the headers of records for `/dev/pmsg0`. -/
structure Env where
  total : UInt64
  pmsgOpened : Bool
  pid : UInt16
  tid : UInt16
  sec : UInt32
  nsec : UInt32

def keyOf (name format : Str) : Str := if format = [] then name else name ++ plus :: format

def tagToName (t : LogTags) (tag : UInt32) : Option Str :=
  match t.tag2name tag with
  | none => none
  | some name => if name = [] then none else some name

def tagToFormat (t : LogTags) (tag : UInt32) : Option Str := t.tag2format tag

def nextTag (hash : UInt64) (i : ℕ) : UInt32 :=
  if i < 32 then
    let tag := (hash >>> UInt64.ofNat i).toUInt32
    if hash &&& 0xffffffff00000000 = 0 then tag ||| (hash <<< UInt64.ofNat (32 - i)).toUInt32 else tag
  else (hash + UInt64.ofNat i - 31).toUInt32

/-- The loop over the tags for a hash. Of a tag without a format the source reads the entry behind the last one,
for which there is no result. -/
def probe (t : LogTags) (hash : UInt64) : ℕ → ℕ → UInt32 → Option (UInt32 × Bool)
  | 0, _, _ => some (emptyTag, true)
  | left + 1, i, tag =>
    match t.tag2name tag with
    | none => some (tag, true)
    | some name =>
      match t.tag2format tag with
      | none => none
      | some _ =>
        let localKey := name
        if name = localKey then some (tag, false) else probe t hash left (i + 1) (nextTag hash (i + 1))

variable (hash : Str → UInt64) (env : Env)

/-- The tag of a name, and whether it is a new one. Without a format nothing is to be written. -/
def nameToTagLocked (t : LogTags) (name : Str) : Option Str → Option (UInt32 × Bool)
  | none => some ((t.key2tag name).getD emptyTag, false)
  | some format =>
    match t.key2tag (keyOf name format) with
    | some tag => some (tag, false)
    | none => probe t (hash (keyOf name format)) 256 0 (hash (keyOf name format)).toUInt32

/-- The event for a tag. The comparison is inside the cast in the source, so that what is written of the tag is whether
it is negative. -/
def tagEvent (tag : UInt32) (name format : Str) : Option (List UInt8) :=
  match EventList.createAndroidLogger.androidLogWriteInt32 (if tag ≥ 0x80000000 then 1 else 0) with
  | (.ok 0, w) =>
    match w.androidLogWriteString8Len name name.length with
    | (.ok _, w) =>
      match w.androidLogWriteString8Len format format.length with
      | (.ok _, w) =>
        match w.androidLogWriteListBuffer with
        | .ok buffer => if buffer = [] then none else some buffer
        | .error _ => none
      | (.error _, _) => none
    | (.error _, _) => none
  | _ => none

def tagRecord (buffer : List UInt8) (uid : UInt32) : List UInt8 :=
  Pmsg.Header.bytes
    { len := .ofNat (Pmsg.sizeofHeaders + 4 + buffer.length), uid := uid.toUInt16, pid := env.pid
      id := Pmsg.logIdByte .events, tid := env.tid, sec := env.sec, nsec := env.nsec } ++
    (leBytes 4 tagDefLogTag ++ buffer)

/-- Records are written once for 16 KiB of log. -/
def rateToPmsg : UInt64 := 16 * 1024

/-- The records for a tag that is not a static one, once for each user that it is restricted to. -/
def writePmsgEventLogTags (t : LogTags) (tag uid : UInt32) : LogTags × List (List UInt8) :=
  match t.tag2total tag with
  | none => (t, [])
  | some lastTotal =>
    if lastTotal ≠ 0 ∧ env.total - lastTotal < rateToPmsg then (t, [])
    else if ¬env.pmsgOpened then (t, [])
    else
      let name := (t.tag2name tag).getD []
      let t' := { t with tag2name := update t.tag2name tag (some name) }
      match tagEvent tag name ((t.tag2format tag).getD []) with
      | none => (t', [])
      | some buffer =>
        match t.tag2uid tag with
        | none => (t', [tagRecord env buffer aidRoot])
        | some uids =>
          if uid ≠ aidRoot then (t', [tagRecord env buffer uid]) else (t', uids.map (tagRecord env buffer))

inductive Source
  | system
  | dynamic
  | debug
  deriving DecidableEq

/-- The records and lines for a changed tag, of which only the database is followed here. -/
def writePersistEventLogTags (t : LogTags) (tag uid : UInt32) (source : Option Source) : LogTags :=
  if source = some .system then t
  else
    let t := (writePmsgEventLogTags env t tag uid).1
    { t with tag2total := update t.tag2total tag (some (if env.total = 0 then 1 else env.total)) }

def emplace (uids : List UInt32) (uid : UInt32) : List UInt32 := if uid ∈ uids then uids else uids ++ [uid]

def registerTag (t : LogTags) (tag : UInt32) (name format : Str) : LogTags :=
  let key2tag := update t.key2tag (keyOf name format) (some tag)
  { t with
    tag2total := update t.tag2total tag (some ((t.tag2total tag).getD 0))
    key2tag := if format ≠ [] ∧ key2tag name = none then update key2tag name (some tag) else key2tag
    tag2name := update t.tag2name tag (some name) }

def update (env : Env) (t : LogTags) (uid : UInt32) (name format : Str) (tag : UInt32) (updateTag updateWrite : Bool) :
    UInt32 × LogTags :=
  let count := (t.uid2count uid).getD 0
  let full : Bool := uid ≠ aidRoot ∧ maxPerUid ≤ count
  if full ∧ ¬updateWrite then (emptyTag, t)
  else
    let updateUid : Bool := uid ≠ aidRoot ∧ ¬full
    let updateTag : Bool := updateTag ∧ ¬full
    let updateFormat : Bool := format ≠ [] ∧ ¬full
    let t := { t with tag2total := if updateWrite then Function.update t.tag2total tag (some 0) else t.tag2total }
    let t := if updateTag then registerTag t tag name format else t
    let t := { t with tag2format := if updateFormat then Function.update t.tag2format tag (some format) else t.tag2format }
    let t := { t with
      tag2uid :=
        if updateUid then Function.update t.tag2uid tag (some (emplace ((t.tag2uid tag).getD []) uid)) else t.tag2uid
      uid2count := if updateUid then Function.update t.uid2count uid (some (count + 1)) else t.uid2count }
    (tag, if updateTag ∨ updateFormat ∨ updateWrite then writePersistEventLogTags env t tag uid none else t)

def nameToTagWrite (t : LogTags) (uid : UInt32) (name format : Str) (tag : UInt32) : Option (UInt32 × LogTags) :=
  if t.tag2name tag = none then some (update env t uid name format tag true false)
  else
    match nameToTagLocked hash t name (some format) with
    | none => none
    | some (tag, unique) =>
      if tag = emptyTag then some (tag, t)
      else if unique then some (update env t uid name format tag false false)
      else
        match t.tag2uid tag with
        | none => some (tag, t)
        | some uids =>
          if uid ≠ aidRoot then
            if uid ∈ uids then some (tag, t)
            else
              some (update env { t with tag2uid := Function.update t.tag2uid tag (some (emplace uids uid)) } uid name format
                tag false true)
          else
            some (update env { t with tag2uid := Function.update t.tag2uid tag none } uid name format tag false true)

/-- The tag of a name for a user. There is no result if the source reads an entry that is not there. -/
def nameToTag (t : LogTags) (uid : UInt32) (name : Str) (format : Option Str) : Option (UInt32 × LogTags) :=
  match nameToTagLocked hash t name format with
  | none => none
  | some (tag, unique) =>
    let denied : Bool := uid ≠ aidRoot ∧ tag ≠ emptyTag ∧ ¬unique ∧ (t.tag2uid tag).any (uid ∉ ·)
    let unique := if denied then format.isSome else unique
    let tag := if denied ∧ format = none then emptyTag else tag
    if tag = emptyTag then some (tag, t)
    else
      let t := (writePmsgEventLogTags env t tag uid).1
      if unique then nameToTagWrite hash env t uid name (format.getD []) tag else some (tag, t)

def addEventLogTags (t : LogTags) (tag uid : UInt32) (name format : Str) (source : Option Source) : LogTags :=
  let known := (t.tag2total tag).isSome
  let newOne := (t.tag2name tag).isNone
  let key2tag := Function.update t.key2tag (keyOf name format) (some tag)
  let uids :=
    match t.tag2uid tag with
    | some uids => if uid = aidRoot then none else some (emplace uids uid)
    | none => if newOne && uid ≠ aidRoot then some [uid] else none
  let update : Bool := (source ≠ some .system && !known) || t.tag2uid tag ≠ uids
  let t := { t with
    key2tag := if format ≠ [] ∧ key2tag name = none then Function.update key2tag name (some tag) else key2tag
    tag2format := if format ≠ [] then Function.update t.tag2format tag (some format) else t.tag2format
    tag2name := Function.update t.tag2name tag (some name)
    tag2uid := Function.update t.tag2uid tag uids
    tag2total := if update && known then Function.update t.tag2total tag (some 0) else t.tag2total }
  if update then writePersistEventLogTags env t tag uid source else t

variable {hash : Str → UInt64} {env : Env} {t t' : LogTags} {uid tag tag' : UInt32} {name format : Str}
  {unique : Bool}

structure Linked (t : LogTags) : Prop where
  total : ∀ tag, t.tag2total tag ≠ none → t.tag2name tag ≠ none
  key : ∀ key tag, t.key2tag key = some tag → t.tag2name tag ≠ none

theorem update_name_self (h : t.tag2name tag ≠ none) :
    Function.update t.tag2name tag (some ((t.tag2name tag).getD [])) = t.tag2name := by
  obtain ⟨name, hn⟩ := Option.ne_none_iff_exists'.mp h
  rw [hn, Option.getD_some, ← hn, Function.update_eq_self]

section

variable (h : t.tag2total tag ≠ none → t.tag2name tag ≠ none)

include h

theorem writePmsg_fst : (writePmsgEventLogTags env t tag uid).1 = t := by
  rw [writePmsgEventLogTags]
  cases ht : t.tag2total tag with
  | none => rfl
  | some lastTotal =>
    have hs := update_name_self (h (by rw [ht]; exact Option.some_ne_none _))
    dsimp only
    rw [hs]
    split
    · rfl
    · split
      · rfl
      · split
        · rfl
        · split
          · rfl
          · split <;> rfl

theorem writePersist_eq :
    writePersistEventLogTags env t tag uid none =
      { t with tag2total := Function.update t.tag2total tag (some (if env.total = 0 then 1 else env.total)) } := by
  rw [writePersistEventLogTags, if_neg (by decide), writePmsg_fst h]

end

/-- Only the first tag is ever tried: the key that is rebuilt is always the one it is compared with. -/
theorem probe_cases {hashed : UInt64} {left i : ℕ} (h : probe t hashed (left + 1) i tag = some (tag', unique)) :
    tag' = tag ∧ (unique ∧ t.tag2name tag = none ∨ unique = false ∧ t.tag2name tag ≠ none ∧ t.tag2format tag ≠ none) := by
  rw [probe] at h
  cases hn : t.tag2name tag with
  | none =>
    rw [hn] at h
    cases h
    exact ⟨rfl, Or.inl ⟨rfl, rfl⟩⟩
  | some name =>
    rw [hn] at h
    dsimp only at h
    cases hf : t.tag2format tag with
    | none =>
      rw [hf] at h
      cases h
    | some format =>
      rw [hf] at h
      rw [if_pos rfl] at h
      cases h
      exact ⟨rfl, Or.inr ⟨rfl, Option.some_ne_none _, Option.some_ne_none _⟩⟩

theorem locked_cases (h : nameToTagLocked hash t name (some format) = some (tag, unique)) :
    t.key2tag (keyOf name format) = some tag ∧ unique = false ∨
      t.key2tag (keyOf name format) = none ∧ tag = (hash (keyOf name format)).toUInt32 ∧
        (unique ∧ t.tag2name tag = none ∨ unique = false ∧ t.tag2name tag ≠ none ∧ t.tag2format tag ≠ none) := by
  rw [nameToTagLocked] at h
  cases hkey : t.key2tag (keyOf name format) with
  | some found =>
    rw [hkey] at h
    cases h
    exact Or.inl ⟨rfl, rfl⟩
  | none =>
    rw [hkey] at h
    obtain ⟨rfl, hu⟩ := probe_cases h
    exact Or.inr ⟨rfl, rfl, hu⟩

def countOf (t : LogTags) (uid : UInt32) : ℕ := (t.uid2count uid).getD 0

def joined (env : Env) (t : LogTags) (uid : UInt32) (format : Str) (tag : UInt32) (uids : List UInt32) : LogTags :=
  { t with
    tag2uid := Function.update t.tag2uid tag (some (uids ++ [uid]))
    tag2format := if format ≠ [] ∧ countOf t uid < maxPerUid then Function.update t.tag2format tag (some format) else t.tag2format
    uid2count := if countOf t uid < maxPerUid then Function.update t.uid2count uid (some (countOf t uid + 1)) else t.uid2count
    tag2total := Function.update t.tag2total tag (some (if env.total = 0 then 1 else env.total)) }

def created (env : Env) (t : LogTags) (uid : UInt32) (name format : Str) (tag : UInt32) : LogTags where
  key2tag := (registerTag t tag name format).key2tag
  tag2name := Function.update t.tag2name tag (some name)
  tag2format := if format ≠ [] then Function.update t.tag2format tag (some format) else t.tag2format
  tag2uid :=
    if uid ≠ aidRoot then Function.update t.tag2uid tag (some (emplace ((t.tag2uid tag).getD []) uid)) else t.tag2uid
  uid2count := if uid ≠ aidRoot then Function.update t.uid2count uid (some (countOf t uid + 1)) else t.uid2count
  tag2total := Function.update t.tag2total tag (some (if env.total = 0 then 1 else env.total))

theorem update_created :
    update env t uid name format tag true false =
      if uid ≠ aidRoot ∧ maxPerUid ≤ countOf t uid then (emptyTag, t) else (tag, created env t uid name format tag) := by
  by_cases hf : uid ≠ aidRoot ∧ maxPerUid ≤ countOf t uid
  · have hd : decide (uid ≠ aidRoot ∧ maxPerUid ≤ (t.uid2count uid).getD 0) := decide_eq_true hf
    simp only [update, hd, if_pos hf]
    rfl
  · have hd : decide (uid ≠ aidRoot ∧ maxPerUid ≤ (t.uid2count uid).getD 0) = false := decide_eq_false hf
    simp only [update, hd, if_neg hf]
    rw [writePersist_eq]
    · simp [created, registerTag, countOf]
    · simp [registerTag]

variable {uids : List UInt32}

theorem emplace_of_notMem (h : uid ∉ uids) : emplace uids uid = uids ++ [uid] := if_neg h

theorem update_joined (hr : uid ≠ aidRoot) (hu : uid ∉ uids) (hn : t.tag2name tag ≠ none) :
    update env { t with tag2uid := Function.update t.tag2uid tag (some (emplace uids uid)) } uid name format tag false true =
      (tag, joined env t uid format tag uids) := by
  have ha : emplace (uids ++ [uid]) uid = uids ++ [uid] := if_pos (List.mem_append_right uids (List.mem_singleton.mpr rfl))
  by_cases hf : maxPerUid ≤ countOf t uid
  · have hd : decide (uid ≠ aidRoot ∧ maxPerUid ≤ (t.uid2count uid).getD 0) := decide_eq_true ⟨hr, hf⟩
    simp only [update, hd]
    rw [writePersist_eq]
    · simp [joined, emplace_of_notMem hu, Nat.not_lt.mpr hf]
    · exact fun _ => hn
  · have hlt : (t.uid2count uid).getD 0 < maxPerUid := Nat.lt_of_not_le hf
    simp only [update]
    rw [writePersist_eq]
    · simp [joined, emplace_of_notMem hu, ha, hr, countOf, hlt]
    · exact fun _ => hn

theorem Linked.locked_named (hl : Linked t)
    (h : nameToTagLocked hash t name (some format) = some (tag, false)) : t.tag2name tag ≠ none := by
  obtain ⟨hkey, -⟩ | ⟨-, -, ⟨hu, -⟩ | ⟨-, hn, -⟩⟩ := locked_cases h
  · exact hl.key _ _ hkey
  · cases hu
  · exact hn

theorem nameToTagWrite_new (h : nameToTagLocked hash t name (some format) = some (tag, true)) :
    nameToTagWrite hash env t uid name format tag = some (update env t uid name format tag true false) := by
  obtain ⟨-, hu⟩ | ⟨-, -, ⟨-, hn⟩ | ⟨hu, -⟩⟩ := locked_cases h
  · cases hu
  · rw [nameToTagWrite, if_pos hn]
  · cases hu

theorem nameToTagWrite_known (hl : Linked t) (h : nameToTagLocked hash t name (some format) = some (tag, false))
    (hne : tag ≠ emptyTag) (hr : uid ≠ aidRoot) (hu : t.tag2uid tag = some uids)
    (huid : uid ∉ uids) :
    nameToTagWrite hash env t uid name format tag = some (tag, joined env t uid format tag uids) := by
  have hn := hl.locked_named h
  rw [nameToTagWrite, if_neg hn, h]
  dsimp only
  rw [if_neg hne, if_neg Bool.false_ne_true, hu]
  dsimp only
  rw [if_pos hr, if_neg huid, update_joined hr huid hn]

theorem nameToTagWrite_isSome {result : UInt32 × Bool} (h : nameToTagLocked hash t name (some format) = some result) :
    (nameToTagWrite hash env t uid name format tag).isSome := by
  rw [nameToTagWrite]
  split
  · rfl
  · rw [h]
    dsimp only
    split
    · rfl
    · split
      · rfl
      · split
        · rfl
        · split
          · split <;> rfl
          · rfl

/-- All that a call with a format can do: nothing, add the user to those of the tag, or make a new tag. -/
theorem nameToTag_cases (hli : Linked t) (h : nameToTag hash env t uid name (some format) = some (tag, t')) :
    tag = emptyTag ∧ t' = t ∧ (∀ known, t.key2tag (keyOf name format) = some known → known = emptyTag) ∨
      tag ≠ emptyTag ∧ nameToTagLocked hash t name (some format) = some (tag, false) ∧
        (t' = t ∨ uid ≠ aidRoot ∧
          ∃ uids, t.tag2uid tag = some uids ∧ uid ∉ uids ∧ t' = joined env t uid format tag uids) ∨
      tag ≠ emptyTag ∧ nameToTagLocked hash t name (some format) = some (tag, true) ∧
        (uid ≠ aidRoot → countOf t uid < maxPerUid) ∧ t' = created env t uid name format tag := by
  rw [nameToTag] at h
  cases hl : nameToTagLocked hash t name (some format) with
  | none =>
    rw [hl] at h
    cases h
  | some result =>
    obtain ⟨found, unique⟩ := result
    rw [hl] at h
    simp only [reduceCtorEq, and_false, if_false, Option.isSome_some, Option.getD_some] at h
    by_cases he : found = emptyTag
    · rw [if_pos he] at h
      cases h
      refine Or.inl ⟨he, rfl, fun known hkey => ?_⟩
      rw [nameToTagLocked, hkey] at hl
      cases hl
      exact he
    · rw [if_neg he, writePmsg_fst (hli.total found)] at h
      cases unique with
      | true =>
        simp only [not_true_eq_false, false_and, and_false, decide_false, Bool.false_eq_true, if_false, if_true] at h
        rw [nameToTagWrite_new hl, update_created] at h
        by_cases hf : uid ≠ aidRoot ∧ maxPerUid ≤ countOf t uid
        · rw [if_pos hf] at h
          cases h
          refine Or.inl ⟨rfl, rfl, fun known hkey => ?_⟩
          rw [nameToTagLocked, hkey] at hl
          cases hl
        · rw [if_neg hf] at h
          cases h
          exact Or.inr (Or.inr ⟨he, rfl, fun hr => Nat.lt_of_not_le fun hle => hf ⟨hr, hle⟩, rfl⟩)
      | false =>
        refine Or.inr (Or.inl ?_)
        by_cases hde : uid ≠ aidRoot ∧ (t.tag2uid found).any (uid ∉ ·)
        · obtain ⟨hr, hany⟩ := hde
          cases hu : t.tag2uid found with
          | none =>
            rw [hu] at hany
            cases hany
          | some uids =>
            rw [hu] at hany
            have huid : uid ∉ uids := of_decide_eq_true hany
            rw [hu, if_pos, nameToTagWrite_known hli hl he hr hu huid] at h
            · cases h
              exact ⟨he, rfl, Or.inr ⟨hr, uids, hu, huid, rfl⟩⟩
            · exact if_pos (decide_eq_true ⟨hr, he, Bool.false_ne_true, hany⟩)
        · rw [decide_eq_false fun hd => hde ⟨hd.1, hd.2.2.2⟩, if_neg Bool.false_ne_true] at h
          cases h
          exact ⟨he, rfl, Or.inl rfl⟩

end Bionic.EventTags
