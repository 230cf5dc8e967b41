import Bionic.Lib.System
import Bionic.Logd.LogTagsKeys

namespace Bionic.EventTags

open Lib Option Nat

structure Entry where
  uid : UInt32
  name : Str
  format : Str
  tag : UInt32
  isNew : Bool

structure State where
  tags : LogTags
  log : List Entry

def State.start : State := ⟨.empty, []⟩

def State.after (s : State) (uid : UInt32) (name format : Str) (tag : UInt32) (t : LogTags) : State :=
  ⟨t, ⟨uid, name, format, tag, (s.tags.tag2name tag).isNone && (t.tag2name tag).isSome⟩ :: s.log⟩

inductive Step (hash : Str → UInt64) : State → State → Prop
  | call (s : State) (env : Env) (uid : UInt32) (name format : Str) (tag : UInt32) (t : LogTags) (hname : plus ∉ name)
      (hallowed : Allowed hash s.tags name format)
      (h : nameToTag hash env s.tags uid name (some format) = some (tag, t)) : Step hash s (s.after uid name format tag t)

def runs (hash : Str → UInt64) : System State := ⟨(· = .start), Step hash⟩

variable {hash : Str → UInt64} {env : Env} {t : LogTags} {s : State} {uid tag other : UInt32} {name format : Str}
  {uids : List UInt32}

theorem Serves.joined {n f : Str} (h : Serves t n f other)
    (hf : formatOf t tag = format) : Serves (joined env t uid format tag uids) n f other :=
  ⟨h.key, h.name, (formatOf_joined hf other).trans h.format⟩

theorem Serves.created {n f : Str} (h : Serves t n f other)
    (hkey : t.key2tag (keyOf name format) = none) (hf : t.tag2name tag = none) :
    Serves (created env t uid name format tag) n f other := by
  have hne : other ≠ tag := by
    rintro rfl
    exact some_ne_none n (h.name.symm.trans hf)
  exact ⟨registered_of_some hkey h.key, (name_created_of_ne hne).trans h.name,
    (formatOf_created_of_ne hne).trans h.format⟩

def newTags (log : List Entry) (uid : UInt32) : ℕ := log.countP fun e => e.uid = uid ∧ e.isNew

/-- The calls so far are served by the database, later ones for the same name and format in the same way, and the new
tags of a user are counted. -/
structure Inv (s : State) : Prop where
  consistent : Consistent s.tags
  served : ∀ e ∈ s.log, e.tag ≠ emptyTag → Serves s.tags e.name e.format e.tag
  same : s.log.Pairwise fun later earlier =>
    earlier.tag ≠ emptyTag → later.name = earlier.name → later.format = earlier.format → later.tag = earlier.tag
  counted : ∀ uid, uid ≠ aidRoot → newTags s.log uid ≤ countOf s.tags uid ∧ countOf s.tags uid ≤ maxPerUid

theorem countOf_joined (other : UInt32) :
    countOf t other ≤ countOf (joined env t uid format tag uids) other ∧
      (countOf t other ≤ maxPerUid → countOf (joined env t uid format tag uids) other ≤ maxPerUid) := by
  by_cases hf : countOf t uid < maxPerUid
  · have hc : countOf (joined env t uid format tag uids) other =
        (Function.update t.uid2count uid (some (countOf t uid + 1)) other).getD 0 := by
      rw [countOf, joined, if_pos hf]
    by_cases heq : other = uid
    · rw [hc, heq, Function.update_self]
      exact ⟨le_succ _, fun _ => hf⟩
    · rw [hc, Function.update_of_ne heq]
      exact ⟨le_refl _, id⟩
  · have hc : countOf (joined env t uid format tag uids) other = countOf t other := by
      rw [countOf, joined, if_neg hf]
      rfl
    rw [hc]
    exact ⟨le_refl _, id⟩

theorem countOf_created (other : UInt32) (ho : other ≠ aidRoot) :
    countOf (created env t uid name format tag) other = countOf t other + if other = uid then 1 else 0 := by
  rw [countOf, created]
  dsimp only
  by_cases heq : other = uid
  · rw [if_pos heq, ← heq, if_pos ho, Function.update_self]
    rfl
  · split
    · rw [Function.update_of_ne heq]
      rfl
    · rfl

/-- A call whose tag is known is served like the earlier ones for its name and format. -/
theorem Inv.same_of_serves (h : Inv s) (hs : Serves s.tags name format tag) :
    ∀ e ∈ s.log, e.tag ≠ emptyTag → name = e.name → format = e.format → tag = e.tag := by
  intro e he hne hn hf
  have hkey := (h.served e he hne).key
  rw [← hn, ← hf, hs.key] at hkey
  exact some.inj hkey

theorem newTags_after (u : UInt32) :
    newTags (s.after uid name format tag t).log u =
      newTags s.log u + if uid = u ∧ s.tags.tag2name tag = none ∧ t.tag2name tag ≠ none then 1 else 0 := by
  rw [newTags, State.after, List.countP_cons]
  congr 1
  simp [isSome_iff_ne_none]

theorem Inv.after (h : Inv s) (hc : Consistent t) (hk : ∀ n f other, Serves s.tags n f other → Serves t n f other)
    (hs : tag ≠ emptyTag → Serves t name format tag)
    (hsa : ∀ e ∈ s.log, e.tag ≠ emptyTag → name = e.name → format = e.format → tag = e.tag)
    (hco : ∀ u, u ≠ aidRoot → newTags (s.after uid name format tag t).log u ≤ countOf t u ∧ countOf t u ≤ maxPerUid) :
    Inv (s.after uid name format tag t) where
  consistent := hc
  served := by
    rintro e (_ | ⟨_, he⟩) hne
    · exact hs hne
    · exact hk _ _ _ (h.served e he hne)
  same := List.pairwise_cons.mpr ⟨hsa, h.same⟩
  counted := hco

theorem Inv.call (h : Inv s) (hna : plus ∉ name) (ha : Allowed hash s.tags name format)
    (hc : nameToTag hash env s.tags uid name (some format) = some (tag, t)) : Inv (s.after uid name format tag t) := by
  have hold (hnm : s.tags.tag2name tag = t.tag2name tag) (u : UInt32) :
      newTags (s.after uid name format tag t).log u = newTags s.log u := by
    rw [newTags_after, if_neg fun hnew => hnew.2.2 (hnm ▸ hnew.2.1)]
    rfl
  obtain ⟨rfl, rfl, hem⟩ | ⟨hne, hl, hr⟩ | ⟨hne, hl, hfu, rfl⟩ :=
    nameToTag_cases h.consistent.linked hc
  · refine h.after h.consistent (fun _ _ _ hs => hs) (fun hne => absurd rfl hne) (fun e he hne hn hf => ?_) fun u hu => ?_
    · exact absurd (hem e.tag (hn ▸ hf ▸ (h.served e he hne).key)) hne
    · rw [hold rfl]
      exact h.counted u hu
  · obtain ⟨-, hse⟩ | ⟨hun, -⟩ := h.consistent.locked hna ha hl
    · obtain rfl | ⟨-, uids, -, -, rfl⟩ := hr
      · refine h.after h.consistent (fun _ _ _ hs => hs) (fun _ => hse) (h.same_of_serves hse) fun u hu => ?_
        rw [hold rfl]
        exact h.counted u hu
      · refine h.after (h.consistent.joined hse) (fun _ _ _ hs => hs.joined hse.format)
          (fun _ => hse.joined hse.format) (h.same_of_serves hse) fun u hu => ?_
        rw [hold rfl]
        obtain ⟨hle, hmax⟩ := h.counted u hu
        have hg : countOf s.tags u ≤ countOf (joined env s.tags uid format tag uids) u := (countOf_joined u).1
        exact ⟨le_trans hle hg, (countOf_joined u).2 hmax⟩
    · cases hun
  · obtain ⟨hun, -⟩ | ⟨-, hkey, hfr⟩ := h.consistent.locked hna ha hl
    · cases hun
    · refine h.after (h.consistent.created hna hfr) (fun _ _ _ hs => hs.created hkey hfr)
        (fun _ => ⟨registered_self, name_created, formatOf_created h.consistent hfr⟩) (fun e he hne hn hf => ?_)
        fun u hu => ?_
      · exact absurd (hkey.symm.trans (hn ▸ hf ▸ (h.served e he hne).key)) (some_ne_none _).symm
      · rw [newTags_after, countOf_created u hu]
        obtain ⟨hle, hmax⟩ := h.counted u hu
        by_cases heq : u = uid
        · subst heq
          have hlt := hfu hu
          rw [if_pos rfl]
          split <;> omega
        · rw [if_neg heq, if_neg fun hnew => heq hnew.1.symm]
          exact ⟨hle, hmax⟩

theorem inv_start : Inv .start where
  consistent := ⟨⟨fun _ h => absurd rfl h, fun _ _ h => (by cases h)⟩, fun _ _ h => (by cases h), fun _ _ h => (by cases h)⟩
  served _ he := (by cases he)
  same := .nil
  counted _ _ := ⟨le_refl 0, zero_le _⟩

theorem inv_invariant (hash : Str → UInt64) : (runs hash).Invariant Inv where
  init := by
    rintro s rfl
    exact inv_start
  step := by
    intro s s' h hs
    cases hs with
    | call env uid name format tag t hn ha hc => exact h.call hn ha hc

def textOf (s : Option Str) : Str := s.getD []

/-- What the tags are for: they tell names and formats apart, give them back, stay, and are limited for each user. -/
structure Correct (s : State) : Prop where
  distinct : ∀ e ∈ s.log, ∀ e' ∈ s.log, e.tag ≠ emptyTag → e'.tag ≠ emptyTag →
    (e.name, e.format) ≠ (e'.name, e'.format) → e.tag ≠ e'.tag
  given : ∀ e ∈ s.log, e.tag ≠ emptyTag → textOf (tagToName s.tags e.tag) = e.name ∧ textOf (tagToFormat s.tags e.tag) = e.format
  same : s.log.Pairwise fun later earlier =>
    earlier.tag ≠ emptyTag → later.name = earlier.name → later.format = earlier.format → later.tag = earlier.tag
  limited : ∀ uid, uid ≠ aidRoot → newTags s.log uid ≤ maxPerUid

theorem Serves.tagToName (h : Serves t name format tag) : textOf (tagToName t tag) = name := by
  rw [EventTags.tagToName, h.name]
  dsimp only
  split
  · rename_i he
    exact he.symm
  · rfl

theorem Inv.call_isSome (h : Inv s) (ha : Allowed hash s.tags name format) :
    (nameToTag hash env s.tags uid name (some format)).isSome := by
  have hl : ∃ tag unique, nameToTagLocked hash s.tags name (some format) = some (tag, unique) := by
    rw [nameToTagLocked]
    cases hkey : s.tags.key2tag (keyOf name format) with
    | some tag => exact ⟨tag, false, rfl⟩
    | none =>
      rw [probe, ha.1 hkey]
      exact ⟨_, true, rfl⟩
  obtain ⟨tag, unique, hl⟩ := hl
  have hw (b : Bool) (tag : UInt32) :
      (if b then nameToTagWrite hash env s.tags uid name format tag else some (tag, s.tags)).isSome := by
    cases b with
    | false => rfl
    | true => exact nameToTagWrite_isSome hl
  rw [nameToTag, hl]
  simp only [reduceCtorEq, and_false, if_false, getD_some]
  split
  · rfl
  · rw [writePmsg_fst (h.consistent.linked.total tag)]
    exact hw _ tag

/-- Where no new key meets a tag that is there already, and no name without a format was first given with one,
the tags are correct in every state, and the next such call returns. -/
theorem tags_correct (s : State) (h : (runs hash).Reachable s) :
    Correct s ∧ ∀ env uid name format, plus ∉ name → Allowed hash s.tags name format →
      (nameToTag hash env s.tags uid name (some format)).isSome := by
  have hinv := (inv_invariant hash).reachable h
  refine ⟨⟨fun e he e' he' hne hne' hp htag => ?_, fun e he hne => ?_, hinv.same, fun uid hr => ?_⟩,
    fun _ _ _ _ _ ha => hinv.call_isSome ha⟩
  · have hs := hinv.served e he hne
    have hs' := hinv.served e' he' hne'
    rw [htag] at hs
    have hn := some.inj (hs.name.symm.trans hs'.name)
    have hf := hs.format.symm.trans hs'.format
    exact hp (by rw [hn, hf])
  · have hs := hinv.served e he hne
    exact ⟨hs.tagToName, hs.format⟩
  · obtain ⟨hle, hmax⟩ := hinv.counted uid hr
    exact le_trans hle hmax

def quiet : Env := ⟨0, false, 1, 1, 0, 0⟩

def firstByte (key : Str) : UInt64 := (key.headD 0).toUInt64

def tagged (s : State) (name format : Str) (tag : UInt32) : State :=
  s.after 7 name format tag ((nameToTag firstByte quiet s.tags 7 name (some format)).getD (emptyTag, .empty)).2

def twoTags : State := tagged (tagged .start [97] [102] 97) [98] [103] 98

theorem tags_correct_twoTags :
    (runs firstByte).Reachable twoTags ∧ twoTags.tags.tag2name 97 = some [97] ∧ twoTags.tags.tag2name 98 = some [98] ∧
      Correct twoTags := by
  have hone : (runs firstByte).Reachable (tagged .start [97] [102] 97) :=
    System.Reachable.step (.of_init rfl)
      (Step.call .start quiet 7 [97] [102] 97 _ (by decide) ⟨fun _ => rfl, fun hf => (by cases hf)⟩ rfl)
  have htwo : (runs firstByte).Reachable twoTags :=
    hone.step (Step.call _ quiet 7 [98] [103] 98 _ (by decide) ⟨fun _ => rfl, fun hf => (by cases hf)⟩ rfl)
  exact ⟨htwo, rfl, rfl, (tags_correct twoTags htwo).1⟩

/-- With one hash for two keys, the second name gets the tag of the first. -/
theorem colliding_names_share_tag :
    ∃ t t', nameToTag (fun _ => 5) quiet .empty aidRoot [97] (some [102]) = some (5, t) ∧
      nameToTag (fun _ => 5) quiet t aidRoot [98] (some [103]) = some (5, t') ∧
      tagToName t' 5 = some [97] ∧ tagToFormat t' 5 = some [102] :=
  ⟨_, _, rfl, rfl, rfl, rfl⟩

end Bionic.EventTags
