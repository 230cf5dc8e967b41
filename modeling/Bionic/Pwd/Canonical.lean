import Bionic.Pwd.NamePrint

namespace Bionic.Pwd

open Lib Stdlib Spelling

variable {lp64 isGroup : Bool} {ids : AndroidIds} {id : Nat} {sp : Spelling} {name : List Char}

def Spelling.refused (ids : AndroidIds) : Spelling → Bool
  | .platform _ name => !(findByName ids name).any fun e => platformIdSecondaryUserAllowed e.aid
  | _ => false

theorem Spelling.Names.unique {id' : Nat} (h : sp.Names ids id) (h' : sp.Names ids id') : id = id' := by
  cases sp with
  | shared n | app u n suffix | isolated u n => exact h.trans h'.symm
  | platform u name =>
    obtain ⟨e, he, hn, -, heq⟩ := h
    obtain ⟨e', he', hn', -, heq'⟩ := h'
    rw [heq, heq', ids.names e he e' he' (hn.trans hn'.symm)]

theorem appIdFromName_user {u rest : List Char} {appid : Nat} (hu : Plain u) (hr : NoDigit rest)
    (ha : appPart lp64 isGroup false ids rest = some (appid, [])) (hlt : appid < aidUserOffset) :
    appIdFromName lp64 isGroup ids ('u' :: u ++ rest) =
      if 1000 < value u then none else some (appid + value u * aidUserOffset) := by
  have hmax := ulongMax_ge lp64
  rw [appIdFromName_eq (userPart_user hu.ne_nil hu.digits hr) ha hlt]
  by_cases hv : value u ≤ 1000
  · rw [Nat.min_eq_left (by omega)]
  · rw [if_pos (by omega), if_pos (by omega)]

theorem appIdFromName_text (lp64 : Bool) (h : sp.InRange isGroup ids) :
    ∃ id, sp.Names ids id ∧ appIdFromName lp64 isGroup ids sp.text =
      if 1000 < sp.user ∨ sp.refused ids then none else some id := by
  cases sp with
  | shared n =>
    obtain ⟨rfl, hn, hv⟩ := h
    refine ⟨_, rfl, ?_⟩
    obtain ⟨hva, hre⟩ := strtoul_plain lp64 hn noDigit_nil (by omega)
    rw [List.append_nil] at hva hre
    have hnu : appNumber lp64 true true n = some (value n + aidSharedGidStart, []) := by
      rw [appNumber]
      simp only [hva, hre]
      rw [if_pos trivial, offsetBy_small lp64 (by rw [aidSharedGidStart]; omega),
        if_neg (by rw [aidSharedGidStart, aidSharedGidEnd]; omega)]
    have hd := startsWithDigit_plain hn []
    rw [List.append_nil] at hd
    have hus : userPart lp64 true (shared n).text = some (0, "_a".toList ++ n, true) := rfl
    rw [appIdFromName_eq hus ((appPart_number lp64 true true ids hd).trans hnu)
      (by rw [aidSharedGidStart, aidUserOffset]; omega)]
    simp [user, refused]
  | app u n suffix =>
    obtain ⟨hu, hn, hr⟩ := h
    refine ⟨_, rfl, ?_⟩
    obtain ⟨hlt, hg⟩ := hr.lt
    have hp := (appPart_number lp64 isGroup false ids (startsWithDigit_plain hn suffix.text)).trans
      (appNumber_suffix lp64 hn hlt hg)
    have hsum := hr.sum_lt
    have ht : (app u n suffix).text = 'u' :: u ++ ("_a".toList ++ (n ++ suffix.text)) := by
      rw [text, List.append_assoc, List.append_assoc]
    rw [ht, appIdFromName_user hu (noDigit_a _) hp (by rw [aidUserOffset]; omega)]
    simp [user, refused]
  | isolated u n =>
    obtain ⟨hu, hn, hv⟩ := h
    refine ⟨_, rfl, ?_⟩
    have ht : (isolated u n).text = 'u' :: u ++ ("_i".toList ++ n) := by
      rw [text, List.append_assoc]
    rw [ht, appIdFromName_user hu (noDigit_i _) (appPart_isolated hn hv)
      (by rw [aidIsolatedStart, aidUserOffset]; omega)]
    simp [user, refused]
  | platform u name =>
    obtain ⟨hu, e, he, rfl, hlt⟩ := h
    refine ⟨_, ⟨e, he, rfl, hlt, rfl⟩, ?_⟩
    have hp := appPart_platform lp64 isGroup false he
    rw [refused, findByName_of_mem he]
    cases ha : platformIdSecondaryUserAllowed e.aid with
    | true =>
      rw [ha, if_pos rfl] at hp
      rw [text, appIdFromName_user hu (noDigit_underscore _) hp
        (by rw [aidAppStart] at hlt; rw [aidUserOffset]; omega)]
      simp [user, ha]
    | false =>
      rw [text, appIdFromName, userPart_user hu.ne_nil hu.digits (noDigit_underscore _)]
      simp [hp, ha]

theorem appIdFromName_lt (h : appIdFromName lp64 isGroup ids name = some id) : id < 2 ^ 32 := by
  rw [appIdFromName] at h
  simp only [Option.bind_eq_bind, Option.bind_eq_some_iff] at h
  obtain ⟨⟨userid, rest, shared⟩, -, ⟨appid, rest'⟩, -, h⟩ := h
  split_ifs at h
  cases h
  exact Nat.mod_lt _ (by decide)

/-- The name is in range: one of the forms of a name, with plain numbers from the range of the form. -/
def InRange (isGroup : Bool) (ids : AndroidIds) (name : List Char) : Prop :=
  ∃ sp : Spelling, sp.InRange isGroup ids ∧ sp.text = name

theorem printAppName_of_inRange (h : sp.InRange isGroup ids) (hid : sp.Names ids id) (hu : sp.user < 100000) :
    printAppName isGroup ids id = some sp.text := by
  rw [printAppName_eq, spell_of_inRange h hid, Option.map_some, h.snprintf hu]

theorem printAppName_eq_some (hid : id < 2 ^ 32) (h : printAppName isGroup ids id = some name) :
    ∃ sp : Spelling, sp.InRange isGroup ids ∧ sp.text = name := by
  rw [printAppName_eq] at h
  obtain ⟨sp, hsp, ht⟩ := Option.map_eq_some_iff.1 h
  obtain ⟨hr, -, hu⟩ := spell_inRange hsp
  have hlt : sp.user < 100000 := by
    rw [hu, aidUserOffset]
    omega
  rw [hr.snprintf hlt] at ht
  exact ⟨sp, hr, ht⟩

/-- An accepted name is the name printed for its id exactly if it is in range. -/
theorem app_id_from_name_canonical_iff (ids : AndroidIds) (lp64 isGroup : Bool) (name : List Char) (id : Nat)
    (h : appIdFromName lp64 isGroup ids name = some id) :
    printAppName isGroup ids id = some name ↔ InRange isGroup ids name := by
  constructor
  · exact printAppName_eq_some (appIdFromName_lt h)
  · rintro ⟨sp, hr, rfl⟩
    obtain ⟨id', hn, hpa⟩ := appIdFromName_text lp64 hr
    rw [hpa] at h
    split_ifs at h with hre
    cases h
    exact printAppName_of_inRange hr hn (by omega)

def secondaryIds : AndroidIds where
  ids := [⟨"system".toList, 1000⟩, ⟨"radio".toList, 1001⟩, ⟨"bluetooth".toList, 1002⟩, ⟨"log".toList, 1007⟩,
    ⟨"nfc".toList, 1027⟩, ⟨"secure_element".toList, 1068⟩, ⟨"network_stack".toList, 1073⟩, ⟨"shell".toList, 2000⟩]
  names := by decide +kernel
  aids := by decide +kernel
  platform := by decide +kernel
  secondary := by decide +kernel

theorem app_id_from_name_canonical_iff_u0_a7 :
    appIdFromName true false secondaryIds "u0_a7".toList = some 10007 ∧
      InRange false secondaryIds "u0_a7".toList :=
  ⟨by decide +kernel, (app_id_from_name_canonical_iff _ true _ _ 10007 (by decide +kernel)).1 (by decide +kernel)⟩

/-- The number of the app wraps around: the name of an app is read as the id of u1_system. -/
theorem app_id_from_name_forged :
    appIdFromName true false secondaryIds "u1_a18446744073709542616".toList = some 101000 ∧
      printAppName false secondaryIds 101000 = some "u1_system".toList := by
  decide +kernel

end Bionic.Pwd
