import Bionic.Pwd.Canonical
import Bionic.Pwd.FindResults

namespace Bionic.Pwd

open Stdlib List

def aidOemReservedStart : Nat := 2900

def aidOemReservedEnd : Nat := 2999

def aidOemReserved2Start : Nat := 5000

def aidOemReserved2End : Nat := 5999

def aidEverybody : Nat := 9997

/-- The prefixes of passwd_files and of group_files: of /etc, /vendor/etc, /odm/etc, /product/etc and
/system_ext/etc. -/
def requiredPrefixes : List (List Char) :=
  ["system_".toList, "vendor_".toList, "odm_".toList, "product_".toList, "system_ext_".toList]

structure Database where
  passwdTexts : List (List Char)
  groupTexts : List (List Char)

def Database.passwdFiles (db : Database) : List DbFile := zipWith DbFile.mk db.passwdTexts requiredPrefixes

def Database.groupFiles (db : Database) : List DbFile := zipWith DbFile.mk db.groupTexts requiredPrefixes

/-- What the functions read besides their arguments. `legacy` is device_launched_before_api_29. -/
structure Env where
  lp64 : Bool
  ids : AndroidIds
  legacy : Bool
  db : Database

def isOemId (env : Env) (id : Nat) : Bool :=
  env.legacy && aidOemReservedStart ≤ id && id < aidEverybody && (findById env.ids id).isNone ||
    aidOemReservedStart ≤ id && id ≤ aidOemReservedEnd || aidOemReserved2Start ≤ id && id ≤ aidOemReserved2End

/-- sscanf with the format `oem_%u`: a number of the type uintmax_t, stored as an unsigned int. -/
def scanOem : List Char → Option Nat
  | 'o' :: 'e' :: 'm' :: '_' :: rest =>
    let r := strToU (2 ^ 64 - 1) rest 10
    if r.rest = rest then none else some (r.value % 2 ^ 32)
  | _ => none

def oemIdFromName (env : Env) (name : List Char) : Nat :=
  match scanOem name with
  | none => 0
  | some id => if isOemId env id then id else 0

def slash : List Char := "/".toList

def binSh : List Char := "/bin/sh".toList

def slashData : List Char := "/data".toList

/-- What the functions for passwd and for group entries do not share: the flag is_group, the search in the files, and
an entry with this name, id and directory. -/
structure Flavour (α : Type) where
  isGroup : Bool
  inFiles : Query → Option α
  entry : List Char → Nat → List Char → α

def Env.passwd (env : Env) : Flavour Passwd where
  isGroup := false
  inFiles q := env.db.passwdFiles.findSome? fun file => findPasswd env.lp64 file q
  entry name id dir := ⟨name, id, id, dir, binSh⟩

def Env.group (env : Env) : Flavour Group where
  isGroup := true
  inFiles q := env.db.groupFiles.findSome? fun file => findGroup env.lp64 file q
  entry name id _ := ⟨name, id⟩

section Entries

variable {α : Type} (env : Env) (fl : Flavour α) (id : Nat)

def androidIinfoTo (info : AndroidIdInfo) : α :=
  fl.entry (snprintf kGrpPwdBufferSize info.name) info.aid slash

def oemName : List Char := snprintf kGrpPwdBufferSize ("oem_".toList ++ fmtUnsigned id)

def oemIdTo : Option α :=
  (fl.inFiles (.id id)).or (if isOemId env id then some (fl.entry (oemName id) id slash) else none)

/-- app_id_to_passwd and app_id_to_group. The buffer for the name is empty at first. -/
def appIdTo : Option α :=
  if id < aidAppStart ∨ isValidAppId id fl.isGroup = false then none
  else
    some (fl.entry ((printAppName fl.isGroup env.ids id).getD []) id
      (if id % aidUserOffset < aidAppStart then slash else slashData))

def getById : Option α :=
  match findById env.ids id with
  | some info => some (androidIinfoTo fl info)
  | none => (oemIdTo env fl id).or (appIdTo env fl id)

def getByName (name : List Char) : Option α :=
  match findByName env.ids name with
  | some info => some (androidIinfoTo fl info)
  | none =>
    (fl.inFiles (.name name)).or <| (oemIdTo env fl (oemIdFromName env name)).or
      (appIdTo env fl ((appIdFromName env.lp64 fl.isGroup env.ids name).getD 0))

end Entries

def getpwuid (env : Env) (uid : Nat) : Option Passwd := getById env env.passwd uid

def getpwnam (env : Env) (login : List Char) : Option Passwd := getByName env env.passwd login

def getgrgid (env : Env) (gid : Nat) : Option Group := getById env env.group gid

def getgrnam (env : Env) (name : List Char) : Option Group := getByName env env.group name

open Lib

variable {α : Type} {env : Env} {fl : Flavour α} {ids : AndroidIds} {lp64 isGroup : Bool} {name : List Char}
  {id numFields : Nat} {sp : Spelling}

def Artificial (name : List Char) : Prop :=
  (∃ d rest, name = 'u' :: d :: rest ∧ d.isDigit) ∨ "all_".toList <+: name ∨ "oem_".toList <+: name

theorem Spelling.InRange.artificial (h : sp.InRange isGroup ids) : Artificial sp.text := by
  have hus {u rest : List Char} (hu : Plain u) : Artificial ('u' :: u ++ rest) := by
    obtain ⟨d, u', rfl⟩ := exists_cons_of_ne_nil hu.ne_nil
    exact .inl ⟨d, u' ++ rest, rfl, hu.digits d mem_cons_self⟩
  cases sp with
  | shared n => exact .inr (.inl ⟨'a' :: n, rfl⟩)
  | app u n suffix =>
    rw [Spelling.text, append_assoc, append_assoc]
    exact hus h.1
  | isolated u n =>
    rw [Spelling.text, append_assoc]
    exact hus h.1
  | platform u name => exact hus h.1

theorem Artificial.findByName (h : Artificial name) (ids : AndroidIds) : findByName ids name = none := by
  cases hf : Pwd.findByName ids name with
  | none => rfl
  | some e =>
    obtain ⟨he, rfl⟩ := findByName_eq_some hf
    have hfr := friendly_of_mem he
    simp only [friendly, Bool.and_eq_true, Bool.not_eq_true', Option.any_eq_true] at hfr
    obtain ⟨⟨⟨hh, -⟩, hall⟩, hoem⟩ := hfr
    rcases h with ⟨d, rest, heq, hd⟩ | hpre | hpre
    · rw [heq] at hh
      simp [startsWithDigit, hd] at hh
    · rw [ isPrefixOf_iff_prefix.2 hpre] at hall
      cases hall
    · rw [ isPrefixOf_iff_prefix.2 hpre] at hoem
      cases hoem

theorem find_name {text pfx : List Char} {fields : Fields} (hnum : 0 < numFields)
    (h : find lp64 numFields text pfx (.name name) = some fields) : ∃ line, pfx <+: line ∧ name <+: line := by
  obtain ⟨before, line, hacc, -⟩ := find_spec h
  refine ⟨line, isPrefixOf_iff_prefix.1 hacc.accepted.1, ?_⟩
  have hp := hacc.accepted.2
  rw [Query.predicate, arrayOf_getElem hnum, latest_concat, column, Option.some_or] at hp
  rw [← (nameMatches_iff.1 hp).1]
  exact takeWhile_prefix _

theorem Artificial.find (h : Artificial name) {text pfx : List Char} (hnum : 0 < numFields)
    (hpfx : pfx ∈ requiredPrefixes) : find lp64 numFields text pfx (.name name) = none := by
  cases hf : Pwd.find lp64 numFields text pfx (.name name) with
  | none => rfl
  | some fields =>
    obtain ⟨line, hp, hn⟩ := find_name hnum hf
    have htwo : ∀ p ∈ requiredPrefixes, 2 ≤ p.length ∧ p.take 2 ∉ ["al".toList, "oe".toList] ∧ p.head? ≠ some 'u' := by
      decide +kernel
    obtain ⟨hlen, hs, hu⟩ := htwo pfx hpfx
    obtain ⟨t, rfl⟩ := hp
    have ht : (pfx ++ t).take 2 = pfx.take 2 := take_append_of_le_length hlen
    rcases h with ⟨d, rest, rfl, -⟩ | hpre | hpre
    · obtain ⟨t', ht'⟩ := hn
      obtain ⟨c, cs, rfl⟩ := exists_cons_of_ne_nil (ne_nil_of_length_pos (by omega : 0 < pfx.length))
      have hc : 'u' = c := (cons.inj ht').1
      exact absurd (congrArg some hc.symm) hu
    · obtain ⟨t', ht'⟩ := hpre.trans hn
      rw [← ht'] at ht
      exact absurd (ht ▸ mem_cons_self) hs
    · obtain ⟨t', ht'⟩ := hpre.trans hn
      rw [← ht'] at ht
      exact absurd (ht ▸ mem_cons_of_mem _ mem_cons_self) hs

theorem requiredPrefix_mem {texts prefixes : List (List Char)} {file : DbFile}
    (h : file ∈ zipWith DbFile.mk texts prefixes) : file.requiredPrefix ∈ prefixes := by
  induction texts generalizing prefixes with
  | nil => cases h
  | cons text texts ih =>
    cases prefixes with
    | nil => cases h
    | cons p prefixes =>
      rcases mem_cons.1 h with rfl | h
      · exact mem_cons_self
      · exact mem_cons_of_mem _ (ih h)

theorem Artificial.passwd (h : Artificial name) (env : Env) : env.passwd.inFiles (.name name) = none := by
  refine findSome?_eq_none_iff.2 fun file hf => ?_
  rw [findPasswd, h.find (by decide) (requiredPrefix_mem hf), Option.bind_none]

theorem Artificial.group (h : Artificial name) (env : Env) : env.group.inFiles (.name name) = none := by
  refine findSome?_eq_none_iff.2 fun file hf => ?_
  rw [findGroup, h.find (by decide) (requiredPrefix_mem hf), Option.bind_none]

section Oem

theorem isOemId_range (h : isOemId env id) : 2900 ≤ id ∧ id < 9997 := by
  simp only [isOemId, Bool.or_eq_true, Bool.and_eq_true, decide_eq_true_eq] at h
  simp only [aidOemReservedStart, aidEverybody, aidOemReservedEnd, aidOemReserved2Start, aidOemReserved2End] at h
  omega

theorem oemName_eq (h : id < 100000) : oemName id = "oem_".toList ++ fmtUnsigned id := by
  have hlen : (fmtUnsigned id).length ≤ 5 := (Nat.length_toDigits_le_iff (by decide) (by decide)).2 h
  apply take_of_length_le
  rw [length_append]
  change 4 + (fmtUnsigned id).length ≤ 31
  omega

theorem oemIdFromName_oemName (h : isOemId env id) : oemIdFromName env (oemName id) = id := by
  have hra := isOemId_range h
  have hp : Plain (fmtUnsigned id) := plain_toDigits id
  have hv : Nat.ofDigitChars 10 (fmtUnsigned id) 0 = id := ofDigitChars_toDigits id
  have hr : strToU (2 ^ 64 - 1) (fmtUnsigned id ++ []) 10 = _ :=
    strToU_decimal hp.ne_nil hp.digits noDigit_nil
  rw [append_nil, hv, if_pos (by omega)] at hr
  have hs : scanOem (oemName id) = some id := by
    rw [oemName_eq (by omega)]
    change (if (strToU (2 ^ 64 - 1) (fmtUnsigned id) 10).rest = fmtUnsigned id then none
      else some ((strToU (2 ^ 64 - 1) (fmtUnsigned id) 10).value % 2 ^ 32)) = some id
    rw [hr, if_neg (fun hnil => hp.ne_nil hnil.symm), Nat.mod_eq_of_lt (by change id < 2 ^ 32; omega)]
  rw [oemIdFromName, hs]
  simp only [h, if_true]

theorem getByName_oem (hn : ∀ n, Artificial n → fl.inFiles (.name n) = none) (hid : fl.inFiles (.id id) = none)
    (h : isOemId env id) : getByName env fl (oemName id) = some (fl.entry (oemName id) id slash) := by
  have hart : Artificial (oemName id) := by
    exact .inr (.inr (prefix_append _ _))
  rw [getByName, hart.findByName, hn _ hart, oemIdFromName_oemName h, oemIdTo, hid, if_pos h]
  rfl

end Oem

section App

theorem scanOem_text : scanOem sp.text = none := by
  cases sp <;> rfl

theorem getByName_app (hn : ∀ n, Artificial n → fl.inFiles (.name n) = none) (hro : fl.inFiles (.id 0) = none)
    (hr : sp.InRange fl.isGroup env.ids) (hid : sp.Names env.ids id) (hu : sp.user ≤ 1000)
    (hs : sp.refused env.ids = false) : getByName env fl sp.text = appIdTo env fl id := by
  obtain ⟨id', hid', hp⟩ := appIdFromName_text env.lp64 hr
  have hoem : isOemId env 0 = false := by
    rw [Bool.eq_false_iff]
    intro h0
    have := isOemId_range h0
    omega
  rw [if_neg (by rw [hs]; simp; omega), hid'.unique hid] at hp
  rw [getByName, hr.artificial.findByName, hn _ hr.artificial, oemIdFromName, scanOem_text, oemIdTo, hro, hoem,
    hp]
  rfl

theorem ranges_start : ∀ r ∈ groupRanges ++ userRanges, aidAppStart ≤ r.start := by
  decide

theorem valid_spell (h : isValidAppId id isGroup) (ids : AndroidIds) :
    ∃ sp, spell isGroup ids id = some sp ∧ sp.refused ids = false := by
  by_cases hp : id % aidUserOffset < aidAppStart
  · have ha : platformIdSecondaryUserAllowed (id % aidUserOffset) := by
      by_contra hno
      rw [isValidAppId] at h
      simp only [hno, Bool.false_eq_true, and_false, if_false] at h
      split_ifs at h
      all_goals
        obtain ⟨r, hr, hle⟩ := any_eq_true.1 h
        have hs : aidAppStart ≤ r.start := ranges_start r (by simp [hr])
        have := (of_decide_eq_true hle).1
        omega
    obtain ⟨e, he, haid⟩ := ids.secondary _ (of_decide_eq_true ha)
    have hlt : e.aid < aidAppStart := haid ▸ hp
    refine ⟨.platform (fmtUnsigned (id / aidUserOffset)) e.name, ?_, ?_⟩
    · have hr : (Spelling.platform (fmtUnsigned (id / aidUserOffset)) e.name).InRange isGroup ids :=
        ⟨plain_toDigits _, e, he, rfl, hlt⟩
      refine spell_of_inRange hr ⟨e, he, rfl, hlt, ?_⟩
      rw [Spelling.user, value_fmtUnsigned, haid, aidUserOffset]
      omega
    · rw [Spelling.refused, findByName_of_mem he, Option.any_some, haid, ha]
      rfl
  · rw [spell]
    split_ifs
    all_goals exact ⟨_, rfl, rfl⟩

end App

structure Synthesized (env : Env) (fl : Flavour α) (id : Nat) : Prop where
  table : findById env.ids id = none
  files : fl.inFiles (.id id) = none

/-- It is an OEM id, or its user is one that app_id_from_name takes and the failed search for an OEM name does
not end at a line of a file. -/
def Findable (env : Env) (fl : Flavour α) (id : Nat) : Prop :=
  isOemId env id ∨ id / aidUserOffset ≤ 1000 ∧ fl.inFiles (.id 0) = none

theorem getByName_synthesized {e : α} (hna : ∀ n, Artificial n → fl.inFiles (.name n) = none)
    (hs : Synthesized env fl id) (h : getById env fl id = some e) (hf : Findable env fl id) :
    ∃ name dir dir', e = fl.entry name id dir ∧ getByName env fl name = some (fl.entry name id dir') := by
  rw [getById, hs.table] at h
  simp only [oemIdTo, hs.files, Option.none_or] at h
  by_cases hoem : isOemId env id
  · rw [if_pos hoem, Option.some_or] at h
    exact ⟨_, _, _, (Option.some.inj h).symm, getByName_oem hna hs.files hoem⟩
  · obtain ⟨hus, hro⟩ := hf.resolve_left hoem
    have hv : ¬(id < aidAppStart ∨ isValidAppId id fl.isGroup = false) := by
      intro hno
      rw [if_neg hoem, Option.none_or, appIdTo, if_pos hno] at h
      cases h
    rw [if_neg hoem, Option.none_or, appIdTo, if_neg hv] at h
    rw [not_or, Bool.not_eq_false] at hv
    obtain ⟨sp, hsp, hre⟩ := valid_spell hv.2 env.ids
    obtain ⟨hr, hn, hu⟩ := spell_inRange hsp
    have hp : printAppName fl.isGroup env.ids id = some sp.text :=
      printAppName_of_inRange hr hn (by omega)
    have hb := getByName_app hna hro hr hn (by omega) hre
    rw [hp] at h
    rw [appIdTo, if_neg (by rw [not_or, Bool.not_eq_false]; exact hv), hp, Option.getD_some] at hb
    exact ⟨_, _, _, (Option.some.inj h).symm, hb⟩

/-- The name of a synthesized entry leads back to its id. -/
theorem synthesized_names_found (env : Env) :
    (∀ uid pw, Synthesized env env.passwd uid → getpwuid env uid = some pw →
      Findable env env.passwd uid → ∃ pw', getpwnam env pw.name = some pw' ∧ pw'.uid = uid) ∧
    (∀ gid gr, Synthesized env env.group gid → getgrgid env gid = some gr →
      Findable env env.group gid → ∃ gr', getgrnam env gr.name = some gr' ∧ gr'.gid = gid) := by
  constructor
  · intro uid pw hs h hf
    obtain ⟨name, dir, dir', rfl, hb⟩ :=
      getByName_synthesized (fun n hn => hn.passwd env) hs h hf
    exact ⟨_, hb, rfl⟩
  · intro gid gr hs h hf
    obtain ⟨name, dir, dir', rfl, hb⟩ :=
      getByName_synthesized (fun n hn => hn.group env) hs h hf
    exact ⟨_, hb, rfl⟩

def noFiles : Env := ⟨true, secondaryIds, false, ⟨[], []⟩⟩

theorem synthesized_names_found_u1_a7 :
    getpwuid noFiles 110007 = some ⟨"u1_a7".toList, 110007, 110007, "/data".toList, "/bin/sh".toList⟩ ∧
      ∃ pw', getpwnam noFiles "u1_a7".toList = some pw' ∧ pw'.uid = 110007 :=
  have h : getpwuid noFiles 110007 =
    some ⟨"u1_a7".toList, 110007, 110007, "/data".toList, "/bin/sh".toList⟩ := by decide +kernel
  ⟨h, (synthesized_names_found noFiles).1 110007 _ ⟨by decide +kernel, rfl⟩ h (.inr ⟨by decide, rfl⟩)⟩

def rootLine : Env := ⟨true, secondaryIds, false, ⟨[[], "vendor_r:x:0:0::/:/bin/sh\n".toList], []⟩⟩

/-- app_id_from_name takes no user above 1000, and a name that is no OEM name is looked up as uid 0. -/
theorem synthesized_name_not_found :
    getpwuid noFiles 100110000 = some ⟨"u1001_a0".toList, 100110000, 100110000, "/data".toList, "/bin/sh".toList⟩ ∧
      getpwnam noFiles "u1001_a0".toList = none ∧
      getpwuid rootLine 110007 = some ⟨"u1_a7".toList, 110007, 110007, "/data".toList, "/bin/sh".toList⟩ ∧
      getpwnam rootLine "u1_a7".toList = some ⟨"vendor_r".toList, 0, 0, "/".toList, "/bin/sh".toList⟩ := by
  decide +kernel

end Bionic.Pwd
