import Bionic.Pwd.Spelling

namespace Bionic.Pwd

open Lib Stdlib List

variable {lp64 isGroup : Bool} {ids : AndroidIds} {ds rest : List Char}

theorem ulongMax_ge (lp64 : Bool) : 2 ^ 32 - 1 ≤ ulongMax lp64 := by
  cases lp64 <;> simp [ulongMax]

theorem strtoul_digits (lp64 : Bool) (hne : ds ≠ []) (hd : ∀ c ∈ ds, c.isDigit) (h : NoDigit rest) :
    (strtoul lp64 (ds ++ rest) 10).value = min (value ds) (ulongMax lp64) ∧
      (strtoul lp64 (ds ++ rest) 10).rest = rest := by
  rw [strtoul, strToU_decimal hne hd h]
  split
  · rename_i hle
    exact ⟨(Nat.min_eq_left hle).symm, rfl⟩
  · rename_i hgt
    exact ⟨(Nat.min_eq_right (Nat.le_of_not_le hgt)).symm, rfl⟩

theorem strtoul_plain (lp64 : Bool) (hp : Plain ds) (h : NoDigit rest) (hv : value ds < 100000) :
    (strtoul lp64 (ds ++ rest) 10).value = value ds ∧ (strtoul lp64 (ds ++ rest) 10).rest = rest := by
  have hmax := ulongMax_ge lp64
  obtain ⟨hva, hr⟩ := strtoul_digits lp64 hp.ne_nil hp.digits h
  exact ⟨by rw [hva]; omega, hr⟩

theorem offsetBy_small (lp64 : Bool) {n start : Nat} (h : n + start < 2 ^ 32) : offsetBy lp64 n start = n + start := by
  have hmax := ulongMax_ge lp64
  exact Nat.mod_eq_of_lt (by omega)

theorem userPart_user (hne : ds ≠ []) (hd : ∀ c ∈ ds, c.isDigit) (h : NoDigit rest) :
    userPart lp64 isGroup ('u' :: ds ++ rest) = some (min (value ds) (ulongMax lp64), rest, false) := by
  obtain ⟨c, cs, rfl⟩ := exists_cons_of_ne_nil hne
  obtain ⟨hv, hr⟩ := strtoul_digits lp64 hne hd h
  rw [cons_append, cons_append, userPart, if_pos (hd c mem_cons_self), ← cons_append]
  simp only [hv, hr]

theorem startsWithDigit_plain (hp : Plain ds) (rest : List Char) : startsWithDigit (ds ++ rest) := by
  obtain ⟨c, cs, rfl⟩ := exists_cons_of_ne_nil hp.ne_nil
  exact hp.digits c mem_cons_self

theorem noDigit_nil : NoDigit [] := by
  intro c h
  cases h

variable (s : List Char) {e : AndroidIdInfo} {shared : Bool} {n : List Char}

theorem noDigit_underscore : NoDigit ('_' :: s) := by
  rintro c ⟨⟩
  rfl

theorem noDigit_a : NoDigit ("_a".toList ++ s) := noDigit_underscore ('a' :: s)

theorem noDigit_i : NoDigit ("_i".toList ++ s) := noDigit_underscore ('i' :: s)

theorem noDigit_suffix (suffix : Suffix) : NoDigit suffix.text := by
  cases suffix with
  | bare => exact noDigit_nil
  | extCache | ext | cache => exact noDigit_underscore _

theorem appIdFromName_eq {name : List Char} {userid appid : Nat}
    (hu : userPart lp64 isGroup name = some (userid, rest, shared))
    (ha : appPart lp64 isGroup shared ids rest = some (appid, [])) (hlt : appid < aidUserOffset) :
    appIdFromName lp64 isGroup ids name =
      if 1000 < userid then none else some (appid + userid * aidUserOffset) := by
  rw [appIdFromName, hu]
  simp only [Option.bind_eq_bind, Option.bind_some, ha]
  rw [if_neg (by simp)]
  split
  · rfl
  · rename_i hle
    have hs : appid + userid * aidUserOffset < 2 ^ 32 := by
      rw [aidUserOffset] at hlt ⊢
      omega
    rw [if_neg (by omega), Nat.mod_eq_of_lt hs]

theorem appNumber_suffix (lp64 : Bool) {suffix : Suffix} (hn : Plain n) (hv : value n < 80000)
    (hg : isGroup ∨ suffix = .bare) :
    appNumber lp64 isGroup false (n ++ suffix.text) = some (value n + suffix.start, []) := by
  obtain ⟨hva, hr⟩ := strtoul_plain lp64 hn (noDigit_suffix suffix) (by omega)
  have hs : value n + suffix.start < 2 ^ 32 := by
    cases suffix <;> simp only [Suffix.start, aidAppStart, aidExtCacheGidStart, aidExtGidStart, aidCacheGidStart] <;>
      omega
  rw [appNumber]
  simp only [hva, hr]
  cases isGroup with
  | false =>
    rcases hg with hg | rfl
    · cases hg
    · rw [if_neg (by simp), ← offsetBy_small lp64 hs]
      rfl
  | true =>
    rw [if_pos rfl, ← offsetBy_small lp64 hs]
    cases suffix <;> rfl

theorem appPart_number (lp64 isGroup shared : Bool) (ids : AndroidIds) {s : List Char} (hs : startsWithDigit s) :
    appPart lp64 isGroup shared ids ("_a".toList ++ s) = appNumber lp64 isGroup shared s := by
  change appPart lp64 isGroup shared ids ('_' :: 'a' :: s) = _
  rw [appPart, if_pos ⟨rfl, hs⟩]

theorem appPart_isolated (hn : Plain n) (hv : value n < 10000) :
    appPart lp64 isGroup shared ids ("_i".toList ++ n) = some (value n + aidIsolatedStart, []) := by
  have hs : startsWithDigit n := append_nil n ▸ startsWithDigit_plain hn []
  obtain ⟨hva, hr⟩ := strtoul_plain lp64 hn noDigit_nil (by omega)
  rw [append_nil] at hva hr
  change appPart lp64 isGroup shared ids ('_' :: 'i' :: n) = _
  rw [appPart, if_neg (by simp), if_pos ⟨rfl, hs⟩]
  simp only [hva, hr]
  rw [offsetBy_small lp64 (by rw [aidIsolatedStart]; omega)]

theorem friendly_of_mem (h : e ∈ ids.ids) : friendly e.name :=
  all_eq_true.1 platformIds_friendly e (ids.platform e h)

theorem appPart_platform (lp64 isGroup shared : Bool) (h : e ∈ ids.ids) :
    appPart lp64 isGroup shared ids ('_' :: e.name) =
      if platformIdSecondaryUserAllowed e.aid then some (e.aid, []) else none := by
  have hf := friendly_of_mem h
  have hfi := findByName_of_mem h
  cases hn : e.name with
  | nil =>
    rw [hn] at hf
    cases hf
  | cons c cs =>
    rw [hn] at hf hfi
    simp only [friendly, head?_cons, Option.any_some, Bool.and_eq_true] at hf
    have hc := hf.1.1.1
    have hno {c' : Char} (hc' : c' ∈ ['a', 'i', 'u']) : ¬(c = c' ∧ startsWithDigit cs) := by
      rintro ⟨rfl, hd⟩
      simp [hc', hd] at hc
    rw [appPart, if_neg (hno (by simp)), if_neg (hno (by simp)), hfi]

variable {id : Nat} {sp : Spelling} {suffix : Suffix}

def printAppName (isGroup : Bool) (ids : AndroidIds) (id : Nat) : Option (List Char) :=
  if isGroup then printAppNameFromGid ids id kGrpPwdBufferSize else printAppNameFromUid ids id kGrpPwdBufferSize

def Spelling.user : Spelling → Nat
  | .shared _ => 0
  | .app u _ _ | .isolated u _ | .platform u _ => value u

def Spelling.Names (ids : AndroidIds) (id : Nat) (sp : Spelling) : Prop :=
  match sp with
  | .shared n => id = value n + aidSharedGidStart
  | .app _ n suffix => id = value n + suffix.start + sp.user * aidUserOffset
  | .isolated _ n => id = value n + aidIsolatedStart + sp.user * aidUserOffset
  | .platform _ name =>
    ∃ e ∈ ids.ids, e.name = name ∧ e.aid < aidAppStart ∧ id = e.aid + sp.user * aidUserOffset

theorem fmtUnsigned_value (h : Plain ds) : fmtUnsigned (value ds) = ds := toDigits_ofDigitChars h

theorem value_fmtUnsigned (n : Nat) : value (fmtUnsigned n) = n := ofDigitChars_toDigits n

section Length

theorem length_plain (h : Plain ds) (hv : value ds < 100000) : ds.length ≤ 5 := by
  rw [← fmtUnsigned_value h]
  exact (Nat.length_toDigits_le_iff (by decide) (by decide)).2 hv

theorem Suffix.InRange.lt {user n : Nat} (h : suffix.InRange isGroup user n) :
    n < 80000 ∧ (isGroup ∨ suffix = .bare) := by
  cases suffix with
  | bare =>
    refine ⟨?_, .inr rfl⟩
    rw [Suffix.InRange] at h
    split at h <;> omega
  | extCache | ext | cache => exact ⟨by have := h.2; omega, .inl h.1⟩

theorem Suffix.InRange.sum_lt {user n : Nat} (h : suffix.InRange isGroup user n) : n + suffix.start < 90000 := by
  cases suffix with
  | bare => exact Nat.add_lt_add_right h.lt.1 10000
  | extCache => exact (Nat.add_lt_add_right h.2 40000).trans (by decide)
  | ext => exact (Nat.add_lt_add_right h.2 30000).trans (by decide)
  | cache => exact (Nat.add_lt_add_right h.2 20000).trans (by decide)

theorem Spelling.InRange.length (h : sp.InRange isGroup ids) (hu : sp.user < 100000) : sp.text.length ≤ 31 := by
  cases sp with
  | shared n =>
    obtain ⟨-, hn, hv⟩ := h
    have := length_plain hn (by omega)
    rw [Spelling.text, length_append]
    change 5 + n.length ≤ 31
    omega
  | app u n suffix =>
    obtain ⟨hu', hn, hr⟩ := h
    have := length_plain hu' hu
    have := length_plain hn (by have := hr.lt.1; omega)
    have : suffix.text.length ≤ 10 := by cases suffix <;> decide
    rw [Spelling.text, length_append, length_append, length_append, length_cons]
    change u.length + 1 + 2 + n.length + suffix.text.length ≤ 31
    omega
  | isolated u n =>
    obtain ⟨hu', hn, hv⟩ := h
    have := length_plain hu' hu
    have := length_plain hn (by omega)
    rw [Spelling.text, length_append, length_append, length_cons]
    change u.length + 1 + 2 + n.length ≤ 31
    omega
  | platform u name =>
    obtain ⟨hu', e, he, rfl, -⟩ := h
    have := length_plain hu' hu
    have hf := friendly_of_mem he
    simp only [friendly, Bool.and_eq_true, decide_eq_true_iff] at hf
    rw [Spelling.text, length_append, length_cons, length_cons]
    omega

theorem Spelling.InRange.snprintf (h : sp.InRange isGroup ids) (hu : sp.user < 100000) :
    snprintf kGrpPwdBufferSize sp.text = sp.text := take_of_length_le (h.length hu)

end Length

section Spell

def spell (isGroup : Bool) (ids : AndroidIds) (id : Nat) : Option Spelling :=
  let appid := id % aidUserOffset
  let user := fmtUnsigned (id / aidUserOffset)
  if aidIsolatedStart ≤ appid then some (.isolated user (fmtUnsigned (appid - aidIsolatedStart)))
  else if isGroup ∧ id / aidUserOffset = 0 ∧ aidSharedGidStart ≤ appid ∧ appid ≤ aidSharedGidEnd then
    some (.shared (fmtUnsigned (appid - aidSharedGidStart)))
  else if isGroup ∧ aidExtCacheGidStart ≤ appid ∧ appid ≤ aidExtCacheGidEnd then
    some (.app user (fmtUnsigned (appid - aidExtCacheGidStart)) .extCache)
  else if isGroup ∧ aidExtGidStart ≤ appid ∧ appid ≤ aidExtGidEnd then
    some (.app user (fmtUnsigned (appid - aidExtGidStart)) .ext)
  else if isGroup ∧ aidCacheGidStart ≤ appid ∧ appid ≤ aidCacheGidEnd then
    some (.app user (fmtUnsigned (appid - aidCacheGidStart)) .cache)
  else if appid < aidAppStart then (findById ids appid).map fun info => .platform user info.name
  else some (.app user (fmtUnsigned (appid - aidAppStart)) .bare)

theorem printAppName_eq :
    printAppName isGroup ids id = (spell isGroup ids id).map fun sp => snprintf kGrpPwdBufferSize sp.text := by
  have hb u n :
      'u' :: u ++ "_a".toList ++ n = (Spelling.app u n .bare).text := (append_nil _).symm
  cases isGroup with
  | false =>
    rw [printAppName, printAppNameFromUid, spell]
    simp only [Bool.false_eq_true, false_and, if_false]
    split_ifs
    · rfl
    · rw [Option.map_map]
      rfl
    · rw [hb]
      rfl
  | true =>
    rw [printAppName, if_pos rfl, printAppNameFromGid, spell]
    simp only [true_and]
    split_ifs
    · rfl
    · rfl
    · rfl
    · rfl
    · rfl
    · rw [Option.map_map]
      rfl
    · rw [hb]
      rfl

theorem spell_inRange (h : spell isGroup ids id = some sp) :
    sp.InRange isGroup ids ∧ sp.Names ids id ∧ sp.user = id / aidUserOffset := by
  have hsl : id = id % aidUserOffset + id / aidUserOffset * aidUserOffset := by
    rw [aidUserOffset]
    omega
  have ha : id % aidUserOffset < 100000 := Nat.mod_lt _ (by decide)
  have hp (n : Nat) : Plain (fmtUnsigned n) := plain_toDigits n
  rw [spell] at h
  generalize id % aidUserOffset = appid at h hsl ha
  generalize id / aidUserOffset = user at h hsl
  have happ (suffix : Suffix) (start : Nat) (hs : suffix.start = start) (hle : start ≤ appid)
      (hr : suffix.InRange isGroup user (appid - start))
      (hsp : sp = .app (fmtUnsigned user) (fmtUnsigned (appid - start)) suffix) :
      sp.InRange isGroup ids ∧ sp.Names ids id ∧ sp.user = user := by
    rw [hsp]
    refine ⟨⟨hp _, hp _, ?_⟩, ?_, value_fmtUnsigned user⟩
    · rwa [value_fmtUnsigned, value_fmtUnsigned]
    · rw [Spelling.Names, Spelling.user, value_fmtUnsigned, value_fmtUnsigned]
      omega
  split_ifs at h with hiso hsh hex hext hc hpl
  all_goals simp only [aidIsolatedStart, aidSharedGidStart, aidSharedGidEnd, aidExtCacheGidStart, aidExtCacheGidEnd,
    aidExtGidStart, aidExtGidEnd, aidCacheGidStart, aidCacheGidEnd, aidAppStart] at *
  · cases h
    refine ⟨⟨hp _, hp _, ?_⟩, ?_, value_fmtUnsigned user⟩
    · rw [value_fmtUnsigned]
      omega
    · rw [Spelling.Names, Spelling.user, value_fmtUnsigned, value_fmtUnsigned, aidIsolatedStart]
      omega
  · cases h
    refine ⟨⟨hsh.1, hp _, ?_⟩, ?_, hsh.2.1.symm⟩
    · rw [value_fmtUnsigned]
      omega
    · rw [Spelling.Names, value_fmtUnsigned, aidSharedGidStart, hsl, hsh.2.1]
      omega
  · exact happ .extCache 40000 rfl hex.2.1 ⟨hex.1, by omega⟩ (Option.some.inj h).symm
  · exact happ .ext 30000 rfl hext.2.1 ⟨hext.1, by omega⟩ (Option.some.inj h).symm
  · exact happ .cache 20000 rfl hc.2.1 ⟨hc.1, by omega⟩ (Option.some.inj h).symm
  · obtain ⟨e, hf, rfl⟩ := Option.map_eq_some_iff.1 h
    obtain ⟨he, haid⟩ := findById_eq_some hf
    have hlt : e.aid < aidAppStart := by
      rw [haid]
      exact hpl
    refine ⟨⟨hp _, e, he, rfl, hlt⟩, ⟨e, he, rfl, hlt, ?_⟩, value_fmtUnsigned user⟩
    rw [Spelling.user, value_fmtUnsigned, haid]
    exact hsl
  · refine happ .bare 10000 rfl (by omega) ?_ (Option.some.inj h).symm
    rw [Suffix.InRange]
    split_ifs with hg
    · simp only [hg, true_and] at hsh hex hext hc
      omega
    · omega

theorem spell_of_inRange (h : sp.InRange isGroup ids) (hid : sp.Names ids id) : spell isGroup ids id = some sp := by
  have hp (appid user : Nat) (hlt : appid < 100000) (heq : id = appid + user * 100000) :
      id % aidUserOffset = appid ∧ id / aidUserOffset = user := by
    rw [aidUserOffset]
    omega
  rw [spell]
  simp only [aidIsolatedStart, aidSharedGidStart, aidSharedGidEnd, aidExtCacheGidStart, aidExtCacheGidEnd,
    aidExtGidStart, aidExtGidEnd, aidCacheGidStart, aidCacheGidEnd, aidAppStart]
  cases sp with
  | shared n =>
    obtain ⟨hg, hn, hv⟩ := h
    obtain ⟨hmod, hdiv⟩ := hp (value n + 50000) 0 (by omega) hid
    simp only [hmod, hdiv]
    rw [if_neg (by omega), if_pos ⟨hg, trivial, by omega, by omega⟩, Nat.add_sub_cancel, fmtUnsigned_value hn]
  | app u n suffix =>
    obtain ⟨hu, hn, hr⟩ := h
    have hsum := hr.sum_lt
    obtain ⟨hmod, hdiv⟩ := hp _ _ (by omega) hid
    simp only [hmod, hdiv, Spelling.user, fmtUnsigned_value hu]
    rw [if_neg (by omega)]
    cases suffix with
    | bare =>
      rw [Suffix.InRange] at hr
      rw [Suffix.start, aidAppStart]
      split_ifs at hr with hg
      · rw [if_neg (by omega), if_neg (by omega), if_neg (by omega), if_neg (by omega), if_neg (by omega),
          Nat.add_sub_cancel, fmtUnsigned_value hn]
      · rw [if_neg (fun h => hg h.1), if_neg (fun h => hg h.1), if_neg (fun h => hg h.1), if_neg (fun h => hg h.1),
          if_neg (by omega), Nat.add_sub_cancel, fmtUnsigned_value hn]
    | extCache =>
      obtain ⟨hg, hv⟩ := hr
      rw [Suffix.start, aidExtCacheGidStart, if_neg (by omega), if_pos ⟨hg, by omega⟩, Nat.add_sub_cancel,
        fmtUnsigned_value hn]
    | ext =>
      obtain ⟨hg, hv⟩ := hr
      rw [Suffix.start, aidExtGidStart, if_neg (by omega), if_neg (by omega), if_pos ⟨hg, by omega⟩,
        Nat.add_sub_cancel, fmtUnsigned_value hn]
    | cache =>
      obtain ⟨hg, hv⟩ := hr
      rw [Suffix.start, aidCacheGidStart, if_neg (by omega), if_neg (by omega), if_neg (by omega),
        if_pos ⟨hg, by omega⟩, Nat.add_sub_cancel, fmtUnsigned_value hn]
  | isolated u n =>
    obtain ⟨hu, hn, hv⟩ := h
    obtain ⟨hmod, hdiv⟩ := hp (value n + 90000) _ (by omega) hid
    simp only [hmod, hdiv, Spelling.user, fmtUnsigned_value hu]
    rw [if_pos (by omega), Nat.add_sub_cancel, fmtUnsigned_value hn]
  | platform u name =>
    obtain ⟨hu, -⟩ := h
    obtain ⟨e, he, rfl, hlt, heq⟩ := hid
    rw [aidAppStart] at hlt
    obtain ⟨hmod, hdiv⟩ := hp _ _ (by omega) heq
    simp only [hmod, hdiv, Spelling.user, fmtUnsigned_value hu]
    rw [if_neg (by omega), if_neg (by omega), if_neg (by omega), if_neg (by omega), if_neg (by omega),
      if_pos (by omega), findById_of_mem he]
    rfl

end Spell

end Bionic.Pwd
