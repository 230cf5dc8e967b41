import Bionic.Linker.SymbolTables
import Mathlib.Data.List.Nodup
import Mathlib.Data.List.Perm.Subperm

namespace Bionic.Linker

open List Option Nat Soinfo

open Lib (CString stringAt)

section GnuWalk

variable {same : UInt32 → Bool} {check : UInt32 → Option Bool}

theorem GnuHash.walk_spec {chain : List UInt32} {n : UInt32} (hend : ∃ c ∈ chain, c &&& 1 ≠ 0)
    (hbo : n.toNat + chain.length ≤ 2 ^ 32)
    (hch : ∀ i : UInt32, i.toNat < n.toNat + chain.length → n.toNat ≤ i.toNat → ∃ b, check i = some b) :
    ∃ r, GnuHash.walk same check chain n = some r ∧
      match r with
      | some i => i.toNat < n.toNat + chain.length ∧ check i = some true
      | none => ∀ (k : Nat) (c i : UInt32), chain[k]? = some c → i.toNat = n.toNat + k → same c →
          (∀ j < k, ∀ c, chain[j]? = some c → c &&& 1 = 0) → check i = some false := by
  induction chain generalizing n with
  | nil =>
    obtain ⟨c, hc, -⟩ := hend
    cases hc
  | cons c chain ih =>
    rw [length_cons] at hbo hch
    obtain ⟨b, hb⟩ := hch n (by omega) (le_refl _)
    by_cases hf : same c ∧ b
    · refine ⟨some n, by simp [walk, hb, hf], ?_, ?_⟩
      · rw [length_cons]
        omega
      · rw [hb, hf.2]
    have hfi (hs : same c) : check n = some false := by
      have : b = false := by simpa [hs] using hf
      rw [hb, this]
    have hw : walk same check (c :: chain) n =
        if c &&& 1 = 0 then walk same check chain (n + 1) else some none := by
      by_cases hs : same c
      · simp [walk, hs, hfi hs]
      · simp [walk, hs]
    rw [hw]
    split
    · rename_i hg
      have hend' : ∃ c ∈ chain, c &&& 1 ≠ 0 := by
        obtain ⟨e, he, hm⟩ := hend
        rcases mem_cons.1 he with rfl | he
        · exact absurd hg hm
        · exact ⟨e, he, hm⟩
      have hpos : 0 < chain.length := length_pos_of_mem hend'.choose_spec.1
      have hsu : (n + 1).toNat = n.toNat + 1 := by
        rw [UInt32.toNat_add, UInt32.toNat_one]
        omega
      obtain ⟨r, hr, hsp⟩ := ih (n := n + 1) hend' (by omega) fun i hlt hle => hch i (by omega) (by omega)
      refine ⟨r, hr, ?_⟩
      cases r with
      | some i => exact ⟨by rw [length_cons]; omega, hsp.2⟩
      | none =>
        intro k e i hk hi hs hbe
        cases k with
        | zero =>
          obtain rfl : i = n := UInt32.toNat_inj.1 hi
          rw [getElem?_cons_zero, some.injEq] at hk
          exact hfi (hk ▸ hs)
        | succ k =>
          exact hsp k e i hk (by omega) hs fun j hj e he => hbe (j + 1) (by omega) e he
    · rename_i hm
      refine ⟨none, rfl, ?_⟩
      intro k e i hk hi hs hbe
      cases k with
      | zero =>
        obtain rfl : i = n := UInt32.toNat_inj.1 hi
        rw [getElem?_cons_zero, some.injEq] at hk
        exact hfi (hk ▸ hs)
      | succ k => exact absurd (hbe 0 (succ_pos k) c rfl) hm

end GnuWalk

section Gnu

variable {si : Soinfo} {t : GnuHash} {name : CString} {vi : Option VersionInfo}

theorem one_and_shiftRight_and_shiftRight_eq_one_iff (word : UInt64) {a b : UInt64} (ha : a < 64) (hb : b < 64) :
    1 &&& (word >>> a) &&& (word >>> b) = 1 ↔ word.toNat.testBit a.toNat ∧ word.toNat.testBit b.toNat := by
  have hmod (x y : Nat) : 1 &&& x &&& y = 1 ↔ x % 2 = 1 ∧ y % 2 = 1 := by
    rw [one_and_eq_mod_two]
    rcases mod_two_eq_zero_or_one x with hx | hx
    · rw [hx, zero_and]
      omega
    · rw [hx, one_and_eq_mod_two, and_iff_right rfl]
  have ha' : a.toNat < 64 := ha
  have hb' : b.toNat < 64 := hb
  rw [← UInt64.toNat_inj, UInt64.toNat_and, UInt64.toNat_and, UInt64.toNat_shiftRight, UInt64.toNat_shiftRight,
    UInt64.toNat_one, hmod, mod_eq_of_lt ha', mod_eq_of_lt hb',
    shiftRight_eq_div_pow, shiftRight_eq_div_pow, testBit_eq_decide_div_mod_eq,
    testBit_eq_decide_div_mod_eq, decide_eq_true_iff, decide_eq_true_iff]

theorem GnuHash.bloomTest_eq (hwf : t.WellFormed si) (hash : UInt32) :
    ∃ word, t.bloomFilter[hash.toNat / 64 % t.bloomFilter.length]? = some word ∧
      t.bloomTest hash = some (word.toNat.testBit (hash.toNat % 64) &&
        word.toNat.testBit (hash.toNat / 2 ^ t.shift2.toNat % 64)) := by
  obtain ⟨k, hk⟩ := hwf.powerof2
  have hw : ((hash / kBloomMaskBits) &&& t.maskwords).toNat = hash.toNat / 64 % t.bloomFilter.length := by
    rw [hwf.maskwords, UInt32.toNat_and, UInt32.toNat_div, hk, ← and_two_pow_sub_one_eq_mod, ← hk]
    rfl
  have hpos : 0 < t.bloomFilter.length := by rw [hwf.maskwords]; omega
  obtain ⟨word, hget⟩ : ∃ word, t.bloomFilter[hash.toNat / 64 % t.bloomFilter.length]? = some word :=
    ⟨_, getElem?_eq_getElem (mod_lt _ hpos)⟩
  refine ⟨word, hget, ?_⟩
  have hs : t.shift2.toNat < 32 := hwf.shift2
  have hmod (x : UInt32) : (x % kBloomMaskBits).toUInt64.toNat = x.toNat % 64 := by
    rfl
  have hlt (x : UInt32) : (x % kBloomMaskBits).toUInt64 < 64 := by
    rw [UInt64.lt_iff_toNat_lt, hmod]
    exact mod_lt _ (by decide)
  simp only [bloomTest, bind, pure, hw, hget, bind_some,
    one_and_shiftRight_and_shiftRight_eq_one_iff word (hlt _) (hlt _), hmod, UInt32.toNat_shiftRight,
    mod_eq_of_lt hs, shiftRight_eq_div_pow, Bool.decide_and, Bool.decide_eq_true]

theorem Soinfo.WellFormed.gnuHash (hwf : si.WellFormed) (hgnu : si.gnu = some t) : t.WellFormed si := by
  have ht := hwf.hash
  rwa [hgnu] at ht

theorem GnuHash.WellFormed.leads (ht : t.WellFormed si) {i : UInt32} (hi : si.Provides name vi i) :
    t.Leads (gnuHash name.bytes) i.toNat := by
  obtain ⟨s, hs, hd, hst, -⟩ := hi
  exact ht.hashed i.toNat s name.bytes hs ((isSymbolGlobalAndDefined_iff s).2 hd) hst

theorem GnuHash.WellFormed.bloom_bucket (ht : t.WellFormed si) (name : CString) (vi : Option VersionInfo) :
    (t.bloomTest (gnuHash name.bytes) = some false ∧ si.Finds name vi none) ∨
      t.bloomTest (gnuHash name.bytes) = some true ∧ ∃ n, t.bucketOf (gnuHash name.bytes) = some n ∧
        (n = 0 → si.Finds name vi none) := by
  obtain ⟨word, hw, hb⟩ := bloomTest_eq ht (gnuHash name.bytes)
  rw [hb]
  cases hte : word.toNat.testBit ((gnuHash name.bytes).toNat % 64) &&
      word.toNat.testBit ((gnuHash name.bytes).toNat / 2 ^ t.shift2.toNat % 64) with
  | false =>
    refine .inl ⟨rfl, fun i hi => ?_⟩
    obtain ⟨word', hw', h1, h2⟩ := (ht.leads hi).bloom
    obtain rfl := mem_unique hw hw'
    rw [h1, h2] at hte
    cases hte
  | true =>
    have hpos := length_pos_of_ne_nil ht.buckets
    refine .inr ⟨rfl, _, getElem?_eq_getElem (mod_lt _ hpos), fun hz i hi => ?_⟩
    obtain ⟨n, hn, hne, -⟩ := (ht.leads hi).bucket
    rw [bucketOf, getElem?_eq_getElem (mod_lt _ hpos), some.injEq] at hn
    exact hne (hn.symm.trans hz)

theorem GnuHash.walk_finds (hwf : si.WellFormed) (hgnu : si.gnu = some t) (same : UInt32 → Bool)
    (hsa : ∀ c, same c ↔ c >>> 1 = gnuHash name.bytes >>> 1) {check : UInt32 → Option Bool}
    (hch : ∀ i : UInt32, i.toNat < si.symtab.length →
      ∃ b, check i = some b ∧ (b ↔ si.Provides name vi i))
    {n : UInt32} (hbu : t.bucketOf (gnuHash name.bytes) = some n) (hn : n ≠ 0) :
    ∃ r, GnuHash.walk same check (t.chainFrom n) n = some r ∧ si.Finds name vi r := by
  have ht := hwf.gnuHash hgnu
  obtain ⟨hle, hlt⟩ := ht.starts n (mem_of_getElem? hbu) hn
  have hsy := hwf.symbols
  have hta := ht.chain
  have hca : t.chainFrom n = t.chain.drop (n.toNat - t.symndx) := if_neg (by omega)
  have hl : n.toNat + (t.chainFrom n).length = si.symtab.length := by
    rw [hca, length_drop]
    omega
  have hget (k : Nat) : (t.chainFrom n)[k]? = t.chain[n.toNat + k - t.symndx]? := by
    rw [hca, getElem?_drop, Nat.sub_add_comm hle]
  have hend : ∃ c ∈ t.chainFrom n, c &&& 1 ≠ 0 := by
    have hne : t.chainFrom n ≠ [] := ne_nil_of_length_pos (by omega)
    refine ⟨_, getLast_mem hne, ht.ended _ ?_⟩
    rw [← getLast?_eq_some_getLast hne, hca, getLast?_drop, if_neg (by omega)]
  obtain ⟨r, hr, hsp⟩ := GnuHash.walk_spec (n := n) hend (by omega) fun i hi _ =>
    (hch i (by omega)).imp fun _ h => h.1
  refine ⟨r, hr, ?_⟩
  cases r with
  | some i =>
    obtain ⟨b, hb, hp⟩ := hch i (by omega)
    rw [hsp.2, some.injEq] at hb
    exact hp.1 hb.symm
  | none =>
    intro i hi
    obtain ⟨-, ⟨n', hn', -, hle', hbe⟩, c, hc, hh⟩ := ht.leads hi
    obtain rfl := mem_unique hbu hn'
    have hi' : i.toNat = n.toNat + (i.toNat - n.toNat) := by omega
    obtain ⟨s, hs, -⟩ := id hi
    obtain ⟨b, hb, hp⟩ := hch i (List.getElem?_eq_some_iff.1 hs).1
    have hf := hsp (i.toNat - n.toNat) c i (by rw [hget, ← hi']; exact hc) hi' ((hsa c).2 hh)
      fun j hj e he => hbe (n.toNat + j) (by omega) (by omega) e (by rwa [hget] at he)
    rw [hf, some.injEq] at hb
    exact absurd (hp.2 hi) (by simp [← hb])

theorem gnuLookup_finds (hwf : si.WellFormed) (hgnu : si.gnu = some t) (hvi : ∀ v, vi = some v → v.WellFormed) :
    ∃ r, si.gnuLookup t name vi = some r ∧ si.Finds name vi r := by
  unfold gnuLookup
  rcases (hwf.gnuHash hgnu).bloom_bucket name vi with ⟨hb, hno⟩ | ⟨hb, n, hn, hz⟩
  · exact ⟨none, by simp [hb], hno⟩
  by_cases h0 : n = 0
  · exact ⟨none, by simp [hb, hn, h0], hz h0⟩
  obtain ⟨r, hr, hf⟩ := GnuHash.walk_finds hwf hgnu
    (fun c => (c ^^^ gnuHash name.bytes) >>> 1 = 0)
    (fun c => by rw [decide_eq_true_iff, UInt32.shiftRight_xor, UInt32.xor_eq_zero_iff])
    (fun i hi => checkSymbol_spec name vi hwf hi) hn h0
  refine ⟨r, ?_, hf⟩
  simp only [hb, hn, h0, findVerdefVersionIndex_eq_neededVersion hwf hvi, bind, bind_some, if_true]
  exact hr

end Gnu

section Sysv

variable {si : Soinfo} {name : CString} {vi : Option VersionInfo}

variable {l : List UInt32} {n : UInt32} {t : SysvHash}

theorem elfLookupLoop_spec (name : CString) (vi : Option VersionInfo) (hwf : si.WellFormed)
    (ht : si.sysv.WellFormed si)
    (hl : si.sysv.Links n l) {fuel : Nat} (hf : l.length < fuel) :
    ∃ r, si.elfLookupLoop name (si.neededVersion vi) fuel n = some r ∧
      match r with
      | some i => si.Provides name vi i
      | none => ∀ i ∈ l, ¬ si.Provides name vi i := by
  induction hl generalizing fuel with
  | nil =>
    obtain ⟨fuel, rfl⟩ := Nat.exists_eq_succ_of_ne_zero (Nat.ne_zero_of_lt hf)
    exact ⟨none, by simp, by simp⟩
  | cons hn hne hl ih =>
    obtain ⟨fuel, rfl⟩ := Nat.exists_eq_succ_of_ne_zero (Nat.ne_zero_of_lt hf)
    rename_i n next l
    have hlt : n.toNat < si.symtab.length := by
      rw [← ht.chain]
      exact (List.getElem?_eq_some_iff.1 hne).1
    obtain ⟨b, hb, hp⟩ := checkSymbol_spec name vi hwf hlt
    cases b with
    | true => exact ⟨some n, by simp [hn, hb], hp.1 rfl⟩
    | false =>
      obtain ⟨r, hr, hs⟩ := ih (lt_of_succ_lt_succ hf)
      refine ⟨r, by simp [hn, hb, hne, hr], ?_⟩
      cases r with
      | some i => exact hs
      | none =>
        intro i hi
        rcases mem_cons.1 hi with rfl | hi
        · simp [← hp]
        · exact hs i hi

theorem SysvHash.Links.lt (h : t.Links n l) : ∀ i ∈ l, i.toNat < t.chain.length := by
  induction h with
  | nil => simp
  | cons hn hne hl ih =>
    rw [forall_mem_cons]
    exact ⟨(List.getElem?_eq_some_iff.1 hne).1, ih⟩

theorem SysvHash.Links.length_le (h : t.Links n l) (hl : l.Nodup) : l.length ≤ t.chain.length := by
  have hsub : l.map UInt32.toNat ⊆ range t.chain.length := by
    intro x hx
    obtain ⟨i, hi, rfl⟩ := mem_map.1 hx
    exact mem_range.2 (h.lt i hi)
  have hn : (l.map UInt32.toNat).Nodup := hl.map fun _ _ => UInt32.toNat_inj.1
  simpa using (subperm_of_subset hn hsub).length_le

theorem SysvHash.Links.unique {l' : List UInt32} (h : t.Links n l) (h' : t.Links n l') : l = l' := by
  induction h generalizing l' with
  | nil =>
    cases h' with
    | nil => rfl
    | cons hn => exact absurd rfl hn
  | cons hn hne hl ih =>
    cases h' with
    | nil => exact absurd rfl hn
    | cons _ hne' hl' =>
      obtain rfl := mem_unique hne hne'
      rw [ih hl']

theorem elfLookup_finds (hwf : si.WellFormed) (hgnu : si.gnu = none) (hvi : ∀ v, vi = some v → v.WellFormed) :
    ∃ r, si.elfLookup name vi = some r ∧ si.Finds name vi r := by
  have ht : si.sysv.WellFormed si := by
    have ht := hwf.hash
    rwa [hgnu] at ht
  have hpos := length_pos_of_ne_nil ht.buckets
  obtain ⟨n, hn⟩ : ∃ n, si.sysv.bucket[(calculateElfHash name.bytes).toNat % si.sysv.bucket.length]? = some n :=
    ⟨_, getElem?_eq_getElem (mod_lt _ hpos)⟩
  obtain ⟨l, hno, hl⟩ := ht.chains n (mem_of_getElem? hn)
  obtain ⟨r, hr, hsp⟩ := elfLookupLoop_spec name vi hwf ht hl
    (lt_succ_of_le (hl.length_le hno))
  refine ⟨r, ?_, ?_⟩
  · simp only [elfLookup, findVerdefVersionIndex_eq_neededVersion hwf hvi, hn, bind]
    exact hr
  · cases r with
    | some i => exact hsp
    | none =>
      intro i hi
      obtain ⟨s, hs, hd, hst, -⟩ := id hi
      obtain ⟨n', l', hn', hl', hmem⟩ :=
        ht.hashed i s name.bytes hs ((isSymbolGlobalAndDefined_iff s).2 hd) hst
      obtain rfl := mem_unique hn hn'
      exact hsp i (hl.unique hl' ▸ hmem) hi

end Sysv

theorem findSymbolByName_finds {si : Soinfo} {name : CString} {vi : Option VersionInfo} (hwf : si.WellFormed)
    (hvi : ∀ v, vi = some v → v.WellFormed) : ∃ r, si.findSymbolByName name vi = some r ∧ si.Finds name vi r := by
  unfold findSymbolByName
  split
  · rename_i t hgnu
    exact gnuLookup_finds hwf hgnu hvi
  · rename_i hgnu
    exact elfLookup_finds hwf hgnu hvi

end Bionic.Linker
