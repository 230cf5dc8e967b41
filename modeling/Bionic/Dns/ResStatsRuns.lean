import Bionic.Dns.ResStats
import Bionic.Lib.System

namespace Bionic.Dns

open Lib Function

variable {max : Nat} {stats : ResStats} {h : List ResSample} {info : CacheInfo} {params : Option ResParams}
  {servers : List String} (numeric : String → Bool)

theorem ResStats.holds_nil (h0 : stats.sampleCount = 0) (h1 : stats.sampleNext = 0) : stats.Holds max [] := by
  rw [ResStats.Holds, h0, h1]
  exact .empty max stats.samples

theorem ResStats.holds_clear (stats : ResStats) : stats.clear.Holds max [] := holds_nil rfl rfl

theorem ResStats.Holds.nil_of_count {max' : Nat} (hr : stats.Holds max h) (h0 : stats.sampleCount = 0) :
    stats.Holds max' [] :=
  holds_nil h0 (RingOf.next_of_count hr h0)

theorem ResStats.Holds.addStatsSample (hr : stats.Holds max h) (hpos : 0 < max) (hmax : max ≤ maxNsSamples)
    (sample : ResSample) : (CacheInfo.addStatsSample stats sample max).Holds max (h ++ [sample]) := by
  have hb : max ≤ 64 := hmax
  have hn := RingOf.next_lt hr hpos
  have hc := hr.count_eq
  have hn' : (stats.sampleNext + 1) % 256 = stats.sampleNext + 1 := Nat.mod_eq_of_lt (by omega)
  have hc' : (stats.sampleCount + 1) % 256 = stats.sampleCount + 1 := Nat.mod_eq_of_lt (by omega)
  have hp := RingOf.push hr hpos sample
  simp only [Holds, CacheInfo.addStatsSample, hn', hc', Int.ofNat_lt, Int.ofNat_le]
  exact hp

namespace CacheInfo

def NoSamplesFrom (info : CacheInfo) (k : Nat) : Prop := ∀ i, k ≤ i → i < maxNs → (info.nsstats i).sampleCount = 0

/-- A set call finds no sample that it would leave behind: outside the old list, if it replaces it; beside the
first server, if it keeps the list but changes the size of the rings; and none at all, if it keeps the list for one
that is another than the `last` list set. -/
structure SetClears (info : CacheInfo) (last servers : List String) (params : Option ResParams) : Prop where
  replaced : info.isNameserversEqual servers = false → ∀ i, 1 ≤ i → info.nscount ≤ i → i < maxNs →
    (info.nsstats i).sampleCount = 0
  resized : info.isNameserversEqual servers → (params.getD .default).maxSamples ≠ info.params.maxSamples →
    info.NoSamplesFrom 1
  mistaken : info.isNameserversEqual servers → servers ≠ last →
    (params.getD .default).maxSamples = info.params.maxSamples → info.NoSamplesFrom 0

def HoldsAll (info : CacheInfo) (added : Nat → List ResSample) : Prop :=
  ∀ i < maxNs, (info.nsstats i).Holds info.params.maxSamples (added i)

variable {added : Nat → List ResSample}

theorem clearStats_holds (hin : info.HoldsAll added) (hn : info.NoSamplesFrom 1)
    (max : Nat) : ∀ i < maxNs, (info.clearStats.nsstats i).Holds max [] := by
  intro i hi
  rw [clearStats_nsstats]
  split
  · exact ResStats.holds_clear _
  · exact (hin i hi).nil_of_count (hn i (by omega) hi)

theorem setNameservers_params (info : CacheInfo) (servers : List String) (params : Option ResParams) :
    (info.setNameservers servers params).params = params.getD .default := by
  simp only [setNameservers]
  split
  · exact freeNameservers_params _
  · split <;> rfl

theorem setNameservers_nameservers (info : CacheInfo) (servers : List String) (params : Option ResParams) :
    (info.setNameservers servers params).nameservers =
      if info.isNameserversEqual servers then info.nameservers else servers := by
  have he : { info with params := params.getD .default }.isNameserversEqual servers =
    info.isNameserversEqual servers := rfl
  simp only [setNameservers, he]
  cases info.isNameserversEqual servers with
  | false => rfl
  | true =>
    simp only [Bool.not_true, Bool.false_eq_true, if_false, if_true]
    split <;> rfl

theorem setNameservers_agrees (info : CacheInfo) (servers : List String) (params : Option ResParams) :
    (info.setNameservers servers params).isNameserversEqual servers := by
  rw [isNameserversEqual, nscount, setNameservers_nameservers]
  cases he : info.isNameserversEqual servers with
  | false => simp
  | true => exact he

theorem setNameservers_holds {last : List String} (hin : info.HoldsAll added) (hl : info.isNameserversEqual last)
    (hset : info.SetClears last servers params) :
    (info.setNameservers servers params).HoldsAll
      (if servers = last ∧ (params.getD .default).maxSamples = info.params.maxSamples then added else fun _ => []) := by
  cases he : info.isNameserversEqual servers with
  | false =>
    have he' : { info with params := params.getD .default }.isNameserversEqual servers = false := he
    have hc : servers ≠ last := by
      rintro rfl
      rw [hl] at he
      cases he
    rw [if_neg fun h => hc h.1]
    intro i hi
    simp only [setNameservers, he', Bool.not_false, if_true, clearStats_nsstats, freeNameservers_nsstats]
    split
    · exact ResStats.holds_clear _
    · split
      · exact ResStats.holds_clear _
      · exact (hin i hi).nil_of_count (hset.replaced he i (by omega) (by simp_all [nscount]) hi)
  | true =>
    have he' : { info with params := params.getD .default }.isNameserversEqual servers := he
    by_cases hs : (params.getD .default).maxSamples = info.params.maxSamples
    · have hr : info.setNameservers servers params = { info with params := params.getD .default } := by
        simp [setNameservers, he', hs]
      rw [hr]
      intro i hi
      simp only [hs, and_true]
      split
      · exact hin i hi
      · rename_i hc
        exact (hin i hi).nil_of_count (hset.mistaken he hc hs i (Nat.zero_le i) hi)
    · rw [if_neg fun h => hs h.2]
      intro i hi
      simp only [setNameservers, he', Bool.not_true, Bool.false_eq_true, if_false, ne_eq, hs, not_false_eq_true,
        if_true, clearStats_nsstats]
      split
      · exact ResStats.holds_clear _
      · exact (hin i hi).nil_of_count (hset.resized he hs i (by omega) hi)

end CacheInfo

section

variable {numeric : String → Bool} {servers : List String}

theorem setNameserversForNet_accepted (h : servers.length ≤ maxNs ∧ servers.all numeric) (alloc : Bool)
    (params : Option ResParams) (net : Option CacheInfo) :
    setNameserversForNet numeric alloc net servers params =
      (.ok, (getResCacheForNet alloc net).map (·.setNameservers servers params)) := by
  rw [setNameserversForNet, if_neg (by omega), if_neg (by simp [h.2])]

theorem setNameserversForNet_refused (h : ¬(servers.length ≤ maxNs ∧ servers.all numeric)) (alloc : Bool)
    (params : Option ResParams) (net : Option CacheInfo) :
    setNameserversForNet numeric alloc net servers params = (.e2big, net) ∨
      setNameserversForNet numeric alloc net servers params = (.einval, net) := by
  rw [setNameserversForNet]
  split
  · exact .inl rfl
  · rw [if_pos (by simp_all)]
    exact .inr rfl

end

/-- One network with the list of the last set call that was accepted and, for each index, the samples added since the
last change of the list, the last change of `max_samples` and the last flush. -/
structure Tracked where
  net : Option CacheInfo
  servers : List String
  added : Nat → List ResSample

namespace Tracked

def maxSamples (net : Option CacheInfo) : Option Nat := net.map (·.params.maxSamples)

def set (alloc : Bool) (servers : List String) (params : Option ResParams) (t : Tracked) : Tracked :=
  match setNameserversForNet numeric alloc t.net servers params with
  | (.ok, net) =>
    ⟨net, servers, if servers = t.servers ∧ maxSamples net = maxSamples t.net then t.added else fun _ => []⟩
  | (_, net) => { t with net := net }

def flush (t : Tracked) : Tracked := ⟨flushCacheForNet t.net, t.servers, fun _ => []⟩

def add (info : CacheInfo) (ns : Nat) (sample : ResSample) (t : Tracked) : Tracked :=
  ⟨addResolverStatsSample t.net info.revisionId ns sample info.params.maxSamples, t.servers,
    update t.added ns (t.added ns ++ [sample])⟩

/-- The calls on one network, where a set call and a flush find no sample that they would leave behind. -/
inductive Step (numeric : String → Bool) : Tracked → Tracked → Prop
  | set (t : Tracked) (alloc : Bool) (servers : List String) (params : Option ResParams)
      (hmax : ∀ p, params = some p → p.maxSamples ≤ maxNsSamples)
      (hclears : servers.length ≤ maxNs → servers.all numeric → ∀ info, t.net = some info →
        info.SetClears t.servers servers params) :
      Step numeric t (t.set numeric alloc servers params)
  | flush (t : Tracked) (hclears : ∀ info, t.net = some info → info.NoSamplesFrom 1) : Step numeric t t.flush
  | add (t : Tracked) (info : CacheInfo) (ns : Nat) (sample : ResSample) (hnet : t.net = some info) (hns : ns < maxNs) :
      Step numeric t (t.add info ns sample)

def system : System Tracked := ⟨fun t => t = ⟨none, [], fun _ => []⟩, Step numeric⟩

structure Exact (t : Tracked) : Prop where
  max_le : ∀ info, t.net = some info → info.params.maxSamples ≤ maxNsSamples
  agrees : ∀ info, t.net = some info → info.isNameserversEqual t.servers
  holds : ∀ info, t.net = some info → info.HoldsAll t.added

variable {t : Tracked} {numeric : String → Bool}

variable {added : Nat → List ResSample} {info : CacheInfo}

theorem Exact.of_none (servers : List String) (added : Nat → List ResSample) : Exact ⟨none, servers, added⟩ :=
  ⟨nofun, nofun, nofun⟩

theorem Exact.of_some (hmax : info.params.maxSamples ≤ maxNsSamples) (ha : info.isNameserversEqual servers)
    (hh : info.HoldsAll added) : Exact ⟨some info, servers, added⟩ := by
  refine ⟨?_, ?_, ?_⟩
  · rintro _ ⟨⟩
    exact hmax
  · rintro _ ⟨⟩
    exact ha
  · rintro _ ⟨⟩
    exact hh

theorem Exact.set (ht : t.Exact) {alloc : Bool} (hmax : ∀ p, params = some p → p.maxSamples ≤ maxNsSamples)
    (hcl : servers.length ≤ maxNs → servers.all numeric → ∀ info, t.net = some info →
      info.SetClears t.servers servers params) : (t.set numeric alloc servers params).Exact := by
  have hp : (params.getD .default).maxSamples ≤ maxNsSamples := by
    cases params with
    | none => exact Nat.zero_le _
    | some p => exact hmax p rfl
  obtain ⟨net, last, added⟩ := t
  by_cases ha : servers.length ≤ maxNs ∧ servers.all numeric
  · rw [Tracked.set, setNameserversForNet_accepted ha]
    cases net with
    | none =>
      cases alloc with
      | false => exact .of_none ..
      | true =>
        have hz : CacheInfo.zero.HoldsAll fun _ => [] := fun i _ => ResStats.holds_nil rfl rfl
        have hset : CacheInfo.zero.SetClears [] servers params :=
          ⟨fun _ _ _ _ _ => rfl, fun _ _ _ _ _ => rfl, fun _ _ _ _ _ _ => rfl⟩
        have hh := CacheInfo.setNameservers_holds hz rfl hset
        rw [ite_self] at hh
        refine .of_some ?_ (CacheInfo.setNameservers_agrees ..) ?_
        · rwa [CacheInfo.setNameservers_params]
        · rw [if_neg fun h => nomatch h.2]
          exact hh
    | some info =>
      have hh := CacheInfo.setNameservers_holds (ht.holds info rfl) (ht.agrees info rfl) (hcl ha.1 ha.2 info rfl)
      refine .of_some ?_ (CacheInfo.setNameservers_agrees ..) ?_
      · rwa [CacheInfo.setNameservers_params]
      · simpa only [getResCacheForNet, Option.orElse_some, maxSamples, Option.map_some, Option.some.injEq,
          CacheInfo.setNameservers_params] using hh
  · rw [Tracked.set]
    rcases setNameserversForNet_refused ha alloc params net with h | h <;> rw [h] <;> exact ht

theorem Exact.flush (ht : t.Exact) (hc : ∀ info, t.net = some info → info.NoSamplesFrom 1) : t.flush.Exact := by
  obtain ⟨net, last, added⟩ := t
  cases net with
  | none => exact .of_none ..
  | some info =>
    exact .of_some (ht.max_le info rfl) (ht.agrees info rfl)
      (CacheInfo.clearStats_holds (ht.holds info rfl) (hc info rfl) _)

theorem Exact.add (ht : t.Exact) (hnet : t.net = some info) (ns : Nat) (sample : ResSample) :
    (t.add info ns sample).Exact := by
  obtain ⟨net, last, added⟩ := t
  cases hnet
  have hmax := ht.max_le info rfl
  have hagrees := ht.agrees info rfl
  have hh := ht.holds info rfl
  by_cases hz : info.params.maxSamples = 0
  · rw [Tracked.add, addResolverStatsSample, if_pos (by omega)]
    apply Exact.of_some hmax hagrees
    intro i hi
    have hold := hh i hi
    by_cases hns : i = ns
    · subst hns
      rw [hz] at hold ⊢
      rw [update_self]
      exact RingOf.push_of_zero hold sample
    · rwa [update_of_ne hns]
  · rw [Tracked.add, addResolverStatsSample, if_neg (by omega), Option.map_some, if_pos rfl]
    refine Exact.of_some hmax hagrees ?_
    intro i hi
    have hold := hh i hi
    simp only [update_apply]
    split_ifs with hns
    · subst hns
      exact hold.addStatsSample (Nat.pos_of_ne_zero hz) hmax sample
    · exact hold

theorem exact_invariant (numeric : String → Bool) : (system numeric).Invariant Exact where
  init t ht := by
    cases ht
    exact .of_none ..
  step t t' ht hs := by
    cases hs with
    | set alloc servers params hmax hc => exact ht.set hmax hc
    | flush hc => exact ht.flush hc
    | add info ns sample hnet hns => exact ht.add hnet ns sample

/-- Where no set call and no flush finds a sample it would leave behind, the statistics of each index are the
last `max_samples` samples added for it, and so is the aggregate. -/
theorem stats_exact (numeric : String → Bool) (t : Tracked) (ht : (system numeric).Reachable t) (info : CacheInfo)
    (hnet : t.net = some info) (ns : Nat) (hns : ns < maxNs) :
    (info.nsstats ns).held = (t.added ns).rtake info.params.maxSamples ∧
      (info.nsstats ns).sampleCount ≤ info.params.maxSamples ∧ (info.nsstats ns).sampleNext < maxNsSamples ∧
      aggregate (info.nsstats ns) = summary ((t.added ns).rtake info.params.maxSamples) := by
  have he := (exact_invariant numeric).reachable ht
  have hh := he.holds info hnet ns hns
  refine ⟨RingOf.rotate_held hh, ?_, ?_, aggregate_eq_summary hh⟩
  · rw [hh.count_eq]
    exact Nat.min_le_right _ _
  · have hmax := he.max_le info hnet
    by_cases hz : info.params.maxSamples = 0
    · rw [hh.next_eq, if_pos hz]
      decide
    · exact (RingOf.next_lt hh (Nat.pos_of_ne_zero hz)).trans_le hmax

def okSample : ResSample := ⟨100, 20, rcodeNoError⟩

def twoServers : CacheInfo := CacheInfo.zero.setNameservers ["192.0.2.1", "192.0.2.2"] (some ⟨1800, 75, 0, 8, 0⟩)

def sampled (ns : Nat) : Tracked :=
  (Tracked.mk (some twoServers) ["192.0.2.1", "192.0.2.2"] fun _ => []).add twoServers ns okSample

theorem sampled_reachable (ns : Nat) (hns : ns < maxNs) : (system fun _ => true).Reachable (sampled ns) := by
  apply System.Reachable.step (s := ⟨some twoServers, ["192.0.2.1", "192.0.2.2"], fun _ => []⟩)
  · apply System.Reachable.step (.of_init rfl)
    exact .set ⟨none, [], fun _ => []⟩ true ["192.0.2.1", "192.0.2.2"] (some ⟨1800, 75, 0, 8, 0⟩)
      (by rintro _ ⟨⟩; decide) (fun _ _ _ h => (nomatch h))
  · exact .add _ twoServers ns okSample rfl hns

theorem stats_exact_sampled : (((sampled 1).net.getD .zero).nsstats 1).held = [okSample] :=
  (stats_exact (fun _ => true) (sampled 1) (sampled_reachable 1 (by decide)) _ rfl 1 (by decide)).1

/-- The flush that follows leaves the sample of the second server where it is. -/
theorem flush_keeps_second_server :
    (sampled 1).flush.added 1 = [] ∧ (sampled 1).flush.net.map (fun info => (info.nsstats 1).held) = some [okSample] := by
  decide

end Tracked

end Bionic.Dns
