import Bionic.Lib.Ring
import Mathlib.Algebra.BigOperators.Group.List.Basic
import Mathlib.Algebra.Order.Ring.Nat

namespace Bionic.Dns

open Lib Function List

abbrev maxNs : Nat := 4

abbrev maxNsSamples : Nat := 64

def rcodeNoError : UInt8 := 0
def rcodeNxDomain : UInt8 := 3
def rcodeNotAuth : UInt8 := 9
def rcodeInternalError : UInt8 := 254
def rcodeTimeout : UInt8 := 255

structure ResSample where
  recordedAt : Int
  rtt : UInt16
  rcode : UInt8
deriving DecidableEq, Repr

structure ResStats where
  samples : Nat → ResSample
  sampleCount : Nat
  sampleNext : Nat

def ResStats.zero : ResStats := ⟨fun _ => ⟨0, 0, 0⟩, 0, 0⟩

def ResStats.clear (stats : ResStats) : ResStats := { stats with sampleCount := 0, sampleNext := 0 }

structure ResParams where
  sampleValidity : Nat
  successThreshold : Nat
  minSamples : Nat
  maxSamples : Nat
  baseTimeoutMsec : Int
deriving DecidableEq, Repr

def ResParams.default : ResParams := ⟨1800, 75, 0, 0, 0⟩

/-- `resolv_cache_info` without the cache and the search domains; the list is `nameservers[0 .. nscount)`. -/
structure CacheInfo where
  nameservers : List String
  revisionId : Int
  params : ResParams
  nsstats : Nat → ResStats

def CacheInfo.zero : CacheInfo := ⟨[], 0, ⟨0, 0, 0, 0, 0⟩, fun _ => .zero⟩

namespace CacheInfo

def nscount (info : CacheInfo) : Nat := info.nameservers.length

def clearAt (info : CacheInfo) (i : Nat) : CacheInfo :=
  { info with nsstats := update info.nsstats i (info.nsstats i).clear }

/-- `_res_cache_clear_stats_locked`: the body of the loop does not use its index, `nsstats->` is the first element. -/
def clearStats (info : CacheInfo) : CacheInfo := (range maxNs).foldl (fun info _ => info.clearAt 0) info

def isNameserversEqual (info : CacheInfo) (servers : List String) : Bool :=
  info.nscount == servers.length && info.nameservers.all (fun name => servers.any (name == ·))

def freeNameservers (info : CacheInfo) : CacheInfo :=
  let info' := (range info.nscount).foldl clearAt info
  let info'' := { info' with nameservers := [] }.clearStats
  { info'' with revisionId := info''.revisionId + 1 }

def setNameservers (info : CacheInfo) (servers : List String) (params : Option ResParams) : CacheInfo :=
  let oldMaxSamples := info.params.maxSamples
  let info := { info with params := params.getD .default }
  if !info.isNameserversEqual servers then
    let info := { info.freeNameservers with nameservers := servers }.clearStats
    { info with revisionId := info.revisionId + 1 }
  else if info.params.maxSamples ≠ oldMaxSamples then
    let info := info.clearStats
    { info with revisionId := info.revisionId + 1 }
  else info

/-- `_res_cache_add_stats_sample_locked`; the counters are bytes. -/
def addStatsSample (stats : ResStats) (sample : ResSample) (maxSamples : Int) : ResStats :=
  let samples := update stats.samples stats.sampleNext sample
  let sampleCount := if stats.sampleCount < maxSamples then (stats.sampleCount + 1) % 256 else stats.sampleCount
  let sampleNext := (stats.sampleNext + 1) % 256
  ⟨samples, sampleCount, if (sampleNext : Int) ≥ maxSamples then 0 else sampleNext⟩

end CacheInfo

inductive SetStatus
  | ok
  | e2big
  | einval
deriving DecidableEq, Repr

/-- `_get_res_cache_for_net_locked`; `alloc` says whether the allocations succeed. -/
def getResCacheForNet (alloc : Bool) (net : Option CacheInfo) : Option CacheInfo :=
  net.orElse fun _ => if alloc then some .zero else none

/-- `_resolv_set_nameservers_for_net` on one network; `numeric` says which texts `getaddrinfo` accepts. -/
def setNameserversForNet (numeric : String → Bool) (alloc : Bool) (net : Option CacheInfo) (servers : List String)
    (params : Option ResParams) : SetStatus × Option CacheInfo :=
  if maxNs < servers.length then (.e2big, net)
  else if !servers.all numeric then (.einval, net)
  else (.ok, (getResCacheForNet alloc net).map (·.setNameservers servers params))

def flushCacheForNet (net : Option CacheInfo) : Option CacheInfo := net.map (·.clearStats)

def addResolverStatsSample (net : Option CacheInfo) (revisionId : Int) (ns : Nat) (sample : ResSample)
    (maxSamples : Int) : Option CacheInfo :=
  if maxSamples ≤ 0 then net
  else net.map fun info =>
    if info.revisionId = revisionId then
      { info with
        nsstats := update info.nsstats ns (CacheInfo.addStatsSample (info.nsstats ns) sample maxSamples) }
    else info

inductive SampleClass
  | success
  | error
  | timeout
  | internalError
deriving DecidableEq, Repr

def ResSample.class (sample : ResSample) : SampleClass :=
  if sample.rcode = rcodeNoError ∨ sample.rcode = rcodeNotAuth ∨ sample.rcode = rcodeNxDomain then .success
  else if sample.rcode = rcodeTimeout then .timeout
  else if sample.rcode = rcodeInternalError then .internalError
  else .error

structure Aggregate where
  successes : Nat
  errors : Nat
  timeouts : Nat
  internalErrors : Nat
  rttAvg : Int
  lastSampleTime : Int
deriving DecidableEq, Repr

structure Counts where
  s : Nat
  e : Nat
  t : Nat
  ie : Nat
  rttSum : Nat
  rttCount : Nat

namespace Counts

def zero : Counts := ⟨0, 0, 0, 0, 0, 0⟩

def count (c : Counts) (sample : ResSample) : Counts :=
  match sample.class with
  | .success => { c with s := c.s + 1, rttSum := c.rttSum + sample.rtt.toNat, rttCount := c.rttCount + 1 }
  | .timeout => { c with t := c.t + 1 }
  | .internalError => { c with ie := c.ie + 1 }
  | .error => { c with e := c.e + 1 }

def rttAvg (c : Counts) : Int := if c.rttCount ≠ 0 then ((c.rttSum / c.rttCount : Nat) : Int) else -1

end Counts

def aggregate (stats : ResStats) : Aggregate :=
  let c : Counts := (range stats.sampleCount).foldl (fun c i => Counts.count c (stats.samples i)) .zero
  let last :=
    if 0 < stats.sampleCount then
      if 0 < stats.sampleNext then (stats.samples (stats.sampleNext - 1)).recordedAt
      else (stats.samples (stats.sampleCount - 1)).recordedAt
    else 0
  ⟨c.s, c.e, c.t, c.ie, c.rttAvg, last⟩

def inClass (k : SampleClass) (l : List ResSample) : List ResSample := l.filter (·.class = k)

def summary (l : List ResSample) : Aggregate where
  successes := (inClass .success l).length
  errors := (inClass .error l).length
  timeouts := (inClass .timeout l).length
  internalErrors := (inClass .internalError l).length
  rttAvg :=
    if (inClass .success l).length ≠ 0 then
      ((((inClass .success l).map (·.rtt.toNat)).sum / (inClass .success l).length : Nat) : Int)
    else -1
  lastSampleTime := (l.getLast?.map (·.recordedAt)).getD 0

theorem inClass_cons (k : SampleClass) (a : ResSample) (l : List ResSample) :
    inClass k (a :: l) = if a.class = k then a :: inClass k l else inClass k l := by
  rw [inClass, filter_cons]
  simp only [decide_eq_true_eq, inClass]

theorem foldl_count (l : List ResSample) (c : Counts) :
    l.foldl Counts.count c =
      ⟨c.s + (inClass .success l).length, c.e + (inClass .error l).length, c.t + (inClass .timeout l).length,
        c.ie + (inClass .internalError l).length, c.rttSum + ((inClass .success l).map (·.rtt.toNat)).sum,
        c.rttCount + (inClass .success l).length⟩ := by
  induction l generalizing c with
  | nil => rfl
  | cons a l ih =>
    rw [foldl_cons, ih]
    cases hk : a.class <;> simp [inClass_cons, Counts.count, hk] <;> omega

theorem inClass_perm {l l' : List ResSample} (h : l.Perm l') (k : SampleClass) : (inClass k l).Perm (inClass k l') :=
  h.filter _

variable {max : Nat} {stats : ResStats} {h : List ResSample}

def ResStats.held (stats : ResStats) : List ResSample :=
  ((range stats.sampleCount).map stats.samples).rotate stats.sampleNext

def ResStats.Holds (stats : ResStats) (max : Nat) (h : List ResSample) : Prop :=
  RingOf max stats.samples stats.sampleCount stats.sampleNext h

theorem aggregate_eq_summary (hr : stats.Holds max h) : aggregate stats = summary (h.rtake max) := by
  have hp := hr.held_perm
  have hlen k := (inClass_perm hp k).length_eq
  have hsum := ((inClass_perm hp .success).map (·.rtt.toNat)).sum_eq
  have hl : (aggregate stats).lastSampleTime = (summary (h.rtake max)).lastSampleTime := by
    simp only [aggregate, summary]
    by_cases hc : 0 < stats.sampleCount
    · rw [if_pos hc, hr.newest hc]
      split <;> rfl
    · rw [if_neg hc]
      have hnil : h.rtake max = [] := by
        rw [← hr.rotate_held, Nat.eq_zero_of_not_pos hc]
        exact rotate_nil _
      rw [hnil]
      rfl
  have hf : (range stats.sampleCount).foldl (fun c i => Counts.count c (stats.samples i)) .zero =
      ((range stats.sampleCount).map stats.samples).foldl Counts.count .zero := foldl_map.symm
  simp only [aggregate, summary] at hl ⊢
  rw [hf, foldl_count, hl]
  simp only [Counts.zero, Counts.rttAvg, Nat.zero_add, hlen, hsum]

namespace CacheInfo

theorem foldl_clearAt (l : List Nat) (info : CacheInfo) :
    l.foldl clearAt info =
      { info with nsstats := fun i => if i ∈ l then (info.nsstats i).clear else info.nsstats i } := by
  induction l generalizing info with
  | nil => simp
  | cons a l ih =>
    rw [foldl_cons, ih]
    simp only [clearAt, mk.injEq, true_and]
    funext i
    by_cases hi : i = a
    · subst hi
      simp [ResStats.clear]
    · simp [hi]

theorem clearStats_eq (info : CacheInfo) : info.clearStats = info.clearAt 0 := by
  have hl : info.clearStats = (replicate maxNs 0).foldl clearAt info := rfl
  rw [hl, foldl_clearAt]
  simp only [clearAt, mk.injEq, true_and]
  funext i
  by_cases hi : i = 0
  · subst hi
    simp
  · simp [hi]

theorem clearStats_nsstats (info : CacheInfo) (i : Nat) :
    info.clearStats.nsstats i = if i = 0 then (info.nsstats i).clear else info.nsstats i := by
  rw [clearStats_eq]
  by_cases hi : i = 0
  · subst hi
    simp [clearAt]
  · simp [clearAt, hi]

@[simp]
theorem clearStats_nameservers (info : CacheInfo) : info.clearStats.nameservers = info.nameservers := rfl

@[simp]
theorem clearStats_params (info : CacheInfo) : info.clearStats.params = info.params := rfl

theorem freeNameservers_nsstats (info : CacheInfo) (i : Nat) :
    info.freeNameservers.nsstats i =
      if i = 0 ∨ i < info.nscount then (info.nsstats i).clear else info.nsstats i := by
  simp only [freeNameservers, clearStats_nsstats, foldl_clearAt]
  by_cases hi : i = 0
  · simp only [hi, if_true, true_or]
    split <;> rfl
  · simp [hi]

@[simp]
theorem freeNameservers_params (info : CacheInfo) : info.freeNameservers.params = info.params := by
  simp only [freeNameservers, clearStats_params, foldl_clearAt]

end CacheInfo

end Bionic.Dns
