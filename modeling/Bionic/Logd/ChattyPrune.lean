import Bionic.Logd.Chatty
import Bionic.Logd.PruneList

namespace Bionic.Logd.Chatty

open Function

structure Source where
  uid : UInt32
  pid : UInt32
  tid : UInt32
  deriving DecidableEq, Repr

def source (e : LogBufferElement) : Source := ⟨e.uid, e.pid, e.tid⟩

def extend (pid : UInt32) : UInt64 :=
  if pid < 0x80000000 then pid.toUInt64 else pid.toUInt64 ||| 0xffffffff00000000

def logBufferElementKey (x : Source) : UInt64 := x.uid.toUInt64 <<< 32 ||| extend x.pid <<< 16 ||| extend x.tid

def tooOld : LogTime := ⟨86400, 0⟩

def expireThreshold : ℕ := 10

def expireRatelimit : ℕ := 10

/-- What the statistics answer: the worst key, its size and the second worst one, and the worst pid of
the system with the second worst size. -/
structure Worst where
  worst : UInt32
  worstSizes : UInt64
  secondWorstSizes : UInt64
  worstPid : UInt32
  deriving DecidableEq, Repr

def noWorst : UInt32 := 0xffffffff

/-- What the pass did, for the statements: the sources of messages turned into drops, the entries erased, and
for each count added the two sources. -/
structure Account where
  turned : List Source
  leading : List LogBufferElement
  high : List LogBufferElement
  credits : List (Source × Source)

/-- The state of the first pass at its iterator: `done` are the elements before it. Iterators that are kept
longer are the sequence numbers of their elements. -/
structure Loop where
  done : List LogBufferElement
  last : UInt64 → Option ℕ
  leading : Bool
  kick : Bool
  pruneRows : ℕ
  worstSizes : UInt64
  lastWorst : UInt32 → Option ℕ
  lastWorstPidOfSystem : UInt32 → Option ℕ
  oldest : LogId → Option ℕ
  account : Account

/-- What is fixed during a call of `Prune`: the log, the start of the oldest reader that watches it and
the rules. -/
structure Call where
  id : LogId
  oldest : Option ℕ
  prune : PruneList

def Call.key (c : Call) (element : LogBufferElement) : UInt32 :=
  if c.id = .events ∨ c.id = .security then element.getTag else element.uid

def Call.checkHighPriority (c : Call) : Bool := c.id ≠ .security && !c.prune.highPriorityPrune.isEmpty

namespace Loop

variable (l : Loop)

theorem coalesced_ne_zero {n m : ℕ} (h : 0 < n ∧ n + m ≤ 65535) : UInt16.ofNat (n + m) ≠ 0 := by
  have h' := succ_drops_ne_zero (n := n + m - 1) (by omega)
  have hs : n + m - 1 + 1 = n + m := by omega
  rwa [hs] at h'

variable (c : Call) (w : Worst) (gc : Bool) (element : LogBufferElement) (rest : List LogBufferElement)
  (lastt : LogTime)

/-- `LogBufferElementLast::coalesce`: whether the count could be added to the last entry of the key. -/
def coalesce (dropped : ℕ) : Loop × Bool :=
  let key := logBufferElementKey (source element)
  match l.last key with
  | none => (l, false)
  | some i =>
    match l.done[i]? with
    | none => (l, false)
    | some found =>
      if h : 0 < dropped ∧ dropped + found.droppedCount ≤ 65535 then
        ({ l with
            done := l.done.set i
              (found.setDropped (UInt16.ofNat (dropped + found.droppedCount)) (coalesced_ne_zero h))
            account := { l.account with credits := l.account.credits ++ [(source element, source found)] } }, true)
      else ({ l with last := update l.last key none }, false)

def keep : Loop := { l with done := l.done ++ [element] }

def addKeep : Loop :=
  { l with
    done := l.done ++ [element]
    last := update l.last (logBufferElementKey (source element)) (some l.done.length) }

def clear : Loop :=
  let current := (element.realtime.nsec + 0x10000000000000000 - expireRatelimit * nsPerSec) % 0x10000000000000000
  { l with
    last := fun key =>
      (l.last key).filter fun i =>
        !(l.done[i]?.any fun e => decide (expireThreshold ≤ e.droppedCount) && decide (e.realtime.nsec < current)) }

def erase : Loop :=
  { l with
    lastWorst := fun k =>
      if k = c.key element ∧ l.lastWorst k = some element.sequence then none else l.lastWorst k
    lastWorstPidOfSystem := fun p =>
      if p = element.pid ∧ l.lastWorstPidOfSystem p = some element.sequence then none else l.lastWorstPidOfSystem p
    oldest := fun i => if l.oldest i = some element.sequence then rest.head?.map (·.sequence) else l.oldest i }

def eraseLeading : Loop :=
  { l.erase c element rest with account := { l.account with leading := l.account.leading ++ [element] } }

def eraseHigh : Loop :=
  { l.erase c element rest with account := { l.account with high := l.account.high ++ [element] } }

def markDropped : Loop :=
  let pids :=
    if w.worstPid ≠ 0 ∧ ((!gc ∧ element.pid = w.worstPid) ∨ l.lastWorstPidOfSystem element.pid = none) then
      update l.lastWorstPidOfSystem element.pid (some element.sequence)
    else l.lastWorstPidOfSystem
  let uids :=
    if (!gc ∧ w.worstPid = 0 ∧ c.key element = w.worst) ∨ l.lastWorst (c.key element) = none then
      update l.lastWorst (c.key element) (some element.sequence)
    else l.lastWorst
  { l with lastWorst := uids, lastWorstPidOfSystem := pids }

def markWorst : Loop :=
  let pids :=
    if w.worstPid ≠ 0 ∧ (!gc ∨ l.lastWorstPidOfSystem w.worstPid = none) then
      update l.lastWorstPidOfSystem w.worstPid (some element.sequence)
    else l.lastWorstPidOfSystem
  let uids :=
    if (!gc ∧ w.worstPid = 0) ∨ l.lastWorst w.worst = none then
      update l.lastWorst w.worst (some element.sequence)
    else l.lastWorst
  { l with lastWorst := uids, lastWorstPidOfSystem := pids }

def takeRow : Loop := { l with pruneRows := l.pruneRows - 1 }

def kicked : Loop := { l with kick := true }

def shrink : Loop :=
  { l with worstSizes := l.worstSizes - UInt64.ofNat element.msgLen }

def turn : Loop :=
  { l with account := { l.account with turned := l.account.turned ++ [source element] } }

def settle (entry : LogBufferElement) (rest : List LogBufferElement) : Loop :=
  if (l.coalesce entry 1).2 then (l.coalesce entry 1).1.erase c entry rest
  else ((l.coalesce entry 1).1.addKeep entry).markWorst w gc entry

theorem first_drop_ne_zero : (1 : UInt16) ≠ 0 := by decide

/-- A message of the worst offender: it goes when it leads the log, and else becomes an entry. -/
def prune : Loop :=
  if l.leading then l.eraseLeading c element rest
  else (l.turn element).settle c w gc (element.setDropped 1 first_drop_ne_zero) rest

/-- How the loop goes on from an element: behind it, not any more, or not any more and with the element
still at the iterator. -/
inductive Outcome where
  | next
  | stop
  | stay
  deriving DecidableEq

def visitHigh : Loop × Outcome :=
  let gone := (l.clear element).eraseHigh c element rest
  if element.droppedCount ≠ 0 then (gone, .next)
  else if gone.takeRow.pruneRows = 0 then (gone.takeRow, .stop)
  else if c.key element ≠ w.worst then (gone.takeRow, .next)
  else if gone.worstSizes < w.secondWorstSizes then (gone.takeRow.kicked, .stop)
  else (gone.takeRow.kicked.shrink element, .next)

def visitMessage : Loop × Outcome :=
  let pruned := l.takeRow.kicked.prune c w gc element rest
  if c.key element ≠ w.worst ∨ (w.worstPid ≠ 0 ∧ element.pid ≠ w.worstPid) then
    (({ l with leading := false }.clear element).keep element, .next)
  else if l.takeRow.pruneRows = 0 then (l.takeRow, .stay)
  else if pruned.worstSizes < w.secondWorstSizes then (pruned, .stop)
  else (pruned.shrink element, .next)

def visitOwn (element : LogBufferElement) (rest : List LogBufferElement) : Loop × Outcome :=
  if c.checkHighPriority ∧ c.prune.isHighPriority element then l.visitHigh c w element rest
  else if element.realtime.lt (lastt.sub tooOld) ∨ lastt.lt element.realtime then (l, .stay)
  else if element.droppedCount ≠ 0 then ((l.addKeep element).markDropped c w gc element, .next)
  else l.visitMessage c w gc element rest

def coalesceEntry : Loop × Bool :=
  if element.droppedCount ≠ 0 then l.coalesce element element.droppedCount else (l, false)

def visit (element : LogBufferElement) (rest : List LogBufferElement) : Loop × Outcome :=
  if c.oldest.any (· ≤ element.sequence) then (l, .stay)
  else if element.logId ≠ c.id then (l.keep element, .next)
  else if l.leading ∧ element.droppedCount ≠ 0 then (l.eraseLeading c element rest, .next)
  else if (l.coalesceEntry element).2 then ((l.coalesceEntry element).1.erase c element rest, .next)
  else (l.coalesceEntry element).1.visitOwn c w gc lastt element rest

def scan (c : Call) (w : Worst) (gc : Bool) (lastt : LogTime) : Loop → List LogBufferElement → Loop × List LogBufferElement
  | l, [] => (l, [])
  | l, element :: rest =>
    match l.visit c w gc lastt element rest with
    | (l, .next) => scan c w gc lastt l rest
    | (l, .stop) => (l, rest)
    | (l, .stay) => (l, element :: rest)

end Loop

structure Pass where
  logs : List LogBufferElement
  pruneRows : ℕ
  lastWorst : UInt32 → Option ℕ
  lastWorstPidOfSystem : UInt32 → Option ℕ
  oldest : LogId → Option ℕ
  account : Account

structure Stats where
  worstTwo : Pass → UInt32 × UInt64 × UInt64
  worstTwoSystemPids : Pass → UInt64 → Option (UInt32 × UInt64)

namespace Pass

variable (s : Pass) (q : ℕ) (id : LogId) (w : Worst)

def worst (c : Call) (stats : Stats) : Worst :=
  if c.id.worstUidEnabled && c.prune.worstUidEnabled then
    let (worst, worstSizes, secondWorstSizes) := stats.worstTwo s
    if c.id ≠ .events ∧ c.id ≠ .security ∧ worst = aidSystem ∧ c.prune.worstPidOfSystemEnabled then
      match stats.worstTwoSystemPids s worstSizes with
      | some (worstPid, secondWorstSizes) => ⟨worst, worstSizes, secondWorstSizes, worstPid⟩
      | none => ⟨worst, worstSizes, secondWorstSizes, 0⟩
    else ⟨worst, worstSizes, secondWorstSizes, 0⟩
  else ⟨noWorst, 0, 0, 0⟩

def before : List LogBufferElement := s.logs.takeWhile (·.sequence ≠ q)

def iterator : List LogBufferElement := s.logs.dropWhile (·.sequence ≠ q)

def watermark : Option (List LogBufferElement × List LogBufferElement) :=
  if (s.iterator q).isEmpty then none else some (s.before q, s.iterator q)

def findWatermark : Option (List LogBufferElement × List LogBufferElement) :=
  if s.pruneRows ≤ 1 ∨ w.worst = noWorst then none
  else
    (if w.worstPid ≠ 0 then (s.lastWorstPidOfSystem w.worstPid).bind s.watermark else none).or
      ((s.lastWorst w.worst).bind s.watermark)

def getOldest : List LogBufferElement × List LogBufferElement :=
  let (skipped, it) :=
    match s.oldest id with
    | none => ([], s.logs)
    | some q => (s.before q, s.iterator q)
  (skipped ++ it.takeWhile (·.logId ≠ id), it.dropWhile (·.logId ≠ id))

def oldestAt (it : List LogBufferElement) : LogId → Option ℕ :=
  match it with
  | [] => s.oldest
  | element :: _ => update s.oldest id (some element.sequence)

def lastRealtime : LogTime := (s.logs.getLast?.map (·.realtime)).getD ⟨0, 0⟩

def loopAt (done : List LogBufferElement) (leading : Bool) (oldest : LogId → Option ℕ) : Loop :=
  ⟨done, fun _ => none, leading, false, s.pruneRows, w.worstSizes, s.lastWorst, s.lastWorstPidOfSystem, oldest, s.account⟩

def ofLoop (l : Loop) (rest : List LogBufferElement) : Pass :=
  ⟨l.done ++ rest, l.pruneRows, l.lastWorst, l.lastWorstPidOfSystem, l.oldest, l.account⟩

def turn (c : Call) (w : Worst) : Pass × Bool :=
  let gc := decide (s.pruneRows ≤ 1)
  let (l, rest) :=
    match s.findWatermark w with
    | some (done, it) => (s.loopAt w done false s.oldest).scan c w gc s.lastRealtime it
    | none =>
      let (done, it) := s.getOldest c.id
      (s.loopAt w done true (s.oldestAt c.id it)).scan c w gc s.lastRealtime it
  (ofLoop l rest, l.kick)

/-- The first pass of `Prune`. A turn that is not the last one prunes a row, so their number is enough
fuel. -/
def firstPass (c : Call) (stats : Stats) : ℕ → Pass → Pass
  | 0, s => s
  | fuel + 1, s =>
    if s.pruneRows = 0 then s
    else if (s.worst c stats).worst = noWorst ∧ !c.checkHighPriority then s
    else
      let (s', kick) := s.turn c (s.worst c stats)
      if !kick || !c.prune.worstUidEnabled then s' else firstPass c stats fuel s'

end Pass

end Bionic.Logd.Chatty
