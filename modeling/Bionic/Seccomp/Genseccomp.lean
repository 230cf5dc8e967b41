import Bionic.Lib.Bpf
import Mathlib.Algebra.Order.Ring.Nat
import Mathlib.Data.List.Sort

namespace Bionic.Seccomp

open Lib List

/-- A system call that may be allowed. Its number and the one after it are operands of filter instructions. -/
structure Syscall where
  name : String
  nr : ℕ
  nr_lt : nr + 1 < 2 ^ 32
  deriving DecidableEq

structure SyscallRange where
  names : List String
  start : ℕ
  stop : ℕ
  deriving DecidableEq

def SyscallRange.single (syscall : Syscall) : SyscallRange := ⟨[syscall.name], syscall.nr, syscall.nr + 1⟩

def SyscallRange.add (range : SyscallRange) (syscall : Syscall) : SyscallRange :=
  { range with names := range.names ++ [syscall.name], stop := range.stop + 1 }

variable (syscalls prioritySyscalls : List Syscall) (priorities : List String)

/-- The calls to be compared first, in the order of the priority list, and all others. Of several calls of one
name the last one counts. -/
def extractPrioritySyscalls : List Syscall × List Syscall :=
  (priorities.filterMap fun name => syscalls.reverse.find? (·.name = name), syscalls.filter (·.name ∉ priorities))

def addToRanges (ranges : List SyscallRange) (syscall : Syscall) : List SyscallRange :=
  match ranges.getLast? with
  | none => [.single syscall]
  | some last =>
    if last.stop = syscall.nr then ranges.dropLast ++ [last.add syscall] else ranges ++ [.single syscall]

def convertNRsToRanges : List SyscallRange :=
  (syscalls.insertionSort fun a b => a.nr ≤ b.nr).foldl addToRanges []

/-- A jump distance, or a placeholder for one. -/
inductive Target
  | distance (n : ℕ)
  | fail
  | allow

def Target.format (fail allow : ℕ) : Target → ℕ
  | .distance n => n
  | .fail => fail
  | .allow => allow

inductive Statement
  | jge (k : ℕ) (jt jf : Target) (names : List String)
  | jeq (k : ℕ) (jt jf : Target) (names : List String)

inductive Line
  | jge (k jt jf : ℕ) (names : List String)
  | jeq (k jt jf : ℕ) (names : List String)
  | allow

def Statement.format (fail allow : ℕ) : Statement → Line
  | .jge k jt jf names => .jge k (jt.format fail allow) (jf.format fail allow) names
  | .jeq k jt jf names => .jeq k (jt.format fail allow) (jf.format fail allow) names

/-- The decision tree. Of no ranges at all there is none; the generator does not come back from that. -/
def convertToIntermediateBpf : List SyscallRange → List Statement
  | [] => []
  | [range] => [.jge range.stop .fail .allow range.names]
  | range₁ :: range₂ :: ranges =>
    let half := ((range₁ :: range₂ :: ranges).length + 1) / 2
    let first := convertToIntermediateBpf ((range₁ :: range₂ :: ranges).take half)
    let second := convertToIntermediateBpf ((range₁ :: range₂ :: ranges).drop half)
    .jge ((range₁ :: range₂ :: ranges).get ⟨half, by simp only [half, length_cons]; omega⟩).start
      (.distance first.length) (.distance 0) [] :: (first ++ second)
  termination_by ranges => ranges.length
  decreasing_by
    · simp only [length_take, length_cons]
      omega
    · simp only [length_drop, length_cons]
      omega

def convertPriorityToIntermediateBpf : List Statement :=
  prioritySyscalls.map fun syscall => .jeq syscall.nr .allow (.distance 0) [syscall.name]

/-- The table of an architecture. A number below the first range leaves it at once. -/
def convertRangesToBpf : List SyscallRange → Option (List Line)
  | [] => none
  | range :: ranges =>
    let bpf := convertPriorityToIntermediateBpf prioritySyscalls ++ convertToIntermediateBpf (range :: ranges)
    let lines := (bpf.mapIdx fun i statement => statement.format (bpf.length - i) (bpf.length - i - 1)) ++ [.allow]
    some (.jge range.start 0 lines.length [] :: lines)

def constructBpf : Option (List Line) :=
  convertRangesToBpf (extractPrioritySyscalls syscalls priorities).1
    (convertNRsToRanges (extractPrioritySyscalls syscalls priorities).2)

inductive Field
  | nr
  | arch

inductive Action
  | allow
  | trap
  deriving DecidableEq, Repr

abbrev Filter := List (Bpf.Insn Field Action)

/-- The distances of the line fit in the eight bits that an instruction has for them. -/
def Line.Fits : Line → Prop
  | .jge _ jt jf _ => jt < 256 ∧ jf < 256
  | .jeq _ jt jf _ => jt < 256 ∧ jf < 256
  | .allow => True

def Line.compile : Line → Bpf.Insn Field Action
  | .jge k jt jf _ => .jge (.ofNat k) (.ofNat jt) (.ofNat jf)
  | .jeq k jt jf _ => .jeq (.ofNat k) (.ofNat jt) (.ofNat jf)
  | .allow => .ret .allow

inductive Platform
  | arm
  | x86

def Platform.primaryArch : Platform → UInt32
  | .arm => 0xc00000b7
  | .x86 => 0xc000003e

def Platform.secondaryArch : Platform → UInt32
  | .arm => 0x40000028
  | .x86 => 0x40000003

section Policy

variable {F : Type} (syscallNr archNr : F) (primaryArch secondaryArch : UInt32) (f : List (Bpf.Insn F Action))

def disallow : List (Bpf.Insn F Action) := f ++ [.ret .trap]

def examineSyscall : List (Bpf.Insn F Action) := f ++ [.ld syscallNr]

def validateArchitectureAndJumpIfNeeded : ℕ × List (Bpf.Insn F Action) :=
  let f := disallow (f ++ [.ld archNr, .jeq primaryArch 2 0, .jeq secondaryArch 1 0])
  (f.length - 2, f)

def setValidateArchitectureJumpTarget (offset : ℕ) (f : List (Bpf.Insn F Action)) : Option (List (Bpf.Insn F Action)) :=
  let jumpLength := f.length - offset - 1
  if (UInt8.ofNat jumpLength).toNat ≠ jumpLength then none
  else some (f.set offset (.jeq secondaryArch (.ofNat jumpLength) 0))

end Policy

def setSeccompFilter (platform : Platform) (primary secondary : Filter) : Option Filter :=
  let (offsetToSecondaryFilter, f) :=
    validateArchitectureAndJumpIfNeeded .arch platform.primaryArch platform.secondaryArch []
  let f := disallow (examineSyscall .nr f ++ primary)
  (setValidateArchitectureJumpTarget platform.secondaryArch offsetToSecondaryFilter f).map fun f =>
    disallow (examineSyscall .nr f ++ secondary)

def seccompData (arch nr : UInt32) : Field → UInt32
  | .nr => nr
  | .arch => arch

variable {ranges : List SyscallRange} {syscalls : List Syscall} {v : ℕ}

def SyscallRange.Holds (range : SyscallRange) (v : ℕ) : Prop := range.start ≤ v ∧ v < range.stop

/-- A range that comes later starts at the last number of the ones before it, or behind it. -/
def SyscallRange.Before (a b : SyscallRange) : Prop := a.start ≤ b.start ∧ a.stop ≤ b.start + 1

/-- The ranges of the numbers collected so far, the last of which is `v`. -/
structure Collected (ranges : List SyscallRange) (syscalls : List Syscall) (v : ℕ) : Prop where
  last : ∃ range, ranges.getLast? = some range ∧ range.stop = v + 1
  nonempty : ∀ range ∈ ranges, range.start < range.stop
  ordered : ranges.Pairwise SyscallRange.Before
  below : ∀ range ∈ ranges, range.start ≤ v ∧ range.stop ≤ v + 1
  holds : ∀ n, (∃ range ∈ ranges, range.Holds n) ↔ ∃ syscall ∈ syscalls, syscall.nr = n

theorem collected_single (syscall : Syscall) : Collected (addToRanges [] syscall) [syscall] syscall.nr := by
  refine ⟨⟨_, rfl, rfl⟩, ?_, pairwise_singleton _ _, ?_, fun n => ?_⟩
  · intro range hr
    rw [mem_singleton.mp hr]
    exact Nat.lt_succ_self _
  · intro range hr
    rw [mem_singleton.mp hr]
    exact ⟨le_rfl, le_rfl⟩
  · simp only [addToRanges, getLast?_nil, mem_singleton, exists_eq_left, SyscallRange.Holds,
      SyscallRange.single]
    omega

theorem Collected.add (h : Collected ranges syscalls v) {syscall : Syscall} (hle : v ≤ syscall.nr) :
    Collected (addToRanges ranges syscall) (syscalls ++ [syscall]) syscall.nr := by
  obtain ⟨⟨last, hl, hs⟩, hno, ho, hbe, hh⟩ := h
  obtain ⟨init, rfl⟩ : ∃ init, ranges = init ++ [last] := getLast?_eq_some_iff.mp hl
  have hmem : ∀ n, (∃ s ∈ syscalls ++ [syscall], s.nr = n) ↔ (∃ s ∈ syscalls, s.nr = n) ∨ syscall.nr = n := by
    intro n
    simp only [mem_append, mem_singleton, or_and_right, exists_or, exists_eq_left]
  rw [addToRanges, hl]
  dsimp only
  split
  next heq =>
    rw [dropLast_concat]
    rw [pairwise_append] at ho
    rw [forall_mem_append, forall_mem_singleton] at hno hbe
    refine ⟨⟨_, getLast?_concat, congrArg (· + 1) heq⟩, ?_, ?_, ?_, ?_⟩
    · exact forall_mem_append.mpr ⟨hno.1, forall_mem_singleton.mpr (Nat.lt_succ_of_lt hno.2)⟩
    · rw [pairwise_append]
      refine ⟨ho.1, pairwise_singleton _ _, fun a ha b hb => ?_⟩
      rw [mem_singleton.mp hb]
      exact ho.2.2 a ha last (mem_singleton_self last)
    · refine forall_mem_append.mpr ⟨fun range hr => ?_, forall_mem_singleton.mpr ?_⟩
      · have hr := hbe.1 range hr
        omega
      · dsimp only [SyscallRange.add]
        omega
    · intro n
      have hold := hh n
      rw [hmem n, ← hold]
      simp only [mem_append, mem_singleton, or_and_right, exists_or, exists_eq_left, SyscallRange.Holds,
        SyscallRange.add, or_assoc]
      apply or_congr_right
      have hlow := hbe.2.1
      omega
  next hne =>
    refine ⟨⟨_, getLast?_concat, rfl⟩, ?_, ?_, ?_, ?_⟩
    · exact forall_mem_append.mpr ⟨hno, forall_mem_singleton.mpr (Nat.lt_succ_self _)⟩
    · rw [pairwise_append]
      refine ⟨ho, pairwise_singleton _ _, fun a ha b hb => ?_⟩
      have hlow := hbe a ha
      rw [mem_singleton.mp hb]
      exact ⟨hlow.1.trans hle, hlow.2.trans (Nat.succ_le_succ hle)⟩
    · refine forall_mem_append.mpr ⟨fun range hr => ?_, forall_mem_singleton.mpr ⟨le_rfl, le_rfl⟩⟩
      have hlow := hbe range hr
      omega
    · intro n
      have hone : (SyscallRange.single syscall).Holds n ↔ syscall.nr = n := by
        show syscall.nr ≤ n ∧ n < syscall.nr + 1 ↔ _
        omega
      rw [hmem n, ← hh n, ← hone]
      constructor
      · rintro ⟨range, hr, hn⟩
        obtain hr | hr := mem_append.mp hr
        · exact .inl ⟨range, hr, hn⟩
        · exact .inr (mem_singleton.mp hr ▸ hn)
      · rintro (⟨range, hr, hn⟩ | hn)
        · exact ⟨range, mem_append_left _ hr, hn⟩
        · exact ⟨_, mem_concat_self, hn⟩

theorem Collected.foldl {rest : List Syscall} (h : Collected ranges syscalls v)
    (hs : rest.Pairwise fun a b => a.nr ≤ b.nr) (hle : ∀ syscall ∈ rest, v ≤ syscall.nr) :
    ∃ w, Collected (rest.foldl addToRanges ranges) (syscalls ++ rest) w := by
  induction rest generalizing ranges syscalls v with
  | nil => exact ⟨v, by rwa [append_nil]⟩
  | cons syscall rest ih =>
    obtain ⟨hf, hr⟩ := pairwise_cons.mp hs
    have hadd := h.add (hle syscall mem_cons_self)
    obtain ⟨w, hw⟩ := ih hadd hr hf
    rw [append_assoc] at hw
    exact ⟨w, hw⟩

theorem convertNRsToRanges_collected (h : syscalls ≠ []) :
    ∃ sorted v, Collected (convertNRsToRanges syscalls) sorted v ∧ ∀ s, s ∈ sorted ↔ s ∈ syscalls := by
  have : IsTrans Syscall fun a b => a.nr ≤ b.nr := ⟨fun _ _ _ => Nat.le_trans⟩
  have hso := pairwise_insertionSort (fun a b : Syscall => a.nr ≤ b.nr) syscalls
  have hmem : ∀ s, s ∈ syscalls.insertionSort (fun a b => a.nr ≤ b.nr) ↔ s ∈ syscalls :=
    fun s => mem_insertionSort _
  rw [convertNRsToRanges]
  cases hc : syscalls.insertionSort fun a b => a.nr ≤ b.nr with
  | nil =>
    exfalso
    apply h
    apply eq_nil_iff_forall_not_mem.mpr
    intro s hs
    have hs := (hmem s).mpr hs
    rw [hc] at hs
    exact not_mem_nil hs
  | cons first rest =>
    rw [hc] at hso hmem
    obtain ⟨hf, hr⟩ := pairwise_cons.mp hso
    obtain ⟨v, hv⟩ := (collected_single first).foldl hr hf
    exact ⟨first :: rest, v, hv, hmem⟩

end Bionic.Seccomp
