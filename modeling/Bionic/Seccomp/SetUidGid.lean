import Bionic.Seccomp.Genseccomp

namespace Bionic.Seccomp.SetUidGid

open Lib Bpf

/-- The words of `seccomp_data` that are loaded: of an argument the low half, which its offset points to. -/
inductive Word
  | nr
  | arch
  | arg (n : ℕ)

structure Arch where
  audit : UInt32
  setresuid : UInt32
  setresgid : UInt32

abbrev Filter := List (Insn Word Action)

variable (primary secondary arch : Arch) (rangeMin rangeMax : UInt32) (f : Filter)

def inRange (argNum : ℕ) : Filter := [.ld (.arg argNum), .jge rangeMin 0 1, .jge (rangeMax + 1) 0 1, .ret .trap]

def validateSyscallArgInRange (argNum : ℕ) : Option Filter :=
  if rangeMax = 0xffffffff then none else some (f ++ inRange rangeMin rangeMax argNum)

def validateSetUidGid : Option Filter := do
  let validate := fun (f : Filter) arg => validateSyscallArgInRange rangeMin rangeMax f arg
  let f ← [0, 1, 2].foldlM validate (examineSyscall .nr f ++ [.jeq arch.setresuid 0 12])
  let f ← [0, 1, 2].foldlM validate (examineSyscall .nr f ++ [.jeq arch.setresgid 0 12])
  some (f ++ [.ret .allow])

def installSetuidgidFilter : Option Filter := do
  let (offsetToSecondaryFilter, f) := validateArchitectureAndJumpIfNeeded .arch primary.audit secondary.audit []
  let f ← validateSetUidGid primary rangeMin rangeMax f
  let f ← setValidateArchitectureJumpTarget secondary.audit offsetToSecondaryFilter f
  validateSetUidGid secondary rangeMin rangeMax f

variable (data : Word → UInt32)

def ArgsInRange : Prop := ∀ n ∈ [0, 1, 2], rangeMin ≤ data (.arg n) ∧ data (.arg n) ≤ rangeMax

instance : Decidable (ArgsInRange rangeMin rangeMax data) := inferInstanceAs (Decidable (∀ n ∈ [0, 1, 2], _))

def verdict : Action :=
  if (data .nr = arch.setresuid ∨ data .nr = arch.setresgid) ∧ ¬ArgsInRange rangeMin rangeMax data then .trap else .allow

def checks : Filter := inRange rangeMin rangeMax 0 ++ (inRange rangeMin rangeMax 1 ++ inRange rangeMin rangeMax 2)

def policy : Filter :=
  .ld .nr :: .jeq arch.setresuid 0 12 :: (checks rangeMin rangeMax ++
    .ld .nr :: .jeq arch.setresgid 0 12 :: (checks rangeMin rangeMax ++ [.ret .allow]))

section

variable {rangeMin rangeMax} (hmax : rangeMax < 0xffffffff) (a : UInt32) (rest : Filter)
include hmax

theorem validateSetUidGid_eq : validateSetUidGid arch rangeMin rangeMax f = some (f ++ policy arch rangeMin rangeMax) := by
  simp [validateSetUidGid, validateSyscallArgInRange, examineSyscall, policy, checks, UInt32.ne_of_lt hmax]

theorem run_inRange (n : ℕ) :
    run data 0 a (inRange rangeMin rangeMax n ++ rest) =
      if rangeMin ≤ data (.arg n) ∧ data (.arg n) ≤ rangeMax then run data 0 (data (.arg n)) rest else some .trap := by
  have hle : rangeMax + 1 ≤ data (.arg n) ↔ ¬data (.arg n) ≤ rangeMax := by
    have h : rangeMax.toNat < 0xffffffff := hmax
    simp only [UInt32.le_iff_toNat_le, UInt32.toNat_add, UInt32.reduceToNat]
    omega
  change run data 0 (data (.arg n)) (.jge rangeMin 0 1 :: .jge (rangeMax + 1) 0 1 :: .ret .trap :: rest) = _
  by_cases hl : rangeMin ≤ data (.arg n)
  · rw [run_jge, if_pos hl]
    by_cases hu : data (.arg n) ≤ rangeMax
    · rw [if_pos ⟨hl, hu⟩, ← run_succ data _ rest 0 (.ret .trap)]
      exact (run_jge ..).trans (by rw [if_neg (hle.not_left.mpr hu)]; rfl)
    · rw [if_neg fun h => hu h.2]
      exact (run_jge ..).trans (by rw [if_pos (hle.mpr hu)]; rfl)
  · rw [run_jge, if_neg hl, if_neg fun h => hl h.1]
    exact run_succ ..

theorem run_checks :
    run data 0 a (checks rangeMin rangeMax ++ rest) =
      if ArgsInRange rangeMin rangeMax data then run data 0 (data (.arg 2)) rest else some .trap := by
  rw [checks, List.append_assoc, List.append_assoc, run_inRange data hmax, run_inRange data hmax, run_inRange data hmax]
  simp [ArgsInRange, ite_and]

/-- One system call is checked, and what follows decides about the others. -/
theorem run_call (nr : UInt32) :
    run data 0 a (.ld .nr :: .jeq nr 0 12 :: (checks rangeMin rangeMax ++ rest)) =
      if data .nr = nr ∧ ¬ArgsInRange rangeMin rangeMax data then some .trap
      else run data 0 (if data .nr = nr then data (.arg 2) else data .nr) rest := by
  rw [run_ld, run_jeq]
  by_cases hn : data .nr = nr
  · rw [if_pos hn, if_pos hn]
    refine (run_checks data hmax _ rest).trans ?_
    by_cases hr : ArgsInRange rangeMin rangeMax data <;> simp [hn, hr]
  · rw [if_neg hn, if_neg hn, if_neg fun h => hn h.1]
    exact run_append data _ rest (checks rangeMin rangeMax) 0

theorem run_policy : run data 0 a (policy arch rangeMin rangeMax ++ rest) = some (verdict arch rangeMin rangeMax data) := by
  simp only [policy, List.cons_append, List.append_assoc]
  rw [run_call data hmax, run_call data hmax, verdict]
  by_cases hr : ArgsInRange rangeMin rangeMax data
  · simp [hr, run]
  · by_cases hu : data .nr = arch.setresuid <;> simp [hr, hu, run, apply_ite]

theorem installSetuidgidFilter_eq :
    installSetuidgidFilter primary secondary rangeMin rangeMax =
      some (.ld .arch :: .jeq primary.audit 2 0 :: .jeq secondary.audit 30 0 :: .ret .trap ::
        (policy primary rangeMin rangeMax ++ policy secondary rangeMin rangeMax)) := by
  simp only [installSetuidgidFilter, validateArchitectureAndJumpIfNeeded, validateSetUidGid_eq _ _ hmax]
  rfl

/-- The verdict of the filter, whatever the architecture, the system call and its arguments. -/
theorem setuidgid_filter_verdict :
    ∃ f, installSetuidgidFilter primary secondary rangeMin rangeMax = some f ∧
      eval data f = some (if data .arch = primary.audit then verdict primary rangeMin rangeMax data
        else if data .arch = secondary.audit then verdict secondary rangeMin rangeMax data else .trap) := by
  refine ⟨_, installSetuidgidFilter_eq primary secondary hmax, ?_⟩
  rw [eval, run_ld, run_jeq]
  split_ifs with hp hs
  · exact run_policy primary data hmax (data .arch) _
  · refine (run_jeq ..).trans ?_
    rw [if_pos hs]
    refine (run_append data _ _ (.ret .trap :: policy primary rangeMin rangeMax) 0).trans ?_
    rw [← List.append_nil (policy secondary ..)]
    exact run_policy secondary data hmax ..
  · refine (run_jeq ..).trans ?_
    rw [if_neg hs]
    rfl

end

theorem setuidgid_filter_verdict_root :
    let data := fun | Word.nr => 147 | .arch => 0xc00000b7 | .arg _ => 0
    ∃ f, installSetuidgidFilter ⟨0xc00000b7, 147, 149⟩ ⟨0x40000028, 208, 210⟩ 90000 99999 = some f ∧
      eval data f = some .trap :=
  setuidgid_filter_verdict _ _ _ (by decide)

end Bionic.Seccomp.SetUidGid
