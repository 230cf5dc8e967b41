import Mathlib.Data.Nat.Notation

namespace Bionic.Lib.Bpf

variable {F R : Type*}

/-- The instructions of a filter that loads words of its data, compares them and returns. A jump is the number of
instructions it leaves out. -/
inductive Insn (F R : Type*)
  | ld (field : F)
  | jeq (k : UInt32) (jt jf : UInt8)
  | jge (k : UInt32) (jt jf : UInt8)
  | ret (r : R)

/-- Runs a filter that has `n` instructions to leave out, with `a` in the accumulator. Running off the end is an
error. -/
def run (data : F → UInt32) : ℕ → UInt32 → List (Insn F R) → Option R
  | _, _, [] => none
  | n + 1, a, _ :: rest => run data n a rest
  | 0, _, .ld field :: rest => run data 0 (data field) rest
  | 0, a, .jeq k jt jf :: rest => run data (if a = k then jt else jf).toNat a rest
  | 0, a, .jge k jt jf :: rest => run data (if k ≤ a then jt else jf).toNat a rest
  | 0, _, .ret r :: _ => some r

def eval (data : F → UInt32) (filter : List (Insn F R)) : Option R := run data 0 0 filter

variable (data : F → UInt32) (a : UInt32) (rest : List (Insn F R))

theorem run_succ (n : ℕ) (insn : Insn F R) : run data (n + 1) a (insn :: rest) = run data n a rest := by
  cases insn <;> rfl

theorem run_ld (field : F) : run data 0 a (.ld field :: rest) = run data 0 (data field) rest := rfl

theorem run_jeq (k : UInt32) (jt jf : UInt8) :
    run data 0 a (.jeq k jt jf :: rest) = run data (if a = k then jt else jf).toNat a rest := rfl

theorem run_jge (k : UInt32) (jt jf : UInt8) :
    run data 0 a (.jge k jt jf :: rest) = run data (if k ≤ a then jt else jf).toNat a rest := rfl

theorem run_append (xs : List (Insn F R)) (n : ℕ) : run data (xs.length + n) a (xs ++ rest) = run data n a rest := by
  induction xs with
  | nil => rw [List.length_nil, Nat.zero_add, List.nil_append]
  | cons x xs ih => rw [List.length_cons, Nat.add_right_comm, List.cons_append, run_succ, ih]

end Bionic.Lib.Bpf
