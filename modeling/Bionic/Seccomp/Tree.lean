import Bionic.Seccomp.Genseccomp

namespace Bionic.Seccomp

open Lib Bpf List

variable {ranges : List SyscallRange} {bpf : List Statement} {post : Filter} {k v : ℕ}

def resolve : List Statement → List Line
  | [] => []
  | statement :: bpf => statement.format (bpf.length + 1) bpf.length :: resolve bpf

theorem mapIdx_eq_resolve (bpf : List Statement) :
    (bpf.mapIdx fun i statement => statement.format (bpf.length - i) (bpf.length - i - 1)) = resolve bpf := by
  induction bpf with
  | nil => rfl
  | cons statement bpf ih =>
    rw [resolve, mapIdx_cons, ← ih, length_cons]
    congr 1
    apply congrArg (mapIdx · bpf)
    funext i statement
    rw [Nat.add_sub_add_right]

def Line.Operand : Line → Prop
  | .jge k _ _ _ => k < 2 ^ 32
  | .jeq k _ _ _ => k < 2 ^ 32
  | .allow => True

def Exact (lines : List Line) : Prop := ∀ line ∈ lines, line.Operand ∧ line.Fits

theorem Exact.tail {line : Line} {lines : List Line} (h : Exact (line :: lines)) : Exact lines :=
  fun l hl => h l (mem_cons_of_mem _ hl)

def code (bpf : List Statement) (post : Filter) : Filter := (resolve bpf).map Line.compile ++ .ret .allow :: post

theorem code_cons (statement : Statement) (bpf : List Statement) (post : Filter) :
    code (statement :: bpf) post = (statement.format (bpf.length + 1) bpf.length).compile :: code bpf post := rfl

section Run

variable (data : Field → UInt32) (a : UInt32) (bpf : List Statement) (post : Filter)

theorem run_drop (first bpf : List Statement) (post : Filter) :
    run data first.length a (code (first ++ bpf) post) = run data 0 a (code bpf post) := by
  induction first with
  | nil => rfl
  | cons statement first ih => rw [length_cons, cons_append, code_cons, run_succ, ih]

theorem run_allow : run data bpf.length a (code bpf post) = some .allow := by
  have h := run_drop data a bpf [] post
  rw [append_nil] at h
  rw [h]
  rfl

theorem run_fail : run data (bpf.length + 1) a (code bpf post) = run data 0 a post := by
  induction bpf with
  | nil => exact run_succ data a post 0 (.ret .allow)
  | cons statement bpf ih => rw [length_cons, code_cons, run_succ, ih]

end Run

theorem toNat_ite (p : Prop) [Decidable p] {m n : ℕ} (hm : m < 256) (hn : n < 256) :
    (if p then UInt8.ofNat m else UInt8.ofNat n).toNat = if p then m else n := by
  split
  · rw [UInt8.toNat_ofNat', Nat.mod_eq_of_lt hm]
  · rw [UInt8.toNat_ofNat', Nat.mod_eq_of_lt hn]

theorem ofNat_le_iff (h : k < 2 ^ 32) (a : UInt32) : UInt32.ofNat k ≤ a ↔ k ≤ a.toNat := by
  rw [UInt32.le_iff_toNat_le, UInt32.toNat_ofNat', Nat.mod_eq_of_lt h]

theorem eq_ofNat_iff (h : k < 2 ^ 32) (a : UInt32) : a = UInt32.ofNat k ↔ a.toNat = k := by
  rw [← UInt32.toNat_inj, UInt32.toNat_ofNat', Nat.mod_eq_of_lt h]

section Jumps

variable {jt jf : Target} {names : List String} (data : Field → UInt32) (a : UInt32) (post : Filter)

theorem run_code_jge (h : Exact (resolve (.jge k jt jf names :: bpf))) :
    run data 0 a (code (.jge k jt jf names :: bpf) post) =
      run data (if k ≤ a.toNat then jt.format (bpf.length + 1) bpf.length else jf.format (bpf.length + 1) bpf.length) a
        (code bpf post) := by
  obtain ⟨hk, hjt, hjf⟩ := h _ mem_cons_self
  have hrun := run_jge data a (code bpf post) (.ofNat k) (.ofNat (jt.format (bpf.length + 1) bpf.length))
    (.ofNat (jf.format (bpf.length + 1) bpf.length))
  rw [toNat_ite _ hjt hjf] at hrun
  simp only [ofNat_le_iff hk] at hrun
  exact hrun

theorem run_code_jeq (h : Exact (resolve (.jeq k jt jf names :: bpf))) :
    run data 0 a (code (.jeq k jt jf names :: bpf) post) =
      run data (if a.toNat = k then jt.format (bpf.length + 1) bpf.length else jf.format (bpf.length + 1) bpf.length) a
        (code bpf post) := by
  obtain ⟨hk, hjt, hjf⟩ := h _ mem_cons_self
  have hrun := run_jeq data a (code bpf post) (.ofNat k) (.ofNat (jt.format (bpf.length + 1) bpf.length))
    (.ofNat (jf.format (bpf.length + 1) bpf.length))
  rw [toNat_ite _ hjt hjf] at hrun
  simp only [eq_ofNat_iff hk] at hrun
  exact hrun

end Jumps

theorem Exact.drop {first : List Statement} (h : Exact (resolve (first ++ bpf))) : Exact (resolve bpf) := by
  induction first with
  | nil => exact h
  | cons statement first ih => exact ih h.tail

/-- The tree compares a number with the last range that starts at or before it. -/
def Accepts (ranges : List SyscallRange) (v : ℕ) : Prop :=
  ∃ range, (ranges.filter (·.start ≤ v)).getLast? = some range ∧ v < range.stop

theorem accepts_iff_holds (ho : ranges.Pairwise SyscallRange.Before)
    (hn : ∀ range ∈ ranges, range.start < range.stop) (v : ℕ) :
    Accepts ranges v ↔ ∃ range ∈ ranges, range.Holds v := by
  constructor
  · rintro ⟨range, hl, hlt⟩
    have hmem := mem_filter.mp (mem_of_getLast? hl)
    exact ⟨range, hmem.1, of_decide_eq_true hmem.2, hlt⟩
  · rintro ⟨range, hmem, hs, hst⟩
    have hf : range ∈ ranges.filter (·.start ≤ v) := mem_filter.mpr ⟨hmem, decide_eq_true hs⟩
    obtain ⟨last, hl⟩ := Option.ne_none_iff_exists'.mp fun h =>
      ne_nil_of_mem hf (getLast?_eq_none_iff.mp h)
    refine ⟨last, hl, ?_⟩
    obtain ⟨init, hi⟩ := getLast?_eq_some_iff.mp hl
    have hsub := ho.filter (·.start ≤ v)
    rw [hi, pairwise_append] at hsub
    have hlow := mem_filter.mp (mem_of_getLast? hl)
    rw [hi] at hf
    obtain hi | hse := mem_append.mp hf
    · have hb := hsub.2.2 range hi last (mem_singleton_self last)
      have hpos := hn last hlow.1
      have hend := hb.2
      omega
    · rwa [← mem_singleton.mp hse]

theorem accepts_left {first second : List SyscallRange} (h : ∀ range ∈ second, v < range.start) :
    Accepts (first ++ second) v ↔ Accepts first v := by
  have hnil : second.filter (·.start ≤ v) = [] := by
    apply filter_eq_nil_iff.mpr
    intro range hr hle
    have hlt := h range hr
    have hle := of_decide_eq_true hle
    omega
  rw [Accepts, Accepts, filter_append, hnil, append_nil]

theorem accepts_right {first second : List SyscallRange} {range : SyscallRange} (hmem : range ∈ second)
    (h : range.start ≤ v) : Accepts (first ++ second) v ↔ Accepts second v := by
  have hne : second.filter (·.start ≤ v) ≠ [] :=
    ne_nil_of_mem (mem_filter.mpr ⟨hmem, decide_eq_true h⟩)
  rw [Accepts, Accepts, filter_append, getLast?_append_of_ne_nil _ hne]

theorem run_tree (data : Field → UInt32) (a : UInt32) (post : Filter) (ranges : List SyscallRange) (rest : List Statement)
    (he : Exact (resolve (convertToIntermediateBpf ranges ++ rest))) (hne : ranges ≠ [])
    (ho : ranges.Pairwise SyscallRange.Before) (hf : ∀ range ∈ ranges.head?, range.start ≤ a.toNat) :
    (Accepts ranges a.toNat → run data 0 a (code (convertToIntermediateBpf ranges ++ rest) post) = some .allow) ∧
      (¬ Accepts ranges a.toNat →
        run data 0 a (code (convertToIntermediateBpf ranges ++ rest) post) = run data 0 a post) := by
  induction ranges using convertToIntermediateBpf.induct generalizing rest with
  | case1 => exact absurd rfl hne
  | case2 range =>
    have hle : range.start ≤ a.toNat := hf range rfl
    have ha : Accepts [range] a.toNat ↔ ¬ range.stop ≤ a.toNat := by
      simp [Accepts, hle]
    rw [convertToIntermediateBpf] at he ⊢
    rw [singleton_append] at he ⊢
    rw [run_code_jge data a post he, ha]
    constructor
    · intro h
      rw [if_neg h]
      exact run_allow ..
    · intro h
      rw [if_pos (not_not.mp h)]
      exact run_fail ..
  | case3 range₁ range₂ ranges half ih₁ ih₂ =>
    rw [convertToIntermediateBpf] at he ⊢
    rw [cons_append, append_assoc] at he ⊢
    rw [run_code_jge data a post he]
    have hh : half < (range₁ :: range₂ :: ranges).length := by
      simp only [half, length_cons]
      omega
    have hs := take_append_drop half (range₁ :: range₂ :: ranges)
    have hd := drop_eq_getElem_cons hh
    rw [← hs, pairwise_append] at ho
    obtain ⟨ho₁, ho₂, -⟩ := ho
    have hl : ∀ range ∈ (range₁ :: range₂ :: ranges).drop half,
        ((range₁ :: range₂ :: ranges).get ⟨half, hh⟩).start ≤ range.start := by
      intro range hr
      rw [hd] at hr ho₂
      obtain rfl | hr := mem_cons.mp hr
      · exact le_rfl
      · exact ((pairwise_cons.mp ho₂).1 range hr).1
    have ha : Accepts (range₁ :: range₂ :: ranges) a.toNat ↔
        Accepts ((range₁ :: range₂ :: ranges).take half ++ (range₁ :: range₂ :: ranges).drop half) a.toNat := by
      rw [hs]
    rw [ha]
    split
    next hge =>
      have hmem : (range₁ :: range₂ :: ranges).get ⟨half, hh⟩ ∈ (range₁ :: range₂ :: ranges).drop half := by
        rw [hd]
        exact mem_cons_self
      rw [accepts_right hmem hge]
      show (_ → run data (convertToIntermediateBpf _).length a _ = _) ∧ (_ → run data (convertToIntermediateBpf _).length a _ = _)
      rw [run_drop]
      refine ih₂ rest he.tail.drop (ne_nil_of_mem hmem) ho₂ ?_
      intro range hr
      rw [hd] at hr
      obtain rfl := Option.some.inj hr
      exact hge
    next hlt =>
      have hri : ∀ range ∈ (range₁ :: range₂ :: ranges).drop half, a.toNat < range.start := by
        intro range hr
        exact (Nat.lt_of_not_le hlt).trans_le (hl range hr)
      rw [accepts_left hri]
      refine ih₁ _ he.tail ?_ ho₁ ?_
      · simp [half]
      · intro range hr
        apply hf range
        simpa [half, head?_take] using hr

end Bionic.Seccomp
