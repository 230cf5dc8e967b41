import Bionic.Seccomp.Tree

namespace Bionic.Seccomp

open Lib Bpf List

variable {syscalls : List Syscall} {priorities : List String} {lines : List Line} (data : Field → UInt32)
  (a : UInt32) (post : Filter)

def others (syscalls : List Syscall) (priorities : List String) : List Syscall :=
  (extractPrioritySyscalls syscalls priorities).2

def prioritized (syscalls : List Syscall) (priorities : List String) : List Syscall :=
  (extractPrioritySyscalls syscalls priorities).1

/-- The numbers that a table lets through: those of the calls outside the priority list, and those of the
priority list that are not below all of these. -/
def TableAccepts (syscalls : List Syscall) (priorities : List String) (v : ℕ) : Prop :=
  (∃ syscall ∈ others syscalls priorities, syscall.nr = v) ∨
    (∃ syscall ∈ prioritized syscalls priorities, syscall.nr = v) ∧ ∃ syscall ∈ others syscalls priorities, syscall.nr ≤ v

theorem run_priority (prioritySyscalls : List Syscall)
    (rest : List Statement) (he : Exact (resolve (convertPriorityToIntermediateBpf prioritySyscalls ++ rest))) :
    run data 0 a (code (convertPriorityToIntermediateBpf prioritySyscalls ++ rest) post) =
      if ∃ syscall ∈ prioritySyscalls, syscall.nr = a.toNat then some .allow else run data 0 a (code rest post) := by
  induction prioritySyscalls with
  | nil => simp [convertPriorityToIntermediateBpf]
  | cons syscall prioritySyscalls ih =>
    have hc : convertPriorityToIntermediateBpf (syscall :: prioritySyscalls) ++ rest =
        .jeq syscall.nr .allow (.distance 0) [syscall.name] ::
          (convertPriorityToIntermediateBpf prioritySyscalls ++ rest) := rfl
    rw [hc] at he ⊢
    rw [run_code_jeq data a post he]
    by_cases h : a.toNat = syscall.nr
    · rw [if_pos h, if_pos ⟨syscall, mem_cons_self, h.symm⟩]
      exact run_allow ..
    · rw [if_neg h]
      refine (ih he.tail).trans ?_
      have hiff : (∃ s ∈ syscall :: prioritySyscalls, s.nr = a.toNat) ↔ ∃ s ∈ prioritySyscalls, s.nr = a.toNat := by
        simp [Ne.symm h]
      simp only [hiff]

theorem constructBpf_eq (h : constructBpf syscalls priorities = some lines) :
    ∃ range ranges bpf, convertNRsToRanges (others syscalls priorities) = range :: ranges ∧
      bpf = convertPriorityToIntermediateBpf (prioritized syscalls priorities) ++
        convertToIntermediateBpf (range :: ranges) ∧
      lines = .jge range.start 0 (bpf.length + 1) [] :: (resolve bpf ++ [.allow]) := by
  rw [constructBpf] at h
  cases hr : convertNRsToRanges (extractPrioritySyscalls syscalls priorities).2 with
  | nil =>
    rw [hr] at h
    cases h
  | cons range ranges =>
    rw [hr, convertRangesToBpf] at h
    rw [mapIdx_eq_resolve] at h
    refine ⟨range, ranges, _, hr, rfl, ?_⟩
    rw [← Option.some.inj h, length_append]
    congr 2
    rw [← mapIdx_eq_resolve, length_mapIdx]
    rfl

theorem others_ne_nil (h : constructBpf syscalls priorities = some lines) : others syscalls priorities ≠ [] := by
  intro hnil
  obtain ⟨range, ranges, -, hr, -⟩ := constructBpf_eq h
  rw [hnil] at hr
  cases hr

theorem constructBpf_isSome (h : others syscalls priorities ≠ []) : ∃ lines, constructBpf syscalls priorities = some lines := by
  obtain ⟨sorted, v, hc, -⟩ := convertNRsToRanges_collected h
  obtain ⟨⟨range, hl, -⟩, -⟩ := hc
  cases hr : convertNRsToRanges (others syscalls priorities) with
  | nil =>
    rw [hr] at hl
    cases hl
  | cons range ranges =>
    exact ⟨_, (congrArg (convertRangesToBpf (prioritized syscalls priorities)) hr).trans rfl⟩

theorem mem_resolve {line : Line} {bpf : List Statement} (h : line ∈ resolve bpf) :
    ∃ statement ∈ bpf, ∃ fail allow, line = statement.format fail allow := by
  induction bpf with
  | nil => cases h
  | cons statement bpf ih =>
    obtain rfl | h := mem_cons.mp h
    · exact ⟨statement, mem_cons_self, _, _, rfl⟩
    · obtain ⟨s, hs, hl⟩ := ih h
      exact ⟨s, mem_cons_of_mem _ hs, hl⟩

def Statement.k : Statement → ℕ
  | .jge k _ _ _ => k
  | .jeq k _ _ _ => k

variable {ranges : List SyscallRange} {statement : Statement}

theorem tree_operand {bound : ℕ} (h : ∀ range ∈ ranges, range.start < bound ∧ range.stop < bound) (hs : statement ∈ convertToIntermediateBpf ranges) : statement.k < bound := by
  induction ranges using convertToIntermediateBpf.induct with
  | case1 =>
    rw [convertToIntermediateBpf] at hs
    cases hs
  | case2 range =>
    rw [convertToIntermediateBpf] at hs
    rw [mem_singleton.mp hs]
    exact (h range mem_cons_self).2
  | case3 range₁ range₂ ranges half ih₁ ih₂ =>
    rw [convertToIntermediateBpf] at hs
    obtain rfl | hs := mem_cons.mp hs
    · exact (h _ (get_mem _ _)).1
    · obtain hs | hs := mem_append.mp hs
      · exact ih₁ (fun range hr => h range (mem_of_mem_take hr)) hs
      · exact ih₂ (fun range hr => h range (mem_of_mem_drop hr)) hs

/-- Every range ends at most one behind a number that it was made of. -/
theorem Collected.bounded {v : ℕ} (h : Collected ranges syscalls v)
    (range : SyscallRange) (hr : range ∈ ranges) : range.start < 2 ^ 32 ∧ range.stop < 2 ^ 32 := by
  have hpos := h.nonempty range hr
  obtain ⟨syscall, -, hnr⟩ := (h.holds (range.stop - 1)).mp ⟨range, hr, by omega, by omega⟩
  have hlt := syscall.nr_lt
  omega

theorem Statement.format_operand (h : statement.k < 2 ^ 32) (fail allow : ℕ) :
    (statement.format fail allow).Operand := by
  cases statement with
  | jge k jt jf names => exact h
  | jeq k jt jf names => exact h

theorem run_table (h : constructBpf syscalls priorities = some lines) (hfi : ∀ line ∈ lines, line.Fits) :
    (TableAccepts syscalls priorities a.toNat → run data 0 a (lines.map Line.compile ++ post) = some .allow) ∧
      (¬ TableAccepts syscalls priorities a.toNat →
        run data 0 a (lines.map Line.compile ++ post) = run data 0 a post) := by
  obtain ⟨range, ranges, bpf, hra, hbpf, rfl⟩ := constructBpf_eq h
  obtain ⟨sorted, v, hc, hmem⟩ := convertNRsToRanges_collected (others_ne_nil h)
  rw [hra] at hc
  have he : Exact (resolve bpf) := by
    intro line hl
    refine ⟨?_, hfi line (mem_cons_of_mem _ (mem_append_left _ hl))⟩
    obtain ⟨statement, hs, fail, allow, rfl⟩ := mem_resolve hl
    apply Statement.format_operand
    rw [hbpf] at hs
    obtain hs | hs := mem_append.mp hs
    · obtain ⟨syscall, -, rfl⟩ := mem_map.mp hs
      exact Nat.lt_of_succ_lt syscall.nr_lt
    · exact tree_operand hc.bounded hs
  have hf := hfi _ mem_cons_self
  have hst := (hc.bounded range mem_cons_self).1
  have hrun : run data 0 a ((Line.jge range.start 0 (bpf.length + 1) [] :: (resolve bpf ++ [Line.allow])).map Line.compile ++ post) =
      run data (if range.start ≤ a.toNat then 0 else bpf.length + 1) a (code bpf post) := by
    have hjge := run_jge data a (code bpf post) (.ofNat range.start) (.ofNat 0) (.ofNat (bpf.length + 1))
    rw [toNat_ite _ hf.1 hf.2] at hjge
    simp only [ofNat_le_iff hst] at hjge
    rw [← hjge, map_cons, map_append, cons_append, append_assoc]
    rfl
  have hlow : ∀ syscall ∈ others syscalls priorities, range.start ≤ syscall.nr := by
    intro syscall hsy
    obtain ⟨r, hr, hh⟩ := (hc.holds syscall.nr).mpr ⟨syscall, (hmem syscall).mpr hsy, rfl⟩
    obtain rfl | hr := mem_cons.mp hr
    · exact hh.1
    · exact ((pairwise_cons.mp hc.ordered).1 r hr).1.trans hh.1
  have hla : ∃ syscall ∈ others syscalls priorities, syscall.nr = range.start := by
    have hpos := hc.nonempty range mem_cons_self
    obtain ⟨syscall, hsy, hnr⟩ := (hc.holds range.start).mp ⟨range, mem_cons_self, le_rfl, hpos⟩
    exact ⟨syscall, (hmem syscall).mp hsy, hnr⟩
  rw [hrun]
  by_cases hle : range.start ≤ a.toNat
  · rw [if_pos hle]
    have ht := run_tree data a post (range :: ranges) [] (by rw [append_nil]; exact (hbpf ▸ he).drop)
      (cons_ne_nil _ _) hc.ordered (by rintro r ⟨⟩; exact hle)
    rw [append_nil] at ht
    have ha : Accepts (range :: ranges) a.toNat ↔ ∃ syscall ∈ others syscalls priorities, syscall.nr = a.toNat := by
      rw [accepts_iff_holds hc.ordered hc.nonempty, hc.holds]
      simp only [hmem]
    have hpr := run_priority data a post (prioritized syscalls priorities) (convertToIntermediateBpf (range :: ranges))
      (hbpf ▸ he)
    rw [← hbpf] at hpr
    rw [hpr]
    rw [ha] at ht
    by_cases hp : ∃ syscall ∈ prioritized syscalls priorities, syscall.nr = a.toNat
    · rw [if_pos hp]
      obtain ⟨syscall, hsy, hnr⟩ := hla
      exact ⟨fun _ => rfl, fun hn => absurd (.inr ⟨hp, syscall, hsy, hnr ▸ hle⟩) hn⟩
    · rw [if_neg hp]
      have hiff : TableAccepts syscalls priorities a.toNat ↔ ∃ syscall ∈ others syscalls priorities, syscall.nr = a.toNat := by
        rw [TableAccepts]
        simp only [hp, false_and, or_false]
      rw [hiff]
      exact ht
  · rw [if_neg hle]
    have hnot : ¬ TableAccepts syscalls priorities a.toNat := by
      rintro (⟨syscall, hsy, hnr⟩ | ⟨-, syscall, hsy, hnr⟩)
      · exact hle (hnr ▸ hlow syscall hsy)
      · exact hle ((hlow syscall hsy).trans hnr)
    exact ⟨fun hyes => absurd hyes hnot, fun _ => run_fail ..⟩

variable {platform : Platform} {c : Syscall} {v : ℕ}

def LastOf (syscalls : List Syscall) (c : Syscall) : Prop := syscalls.reverse.find? (·.name = c.name) = some c

/-- Every number of the priority list is also one outside of it, or it is the last one of a prioritized name and not
below all numbers outside of the list. -/
def Covered (syscalls : List Syscall) (priorities : List String) : Prop :=
  ∀ c ∈ syscalls, c.name ∈ priorities → (∃ o ∈ syscalls, o.name ∉ priorities ∧ o.nr = c.nr) ∨
    (∃ q ∈ syscalls, q.name ∈ priorities ∧ LastOf syscalls q ∧ q.nr = c.nr) ∧
      ∃ o ∈ syscalls, o.name ∉ priorities ∧ o.nr ≤ c.nr

def Allows (syscalls : List Syscall) (v : ℕ) : Prop := ∃ c ∈ syscalls, c.nr = v

instance (syscalls : List Syscall) (v : ℕ) : Decidable (Allows syscalls v) :=
  inferInstanceAs (Decidable (∃ c ∈ syscalls, c.nr = v))

theorem mem_others : c ∈ others syscalls priorities ↔ c ∈ syscalls ∧ c.name ∉ priorities := by
  rw [others, extractPrioritySyscalls, mem_filter, decide_eq_true_iff]

theorem mem_prioritized :
    c ∈ prioritized syscalls priorities ↔ c ∈ syscalls ∧ c.name ∈ priorities ∧ LastOf syscalls c := by
  rw [prioritized, extractPrioritySyscalls, mem_filterMap]
  constructor
  · rintro ⟨name, hn, hf⟩
    have hn' := find?_some hf
    obtain rfl : c.name = name := of_decide_eq_true hn'
    exact ⟨mem_reverse.mp (mem_of_find?_eq_some hf), hn, hf⟩
  · rintro ⟨-, hn, hl⟩
    exact ⟨c.name, hn, hl⟩

theorem tableAccepts_iff : TableAccepts syscalls priorities v ↔
    (∃ o ∈ syscalls, o.name ∉ priorities ∧ o.nr = v) ∨
      (∃ q ∈ syscalls, q.name ∈ priorities ∧ LastOf syscalls q ∧ q.nr = v) ∧
        ∃ o ∈ syscalls, o.name ∉ priorities ∧ o.nr ≤ v := by
  simp only [TableAccepts, mem_others, mem_prioritized, and_assoc]

theorem TableAccepts.allows (h : TableAccepts syscalls priorities v) : Allows syscalls v := by
  obtain ⟨o, ho, -, hnr⟩ | ⟨⟨q, hq, -, -, hnr⟩, -⟩ := tableAccepts_iff.mp h
  · exact ⟨o, ho, hnr⟩
  · exact ⟨q, hq, hnr⟩

theorem covered_iff : (∀ v, Allows syscalls v → TableAccepts syscalls priorities v) ↔ Covered syscalls priorities := by
  constructor
  · intro h c hc _
    exact tableAccepts_iff.mp (h c.nr ⟨c, hc, rfl⟩)
  · rintro h v ⟨c, hc, rfl⟩
    by_cases hn : c.name ∈ priorities
    · exact tableAccepts_iff.mpr (h c hc hn)
    · exact .inl ⟨c, mem_others.mpr ⟨hc, hn⟩, rfl⟩

def header (platform : Platform) (jump : ℕ) : Filter :=
  [.ld .arch, .jeq platform.primaryArch 2 0, .jeq platform.secondaryArch (.ofNat jump) 0, .ret .trap, .ld .nr]

def assembled (platform : Platform) (p s : Filter) : Filter :=
  header platform (p.length + 3) ++ (p ++ .ret .trap :: .ld .nr :: (s ++ [.ret .trap]))

theorem setSeccompFilter_eq (platform : Platform) {p s : Filter} (h : p.length + 3 < 256) :
    setSeccompFilter platform p s = some (assembled platform p s) := by
  have hv : validateArchitectureAndJumpIfNeeded Field.arch platform.primaryArch platform.secondaryArch [] =
      (2, disallow [.ld .arch, .jeq platform.primaryArch 2 0, .jeq platform.secondaryArch 1 0]) := rfl
  have hl : (disallow (examineSyscall .nr (disallow [.ld .arch, .jeq platform.primaryArch 2 0,
      .jeq platform.secondaryArch 1 0]) ++ p)).length - 2 - 1 = p.length + 3 := by
    simp only [disallow, examineSyscall, length_append, length_cons, length_nil]
    omega
  have hfit : (UInt8.ofNat (p.length + 3)).toNat = p.length + 3 := by
    rw [UInt8.toNat_ofNat', Nat.mod_eq_of_lt h]
  simp only [setSeccompFilter, hv]
  rw [setValidateArchitectureJumpTarget, hl, if_neg (not_not.mpr hfit)]
  simp [disallow, examineSyscall, assembled, header]

theorem primaryArch_ne (platform : Platform) : platform.primaryArch ≠ platform.secondaryArch := by
  cases platform <;> decide

section Eval

variable (platform : Platform) (p s : Filter) (nr : UInt32)

theorem eval_primary : eval (seccompData platform.primaryArch nr) (assembled platform p s) =
    run (seccompData platform.primaryArch nr) 0 nr (p ++ .ret .trap :: .ld .nr :: (s ++ [.ret .trap])) := by
  simp only [eval, assembled, header, cons_append, run_ld, run_jeq, seccompData, if_true]
  show run _ 2 _ _ = _
  rw [run_succ, run_succ]
  exact run_ld ..

theorem eval_secondary (h : p.length + 3 < 256) :
    eval (seccompData platform.secondaryArch nr) (assembled platform p s) =
      run (seccompData platform.secondaryArch nr) 0 nr (s ++ [.ret .trap]) := by
  have hfit : (UInt8.ofNat (p.length + 3)).toNat = p.length + 3 := by
    rw [UInt8.toNat_ofNat', Nat.mod_eq_of_lt h]
  simp only [eval, assembled, header, cons_append, nil_append, run_ld, run_jeq, seccompData,
    if_neg (primaryArch_ne platform).symm]
  show run _ 0 platform.secondaryArch (.jeq _ _ _ :: _) = _
  rw [run_jeq, if_pos rfl, hfit, run_succ, run_succ, run_append _ _ _ p 1, run_succ]
  exact run_ld ..

theorem eval_other {arch : UInt32} (hp : arch ≠ platform.primaryArch) (hs : arch ≠ platform.secondaryArch) :
    eval (seccompData arch nr) (assembled platform p s) = some .trap := by
  simp only [eval, assembled, header, cons_append, run_ld, run_jeq, seccompData, if_neg hp]
  show run _ 0 arch (.jeq _ _ _ :: _) = _
  rw [run_jeq, if_neg hs]
  rfl

end Eval

open Classical in
theorem run_verdict {lines : List Line} (data : Field → UInt32) (a : UInt32) (post : Filter)
    (h : constructBpf syscalls priorities = some lines) (hfits : ∀ line ∈ lines, line.Fits) :
    run data 0 a (lines.map Line.compile ++ .ret .trap :: post) =
      some (if TableAccepts syscalls priorities a.toNat then .allow else .trap) := by
  have hrun := run_table data a (.ret .trap :: post) h hfits
  split
  next hyes => exact hrun.1 hyes
  next hno => exact hrun.2 hno

open Classical in
theorem verdicts_iff : (∀ nr : UInt32, (some (if TableAccepts syscalls priorities nr.toNat then Action.allow else .trap)) =
    some (if Allows syscalls nr.toNat then .allow else .trap)) ↔ Covered syscalls priorities := by
  rw [← covered_iff]
  constructor
  · rintro h v ⟨c, hc, rfl⟩
    have hlt : c.nr < 2 ^ 32 := Nat.lt_of_succ_lt c.nr_lt
    have hallows : Allows syscalls c.nr := ⟨c, hc, rfl⟩
    have heq := h (.ofNat c.nr)
    rw [UInt32.toNat_ofNat', Nat.mod_eq_of_lt hlt, if_pos hallows] at heq
    apply Classical.byContradiction
    intro hno
    rw [if_neg hno] at heq
    cases heq
  · intro h nr
    congr 1
    exact if_congr ⟨TableAccepts.allows, h _⟩ rfl rfl

/-- The assembled filter accepts exactly the allowed calls, if and only if no prioritized number is below all
others of its architecture, or hidden by a later call of the same name. -/
theorem filter_exact (platform : Platform) (primary secondary : List Syscall) (priorities : List String)
    (hprimary : ∃ c ∈ primary, c.name ∉ priorities) (hsecondary : ∃ c ∈ secondary, c.name ∉ priorities) :
    ∃ p s, constructBpf primary priorities = some p ∧ constructBpf secondary priorities = some s ∧
      ((∀ line ∈ p, line.Fits) → (∀ line ∈ s, line.Fits) → p.length + 3 < 256 →
        ∃ f, setSeccompFilter platform (p.map Line.compile) (s.map Line.compile) = some f ∧
          ((∀ arch nr, eval (seccompData arch nr) f =
              some (if arch = platform.primaryArch ∧ Allows primary nr.toNat ∨
                arch = platform.secondaryArch ∧ Allows secondary nr.toNat then .allow else .trap)) ↔
            Covered primary priorities ∧ Covered secondary priorities)) := by
  have hne : ∀ {syscalls : List Syscall}, (∃ c ∈ syscalls, c.name ∉ priorities) → others syscalls priorities ≠ [] := by
    rintro syscalls ⟨c, hc⟩
    exact ne_nil_of_mem (mem_others.mpr hc)
  obtain ⟨p, hp⟩ := constructBpf_isSome (hne hprimary)
  obtain ⟨s, hs⟩ := constructBpf_isSome (hne hsecondary)
  refine ⟨p, s, hp, hs, fun hfp hfs hlen => ⟨_, setSeccompFilter_eq platform (by rwa [length_map]), ?_⟩⟩
  have hlen' : (p.map Line.compile).length + 3 < 256 := by rwa [length_map]
  have hne' := primaryArch_ne platform
  rw [← verdicts_iff, ← verdicts_iff]
  constructor
  · intro h
    refine ⟨fun nr => ?_, fun nr => ?_⟩
    · have heq := h platform.primaryArch nr
      rw [eval_primary, run_verdict _ _ _ hp hfp] at heq
      simpa only [hne', true_and, false_and, or_false] using heq
    · have heq := h platform.secondaryArch nr
      rw [eval_secondary platform _ _ nr hlen', run_verdict _ _ _ hs hfs] at heq
      simpa only [hne'.symm, true_and, false_and, false_or] using heq
  · rintro ⟨h₁, h₂⟩ arch nr
    by_cases ha₁ : arch = platform.primaryArch
    · subst ha₁
      rw [eval_primary, run_verdict _ _ _ hp hfp]
      simpa only [hne', true_and, false_and, or_false] using h₁ nr
    · by_cases ha₂ : arch = platform.secondaryArch
      · subst ha₂
        rw [eval_secondary platform _ _ nr hlen', run_verdict _ _ _ hs hfs]
        simpa only [hne'.symm, true_and, false_and, false_or] using h₂ nr
      · rw [if_neg (by simp [ha₁, ha₂])]
        exact eval_other platform _ _ nr ha₁ ha₂

section Example

def readCall : Syscall := ⟨"read", 0, by decide⟩

def writeCall : Syscall := ⟨"write", 1, by decide⟩

theorem constructBpf_write : constructBpf [readCall, writeCall] ["write"] =
    some [.jge 0 0 3 [], .jeq 1 1 0 ["write"], .jge 1 1 0 ["read"], .allow] := by
  show convertRangesToBpf [writeCall] [⟨["read"], 0, 1⟩] = _
  rw [convertRangesToBpf, convertToIntermediateBpf]
  rfl

theorem constructBpf_read : constructBpf [readCall, writeCall] ["read"] =
    some [.jge 1 0 3 [], .jeq 0 1 0 ["read"], .jge 2 1 0 ["write"], .allow] := by
  show convertRangesToBpf [readCall] [⟨["write"], 1, 2⟩] = _
  rw [convertRangesToBpf, convertToIntermediateBpf]
  rfl

theorem covered_write : Covered [readCall, writeCall] ["write"] := by
  intro c hc hn
  obtain rfl | hc := mem_cons.mp hc
  · exact absurd hn (by decide)
  obtain rfl := mem_singleton.mp hc
  refine .inr ⟨⟨writeCall, mem_cons_of_mem _ mem_cons_self, hn, rfl, rfl⟩, readCall, mem_cons_self, ?_, ?_⟩
  · decide
  · decide

/-- With `write` in front, both calls are accepted on both architectures, and nothing else is. -/
theorem filter_exact_write : ∃ p f, constructBpf [readCall, writeCall] ["write"] = some p ∧
    setSeccompFilter .arm (p.map Line.compile) (p.map Line.compile) = some f ∧
    ∀ arch nr, eval (seccompData arch nr) f =
      some (if arch = Platform.arm.primaryArch ∧ Allows [readCall, writeCall] nr.toNat ∨
        arch = Platform.arm.secondaryArch ∧ Allows [readCall, writeCall] nr.toNat then .allow else .trap) := by
  have ho : ∃ c ∈ [readCall, writeCall], c.name ∉ ["write"] := ⟨readCall, mem_cons_self, by decide⟩
  obtain ⟨p, s, hp, hs, h⟩ := filter_exact .arm [readCall, writeCall] [readCall, writeCall] ["write"] ho ho
  obtain rfl := Option.some.inj (constructBpf_write.symm.trans hp)
  obtain rfl := Option.some.inj (constructBpf_write.symm.trans hs)
  have hfi : ∀ line ∈ [Line.jge 0 0 3 [], .jeq 1 1 0 ["write"], .jge 1 1 0 ["read"], .allow], line.Fits := by
    simp [Line.Fits]
  obtain ⟨f, hset, hf⟩ := h hfi hfi (by decide)
  exact ⟨_, f, hp, hset, hf.mpr ⟨covered_write, covered_write⟩⟩

/-- With `read` in front, whose number is below that of all other calls, it is not accepted any more. -/
theorem prioritized_read_trapped : ∃ p f, constructBpf [readCall, writeCall] ["read"] = some p ∧
    setSeccompFilter .arm (p.map Line.compile) (p.map Line.compile) = some f ∧
    eval (seccompData Platform.arm.primaryArch 0) f = some .trap := by
  refine ⟨_, _, constructBpf_read, setSeccompFilter_eq .arm (by decide), ?_⟩
  decide

end Example

end Bionic.Seccomp
