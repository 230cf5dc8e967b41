import Bionic.Linker.Namespaces
import Mathlib.Data.List.TakeWhile

namespace Bionic.Linker.Namespaces

open List Option

variable {ι : Type} {env : Env ι} {s s' : State ι} {n : ι} {task : LoadTask ι} {rtldFlags : UInt32} {si : Soinfo}

/-- The library is in the list of the namespace, or in that of a linked one through a link that accepts its soname. -/
def Shared (s : State ι) (n : ι) (si : Soinfo) : Prop :=
  si ∈ (s.ns n).soinfoList ∨
    ∃ link ∈ (s.ns n).linkedNamespaces, si ∈ (s.ns link.linkedNamespace).soinfoList ∧ link.isAccessible si.soname

/-- What a namespace may get for a request: a library of its own list, with an accessible real path if it was not
loaded before, or one that a link shares. -/
def Isolated (s s' : State ι) (n : ι) (si : Soinfo) : Prop :=
  (si ∈ (s'.ns n).soinfoList ∧ ((∀ m, si ∉ (s.ns m).soinfoList) → (s.ns n).isAccessible si.realpath)) ∨
    ∃ link ∈ (s.ns n).linkedNamespaces, si ∈ (s'.ns link.linkedNamespace).soinfoList ∧ link.isAccessible si.soname

theorem isolated_self_iff : Isolated s s n si ↔ Shared s n si := by
  refine or_congr_left (and_iff_left_of_imp fun h hnew => ?_)
  exact absurd h (hnew n)

section Loaded

variable {stat : Stat} {fileOffset : Int} {name : Str}

theorem findLoadedLibraryByInode_true (h : findLoadedLibraryByInode s n stat fileOffset false = some si) :
    findLoadedLibraryByInode s n stat fileOffset true = some si := by
  simp only [findLoadedLibraryByInode, Bool.and_false, Bool.false_eq_true, if_false] at h
  unfold findLoadedLibraryByInode
  split at h
  · cases h
  · rename_i hs
    simp [hs, h]

theorem findLoadedLibraryByInode_shared (h : findLoadedLibraryByInode s n stat fileOffset true = some si) :
    Shared s n si := by
  unfold findLoadedLibraryByInode at h
  split at h
  · cases h
  · dsimp only at h
    split at h
    · obtain ⟨link, hl, hf⟩ := exists_of_findSome?_eq_some h
      rw [filter_eq_some_iff] at hf
      exact .inr ⟨link, hl, mem_of_find?_eq_some hf.1, hf.2⟩
    · exact .inl (mem_of_find?_eq_some h)

theorem findLoadedLibraryBySoname_shared (h : findLoadedLibraryBySoname s n name true = some si) : Shared s n si := by
  unfold findLoadedLibraryBySoname at h
  split at h
  · cases h
  · dsimp only at h
    split at h
    · obtain ⟨link, hl, hf⟩ := exists_of_findSome?_eq_some h
      rw [ite_none_right_eq_some] at hf
      have hn : name = si.soname := by simpa using find?_some hf.2
      exact .inr ⟨link, hl, mem_of_find?_eq_some hf.2, hn ▸ hf.1⟩
    · exact .inl (mem_of_find?_eq_some h)

theorem basename_of_not_mem (h : '/' ∉ name) : basename name = name := by
  rw [basename, takeWhile_eq_self_iff.2 fun c hc => ?_, reverse_reverse]
  rw [mem_reverse] at hc
  simpa using ne_of_mem_of_not_mem hc h

/-- After a search by soname that fails, a link finds nothing loaded under the name that it would share. -/
theorem findLibraryInLinkedNamespace_eq (h : findLoadedLibraryBySoname s n task.name true = none) {link : Link ι}
    (hl : link ∈ (s.ns n).linkedNamespaces) : findLibraryInLinkedNamespace s link task =
      if link.isAccessible (resolveSoname task.name) then .okToLoad else .notAccessible := by
  unfold findLibraryInLinkedNamespace
  cases hf : findLoadedLibraryBySoname s link.linkedNamespace task.name false with
  | none => rfl
  | some candidate =>
    unfold findLoadedLibraryBySoname at h hf
    split at hf
    · cases hf
    · rename_i hs
      rw [if_neg hs] at h
      simp only [Bool.and_false, Bool.false_eq_true, if_false] at hf
      have hna : task.name = candidate.soname := by simpa using find?_some hf
      have hn : link.isAccessible task.name = false := by
        by_contra ha
        rw [Bool.not_eq_false] at ha
        dsimp only at h
        split at h
        · have := findSome?_eq_none_iff.1 h link hl
          rw [if_pos ha, hf] at this
          cases this
        · rename_i hown
          simp [h] at hown
      dsimp only
      rw [resolveSoname, basename_of_not_mem hs, ← hna, hn]
      rfl

theorem openLibraryOnPaths_atPath {paths : List Str} {opened : Opened}
    (h : openLibraryOnPaths env name paths = some opened) : ∃ path, openLibraryAtPath env path = some opened := by
  obtain ⟨path, -, h⟩ := exists_of_findSome?_eq_some h
  exact ⟨_, (ite_none_left_eq_some.1 h).2⟩

theorem openLibrary_atPath {ns : Namespace ι} {neededBy : Option Soinfo} {opened : Opened}
    (h : openLibrary env ns name neededBy = some opened) : ∃ path, openLibraryAtPath env path = some opened := by
  unfold openLibrary at h
  split at h
  · exact ⟨name, h⟩
  · rcases or_eq_some_iff.1 h with h | ⟨-, h⟩
    · exact openLibraryOnPaths_atPath h
    rcases or_eq_some_iff.1 h with h | ⟨-, h⟩
    · obtain ⟨si, -, h⟩ := bind_eq_some_iff.1 h
      exact openLibraryOnPaths_atPath (filter_eq_some_iff.1 h).1
    · exact openLibraryOnPaths_atPath h

end Loaded

variable [DecidableEq ι] {opened : Opened} {b : Bool}

section Load

/-- How `load_library` succeeds for an open file: with a library loaded from it before, or with a new one. -/
inductive LoadOutcome (env : Env ι) (s : State ι) (n : ι) (task : LoadTask ι) (opened : Opened)
    (searchLinkedNamespaces : Bool) : State ι → Soinfo → Prop where
  | reused (stat : Stat) (si : Soinfo) (hstat : opened.file.stat = some stat)
      (hfound : findUnlessForced s n task stat opened.fileOffset searchLinkedNamespaces = some si) :
      LoadOutcome env s n task opened searchLinkedNamespaces s si
  | loaded (stat : Stat) (elf : DynamicSection) (hstat : opened.file.stat = some stat)
      (helf : opened.file.elf = some elf)
      (hnew : findUnlessForced s n task stat opened.fileOffset searchLinkedNamespaces = none)
      (haccess : opened.file.isTmpfs = some true ∨ (s.ns n).isAccessible opened.realpath ∨
        isExemptLib env s n task.name task.dtNeededBy) :
      LoadOutcome env s n task opened searchLinkedNamespaces
        (s.load n (newSoinfo s opened stat elf) rfl elf.needed) (newSoinfo s opened stat elf)

theorem loadOpened_outcome
    (h : loadOpened env s n task rtldFlags opened b = some (s', si)) : LoadOutcome env s n task opened b s' si := by
  unfold loadOpened at h
  split at h
  · cases h
  obtain ⟨stat, hs, h⟩ := bind_eq_some_iff.1 h
  split at h
  · cases h
  split at h
  · rename_i hf
    cases h
    exact .reused stat si hs hf
  · rename_i hf
    unfold loadNew at h
    split at h
    · cases h
    obtain ⟨isTmpfs, ht, h⟩ := bind_eq_some_iff.1 h
    split at h
    · cases h
    · rename_i ha
      obtain ⟨elf, helf, h⟩ := bind_eq_some_iff.1 h
      cases h
      refine .loaded stat elf hs helf hf ?_
      rw [ht]
      tauto

theorem loadLibrary_eq (hfd : task.hasFlag dlextUseLibraryFd = false) (b : Bool) :
    loadLibrary env s n task rtldFlags b = (openLibrary env (s.ns n) task.name task.neededBy).bind fun opened =>
      loadOpened env s n task rtldFlags opened b := by
  unfold loadLibrary
  split
  · rename_i extinfo he
    have hf : ¬ extinfo.flags &&& dlextUseLibraryFd ≠ 0 := by
      simpa [LoadTask.hasFlag, he] using hfd
    rw [if_neg hf]
    rfl
  · rfl

end Load

section Inputs

variable (env : Env ι) (s : State ι) (n : ι) (task : LoadTask ι) (rtldFlags : UInt32) (opened : Opened)
  (searchLinkedNamespaces : Bool)

def OffsetInFile : Prop :=
  opened.fileOffset % 4096 = 0 ∧ 0 ≤ opened.fileOffset ∧
    ∃ stat, opened.file.stat = some stat ∧ opened.fileOffset < stat.stSize

def alreadyLoaded : Option Soinfo :=
  opened.file.stat.bind fun stat => findUnlessForced s n task stat opened.fileOffset searchLinkedNamespaces

/-- What a file that is not loaded yet must be like for the namespace to load it. -/
def Admitted : Prop :=
  rtldFlags &&& rtldNoload = 0 ∧ opened.file.elf.isSome ∧ opened.file.isTmpfs.isSome ∧
    (opened.file.isTmpfs = some true ∨ (s.ns n).isAccessible opened.realpath ∨
      isExemptLib env s n task.name task.dtNeededBy)

def Loadable : Prop :=
  OffsetInFile opened ∧ ((alreadyLoaded s n task opened searchLinkedNamespaces).isSome ∨
    Admitted env s n task rtldFlags opened)

/-- The namespace leaves the request to its links: no library it sees has the name, and it cannot load the file that
it finds for it. -/
def LeftToLinks : Prop :=
  findLoadedLibraryBySoname s n task.name true = none ∧
    ∀ opened, openLibrary env (s.ns n) task.name task.neededBy = some opened →
      ¬ Loadable env s n task rtldFlags opened true

/-- The link accepts the basename of the request, and its namespace can load the file that it finds for it. -/
def Serves (link : Link ι) (opened : Opened) : Prop :=
  link.isAccessible (basename task.name) ∧
    openLibrary env (s.ns link.linkedNamespace) task.name task.neededBy = some opened ∧
      Loadable env s link.linkedNamespace task rtldFlags opened false

/-- A link to the namespace `m`, or to another that holds the library already, accepts the basename of the file's
real path, or the library is one of the namespace `n` itself. -/
def RealNameShared (m : ι) : Prop :=
  (∃ l ∈ (s.ns n).linkedNamespaces, l.isAccessible (basename opened.realpath) ∧
    (l.linkedNamespace = m ∨
      ∃ si ∈ alreadyLoaded s m task opened false, si ∈ (s.ns l.linkedNamespace).soinfoList)) ∨
  ∃ si ∈ alreadyLoaded s m task opened false, si ∈ (s.ns n).soinfoList

/-- A file that the namespace opens itself is not let in by the list of exempt libraries alone. -/
def NotExempted : Prop :=
  findLoadedLibraryBySoname s n task.name true = none →
    ∀ opened, openLibrary env (s.ns n) task.name task.neededBy = some opened →
      Loadable env s n task rtldFlags opened true →
        (alreadyLoaded s n task opened true).isSome ∨ (s.ns n).isAccessible opened.realpath ∨
          ∃ l ∈ (s.ns n).linkedNamespaces, l.linkedNamespace = n ∧ l.isAccessible (basename opened.realpath)

/-- The file that the first serving link leads to is shared under the name of its real path too. -/
def NotRenamed : Prop :=
  LeftToLinks env s n task rtldFlags →
    ∀ before link after opened, (s.ns n).linkedNamespaces = before ++ link :: after →
      (∀ l ∈ before, ∀ opened, ¬ Serves env s task rtldFlags l opened) → Serves env s task rtldFlags link opened →
        RealNameShared s n task opened link.linkedNamespace

/-- The libraries' sonames are the basenames of their real paths: of the files the request can open and of the
libraries loaded from them. -/
structure SonamesResolve : Prop where
  file : ∀ m opened elf, openLibrary env (s.ns m) task.name task.neededBy = some opened →
    opened.file.elf = some elf → elf.soname = some (basename opened.realpath)
  loaded : ∀ m opened stat, openLibrary env (s.ns m) task.name task.neededBy = some opened →
    opened.file.stat = some stat → ∀ k, ∀ si ∈ (s.ns k).soinfoList, si.hasInode stat opened.fileOffset →
      si.soname = basename opened.realpath

end Inputs

section Internal

variable {elf : DynamicSection} {stat : Stat} {m : ι}

theorem loadNew_isSome_iff :
    (loadNew env s n task rtldFlags opened stat).isSome ↔ Admitted env s n task rtldFlags opened := by
  unfold loadNew Admitted
  by_cases hno : rtldFlags &&& rtldNoload ≠ 0
  · simp [hno]
  rw [if_neg hno, and_iff_right (not_not.1 hno)]
  cases opened.file.isTmpfs with
  | none => simp
  | some isTmpfs =>
    simp only [bind, bind_some, isSome_some, true_and, some.injEq]
    split
    · rename_i ha
      refine iff_of_false (by simp) fun h => ?_
      tauto
    · rename_i ha
      cases opened.file.elf with
      | none => simp
      | some elf =>
        simp only [bind_some, pure, isSome_some, true_and, true_iff]
        tauto

theorem loadOpened_isSome_iff :
    (loadOpened env s n task rtldFlags opened b).isSome ↔ Loadable env s n task rtldFlags opened b := by
  unfold loadOpened Loadable OffsetInFile alreadyLoaded
  by_cases hoff : opened.fileOffset % 4096 ≠ 0 ∨ opened.fileOffset < 0
  · rw [if_pos hoff]
    refine iff_of_false (by simp) fun h => ?_
    omega
  rw [if_neg hoff]
  cases hst : opened.file.stat with
  | none => simp
  | some stat =>
    simp only [bind, bind_some]
    by_cases hsz : opened.fileOffset ≥ stat.stSize
    · rw [if_pos hsz]
      refine iff_of_false (by simp) fun h => ?_
      obtain ⟨-, -, stat', hst', hlt⟩ := h.1
      cases hst'
      omega
    rw [if_neg hsz, and_iff_right ⟨by omega, by omega, stat, rfl, by omega⟩]
    cases hf : findUnlessForced s n task stat opened.fileOffset b with
    | some si => simp [pure]
    | none =>
      simp only [isSome_none, Bool.false_eq_true, false_or]
      exact loadNew_isSome_iff

omit [DecidableEq ι] in
theorem alreadyLoaded_true (h : (alreadyLoaded s n task opened false).isSome) :
    (alreadyLoaded s n task opened true).isSome := by
  unfold alreadyLoaded findUnlessForced at *
  obtain ⟨si, h⟩ := isSome_iff_exists.1 h
  obtain ⟨stat, hst, h⟩ := bind_eq_some_iff.1 h
  rw [ite_none_left_eq_some] at h
  rw [hst, bind_some, if_neg h.1, findLoadedLibraryByInode_true h.2]
  rfl

omit [DecidableEq ι] in
theorem newSoinfo_not_mem (k : ι) : newSoinfo s opened stat elf ∉ (s.ns k).soinfoList :=
  fun h => Nat.lt_irrefl _ (s.fresh k _ h)

theorem newSoinfo_mem_load {k : ι} :
    newSoinfo s opened stat elf ∈ ((s.load m (newSoinfo s opened stat elf) rfl elf.needed).ns k).soinfoList ↔
      k = m :=
  (mem_addSoinfo_update s).trans (by rw [or_iff_right (newSoinfo_not_mem k), and_iff_left rfl])

omit [DecidableEq ι] in
theorem findUnlessForced_shared {fileOffset : Int}
    (h : findUnlessForced s n task stat fileOffset true = some si) : Shared s n si := by
  unfold findUnlessForced at h
  split at h
  · cases h
  · exact findLoadedLibraryByInode_shared h

omit [DecidableEq ι] in
theorem findUnlessForced_mem {fileOffset : Int}
    (h : findUnlessForced s n task stat fileOffset false = some si) :
    si ∈ (s.ns n).soinfoList ∧ si.hasInode stat fileOffset := by
  unfold findUnlessForced findLoadedLibraryByInode at h
  simp only [Bool.and_false, Bool.false_eq_true, if_false, ite_none_left_eq_some] at h
  exact ⟨mem_of_find?_eq_some h.2.2, find?_some h.2.2⟩

theorem isolated_of_own_iff (hop : openLibrary env (s.ns n) task.name task.neededBy = some opened)
    (hs : SonamesResolve env s task) (h : LoadOutcome env s n task opened true s' si) :
    Isolated s s' n si ↔ (alreadyLoaded s n task opened true).isSome ∨ (s.ns n).isAccessible opened.realpath ∨
      ∃ l ∈ (s.ns n).linkedNamespaces, l.linkedNamespace = n ∧ l.isAccessible (basename opened.realpath) := by
  cases h with
  | reused stat si hst hf =>
    refine iff_of_true (isolated_self_iff.2 (findUnlessForced_shared hf)) (.inl ?_)
    rw [alreadyLoaded, hst, bind_some, hf]
    rfl
  | loaded stat elf hst helf hnew ha =>
    have hso : (newSoinfo s opened stat elf).soname = basename opened.realpath := by
      rw [newSoinfo, hs.file n opened elf hop helf]
      rfl
    rw [alreadyLoaded, hst, bind_some, hnew]
    simp only [Isolated, newSoinfo_mem_load, newSoinfo_not_mem, not_false_eq_true, implies_true, true_imp_iff,
      true_and, hso, isSome_none, Bool.false_eq_true, false_or]
    rfl

theorem isolated_of_served_iff (hm : m ≠ n)
    (hop : openLibrary env (s.ns m) task.name task.neededBy = some opened) (hs : SonamesResolve env s task)
    (h : LoadOutcome env s m task opened false s' si) :
    Isolated s s' n si ↔ RealNameShared s n task opened m := by
  cases h with
  | reused stat si hst hf =>
    obtain ⟨hmem, hino⟩ := findUnlessForced_mem hf
    have hso := hs.loaded m opened stat hop hst m si hmem hino
    have hal : alreadyLoaded s m task opened false = some si := by
      rw [alreadyLoaded, hst, bind_some, hf]
    rw [isolated_self_iff, RealNameShared, hal, Shared, hso, or_comm]
    refine or_congr (exists_congr fun l => and_congr_right fun _ => ?_) (by simp)
    rw [and_comm]
    refine and_congr_right fun _ => ⟨fun h => .inr ⟨si, rfl, h⟩, ?_⟩
    rintro (rfl | ⟨si', hsi', h⟩)
    · exact hmem
    · cases hsi'
      exact h
  | loaded stat elf hst helf hnew ha =>
    have hso : (newSoinfo s opened stat elf).soname = basename opened.realpath := by
      rw [newSoinfo, hs.file m opened elf hop helf]
      rfl
    have hal : alreadyLoaded s m task opened false = none := by
      rw [alreadyLoaded, hst, bind_some, hnew]
    rw [RealNameShared, hal]
    simp [Isolated, newSoinfo_mem_load, hm.symm, hso, and_comm]

omit [DecidableEq ι] in
theorem linkedNamespace_ne {link : Link ι} (h : LeftToLinks env s n task rtldFlags)
    (hl : Serves env s task rtldFlags link opened) : link.linkedNamespace ≠ n := by
  rintro rfl
  obtain ⟨-, hop, hoff, hload⟩ := hl
  exact h.2 opened hop ⟨hoff, hload.imp_left alreadyLoaded_true⟩

variable (hfd : task.hasFlag dlextUseLibraryFd = false)
include hfd

theorem loadLibrary_eq_some_iff : loadLibrary env s n task rtldFlags b = some (s', si) ↔
    ∃ opened, openLibrary env (s.ns n) task.name task.neededBy = some opened ∧
      loadOpened env s n task rtldFlags opened b = some (s', si) := by
  rw [loadLibrary_eq hfd, bind_eq_some_iff]

theorem loadLibrary_eq_none_iff : loadLibrary env s n task rtldFlags b = none ↔
    ∀ opened, openLibrary env (s.ns n) task.name task.neededBy = some opened →
      ¬ Loadable env s n task rtldFlags opened b := by
  rw [loadLibrary_eq hfd, bind_eq_none_iff]
  refine forall₂_congr fun opened _ => ?_
  rw [← loadOpened_isSome_iff, not_isSome_iff_eq_none]

theorem findInLinkedNamespaces_eq_some_iff (hs : findLoadedLibraryBySoname s n task.name true = none) :
    findInLinkedNamespaces env s n task rtldFlags = some (s', si) ↔
      ∃ before link after opened, (s.ns n).linkedNamespaces = before ++ link :: after ∧
        (∀ l ∈ before, ∀ opened, ¬ Serves env s task rtldFlags l opened) ∧ Serves env s task rtldFlags link opened ∧
        loadOpened env s link.linkedNamespace task rtldFlags opened false = some (s', si) := by
  have hthrough : ∀ link ∈ (s.ns n).linkedNamespaces, findThroughLink env s task rtldFlags link =
      if link.isAccessible (basename task.name) then
        loadLibrary env s link.linkedNamespace task rtldFlags false else none := by
    intro link hl
    rw [findThroughLink, findLibraryInLinkedNamespace_eq hs hl, resolveSoname]
    cases link.isAccessible (basename task.name) <;> rfl
  unfold findInLinkedNamespaces
  rw [findSome?_eq_some_iff]
  constructor
  · rintro ⟨before, link, after, hl, hf, hb⟩
    rw [hthrough link (by rw [hl]; simp), ite_none_right_eq_some, loadLibrary_eq_some_iff hfd] at hf
    obtain ⟨ha, opened, hop, hlo⟩ := hf
    refine ⟨before, link, after, opened, hl, ?_, ⟨ha, hop, loadOpened_isSome_iff.1 (by rw [hlo]; rfl)⟩, hlo⟩
    rintro l hm opened' ⟨ha', hop', hlo'⟩
    have hn := hb l hm
    rw [hthrough l (by rw [hl]; simp [hm]), if_pos ha', loadLibrary_eq_none_iff hfd] at hn
    exact hn opened' hop' hlo'
  · rintro ⟨before, link, after, opened, hl, hb, ⟨ha, hop, -⟩, hlo⟩
    refine ⟨before, link, after, hl, ?_, fun l hm => ?_⟩
    · rw [hthrough link (by rw [hl]; simp), if_pos ha]
      exact (loadLibrary_eq_some_iff hfd).2 ⟨opened, hop, hlo⟩
    · rw [hthrough l (by rw [hl]; simp [hm])]
      split
      · rename_i ha'
        exact (loadLibrary_eq_none_iff hfd).2 fun opened' hop' hlo' => hb l hm opened' ⟨ha', hop', hlo'⟩
      · rfl

variable (hexempt : (s.ns n).isExemptListEnabled = false) (hs : SonamesResolve env s task)
include hexempt hs

theorem isolated_of_conditions (hown : NotExempted env s n task rtldFlags) (hlink : NotRenamed env s n task rtldFlags)
    (h : findLibraryInternal env s n task rtldFlags = some (s', si)) : Isolated s s' n si := by
  unfold findLibraryInternal at h
  cases hso : findLoadedLibraryBySoname s n task.name true with
  | some candidate =>
    rw [hso] at h
    cases h
    exact isolated_self_iff.2 (findLoadedLibraryBySoname_shared hso)
  | none =>
    rw [hso] at h
    cases hlo : loadLibrary env s n task rtldFlags true with
    | some found =>
      rw [hlo] at h
      cases h
      obtain ⟨opened, hop, ho⟩ := (loadLibrary_eq_some_iff hfd).1 hlo
      have hload := loadOpened_isSome_iff.1 (isSome_iff_exists.2 ⟨_, ho⟩)
      exact (isolated_of_own_iff hop hs (loadOpened_outcome ho)).2 (hown hso opened hop hload)
    | none =>
      rw [hlo, hexempt, Bool.false_and] at h
      obtain ⟨before, link, after, opened, hl, hb, hserves, ho⟩ :=
        (findInLinkedNamespaces_eq_some_iff hfd hso).1 h
      have hleft : LeftToLinks env s n task rtldFlags := ⟨hso, (loadLibrary_eq_none_iff hfd).1 hlo⟩
      exact (isolated_of_served_iff (linkedNamespace_ne hleft hserves) hserves.2.1 hs (loadOpened_outcome ho)).2
        (hlink hleft before link after opened hl hb hserves)

omit hexempt in
theorem notExempted_of_isolated
    (h : ∀ s' si, findLibraryInternal env s n task rtldFlags = some (s', si) → Isolated s s' n si) :
    NotExempted env s n task rtldFlags := by
  intro hso opened hop hload
  obtain ⟨⟨s', si⟩, ho⟩ := isSome_iff_exists.1 (loadOpened_isSome_iff.2 hload)
  have hlo := (loadLibrary_eq_some_iff hfd).2 ⟨opened, hop, ho⟩
  refine (isolated_of_own_iff hop hs (loadOpened_outcome ho)).1 (h s' si ?_)
  rw [findLibraryInternal, hso, hlo]

theorem notRenamed_of_isolated
    (h : ∀ s' si, findLibraryInternal env s n task rtldFlags = some (s', si) → Isolated s s' n si) :
    NotRenamed env s n task rtldFlags := by
  intro hleft before link after opened hl hb hserves
  obtain ⟨⟨s', si⟩, ho⟩ := isSome_iff_exists.1 (loadOpened_isSome_iff.2 hserves.2.2)
  refine (isolated_of_served_iff (linkedNamespace_ne hleft hserves) hserves.2.1 hs (loadOpened_outcome ho)).1
    (h s' si ?_)
  rw [findLibraryInternal, hleft.1, (loadLibrary_eq_none_iff hfd).2 hleft.2, hexempt, Bool.false_and]
  exact (findInLinkedNamespaces_eq_some_iff hfd hleft.1).2 ⟨before, link, after, opened, hl, hb, hserves, ho⟩

/-- `find_library_internal` keeps a namespace isolated exactly if it takes in no file for the list of exempt libraries
alone, and no link leads by a shared name to a file whose real name is not shared. For an application that gets no
exempt libraries it is enough that no file opened through a link has another basename than the request. -/
theorem findLibraryInternal_isolated_iff
    (htmpfs : ∀ m opened, openLibrary env (s.ns m) task.name task.neededBy = some opened →
      opened.file.isTmpfs ≠ some true) :
    ((∀ s' si, findLibraryInternal env s n task rtldFlags = some (s', si) → Isolated s s' n si) ↔
      NotExempted env s n task rtldFlags ∧ NotRenamed env s n task rtldFlags) ∧
    (24 ≤ env.applicationTargetSdkVersion →
      (∀ link ∈ (s.ns n).linkedNamespaces, ∀ opened,
        openLibrary env (s.ns link.linkedNamespace) task.name task.neededBy = some opened →
          basename opened.realpath = basename task.name) →
      ∀ s' si, findLibraryInternal env s n task rtldFlags = some (s', si) → Isolated s s' n si) := by
  refine ⟨⟨fun h => ?_, fun ⟨hown, hlink⟩ s' si => isolated_of_conditions hfd hexempt hs hown hlink⟩, ?_⟩
  · exact ⟨notExempted_of_isolated hfd hs h, notRenamed_of_isolated hfd hexempt hs h⟩
  · intro hsdk hnames s' si
    refine isolated_of_conditions hfd hexempt hs (fun _ opened hop hload => ?_) fun _ before link after opened hl _ h => ?_
    · refine hload.2.imp_right fun ⟨_, _, _, ha⟩ => .inl ?_
      have hnot : isExemptLib env s n task.name task.dtNeededBy = false := if_pos hsdk
      simpa [htmpfs n opened hop, hnot] using ha
    · have hmem : link ∈ (s.ns n).linkedNamespaces := by
        rw [hl]
        simp
      exact .inl ⟨link, hmem, by rw [hnames link hmem opened h.2.1]; exact h.1, .inl rfl⟩

end Internal

section Links

def dataDir : Str := ['/', 'd', 'a', 't', 'a']
def systemDir : Str := ['/', 's', 'y', 's']
def publicName : Str := ['l', 'i', 'b', 'p', 'u', 'b', '.', 's', 'o']
def privateName : Str := ['l', 'i', 'b', 'p', 'r', 'i', 'v', '.', 's', 'o']

def libraryFile (realpath : Str) : File :=
  ⟨some realpath, some ⟨1, 1, 4096⟩, some false, some ⟨some (basename realpath), [], []⟩⟩

def singleFile (sdkVersion : Nat) (path realpath : Str) : Env Bool where
  openFile p := if p = path then some (libraryFile realpath) else none
  openLibraryInZipfile _ := none
  applicationTargetSdkVersion := sdkVersion
  defaultNamespace := true

def appAndSystem : State Bool where
  ns isSystem :=
    if isSystem then ⟨false, false, [], [systemDir], [], [], [], []⟩
    else ⟨true, false, [], [dataDir], [], [], [⟨true, [publicName], false⟩], []⟩
  nextId := 0
  loadTasks := []
  fresh n si h := by cases n <;> cases h

def request (name : Str) : LoadTask Bool := ⟨name, none, false, false, none⟩

variable {sdkVersion : Nat}

theorem openLibraryAtPath_singleFile {path realpath p : Str} {opened : Opened}
    (h : openLibraryAtPath (singleFile sdkVersion path realpath) p = some opened) :
    opened = ⟨libraryFile realpath, 0, realpath⟩ := by
  unfold openLibraryAtPath singleFile at h
  simp only [ite_self, none_or, map_eq_some_iff, ite_none_right_eq_some] at h
  obtain ⟨file, ⟨-, hf⟩, rfl⟩ := h
  cases hf
  rfl

theorem sonamesResolve_singleFile (path realpath : Str) (task : LoadTask Bool) :
    SonamesResolve (singleFile sdkVersion path realpath) appAndSystem task where
  file m opened elf h helf := by
    obtain ⟨p, h⟩ := openLibrary_atPath h
    obtain rfl := openLibraryAtPath_singleFile h
    cases helf
    rfl
  loaded m opened stat h hst k si hsi := by
    cases k <;> cases hsi

/-- A request by its plain name for the library the link shares. -/
theorem findLibraryInternal_isolated_public :
    let env := singleFile 30 (systemDir ++ '/' :: publicName) (systemDir ++ '/' :: publicName)
    (findLibraryInternal env appAndSystem false (request publicName) 0).isSome ∧
      ∀ s' si, findLibraryInternal env appAndSystem false (request publicName) 0 = some (s', si) →
        Isolated appAndSystem s' false si := by
  refine ⟨rfl, ?_⟩
  refine (findLibraryInternal_isolated_iff rfl rfl (sonamesResolve_singleFile _ _ _) fun m opened h => ?_).2 (by decide)
    fun link hl opened h => ?_
  · cases m with
    | false => cases h
    | true =>
      cases h
      decide
  · obtain rfl := mem_singleton.1 hl
    cases h
    decide

/-- A request of the application is answered with a library that it must not get. -/
def Escapes (env : Env Bool) (task : LoadTask Bool) : Prop :=
  SonamesResolve env appAndSystem task ∧ task.hasFlag dlextUseLibraryFd = false ∧
    (∀ m, (appAndSystem.ns m).isExemptListEnabled = false) ∧
    (∀ m opened, openLibrary env (appAndSystem.ns m) task.name task.neededBy = some opened →
      opened.file.isTmpfs ≠ some true) ∧
    ∃ s' si, findLibraryInternal env appAndSystem false task 0 = some (s', si) ∧ ¬ Isolated appAndSystem s' false si

def exemptPath : Str := kSystemLibDir ++ '/' :: ['l', 'i', 'b', 'u', 'i', '.', 's', 'o']

/-- An application reaches a library that no link shares through a symbolic link to it under a shared name, and one
built for an old version gets an exempt library although the list of them is not enabled. -/
theorem findLibraryInternal_not_isolated :
    Escapes (singleFile 30 (dataDir ++ '/' :: publicName) (systemDir ++ '/' :: privateName))
        (request (dataDir ++ '/' :: publicName)) ∧
      Escapes (singleFile 23 exemptPath exemptPath) (request exemptPath) := by
  constructor
  · refine ⟨sonamesResolve_singleFile _ _ _, rfl, by decide, fun m opened h => ?_, _, _, rfl, ?_⟩
    · cases h
      decide
    · rintro (⟨hmem, -⟩ | ⟨link, hl, -, ha⟩)
      · cases hmem
      · obtain rfl := mem_singleton.1 hl
        revert ha
        decide
  · refine ⟨sonamesResolve_singleFile _ _ _, rfl, by decide, fun m opened h => ?_, _, _, rfl, ?_⟩
    · cases h
      decide
    · rintro (⟨-, ha⟩ | ⟨link, hl, hmem, -⟩)
      · exact absurd (ha fun m => by cases m <;> exact not_mem_nil) (by decide)
      · obtain rfl := mem_singleton.1 hl
        cases hmem

end Links

end Bionic.Linker.Namespaces
