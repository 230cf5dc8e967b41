import Mathlib.Data.List.Infix

namespace Bionic.Linker.Namespaces

abbrev Str := List Char

def basename (path : Str) : Str := (path.reverse.takeWhile (· ≠ '/')).reverse

def dirname (path : Str) : Str :=
  match (path.reverse.dropWhile (· ≠ '/')).reverse with
  | [] => ['.']
  | ['/'] => ['/']
  | upToSlash => upToSlash.dropLast

def fileIsUnderDir (file dir : Str) : Bool := dir.isPrefixOf file && file[dir.length]? == some '/'

def fileIsInDir (file dir : Str) : Bool := fileIsUnderDir file dir && !(file.drop (dir.length + 1)).contains '/'

/-- What `soinfo` holds for the search of libraries; `id` stands for its address. -/
structure Soinfo where
  id : Nat
  realpath : Str
  soname : Str
  stDev : Nat
  stIno : Nat
  fileOffset : Int
  dtRunpath : List Str
  deriving DecidableEq

structure Link (ι : Type) where
  linkedNamespace : ι
  sharedLibSonames : List Str
  allowAllSharedLibs : Bool

def Link.isAccessible {ι : Type} (link : Link ι) (soname : Str) : Bool :=
  link.allowAllSharedLibs || link.sharedLibSonames.contains soname

/-- `android_namespace_t`, with namespaces named by `ι`. -/
structure Namespace (ι : Type) where
  isIsolated : Bool
  isExemptListEnabled : Bool
  ldLibraryPaths : List Str
  defaultLibraryPaths : List Str
  permittedPaths : List Str
  allowedLibs : List Str
  linkedNamespaces : List (Link ι)
  soinfoList : List Soinfo

def Namespace.isAccessible {ι : Type} (ns : Namespace ι) (file : Str) : Bool :=
  if ¬ ns.isIsolated then true
  else if !ns.allowedLibs.isEmpty && !ns.allowedLibs.contains (basename file) then false
  else ns.ldLibraryPaths.any (fileIsInDir file) || ns.defaultLibraryPaths.any (fileIsInDir file) ||
    ns.permittedPaths.any (fileIsUnderDir file)

structure Stat where
  stDev : Nat
  stIno : Nat
  stSize : Int

/-- What a successful `ElfReader::Read` finds in the dynamic section, `DT_RUNPATH` already split and resolved. -/
structure DynamicSection where
  soname : Option Str
  runpath : List Str
  needed : List Str

/-- An open file, with what `realpath_fd`, `fstat`, `fstatfs` and `ElfReader::Read` give for it. -/
structure File where
  realpath : Option Str
  stat : Option Stat
  isTmpfs : Option Bool
  elf : Option DynamicSection

structure Opened where
  file : File
  fileOffset : Int
  realpath : Str

structure Extinfo where
  flags : UInt64
  libraryFd : File
  libraryFdOffset : Int

def dlextUseLibraryFd : UInt64 := 0x10
def dlextUseLibraryFdOffset : UInt64 := 0x20
def dlextForceLoad : UInt64 := 0x40
def rtldNoload : UInt32 := 0x4

structure LoadTask (ι : Type) where
  name : Str
  neededBy : Option Soinfo
  isDtNeeded : Bool
  startFrom : ι
  extinfo : Option Extinfo

def LoadTask.hasFlag {ι : Type} (task : LoadTask ι) (flag : UInt64) : Bool :=
  task.extinfo.any fun extinfo => extinfo.flags &&& flag ≠ 0

def LoadTask.dtNeededBy {ι : Type} (task : LoadTask ι) : Option Soinfo :=
  if task.isDtNeeded then task.neededBy else none

/-- The namespaces, the address of the next `soinfo` and the tasks that libraries found so far have added. -/
structure State (ι : Type) where
  ns : ι → Namespace ι
  nextId : Nat
  loadTasks : List (LoadTask ι)
  fresh : ∀ n, ∀ si ∈ (ns n).soinfoList, si.id < nextId

/-- What the linker asks of the system: files by path, libraries in zip archives by path, and the target SDK version
of the application. -/
structure Env (ι : Type) where
  openFile : Str → Option File
  openLibraryInZipfile : Str → Option Opened
  applicationTargetSdkVersion : Nat
  defaultNamespace : ι

variable {ι : Type} (env : Env ι) (name : Str)

def kZipFileSeparator : Str := ['!', '/']

def openLibraryAtPath (path : Str) : Option Opened :=
  let inZipfile := if kZipFileSeparator <:+: path then env.openLibraryInZipfile path else none
  inZipfile.or ((env.openFile path).map fun file => ⟨file, 0, file.realpath.getD path⟩)

/-- Paths that do not fit the buffer of 512 characters are ignored. -/
def openLibraryOnPaths (paths : List Str) : Option Opened :=
  paths.findSome? fun path =>
    let buf := path ++ '/' :: name
    if buf.length ≥ 512 then none else openLibraryAtPath env buf

def openLibrary (ns : Namespace ι) (name : Str) (neededBy : Option Soinfo) : Option Opened :=
  if '/' ∈ name then openLibraryAtPath env name
  else
    let onRunpath := neededBy.bind fun si =>
      (openLibraryOnPaths env name si.dtRunpath).filter fun opened => ns.isAccessible opened.realpath
    (openLibraryOnPaths env name ns.ldLibraryPaths).or
      (onRunpath.or (openLibraryOnPaths env name ns.defaultLibraryPaths))

def resolveSoname : Str := basename name

variable [DecidableEq ι] (env : Env ι) (s : State ι)

def isSystemLibrary (realpath : Str) : Bool :=
  (s.ns env.defaultNamespace).defaultLibraryPaths.any (fileIsInDir realpath)

def maybeAccessibleViaNamespaceLinks (n : ι) (name : Str) : Bool :=
  (s.ns n).linkedNamespaces.any fun link => link.isAccessible (resolveSoname name)

def kSystemLibDir : Str := "/system/lib64".toList

def kLibraryExemptList : List Str :=
  ["libandroid_runtime.so", "libbinder.so", "libcrypto.so", "libcutils.so", "libexpat.so", "libgui.so", "libmedia.so",
    "libnativehelper.so", "libssl.so", "libstagefright.so", "libsqlite.so", "libui.so", "libutils.so"].map String.toList

def isExemptLib (n : ι) (name : Str) (neededBy : Option Soinfo) : Bool :=
  if env.applicationTargetSdkVersion ≥ 24 then false
  else if neededBy.any fun si => isSystemLibrary env s si.realpath then !maybeAccessibleViaNamespaceLinks s n name
  else
    let name := if name.head? = some '/' ∧ dirname name = kSystemLibDir then basename name else name
    kLibraryExemptList.contains name

variable (n : ι) (task : LoadTask ι) (stat : Stat) (rtldFlags : UInt32) (fileOffset : Int) (opened : Opened)
  (searchLinkedNamespaces : Bool) (link : Link ι) (si : Soinfo)

def Soinfo.hasInode : Bool :=
  si.stIno = stat.stIno ∧ si.stDev = stat.stDev ∧ si.fileOffset = fileOffset

def findLoadedLibraryByInode : Option Soinfo :=
  if stat.stDev = 0 ∨ stat.stIno = 0 then none
  else
    let candidate := (s.ns n).soinfoList.find? (Soinfo.hasInode stat fileOffset)
    if candidate.isNone && searchLinkedNamespaces then
      (s.ns n).linkedNamespaces.findSome? fun link =>
        ((s.ns link.linkedNamespace).soinfoList.find? (Soinfo.hasInode stat fileOffset)).filter fun si =>
          link.isAccessible si.soname
    else candidate

def newSoinfo (stat : Stat) (elf : DynamicSection) : Soinfo where
  id := s.nextId
  realpath := opened.realpath
  soname := elf.soname.getD []
  stDev := stat.stDev
  stIno := stat.stIno
  fileOffset := opened.fileOffset
  dtRunpath := elf.runpath

def Namespace.addSoinfo (ns : Namespace ι) (si : Soinfo) : Namespace ι := { ns with soinfoList := ns.soinfoList ++ [si] }

theorem mem_addSoinfo_update {n m : ι} {si si' : Soinfo} :
    si' ∈ (Function.update s.ns n ((s.ns n).addSoinfo si) m).soinfoList ↔
      si' ∈ (s.ns m).soinfoList ∨ (m = n ∧ si' = si) := by
  by_cases hm : m = n
  · subst hm
    simp [Namespace.addSoinfo]
  · simp [hm]

def State.load (hid : si.id = s.nextId) (needed : List Str) : State ι where
  ns := Function.update s.ns n ((s.ns n).addSoinfo si)
  nextId := s.nextId + 1
  loadTasks := s.loadTasks ++ needed.map fun name => ⟨name, some si, false, n, none⟩
  fresh m si' hsi' := by
    rcases (mem_addSoinfo_update s).1 hsi' with h | ⟨-, rfl⟩
    · exact Nat.lt_succ_of_lt (s.fresh m si' h)
    · exact hid ▸ Nat.lt_succ_self _

/-- The second half of `load_library`, for a file that is not loaded yet. A library that cannot be read leaves no
`soinfo` behind. -/
def loadNew (stat : Stat) : Option (State ι × Soinfo) := do
  if rtldFlags &&& rtldNoload ≠ 0 then none
  else
    let isTmpfs ← opened.file.isTmpfs
    if ¬ isTmpfs ∧ ¬ (s.ns n).isAccessible opened.realpath ∧ ¬ isExemptLib env s n task.name task.dtNeededBy then none
    else
      let elf ← opened.file.elf
      return (s.load n (newSoinfo s opened stat elf) rfl elf.needed, newSoinfo s opened stat elf)

def findUnlessForced : Option Soinfo :=
  if task.hasFlag dlextForceLoad then none else findLoadedLibraryByInode s n stat fileOffset searchLinkedNamespaces

def loadOpened : Option (State ι × Soinfo) := do
  if opened.fileOffset % 4096 ≠ 0 ∨ opened.fileOffset < 0 then none
  else
    let stat ← opened.file.stat
    if opened.fileOffset ≥ stat.stSize then none
    else
      match findUnlessForced s n task stat opened.fileOffset searchLinkedNamespaces with
      | some si => return (s, si)
      | none => loadNew env s n task rtldFlags opened stat

/-- `load_library`; with `ANDROID_DLEXT_USE_LIBRARY_FD` the file is open already. -/
def loadLibrary : Option (State ι × Soinfo) := do
  let opened ← match task.extinfo with
    | some extinfo =>
      if extinfo.flags &&& dlextUseLibraryFd ≠ 0 then
        some ⟨extinfo.libraryFd,
          if extinfo.flags &&& dlextUseLibraryFdOffset ≠ 0 then extinfo.libraryFdOffset else 0,
          extinfo.libraryFd.realpath.getD task.name⟩
      else openLibrary env (s.ns n) task.name task.neededBy
    | none => openLibrary env (s.ns n) task.name task.neededBy
  loadOpened env s n task rtldFlags opened searchLinkedNamespaces

def findLoadedBySoname (name : Str) : Option Soinfo :=
  (s.ns n).soinfoList.find? fun si => name = si.soname

/-- `find_loaded_library_by_soname`, which ignores names with a path. -/
def findLoadedLibraryBySoname (name : Str) (searchLinkedNamespaces : Bool) : Option Soinfo :=
  if '/' ∈ name then none
  else
    let found := findLoadedBySoname s n name
    if found.isNone && searchLinkedNamespaces then
      (s.ns n).linkedNamespaces.findSome? fun link =>
        if link.isAccessible name then findLoadedBySoname s link.linkedNamespace name else none
    else found

/-- What `find_library_in_linked_namespace` reports: `true` with the task's `soinfo` set or not, or `false`. -/
inductive LinkedLibrary where
  | notAccessible
  | alreadyLoaded (si : Soinfo)
  | okToLoad

def findLibraryInLinkedNamespace (task : LoadTask ι) : LinkedLibrary :=
  match findLoadedLibraryBySoname s link.linkedNamespace task.name false with
  | some candidate => if link.isAccessible candidate.soname then .alreadyLoaded candidate else .notAccessible
  | none => if link.isAccessible (resolveSoname task.name) then .okToLoad else .notAccessible

def findThroughLink : Option (State ι × Soinfo) :=
  match findLibraryInLinkedNamespace s link task with
  | .notAccessible => none
  | .alreadyLoaded si => some (s, si)
  | .okToLoad => loadLibrary env s link.linkedNamespace task rtldFlags false

def findInLinkedNamespaces : Option (State ι × Soinfo) :=
  (s.ns n).linkedNamespaces.findSome? (findThroughLink env s task rtldFlags)

def findLibraryInternal : Option (State ι × Soinfo) :=
  match findLoadedLibraryBySoname s n task.name true with
  | some candidate => some (s, candidate)
  | none =>
    match loadLibrary env s n task rtldFlags true with
    | some found => some found
    | none =>
      if (s.ns n).isExemptListEnabled && isExemptLib env s n task.name task.neededBy then
        (loadLibrary env s env.defaultNamespace task rtldFlags true).or
          (findInLinkedNamespaces env s env.defaultNamespace task rtldFlags)
      else findInLinkedNamespaces env s n task rtldFlags

end Bionic.Linker.Namespaces
