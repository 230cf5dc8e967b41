import Bionic.Pwd.AppId

namespace Bionic.Pwd

open Lib List

def value (ds : List Char) : Nat := Nat.ofDigitChars 10 ds 0

inductive Suffix
  | bare
  | extCache
  | ext
  | cache
  deriving DecidableEq

def Suffix.text : Suffix → List Char
  | .bare => []
  | .extCache => "_ext_cache".toList
  | .ext => "_ext".toList
  | .cache => "_cache".toList

def Suffix.start : Suffix → Nat
  | .bare => aidAppStart
  | .extCache => aidExtCacheGidStart
  | .ext => aidExtGidStart
  | .cache => aidCacheGidStart

/-- The ways to put a name together: all_a1234, u0_a1234 with a suffix, u0_i1234, u0_system. -/
inductive Spelling
  | shared (number : List Char)
  | app (user number : List Char) (suffix : Suffix)
  | isolated (user number : List Char)
  | platform (user name : List Char)

def Spelling.text : Spelling → List Char
  | .shared n => "all_a".toList ++ n
  | .app u n suffix => 'u' :: u ++ "_a".toList ++ n ++ suffix.text
  | .isolated u n => 'u' :: u ++ "_i".toList ++ n
  | .platform u name => 'u' :: u ++ '_' :: name

/-- The numbers that a name with this suffix may have. A group of the app range has a name of this form unless another
form is reserved for its gid. -/
def Suffix.InRange (isGroup : Bool) (user n : Nat) : Suffix → Prop
  | .bare =>
    if isGroup then n < 10000 ∨ 40000 ≤ n ∧ n < 80000 ∧ (user = 0 → 50000 ≤ n)
    else n < 80000
  | _ => isGroup ∧ n < 10000

/-- All numbers of the name are plain, and the one of the app lies in the range that the form of the name stands
for. -/
def Spelling.InRange (isGroup : Bool) (ids : AndroidIds) : Spelling → Prop
  | .shared n => isGroup ∧ Plain n ∧ value n < 10000
  | .app u n suffix => Plain u ∧ Plain n ∧ suffix.InRange isGroup (value u) (value n)
  | .isolated u n => Plain u ∧ Plain n ∧ value n < 10000
  | .platform u name => Plain u ∧ ∃ e ∈ ids.ids, e.name = name ∧ e.aid < aidAppStart

section Table

/-- A friendly name is short and does not look like the name of an app. -/
def friendly (name : List Char) : Bool :=
  name.head?.any (fun c => !(c ∈ ['a', 'i', 'u'] && startsWithDigit name.tail)) && name.length ≤ 16 &&
    !"all_".toList.isPrefixOf name && !"oem_".toList.isPrefixOf name

theorem platformIds_friendly : platformIds.all (fun e => friendly e.name) := by
  decide +kernel

variable {ids : AndroidIds} {e : AndroidIdInfo}

theorem findById_eq_some {id : Nat} (h : findById ids id = some e) : e ∈ ids.ids ∧ e.aid = id := by
  have heq := find?_some h
  exact ⟨mem_of_find?_eq_some h, of_decide_eq_true heq⟩

theorem findByName_eq_some {name : List Char} (h : findByName ids name = some e) : e ∈ ids.ids ∧ e.name = name := by
  have heq := find?_some h
  exact ⟨mem_of_find?_eq_some h, of_decide_eq_true heq⟩

theorem findByName_of_mem (h : e ∈ ids.ids) : findByName ids e.name = some e := by
  cases hf : findByName ids e.name with
  | none => simpa using find?_eq_none.1 hf e h
  | some e' =>
    obtain ⟨hmem, heq⟩ := findByName_eq_some hf
    rw [ids.names e' hmem e h heq]

theorem findById_of_mem (h : e ∈ ids.ids) : findById ids e.aid = some e := by
  cases hf : findById ids e.aid with
  | none => simpa using find?_eq_none.1 hf e h
  | some e' =>
    obtain ⟨hmem, heq⟩ := findById_eq_some hf
    rw [ids.aids e' hmem e h heq]

end Table

end Bionic.Pwd
