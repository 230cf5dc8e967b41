import Bionic.Lib.LittleEndian
import Bionic.Lib.Memory
import Mathlib.Data.List.Nodup
import Mathlib.Data.Nat.ModEq

namespace Bionic.Relr

open Lib List Nat

/-- `wordsize` is the size of an ElfW(Addr). -/
structure Soinfo where
  wordsize : ℕ
  loadBias : ℕ
  relr : List ℕ
  wordsize_eq : wordsize = 4 ∨ wordsize = 8
  relr_lt : ∀ entry ∈ relr, entry < 256 ^ wordsize

namespace Soinfo

variable (si : Soinfo) (m : ℕ → UInt8)

/-- Arithmetic on an ElfW(Addr). -/
def wrap (n : ℕ) : ℕ := n % 256 ^ si.wordsize

def address (offset : ℕ) : ℕ := si.wrap (offset + si.loadBias)

def wordAt (p : ℕ) : ℕ := leValue (load m p si.wordsize)

def applyRelrReloc (offset : ℕ) : ℕ → UInt8 :=
  store m (si.address offset) (leBytes si.wordsize (si.wordAt m (si.address offset) + si.loadBias))

/-- The loop over the bits of an odd entry. -/
def bitmapLoop (m : ℕ → UInt8) (entry offset : ℕ) : ℕ → UInt8 :=
  if entry = 0 then m
  else
    bitmapLoop (if entry >>> 1 &&& 1 ≠ 0 then si.applyRelrReloc m offset else m) (entry >>> 1)
      (si.wrap (offset + si.wordsize))
  termination_by entry
  decreasing_by
    rw [shiftRight_one]
    omega

def nextBase (base : ℕ) : ℕ := si.wrap (base + (8 * si.wordsize - 1) * si.wordsize)

def relocate : List ℕ → ℕ → (ℕ → UInt8) → ℕ → UInt8
  | [], _, m => m
  | entry :: words, base, m =>
    if entry &&& 1 = 0 then relocate words (si.wrap (entry + si.wordsize)) (si.applyRelrReloc m entry)
    else relocate words (si.nextBase base) (si.bitmapLoop m entry base)

def relocateRelr : ℕ → UInt8 := si.relocate si.relr 0 m

/-- What the `n` bits behind the lowest one denote. -/
def bitmap (entry base n : ℕ) : List ℕ :=
  ((range n).filter fun k => entry.testBit (k + 1)).map fun k => si.wrap (base + k * si.wordsize)

def denotes : List ℕ → ℕ → List ℕ
  | [], _ => []
  | entry :: words, base =>
    if entry % 2 = 0 then entry :: denotes words (si.wrap (entry + si.wordsize))
    else si.bitmap entry base (8 * si.wordsize - 1) ++ denotes words (si.nextBase base)

/-- The offsets that the section denotes. -/
def denoted : List ℕ := si.denotes si.relr 0

variable {si} {m : ℕ → UInt8} {words l : List ℕ} {entry offset offset' base n i : ℕ}

theorem wrap_lt : si.wrap n < 256 ^ si.wordsize := Nat.mod_lt _ (Nat.pow_pos (by decide))

theorem bitmap_succ (hb : base < 256 ^ si.wordsize) :
    si.bitmap entry base (n + 1) =
      (if entry.testBit 1 then [base] else []) ++ si.bitmap (entry / 2) (si.wrap (base + si.wordsize)) n := by
  have hk (k : ℕ) : si.wrap (si.wrap (base + si.wordsize) + k * si.wordsize) = si.wrap (base + (k + 1) * si.wordsize) := by
    rw [wrap, wrap, wrap, mod_add_mod, add_assoc, add_comm si.wordsize, ← succ_mul]
  have h0 : si.wrap base = base := mod_eq_of_lt hb
  simp only [bitmap, range_succ_eq_map, filter_cons, filter_map, hk]
  split <;> simp [Function.comp_def, testBit_add_one, *]

theorem bitmapLoop_eq (h : entry < 2 ^ (n + 1)) (hb : base < 256 ^ si.wordsize) :
    si.bitmapLoop m entry base = (si.bitmap entry base n).foldl si.applyRelrReloc m := by
  induction n generalizing m entry base with
  | zero =>
    rw [bitmapLoop, bitmapLoop]
    obtain rfl | rfl : entry = 0 ∨ entry = 1 := by omega
    · rfl
    · rfl
  | succ n ih =>
    have hbit : entry >>> 1 &&& 1 ≠ 0 ↔ entry.testBit 1 := by
      rw [Nat.testBit, bne_iff_ne, Nat.and_comm]
    rw [bitmapLoop, bitmap_succ hb, foldl_append, ← ih (by omega) wrap_lt]
    by_cases h0 : entry = 0
    · simp [h0, bitmapLoop]
    · rw [if_neg h0]
      simp only [hbit]
      cases entry.testBit 1 <;> rfl

theorem relocate_eq (h : ∀ e ∈ words, e < 256 ^ si.wordsize) (hb : base < 256 ^ si.wordsize) :
    si.relocate words base m = (si.denotes words base).foldl si.applyRelrReloc m := by
  induction words generalizing base m with
  | nil => rfl
  | cons entry words ih =>
    obtain ⟨he, h⟩ := forall_mem_cons.1 h
    rw [relocate, denotes, and_one_is_mod]
    split
    · exact ih h wrap_lt
    · have hw := si.wordsize_eq
      rw [foldl_append, ← bitmapLoop_eq _ hb]
      · exact ih h wrap_lt
      · rwa [Nat.sub_add_cancel (by omega), Nat.pow_mul]

theorem denotes_lt (h : ∀ e ∈ words, e < 256 ^ si.wordsize) : ∀ o ∈ si.denotes words base, o < 256 ^ si.wordsize := by
  induction words generalizing base with
  | nil => simp [denotes]
  | cons entry words ih =>
    obtain ⟨he, h⟩ := forall_mem_cons.1 h
    rw [denotes]
    split
    · exact forall_mem_cons.2 ⟨he, ih h⟩
    · refine forall_mem_append.2 ⟨fun o ho => ?_, ih h⟩
      obtain ⟨k, -, rfl⟩ := mem_map.1 ho
      exact wrap_lt

variable (si) in
/-- The byte at `i` is not of the word that `offset` denotes. -/
def Apart (offset i : ℕ) : Prop := i < si.address offset ∨ si.address offset + si.wordsize ≤ i

theorem Apart.applyRelrReloc_eq (h : si.Apart offset i) : si.applyRelrReloc m offset i = m i := by
  rcases h with h | h
  · exact store_of_lt h
  · exact store_of_le (by rwa [length_leBytes])

theorem foldl_of_apart (h : ∀ o ∈ l, si.Apart o i) : l.foldl si.applyRelrReloc m i = m i := by
  induction l generalizing m with
  | nil => rfl
  | cons o l ih =>
    obtain ⟨ho, h⟩ := forall_mem_cons.1 h
    rw [foldl_cons, ih h, ho.applyRelrReloc_eq]

theorem wordAt_applyRelrReloc : si.wordAt (si.applyRelrReloc m offset) (si.address offset) =
    si.wrap (si.wordAt m (si.address offset) + si.loadBias) := by
  have h := load_store m (si.address offset) (leBytes si.wordsize (si.wordAt m (si.address offset) + si.loadBias))
  rw [length_leBytes] at h
  rw [applyRelrReloc, wordAt, h, leValue_leBytes, wrap]

theorem wrap_wordAt (p : ℕ) : si.wrap (si.wordAt m p) = si.wordAt m p := by
  have h := leValue_leBytes (load m p si.wordsize).length (si.wordAt m p)
  rw [wordAt, leBytes_leValue, length_load] at h
  exact h.symm

theorem wordsize_dvd : si.wordsize ∣ 256 ^ si.wordsize := by
  rcases si.wordsize_eq with h | h <;> rw [h] <;> decide

theorem address_modEq (h : si.wordsize ∣ offset) : si.address offset ≡ si.loadBias [MOD si.wordsize] := by
  have hz := (modEq_zero_iff_dvd.2 h).add_right si.loadBias
  rw [zero_add] at hz
  exact ((mod_modEq _ _).of_dvd si.wordsize_dvd).trans hz

/-- The words at two aligned offsets do not overlap. -/
theorem apart_of_ne (h : si.wordsize ∣ offset ∧ offset < 256 ^ si.wordsize)
    (h' : si.wordsize ∣ offset' ∧ offset' < 256 ^ si.wordsize) (hne : offset ≠ offset')
    (hi : si.address offset' ≤ i) (hi' : i < si.address offset' + si.wordsize) : si.Apart offset i := by
  have hmod := (address_modEq h.1).trans (address_modEq h'.1).symm
  have ha : si.address offset ≠ si.address offset' :=
    fun he => hne ((Nat.ModEq.add_right_cancel' si.loadBias he).eq_of_lt_of_lt h.2 h'.2)
  rcases lt_or_gt_of_ne ha with hlt | hlt
  · exact .inr ((hmod.add_le_of_lt hlt).trans hi)
  · exact .inl (hi'.trans_le (hmod.symm.add_le_of_lt hlt))

theorem wordAt_foldl (hl : ∀ o ∈ l, si.wordsize ∣ o ∧ o < 256 ^ si.wordsize)
    (ho : si.wordsize ∣ offset ∧ offset < 256 ^ si.wordsize) :
    si.wordAt (l.foldl si.applyRelrReloc m) (si.address offset) =
      si.wrap (si.wordAt m (si.address offset) + l.count offset * si.loadBias) := by
  induction l generalizing m with
  | nil => rw [count_nil, zero_mul, add_zero, wrap_wordAt, foldl_nil]
  | cons o l ih =>
    obtain ⟨h, hl⟩ := forall_mem_cons.1 hl
    rw [foldl_cons, ih hl]
    by_cases he : o = offset
    · subst he
      rw [wordAt_applyRelrReloc, wrap, wrap, mod_add_mod, count_cons_self, succ_mul, add_assoc,
        add_comm si.loadBias, wrap]
    · rw [count_cons_of_ne he]
      congr 2
      exact congrArg leValue (load_congr fun i hi hi' => (apart_of_ne h ho he hi hi').applyRelrReloc_eq)

/-- Every denoted word gets the bias as often as it is denoted, and no other byte changes. -/
theorem relocateRelr_correct (si : Soinfo) (m : ℕ → UInt8) :
    si.relocateRelr m = si.denoted.foldl si.applyRelrReloc m ∧
      (∀ i, (∀ o ∈ si.denoted, si.Apart o i) → si.relocateRelr m i = m i) ∧
      ((∀ o ∈ si.denoted, si.wordsize ∣ o) →
        (∀ o < 256 ^ si.wordsize, si.wordsize ∣ o → si.wordAt (si.relocateRelr m) (si.address o) =
          si.wrap (si.wordAt m (si.address o) + si.denoted.count o * si.loadBias)) ∧
        (si.denoted.Pairwise (· < ·) → ∀ o ∈ si.denoted, si.wordAt (si.relocateRelr m) (si.address o) =
          si.wrap (si.wordAt m (si.address o) + si.loadBias))) := by
  have heq : si.relocateRelr m = si.denoted.foldl si.applyRelrReloc m :=
    relocate_eq si.relr_lt (Nat.pow_pos (by decide))
  have hlt : ∀ o ∈ si.denoted, o < 256 ^ si.wordsize := denotes_lt si.relr_lt
  rw [heq]
  refine ⟨rfl, fun i hi => foldl_of_apart hi, fun hall => ?_⟩
  have hco (o : ℕ) (ho : o < 256 ^ si.wordsize) (hd : si.wordsize ∣ o) :=
    wordAt_foldl (m := m) (fun x hx => ⟨hall x hx, hlt x hx⟩) ⟨hd, ho⟩
  refine ⟨hco, fun hp o ho => ?_⟩
  rw [hco o (hlt o ho) (hall o ho), count_eq_one_of_mem (hp.imp Nat.ne_of_lt) ho, Nat.one_mul]

end Soinfo

end Bionic.Relr
