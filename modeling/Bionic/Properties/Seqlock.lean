import Bionic.Lib.System
import Bionic.Properties.Serial
import Mathlib.Data.Finset.Basic

namespace Bionic.Properties.Seqlock

open Lib Function

variable {P : Type} [DecidableEq P]

abbrev Buffer := Nat → UInt8

/-- The buffer starts with the bytes of `v`, none of which is NUL, and a terminator. -/
structure CString (b : Buffer) (v : List UInt8) : Prop where
  bytes : ∀ (i : Nat) (h : i < v.length), b i = v[i]
  terminator : b v.length = 0
  nulFree : 0 ∉ v

/-- Arguments of Update: `len` is the length of `value`, as every caller passes it. -/
structure UpdateArgs (P : Type) where
  pi : P
  value : List UInt8
  nulFree : 0 ∉ value

def UpdateArgs.len (u : UpdateArgs P) : Nat := u.value.length

/-- The writer's next atomic operation. A memcpy moves its bytes in no particular order, so what is
left of it is a set of indices; strlcpy goes upwards. -/
inductive Writer (P : Type)
  | idle
  | load (u : UpdateArgs P)
  | backup (u : UpdateArgs P) (serial : UInt32) (left : Finset Nat)
  | markDirty (u : UpdateArgs P) (serial : UInt32)
  | strlcpy (u : UpdateArgs P) (serial : UInt32) (i : Nat)
  | publish (u : UpdateArgs P) (serial : UInt32)
  | areaLoad
  | areaStore (areaSerial : UInt32)

/-- The reader's next atomic operation, with the counts of completed updates at the start of the call and at the
exit of the loop. -/
inductive Reader (P : Type)
  | idle
  | load (pi : P) (start : Nat)
  | copy (pi : P) (start : Nat) (serial : UInt32) (left : Finset Nat)
  | reload (pi : P) (start : Nat) (serial : UInt32)
  | done (pi : P) (start : Nat) (serial : UInt32) (stop : Nat)

structure Published where
  serial : UInt32
  value : List UInt8

/-- The memory of one prop_area as far as Update and ReadMutablePropertyValue touch it, the buffer `out`, and
for each property the number of completed updates and what each of them published. -/
structure State (P : Type) where
  serial : P → UInt32
  value : P → Buffer
  dirtyBackupArea : Buffer
  areaSerial : UInt32
  out : Buffer
  writer : Writer P
  reader : Reader P
  completed : P → Nat
  history : P → Nat → Published

variable (s : State P) (p : P) (serial : UInt32)

@[simp] def State.current : Published := s.history p (s.completed p)

def memcpyRange : Finset Nat := Finset.range (serialValueLen serial + 1)

def State.source : Buffer :=
  if serialDirty serial then s.dirtyBackupArea else s.value p

/-- The byte strlcpy stores at index `i`; it stops after storing NUL. -/
def UpdateArgs.strlcpyByte (u : UpdateArgs P) (i : Nat) : UInt8 := u.value.getD i 0

def State.setValue (i : Nat) (b : UInt8) : P → Buffer :=
  update s.value p (update (s.value p) i b)

inductive WriterStep (s : State P) : State P → Prop
  | update (u : UpdateArgs P) (hw : s.writer = .idle) :
      WriterStep s (if propValueMax ≤ u.len then s else { s with writer := .load u })
  | load (u) (hw : s.writer = .load u) :
      WriterStep s { s with writer := .backup u (s.serial u.pi) (memcpyRange (s.serial u.pi)) }
  | backup (u serial left i) (hw : s.writer = .backup u serial left) (hi : i ∈ left) :
      WriterStep s { s with
        dirtyBackupArea := update s.dirtyBackupArea i (s.value u.pi i)
        writer := .backup u serial (left.erase i) }
  | backupDone (u serial) (hw : s.writer = .backup u serial ∅) :
      WriterStep s { s with writer := .markDirty u (serial ||| 1) }
  | markDirty (u serial) (hw : s.writer = .markDirty u serial) :
      WriterStep s { s with
        serial := update s.serial u.pi serial
        writer := .strlcpy u serial 0 }
  | strlcpy (u serial i) (hw : s.writer = .strlcpy u serial i) :
      WriterStep s { s with
        value := s.setValue u.pi i (u.strlcpyByte i)
        writer := if u.strlcpyByte i = 0 then .publish u serial else .strlcpy u serial (i + 1) }
  | publish (u serial) (hw : s.writer = .publish u serial) :
      WriterStep s { s with
        serial := update s.serial u.pi (nextSerial serial u.len)
        writer := .areaLoad
        completed := update s.completed u.pi (s.completed u.pi + 1)
        history := update s.history u.pi
          (update (s.history u.pi) (s.completed u.pi + 1) ⟨nextSerial serial u.len, u.value⟩) }
  | areaLoad (hw : s.writer = .areaLoad) : WriterStep s { s with writer := .areaStore s.areaSerial }
  | areaStore (areaSerial) (hw : s.writer = .areaStore areaSerial) :
      WriterStep s { s with areaSerial := areaSerial + 1, writer := .idle }

inductive ReaderStep (s : State P) : State P → Prop
  | call (p : P) (hr : s.reader = .idle) : ReaderStep s { s with reader := .load p (s.completed p) }
  | load (p start) (hr : s.reader = .load p start) :
      ReaderStep s { s with reader := .copy p start (s.serial p) (memcpyRange (s.serial p)) }
  | copy (p start serial left i) (hr : s.reader = .copy p start serial left) (hi : i ∈ left) :
      ReaderStep s { s with
        out := update s.out i (s.source p serial i)
        reader := .copy p start serial (left.erase i) }
  | copyDone (p start serial) (hr : s.reader = .copy p start serial ∅) :
      ReaderStep s { s with reader := .reload p start serial }
  | leave (p start serial) (hr : s.reader = .reload p start serial) (he : s.serial p = serial) :
      ReaderStep s { s with reader := .done p start serial (s.completed p) }
  | again (p start serial) (hr : s.reader = .reload p start serial) (he : s.serial p ≠ serial) :
      ReaderStep s { s with reader := .copy p start (s.serial p) (memcpyRange (s.serial p)) }
  | ret (p start serial stop) (hr : s.reader = .done p start serial stop) :
      ReaderStep s { s with reader := .idle }

inductive Step (s : State P) : State P → Prop
  | writer (s') (h : WriterStep s s') : Step s s'
  | reader (s') (h : ReaderStep s s') : Step s s'

/-- Every property holds a string shorter than PROP_VALUE_MAX and a clean serial that has its length. -/
structure Init (s : State P) : Prop where
  value : ∀ p, CString (s.value p) (s.history p 0).value
  short : ∀ p, (s.history p 0).value.length < propValueMax
  serial : ∀ p, s.serial p = (s.history p 0).serial
  clean : ∀ p, serialDirty (s.serial p) = false
  len : ∀ p, serialValueLen (s.serial p) = (s.history p 0).value.length
  completed : ∀ p, s.completed p = 0
  writer : s.writer = .idle
  reader : s.reader = .idle

def system (P : Type) [DecidableEq P] : System (State P) := ⟨Init, Step⟩

@[simp] def Writer.dirty : Writer P → Option P
  | .strlcpy u _ _ | .publish u _ => some u.pi
  | .idle | .load _ | .backup _ _ _ | .markDirty _ _ | .areaLoad | .areaStore _ => none

/-- What the writer has achieved when it is about to take its next step. -/
def WriterOk : Writer P → Prop
  | .idle | .areaLoad | .areaStore _ => True
  | .load u => u.len < propValueMax
  | .backup u serial left =>
    u.len < propValueMax ∧ serial = (s.current u.pi).serial ∧
      ∀ i ≤ (s.current u.pi).value.length, i ∉ left → s.dirtyBackupArea i = s.value u.pi i
  | .markDirty u serial =>
    u.len < propValueMax ∧ serial = (s.current u.pi).serial ||| 1 ∧
      CString s.dirtyBackupArea (s.current u.pi).value
  | .strlcpy u serial i =>
    u.len < propValueMax ∧ serial = (s.current u.pi).serial ||| 1 ∧ s.serial u.pi = serial ∧
      CString s.dirtyBackupArea (s.current u.pi).value ∧ i ≤ u.len ∧
      ∀ j < i, s.value u.pi j = u.value.getD j 0
  | .publish u serial =>
    u.len < propValueMax ∧ serial = (s.current u.pi).serial ||| 1 ∧ s.serial u.pi = serial ∧
      CString s.dirtyBackupArea (s.current u.pi).value ∧ CString (s.value u.pi) u.value

structure PublishedOk (base : UInt32) (k : Nat) (pub : Published) : Prop where
  clean : serialDirty pub.serial = false
  len : serialValueLen pub.serial = pub.value.length
  count : serialCount pub.serial = (serialCount base + 2 * k) % 2 ^ 24

/-- At most one property is dirty, and then the shared backup area holds the value its readers are
owed. Every other property is as its last update left it. -/
structure WriterInv (s : State P) : Prop where
  published : ∀ p, ∀ k ≤ s.completed p, PublishedOk (s.history p 0).serial k (s.history p k)
  quiet : ∀ p, s.writer.dirty ≠ some p →
    s.serial p = (s.current p).serial ∧ CString (s.value p) (s.current p).value
  phase : WriterOk s s.writer

variable {s : State P}

omit [DecidableEq P] in
theorem WriterInv.current (hi : WriterInv s) (p : P) :
    PublishedOk (s.history p 0).serial (s.completed p) (s.current p) := hi.published p _ le_rfl

variable {b : Buffer} {v : List UInt8}

theorem CString.of_getD (hv : 0 ∉ v) (h : ∀ i ≤ v.length, b i = v.getD i 0) : CString b v := by
  refine ⟨?_, ?_, hv⟩
  · intro i hi
    rw [h i hi.le, List.getD_eq_getElem _ _ hi]
  · rw [h v.length le_rfl]
    simp

theorem CString.congr {b' : Buffer} (h : CString b v) (he : ∀ i ≤ v.length, b' i = b i) : CString b' v := by
  refine ⟨?_, ?_, h.nulFree⟩
  · intro i hi
    rw [he i hi.le]
    exact h.bytes i hi
  · rw [he _ le_rfl]
    exact h.terminator

section

omit [DecidableEq P]

theorem UpdateArgs.strlcpyByte_zero (u : UpdateArgs P) (i : Nat) (hi : i ≤ u.len) :
    u.strlcpyByte i = 0 ↔ i = u.len := by
  constructor
  · intro h
    by_contra hne
    have hlt : i < u.value.length := lt_of_le_of_ne hi hne
    rw [UpdateArgs.strlcpyByte, List.getD_eq_getElem _ _ hlt] at h
    exact u.nulFree (h ▸ List.getElem_mem hlt)
  · rintro rfl
    simp [UpdateArgs.strlcpyByte, UpdateArgs.len]

theorem WriterInv.of_init (h : Init s) : WriterInv s := by
  refine ⟨?_, ?_, ?_⟩
  · intro p k hk
    have h0 : k = 0 := by simpa [h.completed p] using hk
    subst h0
    refine ⟨?_, ?_, ?_⟩
    · rw [← h.serial p]
      exact h.clean p
    · rw [← h.serial p]
      exact h.len p
    · exact (Nat.mod_eq_of_lt (Nat.mod_lt _ (by decide))).symm
  · intro p _
    rw [State.current, h.completed p]
    exact ⟨h.serial p, h.value p⟩
  · rw [h.writer]
    trivial

theorem WriterInv.read (hi : WriterInv s) (out : Buffer) (r : Reader P) :
    WriterInv { s with out := out, reader := r } := ⟨hi.published, hi.quiet, hi.phase⟩

end

variable {u : UpdateArgs P} {serial : UInt32} {i : Nat}

omit [DecidableEq P] in
theorem WriterInv.backup (hi : WriterInv s) {left : Finset Nat} (hw : s.writer = .backup u serial left) :
    WriterInv { s with
      dirtyBackupArea := update s.dirtyBackupArea i (s.value u.pi i)
      writer := .backup u serial (left.erase i) } := by
  have hp := hi.phase
  rw [hw] at hp
  obtain ⟨hlen, hs, hc⟩ := hp
  refine ⟨hi.published, fun p _ => hi.quiet p (by simp [hw]), hlen, hs, ?_⟩
  intro j hj hnot
  simp only [update_apply]
  split_ifs with he
  · rw [he]
  · exact hc j hj (fun hmem => hnot (Finset.mem_erase.2 ⟨he, hmem⟩))

theorem WriterInv.markDirty (hi : WriterInv s) (hw : s.writer = .markDirty u serial) :
    WriterInv { s with
      serial := update s.serial u.pi serial
      writer := .strlcpy u serial 0 } := by
  have hp := hi.phase
  rw [hw] at hp
  obtain ⟨hlen, hs, hb⟩ := hp
  refine ⟨hi.published, ?_, hlen, hs, by simp, hb, Nat.zero_le _, by simp⟩
  intro p hp
  have hne : p ≠ u.pi := by
    rintro rfl
    simp at hp
  have hq := hi.quiet p (by simp [hw])
  exact ⟨(update_of_ne hne _ _).trans hq.1, hq.2⟩

/-- One byte of strlcpy. The bytes below `i` are in place; NUL is stored at the length of the value,
where the copy stops. -/
theorem WriterInv.strlcpy (hi : WriterInv s) (hw : s.writer = .strlcpy u serial i) :
    WriterInv { s with
      value := s.setValue u.pi i (u.strlcpyByte i)
      writer := if u.strlcpyByte i = 0 then .publish u serial else .strlcpy u serial (i + 1) } := by
  have hp := hi.phase
  rw [hw] at hp
  obtain ⟨hlen, hs, hmem, hb, hle, hc⟩ := hp
  have hst (j : Nat) (hj : j ≤ i) : s.setValue u.pi i (u.strlcpyByte i) u.pi j = u.value.getD j 0 := by
    by_cases he : j = i
    · subst he
      simp [State.setValue, UpdateArgs.strlcpyByte]
    · rw [State.setValue, update_self, update_of_ne he]
      exact hc j (lt_of_le_of_ne hj he)
  have hd : (if u.strlcpyByte i = 0 then .publish u serial else .strlcpy u serial (i + 1) : Writer P).dirty =
      some u.pi := by
    split <;> rfl
  refine ⟨hi.published, ?_, ?_⟩
  · intro p hp
    have hne : p ≠ u.pi := by
      rintro rfl
      exact hp hd
    have hq := hi.quiet p (by simpa [hw] using Ne.symm hne)
    exact ⟨hq.1, by simpa [State.setValue, update_of_ne hne] using hq.2⟩
  · by_cases hz : u.strlcpyByte i = 0
    · have hl : i = u.value.length := (u.strlcpyByte_zero i hle).1 hz
      simp only [hz, if_true]
      exact ⟨hlen, hs, hmem, hb, .of_getD u.nulFree fun j hj => by
        simpa [hz] using hst j (hl ▸ hj)⟩
    · have hlt : i < u.len := lt_of_le_of_ne hle fun he => hz ((u.strlcpyByte_zero i hle).2 he)
      simp only [hz]
      exact ⟨hlen, hs, hmem, hb, hlt, fun j hj => hst j (Nat.lt_succ_iff.1 hj)⟩

theorem PublishedOk.next {base : UInt32} {k : Nat} {pub : Published} (h : PublishedOk base k pub)
    (hv : v.length < propValueMax) : PublishedOk base (k + 1) ⟨nextSerial (pub.serial ||| 1) v.length, v⟩ := by
  have hl : v.length < 2 ^ 8 := hv.trans (by decide)
  refine ⟨nextSerial_clean h.clean hl, nextSerial_valueLen h.clean hl, ?_⟩
  rw [nextSerial_count h.clean hl, h.count, Nat.mod_add_mod]
  congr 1

theorem WriterInv.publish (hi : WriterInv s) (hw : s.writer = .publish u serial) :
    WriterInv { s with
      serial := update s.serial u.pi (nextSerial serial u.len)
      writer := .areaLoad
      completed := update s.completed u.pi (s.completed u.pi + 1)
      history := update s.history u.pi
        (update (s.history u.pi) (s.completed u.pi + 1) ⟨nextSerial serial u.len, u.value⟩) } := by
  have hp := hi.phase
  rw [hw] at hp
  obtain ⟨hlen, rfl, hmem, hb, hv⟩ := hp
  refine ⟨?_, ?_, trivial⟩
  · intro p k hk
    by_cases hp : p = u.pi
    · subst hp
      simp only [update_self] at hk ⊢
      by_cases hl : k = s.completed u.pi + 1
      · subst hl
        rw [update_self]
        exact (hi.current u.pi).next hlen
      · rw [update_of_ne hl]
        exact hi.published u.pi k (by omega)
    · simp only [update_of_ne hp] at hk ⊢
      exact hi.published p k hk
  · intro p _
    by_cases hp : p = u.pi
    · subst hp
      simpa using hv
    · have hq := hi.quiet p (by simpa [hw] using Ne.symm hp)
      simpa [update_of_ne hp] using hq

theorem WriterInv.step {s' : State P} (hi : WriterInv s) (h : WriterStep s s') : WriterInv s' := by
  cases h with
  | update u hw =>
    split
    case isTrue => exact hi
    case isFalse hlen => exact ⟨hi.published, fun p _ => hi.quiet p (by simp [hw]), not_le.1 hlen⟩
  | load u hw =>
    have hp := hi.phase
    rw [hw] at hp
    have hq := hi.quiet u.pi (by simp [hw])
    refine ⟨hi.published, fun p _ => hi.quiet p (by simp [hw]), hp, hq.1, ?_⟩
    intro i hle hnot
    refine absurd ?_ hnot
    rw [memcpyRange, hq.1, (hi.current u.pi).len, Finset.mem_range]
    exact Nat.lt_succ_of_le hle
  | backup u serial left i hw hmem => exact hi.backup hw
  | backupDone u serial hw =>
    have hp := hi.phase
    rw [hw] at hp
    obtain ⟨hlen, rfl, hc⟩ := hp
    have hq := hi.quiet u.pi (by simp [hw])
    exact ⟨hi.published, fun p _ => hi.quiet p (by simp [hw]), hlen, rfl,
      hq.2.congr fun i hle => hc i hle (Finset.notMem_empty i)⟩
  | markDirty u serial hw => exact hi.markDirty hw
  | strlcpy u serial i hw => exact hi.strlcpy hw
  | publish u serial hw => exact hi.publish hw
  | areaLoad hw | areaStore v hw => exact ⟨hi.published, fun p _ => hi.quiet p (by simp [hw]), trivial⟩

end Bionic.Properties.Seqlock
