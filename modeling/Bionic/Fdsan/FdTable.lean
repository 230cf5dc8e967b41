import Bionic.Lib.Align
import Bionic.Lib.System

namespace Bionic.Fdsan

open Lib Function

structure FdTableOverflow where
  addr : ℕ
  size : ℕ
  len : UInt64

inductive Pc
  | out
  | create (idx : UInt64)
  | publish (idx : UInt64) (newOverflow : FdTableOverflow)
  | use (idx : UInt64) (localOverflow : FdTableOverflow)

/-- `returned` holds the descriptor and the address of every entry that a call returned. -/
structure State (T : Type) where
  overflow : Option FdTableOverflow
  pc : T → Pc
  returned : List (UInt64 × ℕ)

def inlineFds : UInt64 := 128

def rlimMax (limit : UInt64) : UInt64 := if limit = 0xffffffffffffffff then 32768 else limit

variable (max idx : UInt64)

def alignedSize : UInt64 := alignUp 12 (8 + (max - inlineFds) * 8)

def alignedCount : UInt64 := (alignedSize max - 8) / 8

variable {T : Type} [DecidableEq T] (entries : ℕ) (s : State T) (t : T) (o : FdTableOverflow) (entry addr : ℕ)

namespace State

def goto (p : Pc) : State T := { s with pc := update s.pc t p }

def finish : State T := { s.goto t .out with returned := (idx, entry) :: s.returned }

def call : State T :=
  if idx < inlineFds then s.finish idx t (entries + 8 * idx.toNat)
  else
    match s.overflow with
    | none => s.goto t (.create idx)
    | some o => s.goto t (.use idx o)

def create : State T :=
  if idx > max then s.goto t .out
  else s.goto t (.publish idx ⟨addr, (alignedSize max).toNat, alignedCount max⟩)

/-- A table that comes second is unmapped; nobody else knows its address. -/
def publish (new : FdTableOverflow) : State T :=
  match s.overflow with
  | none => { s.goto t (.use idx new) with overflow := some new }
  | some o => s.goto t (.use idx o)

def use : State T :=
  if o.len < idx - inlineFds then s.goto t .out
  else s.finish idx t (o.addr + 8 + 8 * (idx - inlineFds).toNat)

end State

/-- The kernel maps no empty region and none over the inline array. -/
def Mapped (size : ℕ) : Prop := 0 < size ∧ (addr + size ≤ entries ∨ entries + 8 * 128 ≤ addr)

inductive Exec (allowed : UInt64 → FdTableOverflow → Prop) : State T → Prop
  | call (idx : UInt64) (hp : s.pc t = .out) : Exec allowed (s.call idx entries t)
  | create (idx limit : UInt64) (addr : ℕ) (hp : s.pc t = .create idx)
      (hm : idx ≤ rlimMax limit → Mapped entries addr (alignedSize (rlimMax limit)).toNat) :
      Exec allowed (s.create (rlimMax limit) idx t addr)
  | publish (idx : UInt64) (new : FdTableOverflow) (hp : s.pc t = .publish idx new) :
      Exec allowed (s.publish idx t new)
  | use (idx : UInt64) (o : FdTableOverflow) (hp : s.pc t = .use idx o) (ha : allowed idx o) :
      Exec allowed (s.use idx t o)

/-- Threads that look up descriptors, as far as `allowed` lets them use a table. -/
def system (T : Type) [DecidableEq T] (entries : ℕ) (allowed : UInt64 → FdTableOverflow → Prop) : System (State T) where
  Init s := s.overflow = none ∧ (∀ t, s.pc t = .out) ∧ s.returned = []
  Step s s' := ∃ t, Exec entries s t allowed s'

def Fits : Prop := idx.toNat ≠ 128 + o.len.toNat

def State.Inside : Prop :=
  entries ≤ entry ∧ entry + 8 ≤ entries + 8 * 128 ∨
    ∃ o, s.overflow = some o ∧ o.addr ≤ entry ∧ entry + 8 ≤ o.addr + o.size

def State.Good : Prop :=
  ∀ p ∈ s.returned, s.Inside entries p.2 ∧ ∀ q ∈ s.returned, p.2 = q.2 ↔ p.1 = q.1

structure FdTableOverflow.Ok (o : FdTableOverflow) : Prop where
  size : o.size = 8 + 8 * o.len.toNat
  apart : o.addr + o.size ≤ entries ∨ entries + 8 * 128 ≤ o.addr

def Pc.Ok (overflow : Option FdTableOverflow) : Pc → Prop
  | .out => True
  | .create idx => 128 ≤ idx.toNat
  | .publish idx new => 128 ≤ idx.toNat ∧ new.Ok entries
  | .use idx o => 128 ≤ idx.toNat ∧ overflow = some o

def EntryOf (overflow : Option FdTableOverflow) (idx entry : ℕ) : Prop :=
  idx < 128 ∧ entry = entries + 8 * idx ∨
    ∃ o, overflow = some o ∧ 128 ≤ idx ∧ idx < 128 + o.len.toNat ∧ entry = o.addr + 8 + 8 * (idx - 128)

structure Inv : Prop where
  published : ∀ o, s.overflow = some o → o.Ok entries
  pcs : ∀ t, (s.pc t).Ok entries s.overflow
  returned : ∀ p ∈ s.returned, EntryOf entries s.overflow p.1.toNat p.2

theorem toNat_alignedSize {max : UInt64} (h : 0 < (alignedSize max).toNat) :
    (alignedSize max).toNat = 8 + 8 * (alignedCount max).toNat := by
  have ha : (alignedSize max).toNat = _ := toNat_alignUp (by decide) (8 + (max - inlineFds) * 8)
  have hle : 8 ≤ alignedSize max := by
    change 8 ≤ (alignedSize max).toNat
    omega
  rw [alignedCount, UInt64.toNat_div, UInt64.toNat_sub_of_le _ _ hle]
  change _ = 8 + 8 * (((alignedSize max).toNat - 8) / 8)
  omega

variable {entries s t}

namespace Inv

open State

variable (hi : Inv entries s)
include hi

theorem goto {p : Pc} (hp : p.Ok entries s.overflow) : Inv entries (s.goto t p) :=
  ⟨hi.published, (forall_update_iff s.pc fun _ q => q.Ok entries s.overflow).mpr ⟨hp, fun u _ => hi.pcs u⟩, hi.returned⟩

theorem finish {idx : UInt64} {entry : ℕ} (he : EntryOf entries s.overflow idx.toNat entry) :
    Inv entries (s.finish idx t entry) := by
  have hg := hi.goto (t := t) (p := .out) trivial
  refine ⟨hg.published, hg.pcs, ?_⟩
  intro p hp
  obtain rfl | hp := List.mem_cons.mp hp
  · exact he
  · exact hi.returned p hp

omit [DecidableEq T] in
theorem publishFirst {new : FdTableOverflow} (ho : s.overflow = none) (hn : new.Ok entries) :
    Inv entries { s with overflow := some new } := by
  refine ⟨?_, fun u => ?_, fun p hp => ?_⟩
  · rintro o ⟨⟩
    exact hn
  · have hu := hi.pcs u
    cases hp : s.pc u <;> simp_all [Pc.Ok]
  · have hr := hi.returned p hp
    simp_all [EntryOf]

theorem exec {s' : State T} (h : Exec entries s t Fits s') : Inv entries s' := by
  have ht := hi.pcs t
  cases h with
  | call idx hp =>
    rw [call]
    split_ifs with hlt
    · exact hi.finish (.inl ⟨hlt, rfl⟩)
    · have hle : 128 ≤ idx.toNat := not_lt.mp hlt
      cases ho : s.overflow with
      | none => exact hi.goto hle
      | some o => exact hi.goto ⟨hle, ho⟩
  | create idx limit addr hp hm =>
    rw [hp] at ht
    rw [create]
    split_ifs with hgt
    · exact hi.goto trivial
    · obtain ⟨h0, hap⟩ := hm (UInt64.not_lt.mp hgt)
      exact hi.goto ⟨ht, toNat_alignedSize h0, hap⟩
  | publish idx new hp =>
    rw [hp] at ht
    rw [publish]
    cases ho : s.overflow with
    | none => exact (hi.publishFirst ho ht.2).goto ⟨ht.1, rfl⟩
    | some o => exact hi.goto ⟨ht.1, ho⟩
  | use idx o hp hf =>
    rw [hp] at ht
    have hs : (idx - inlineFds).toNat = idx.toNat - 128 := UInt64.toNat_sub_of_le idx inlineFds ht.1
    rw [use]
    split_ifs with hl
    · exact hi.goto trivial
    · rw [UInt64.lt_iff_toNat_lt] at hl
      rw [Fits] at hf
      exact hi.finish (.inr ⟨o, ht.2, ht.1, by omega, by rw [hs]⟩)

omit [DecidableEq T] in
theorem good : s.Good entries := by
  intro p hp
  refine ⟨?_, fun q hq => ?_⟩
  · rcases hi.returned p hp with ⟨hlt, he⟩ | ⟨o, ho, hle, hlt, he⟩
    · exact .inl (by omega)
    · have hs := (hi.published o ho).size
      exact .inr ⟨o, ho, by omega, by omega⟩
  · rw [← UInt64.toNat_inj]
    rcases hi.returned p hp with ⟨hlt, he⟩ | ⟨o, ho, hle, hlt, he⟩ <;>
      rcases hi.returned q hq with ⟨hlt', he'⟩ | ⟨o', ho', hle', hlt', he'⟩
    · omega
    · have hok := hi.published o' ho'
      have hs := hok.size
      have hap := hok.apart
      omega
    · have hok := hi.published o ho
      have hs := hok.size
      have hap := hok.apart
      omega
    · cases ho.symm.trans ho'
      omega

end Inv

theorem inv_invariant : (system T entries Fits).Invariant (Inv entries) where
  init := by
    rintro s ⟨ho, hp, hr⟩
    exact ⟨by simp [ho], fun t => by simp [hp, Pc.Ok], by simp [hr]⟩
  step := fun _ _ hi ⟨_, h⟩ => hi.exec h

/-- As long as no descriptor is used that is the first one behind the table, entries lie inside the arrays and
belong to one descriptor each. -/
theorem entries_good (hs : (system T entries Fits).Reachable s) : s.Good entries :=
  (inv_invariant.reachable hs).good

theorem entries_good_two_arrays :
    ∃ s, (system Unit 4096 Fits).Reachable s ∧ s.returned = [(200, 66120), (5, 4136)] ∧ s.Good 4096 := by
  have h₀ : (system Unit 4096 Fits).Reachable ⟨none, fun _ => .out, []⟩ := .of_init ⟨rfl, fun _ => rfl, rfl⟩
  have h₁ := (h₀.step ⟨(), .call 5 rfl⟩).step ⟨(), .call 200 rfl⟩
    |>.step ⟨(), .create 200 1024 65536 rfl fun _ => ⟨by decide, by decide⟩⟩
    |>.step ⟨(), .publish 200 _ rfl⟩
    |>.step ⟨(), .use 200 _ rfl (show _ ≠ _ by decide)⟩
  exact ⟨_, h₁, rfl, entries_good h₁⟩

/-- With a limit of 1151 the table has 1023 entries, and descriptor 1151 gets the 1024th one. -/
theorem entry_behind_table : ∃ s, (system Unit 4096 fun _ _ => True).Reachable s ∧ ¬s.Good 4096 := by
  have h₀ : (system Unit 4096 fun _ _ => True).Reachable ⟨none, fun _ => .out, []⟩ :=
    .of_init ⟨rfl, fun _ => rfl, rfl⟩
  have h₁ := h₀.step ⟨(), .call 1151 rfl⟩
    |>.step ⟨(), .create 1151 1151 65536 rfl fun _ => ⟨by decide, by decide⟩⟩
    |>.step ⟨(), .publish 1151 _ rfl⟩
    |>.step ⟨(), .use 1151 _ rfl trivial⟩
  refine ⟨_, h₁, fun hg => ?_⟩
  rcases (hg (1151, 73728) (.head _)).1 with h | ⟨o, ho, h⟩
  · exact absurd h.2 (by decide)
  · cases ho
    exact absurd h.2 (by decide)

end Bionic.Fdsan
