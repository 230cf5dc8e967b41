import Bionic.Lib.Threads

namespace Bionic.Lib.FutexLock

open Function

variable {T : Type*} [DecidableEq T]

inductive Word
  | unlocked
  | lockedWithoutWaiter
  | lockedWithWaiter
  deriving DecidableEq

/-- Where a thread is in the code of the lock: `out` up to the first compare-exchange of lock, `held` from there
to the exchange of unlock. -/
inductive Phase
  | out
  | exchange
  | futexWait
  | sleep
  | held
  | wake
  deriving DecidableEq

def next : Word → Phase → Word × Phase
  | .unlocked, .out => (.lockedWithoutWaiter, .held)
  | w, .out => (w, .exchange)
  | .unlocked, .exchange => (.lockedWithWaiter, .held)
  | _, .exchange => (.lockedWithWaiter, .futexWait)
  | .lockedWithWaiter, .futexWait => (.lockedWithWaiter, .sleep)
  | w, .futexWait => (w, .exchange)
  | .lockedWithWaiter, .held => (.unlocked, .wake)
  | _, .held => (.unlocked, .out)
  | w, p => (w, p)

/-- The thread will set the word that says threads wait, or wake one that will. -/
def Phase.rescuer : Phase → Prop
  | .exchange | .futexWait | .wake => True
  | _ => False

def Asleep (p : Phase) : Prop := p = .sleep

structure Inv (w : Word) (phase : T → Phase) : Prop where
  locked : w ≠ .unlocked ↔ ∃ t, phase t = .held
  unique : ∀ t u, phase t = .held → phase u = .held → t = u
  rescue : Covered Asleep Phase.rescuer (w = .lockedWithWaiter) phase

variable {w : Word} {phase : T → Phase} {t : T}

omit [DecidableEq T] in
theorem Inv.start (h : ∀ t, phase t = .out) : Inv .unlocked phase := by
  refine ⟨⟨fun hw => absurd rfl hw, ?_⟩, ?_, ?_⟩
  · rintro ⟨t, ht⟩
    cases (h t).symm.trans ht
  · intro t u ht
    cases (h t).symm.trans ht
  · intro t ht
    cases (h t).symm.trans ht

theorem held_update {p : Phase} {u : T} (hu : update phase t p u = .held) :
    u = t ∧ p = .held ∨ u ≠ t ∧ phase u = .held := by
  rw [update_apply] at hu
  split_ifs at hu with hut
  · exact .inl ⟨hut, hu⟩
  · exact .inr ⟨hut, hu⟩

theorem Inv.move (hi : Inv w phase) (w' : Word) (p : Phase) (hw : w' = .unlocked ↔ w = .unlocked)
    (ho : p = .held ↔ phase t = .held) (hs : p = .sleep → w' = .lockedWithWaiter)
    (hr : w = .lockedWithWaiter ∨ (phase t).rescuer → w' = .lockedWithWaiter ∨ p.rescuer ∨
      (∃ u, u ≠ t ∧ (phase u).rescuer) ∨ ∀ u, u ≠ t → ¬Asleep (phase u)) :
    Inv w' (update phase t p) := by
  have hh (u : T) : update phase t p u = .held ↔ phase u = .held := by
    rw [update_apply]
    split_ifs with hut
    · rw [hut, ho]
    · rfl
  refine ⟨?_, ?_, hi.rescue.update t p hs hr⟩
  · simp only [hh, Ne, hw]
    exact hi.locked
  · intro u v
    rw [hh, hh]
    exact hi.unique u v

theorem Inv.acquire (hi : Inv .unlocked phase) (w' : Word) (hw : w' ≠ .unlocked)
    (hr : (phase t).rescuer → w' = .lockedWithWaiter) : Inv w' (update phase t .held) := by
  have ho {u : T} (hu : update phase t .held u = .held) : u = t :=
    (held_update hu).elim And.left fun h => absurd rfl (hi.locked.2 ⟨u, h.2⟩)
  refine ⟨⟨fun _ => ⟨t, ?_⟩, fun _ => hw⟩, fun u v hu hv => (ho hu).trans (ho hv).symm, ?_⟩
  · rw [update_self]
  · apply hi.rescue.update t .held (by rintro ⟨⟩)
    rintro (h | h)
    · cases h
    · exact .inl (hr h)

theorem Inv.release (hi : Inv w phase) (hp : phase t = .held) (p : Phase) (hp' : p = .wake ∨ p = .out)
    (hr : w = .lockedWithWaiter → p = .wake) : Inv .unlocked (update phase t p) := by
  have hn (u : T) (hu : update phase t p u = .held) : False := by
    rcases held_update hu with ⟨-, h⟩ | ⟨hut, h⟩
    · rcases hp' with rfl | rfl <;> cases h
    · exact hut (hi.unique u t h hp)
  refine ⟨⟨fun h => absurd rfl h, fun ⟨u, hu⟩ => (hn u hu).elim⟩, fun u _ hu => (hn u hu).elim, ?_⟩
  apply hi.rescue.update t p
  · rintro rfl
    rcases hp' with h | h <;> cases h
  · rintro (h | h)
    · rw [hr h]
      exact .inr (.inl trivial)
    · rw [hp] at h
      exact h.elim

theorem Inv.next (hi : Inv w phase) (t : T) :
    Inv (FutexLock.next w (phase t)).1 (update phase t (FutexLock.next w (phase t)).2) := by
  have hs : Inv w (update phase t (phase t)) := by rwa [update_eq_self]
  cases hp : phase t with
  | sleep | wake =>
    rw [hp] at hs
    cases w <;> exact hs
  | out =>
    cases w with
    | unlocked => exact hi.acquire .lockedWithoutWaiter (by simp) (by rw [hp]; exact False.elim)
    | lockedWithoutWaiter | lockedWithWaiter =>
      exact hi.move _ .exchange Iff.rfl (by simp [hp]) (by simp) fun _ => .inr (.inl trivial)
  | exchange =>
    cases w with
    | unlocked => exact hi.acquire .lockedWithWaiter (by simp) fun _ => rfl
    | lockedWithoutWaiter | lockedWithWaiter =>
      exact hi.move .lockedWithWaiter .futexWait (by simp) (by simp [hp]) (by simp) fun _ => .inl rfl
  | futexWait =>
    cases w with
    | lockedWithWaiter => exact hi.move _ .sleep Iff.rfl (by simp [hp]) (fun _ => rfl) fun _ => .inl rfl
    | unlocked | lockedWithoutWaiter =>
      exact hi.move _ .exchange Iff.rfl (by simp [hp]) (by simp) fun _ => .inr (.inl trivial)
  | held =>
    cases w with
    | lockedWithWaiter => exact hi.release hp .wake (.inl rfl) fun _ => rfl
    | unlocked | lockedWithoutWaiter => exact hi.release hp .out (.inr rfl) (by simp)

theorem Inv.awaken (hi : Inv w phase) (hp : phase t = .sleep) : Inv w (update phase t .exchange) :=
  hi.move w .exchange Iff.rfl (by simp [hp]) (by simp) fun _ => .inr (.inl trivial)

theorem Inv.waked (hi : Inv w phase) (hp : phase t = .wake)
    (h : (∃ u, u ≠ t ∧ (phase u).rescuer) ∨ ∀ u, ¬Asleep (phase u)) : Inv w (update phase t .out) := by
  apply hi.move w .out Iff.rfl (by simp [hp]) (by simp)
  intro _
  rcases h with h | h
  · exact .inr (.inr (.inl h))
  · exact .inr (.inr (.inr fun u _ => h u))

omit [DecidableEq T] in
theorem Inv.nobody_asleep (hi : Inv w phase) (hq : ∀ u, phase u = .out ∨ phase u = .sleep) (u : T) :
    ¬Asleep (phase u) := by
  intro hu
  rcases hi.rescue u hu with hw | ⟨v, hv⟩
  · obtain ⟨v, hv⟩ := hi.locked.1 (by rw [hw]; simp)
    rcases hq v with h | h <;> cases h.symm.trans hv
  · rcases hq v with h | h <;> rw [h] at hv <;> exact hv

end Bionic.Lib.FutexLock
