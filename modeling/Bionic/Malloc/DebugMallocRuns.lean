import Bionic.Malloc.DebugMallocCalls

namespace Bionic.DebugMalloc

open Function List Debug

variable {c : Config} {d d' : Debug} {live : Finset ℕ} {p start : ℕ}

def inUse (d : Debug) (live : Finset ℕ) : Set ℕ := { p | p ∈ live ∨ p ∈ d.freePointers }

structure Inv (c : Config) (d : Debug) (live : Finset ℕ) : Prop where
  table : ∀ p, (d.pointers p).isSome ↔ p ∈ live
  holds : Holds c d (inUse d live)
  tagged : c.headerEnabled → ∀ p ∈ live, (d.headers (c.getHeader p)).tag = debugTag
  nodup : d.freePointers.Nodup
  kept : ∀ p ∈ live, p ∉ d.freePointers

section

variable (hi : Inv c d live)

include hi

theorem Inv.verifyPointer_iff (ht : c.trackAllocs) (p : ℕ) : d.verifyPointer c p ↔ p ∈ live := by
  rw [verifyPointer, Bool.and_eq_true, ht, Bool.not_true, Bool.false_or, hi.table p]
  refine and_iff_right_of_imp fun hp => ?_
  by_cases hc : c.headerEnabled
  · rw [hi.tagged hc p hp]
    simp
  · simp [hc]

theorem Inv.unchanged (h : Unchanged d d') : Inv c d' live := by
  obtain ⟨hh, hfr, hf, hpo⟩ := h
  have huse : inUse d' live = inUse d live := by
    rw [inUse, inUse, hf]
  refine ⟨hpo ▸ hi.table, ?_, ?_, hf ▸ hi.nodup, hf ▸ hi.kept⟩
  · rw [huse]
    exact hi.holds.congr hh fun q hq => hi.holds.origPointer_eq hfr hq
  · intro hc q hq
    rw [hi.holds.frame hfr (.inl hq) hc]
    exact hi.tagged hc q hq

theorem Inv.allocate (ht : c.trackAllocs) {block : Block}
    (ha : Allocates c d d' p start block) : p ∉ live ∧ Inv c d' (insert p live) := by
  have hnew := ha.not_mem hi.holds
  have huse : inUse d' (insert p live) = insert p (inUse d live) := by
    ext q
    rw [inUse, ha.freePointers_eq, Set.mem_ofPred_eq, Finset.mem_insert, or_assoc]
    rfl
  refine ⟨fun h => hnew (.inl h), ⟨fun q => ?_, ?_, ?_, ?_, ?_⟩⟩
  · rw [ha.pointers ht, hi.table, Finset.mem_insert]
  · rw [huse]
    exact hi.holds.allocate ha
  · intro hc q hq
    obtain rfl | hq := Finset.mem_insert.mp hq
    · exact (ha.header hc).2.2
    · rw [hi.holds.frame ha.frame (.inl hq) hc]
      exact hi.tagged hc q hq
  · rw [ha.freePointers_eq]
    exact hi.nodup
  · intro q hq
    rw [ha.freePointers_eq]
    obtain rfl | hq := Finset.mem_insert.mp hq
    · exact fun h => hnew (.inr h)
    · exact hi.kept q hq

theorem Inv.congr (hh : d'.heap = d.heap) (hf : d'.freePointers = d.freePointers)
    (ht : ∀ q, (d'.pointers q).isSome ↔ (d.pointers q).isSome)
    (ho : ∀ a, (d'.headers a).origPointer = (d.headers a).origPointer)
    (htag : ∀ a, (d'.headers a).tag = (d.headers a).tag) : Inv c d' live := by
  have huse : inUse d' live = inUse d live := by
    rw [inUse, inUse, hf]
  refine ⟨fun q => (ht q).trans (hi.table q), ?_, fun hc q hq => ?_, hf ▸ hi.nodup, hf ▸ hi.kept⟩
  · rw [huse]
    refine hi.holds.congr hh fun q _ => ?_
    rw [origPointer, origPointer, ho]
  · rw [htag]
    exact hi.tagged hc q hq

end

theorem isSome_remove_add (ht : c.trackAllocs) (hp : (d.pointers p).isSome) (size q : ℕ) :
    (((d.remove c p).add c p size).pointers q).isSome ↔ (d.pointers q).isSome := by
  rw [add_isSome ht, remove_isSome ht]
  by_cases h : q = p
  · simp [h, hp]
  · simp [h]

theorem Inv.readd (hi : Inv c d live) (ht : c.trackAllocs) (hp : p ∈ live) (size : ℕ) :
    Inv c ((d.remove c p).add c p size) live :=
  hi.congr (by rw [add_heap, remove_heap]) (by rw [add_freePointers, remove_freePointers])
    (isSome_remove_add ht ((hi.table p).mpr hp) size) (fun a => by rw [add_headers, remove_headers])
    (fun a => by rw [add_headers, remove_headers])

theorem Inv.resize (hi : Inv c d live) (ht : c.trackAllocs) (hp : p ∈ live) (realSize : ℕ) :
    Inv c (d.resize c p realSize) live := by
  apply Inv.readd _ ht hp realSize
  refine hi.congr rfl rfl (fun q => Iff.rfl) (fun a => ?_) (fun a => ?_)
  all_goals
    by_cases ha : a = c.getHeader p
    · simp only [setHeader, ha, update_self]
    · simp only [setHeader, update_of_ne ha]

structure Retired (c : Config) (d d' : Debug) (p : ℕ) : Prop where
  heap_eq : d'.heap = d.heap
  freePointers_eq : d'.freePointers = d.freePointers
  origPointer_eq : ∀ q, d'.origPointer c q = d.origPointer c q
  table : ∀ q, (d'.pointers q).isSome ↔ q ≠ p ∧ (d.pointers q).isSome
  headers : ∀ a, a ≠ c.getHeader p → d'.headers a = d.headers a

theorem retired (ht : c.trackAllocs) (d : Debug) (p : ℕ) : Retired c d ((d.markFreed c p).remove c p) p := by
  have hpo : (d.markFreed c p).pointers = d.pointers := by
    rw [markFreed]
    split <;> rfl
  refine ⟨?_, ?_, fun q => ?_, fun q => ?_, fun a ha => ?_⟩
  · rw [remove_heap, markFreed]
    split <;> rfl
  · rw [remove_freePointers, markFreed]
    split <;> rfl
  · by_cases hc : c.headerEnabled
    · simp only [origPointer, remove_headers, markFreed, hc, if_true, setHeader]
      by_cases hq : c.getHeader q = c.getHeader p
      · rw [hq, update_self]
      · rw [update_of_ne hq]
    · rw [origPointer, origPointer, if_neg hc, if_neg hc]
  · rw [remove_isSome ht, hpo]
  · rw [remove_headers, markFreed]
    split
    · exact update_of_ne ha _ _
    · rfl

theorem Inv.retire (hi : Inv c d live) (hp : p ∈ live) {d₁ : Debug} (h : Retired c d d₁ p)
    (hh : d'.headers = d₁.headers) (ht : d'.pointers = d₁.pointers)
    (hho : Holds c d' (inUse d' (live.erase p))) (hn : d'.freePointers.Nodup)
    (hk : ∀ q ∈ live, q ≠ p → q ∉ d'.freePointers) : Inv c d' (live.erase p) := by
  refine ⟨fun q => ?_, hho, fun hc q hq => ?_, hn, fun q hq => ?_⟩
  · rw [ht, h.table, hi.table, Finset.mem_erase]
  · have hq := Finset.mem_erase.mp hq
    have hne := hi.holds.getHeader_ne (.inl hq.2) (.inl hp) hq.1 hc
    rw [hh, h.headers _ hne]
    exact hi.tagged hc q hq.2
  · have hq := Finset.mem_erase.mp hq
    exact hk q hq.2 hq.1

theorem addFreed_cases (c : Config) (d : Debug) (p : ℕ) :
    d.addFreed c p = (none, { d with freePointers := d.freePointers ++ [p] }) ∨
      ∃ last rest, d.freePointers = last :: rest ∧ d.addFreed c p = (some last, { d with freePointers := rest ++ [p] }) := by
  rw [addFreed]
  split
  · cases h : d.freePointers with
    | nil => exact .inl rfl
    | cons last rest => exact .inr ⟨last, rest, rfl, rfl⟩
  · exact .inl rfl

section Retire

variable {d₁ : Debug} (hi : Inv c d live) (hp : p ∈ live) (hr : Retired c d d₁ p)

include hi hp hr

theorem Inv.push : Inv c { d₁ with freePointers := d.freePointers ++ [p] } (live.erase p) := by
  have hh : Holds c { d₁ with freePointers := d.freePointers ++ [p] } (inUse d live) :=
    hi.holds.congr hr.heap_eq fun q _ => hr.origPointer_eq q
  refine hi.retire hp hr rfl rfl (hh.mono ?_) ?_ ?_
  · rintro q (hq | hq)
    · exact .inl (Finset.mem_of_mem_erase hq)
    · obtain hq | hq := mem_append.mp hq
      · exact .inr hq
      · rw [mem_singleton.mp hq]
        exact .inl hp
  · refine hi.nodup.append (nodup_singleton p) fun q hq hqp => hi.kept p hp ?_
    rwa [← mem_singleton.mp hqp]
  · intro q hq hne h
    obtain h | h := mem_append.mp h
    · exact hi.kept q hq h
    · exact hne (mem_singleton.mp h)

theorem Inv.rotate {last : ℕ} {rest : List ℕ} (hfp : d.freePointers = last :: rest) :
    Inv c ({ d₁ with freePointers := rest ++ [p] }.dispatchFree (d₁.origPointer c last)) (live.erase p) := by
  have hn := hi.nodup
  have hk := hi.kept
  rw [hfp] at hn hk
  obtain ⟨hla, hre⟩ := nodup_cons.mp hn
  have hl : ∀ q ∈ live, q ≠ last := fun q hq heq => hk q hq (heq ▸ mem_cons_self)
  have hmem : last ∈ inUse d live := .inr (hfp ▸ mem_cons_self)
  have hh : Holds c { d₁ with freePointers := rest ++ [p] } (inUse d live) :=
    hi.holds.congr hr.heap_eq fun q _ => hr.origPointer_eq q
  refine hi.retire hp hr rfl rfl ((hh.free hmem).mono ?_) ?_ ?_
  · rintro q (hq | hq)
    · have hq := Finset.mem_of_mem_erase hq
      exact ⟨.inl hq, hl q hq⟩
    · obtain hq | hq := mem_append.mp hq
      · refine ⟨.inr (hfp ▸ mem_cons_of_mem _ hq), fun heq => hla ?_⟩
        rwa [← Set.mem_singleton_iff.mp heq]
      · rw [mem_singleton.mp hq]
        exact ⟨.inl hp, hl p hp⟩
  · refine hre.append (nodup_singleton p) fun q hq hqp => hk p hp ?_
    rw [← mem_singleton.mp hqp]
    exact mem_cons_of_mem _ hq
  · intro q hq hne h
    obtain h | h := mem_append.mp h
    · exact hk q hq (mem_cons_of_mem _ h)
    · exact hne (mem_singleton.mp h)

theorem Inv.giveBack : Inv c (d₁.dispatchFree (d.origPointer c p)) (live.erase p) := by
  have hh := hi.holds.congr hr.heap_eq fun q _ => hr.origPointer_eq q
  have hf : (d₁.dispatchFree (d.origPointer c p)).freePointers = d.freePointers := hr.freePointers_eq
  refine hi.retire hp hr rfl rfl ?_ ?_ ?_
  · rw [← hr.origPointer_eq p]
    refine (hh.free (.inl hp)).mono ?_
    rintro q (hq | hq)
    · have hq := Finset.mem_erase.mp hq
      exact ⟨.inl hq.2, hq.1⟩
    · have hq : q ∈ d.freePointers := hr.freePointers_eq ▸ hq
      refine ⟨.inr hq, fun heq => hi.kept p hp ?_⟩
      rwa [← Set.mem_singleton_iff.mp heq]
  · rw [hf]
    exact hi.nodup
  · intro q hq _
    rw [hf]
    exact hi.kept q hq

end Retire

theorem Inv.internalFree (hi : Inv c d live) (ht : c.trackAllocs) (hp : p ∈ live) :
    Inv c (d.internalFree c p) (live.erase p) := by
  have hr := retired ht d p
  rw [Debug.internalFree]
  generalize (d.markFreed c p).remove c p = d₁ at hr
  split
  · obtain h | ⟨last, rest, hfp, h⟩ := addFreed_cases c d₁ p
    · rw [h, hr.freePointers_eq]
      exact hi.push hp hr
    · rw [h]
      exact hi.rotate hp hr (hr.freePointers_eq ▸ hfp)
  · exact hi.giveBack hp hr

theorem Inv.moved (hi : Inv c d live) (ht : c.trackAllocs) (hc : ¬ c.headerEnabled) (hp : p ∈ live) {n usable : ℕ}
    (hn : 0 < n) (hf : Fresh (update d.heap p none) start n) :
    Inv c ((((d.remove c p).dispatchFree p).dispatchAlloc start ⟨n, usable⟩).add c start n)
      (insert start (live.erase p)) := by
  have ho : ∀ (d : Debug) q, d.origPointer c q = q := fun d q => if_neg hc
  have hr : Retired c d (d.remove c p) p := ⟨remove_heap .., remove_freePointers .., fun q => by rw [ho, ho],
    remove_isSome ht d p, fun a _ => by rw [remove_headers]⟩
  have hg := hi.giveBack hp hr
  rw [ho] at hg
  refine (hg.allocate ht (?_ : Allocates c _ _ start start ⟨n, usable⟩)).2
  refine ⟨?_, hn, ?_, ?_, ho _ _, fun h => absurd h hc, ?_, fun ht q => add_isSome ht _ _ _ q⟩
  · show Fresh (update (d.remove c p).heap p none) start n
    rwa [remove_heap]
  · rw [add_heap]
    rfl
  · intro _ _ a _ _ _
    exact congrFun (add_headers ..) a
  · rw [add_freePointers]
    rfl

end Bionic.DebugMalloc
