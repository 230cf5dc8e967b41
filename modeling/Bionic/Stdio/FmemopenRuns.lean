import Bionic.Lib.System
import Bionic.Stdio.Fmemopen

namespace Bionic.Fmemopen

open Lib Nat Cookie

variable {ck ck' : Cookie} {data : List UInt8} {n k : ℕ} {reply : Reply}

theorem Cookie.position_le (hb : ck.Bounded) : ck.position ≤ ck.capacity := by
  have h := hb.rewind.offset_le
  rwa [ck.rewind_capacity] at h

theorem Cookie.rewind_position (ck : Cookie) : ck.rewind.position = ck.rewind.offset := by
  rw [position]
  by_cases h : ck.append
  · simp only [rewind, h, if_true]
  · simp only [rewind, h, Bool.false_eq_true, if_false]

theorem Stores.of_rewind (h : Stores ck.rewind data k reply ck') : Stores ck data k reply ck' := by
  obtain ⟨hle, hret, hc, hf, hb, ho, hs, ht⟩ := h
  rw [ck.rewind_position] at hc hf hb ho hs ht
  rw [ck.rewind_buf] at hf hb
  rw [ck.rewind_size] at hb hs ht
  exact ⟨hle, hret, hc, hf, hb, ho, hs, ht⟩

theorem Safe.of_rewind (h : Safe ck.rewind reply ck') : Safe ck reply ck' := by
  obtain ⟨he, hb, hcap, hs, ho⟩ := h
  rw [ck.rewind_capacity] at he hb hcap hs ho
  rw [ck.rewind_buf] at hb
  exact ⟨he, hb, hcap, hs, ho⟩

theorem spaceForNull_eq_zero_iff : spaceForNull data = 0 ↔ data.getD (data.length - 1) 0 = 0 := by
  rw [spaceForNull]
  split
  next h => exact iff_of_false one_ne_zero h.2
  next h =>
    by_cases hpos : 0 < data.length
    · simpa [hpos] using h
    · simp [List.eq_nil_of_length_eq_zero (Nat.eq_zero_of_not_pos hpos)]

section

variable (hb : ck.Bounded)

include hb

theorem write_cases (hlen : data.length < 2 ^ 31) :
    data.length + spaceForNull data ≤ ck.capacity - ck.position ∧
        fmemopenWrite ck data = put ck.rewind data data.length ∨
      ck.capacity - ck.position < data.length + spaceForNull data ∧
        (ck.capacity - ck.position ≤ spaceForNull data ∧ fmemopenWrite ck data = (⟨.error .ENOSPC, [], 0⟩, ck.rewind) ∨
          spaceForNull data < ck.capacity - ck.position ∧
            fmemopenWrite ck data = put ck.rewind data (ck.capacity - ck.position - spaceForNull data : ℕ)) := by
  have hcap := hb.capacity_lt
  have hpos := position_le hb
  have hs : spaceForNull data ≤ 1 := by rw [spaceForNull]; split <;> omega
  have hr : sizeT ((ck.rewind.capacity : ℤ) - ck.rewind.offset) = ck.capacity - ck.position := by
    rw [sizeT_sub, ck.rewind_capacity]
    · rfl
    · rw [ck.rewind_capacity]
      exact hcap
    · rw [ck.rewind_capacity]
      exact hpos
  rw [fmemopenWrite, sizeT_add (by omega)]
  by_cases hfit : data.length + spaceForNull data ≤ ck.capacity - ck.position
  · exact .inl ⟨hfit, if_neg (by omega)⟩
  · refine .inr ⟨by omega, ?_⟩
    rw [if_pos (by omega), ck.rewind_capacity]
    by_cases hn : spaceForNull data ≤ ck.capacity - ck.position
    · have hcut : intT (sizeT ((ck.capacity : ℤ) - ck.rewind.offset - spaceForNull data)) =
          ((ck.capacity - ck.position - spaceForNull data : ℕ) : ℤ) := by
        have hd : (ck.capacity : ℤ) - ck.rewind.offset - spaceForNull data =
            ((ck.capacity - ck.position - spaceForNull data : ℕ) : ℤ) := by
          have ho : ck.rewind.offset = ck.position := rfl
          omega
        rw [hd, sizeT_natCast (by omega), intT_natCast (by omega)]
      rw [hcut]
      by_cases hone : ck.capacity - ck.position ≤ spaceForNull data
      · exact .inl ⟨hone, if_pos (by omega)⟩
      · exact .inr ⟨by omega, if_neg (by omega)⟩
    · refine .inl ⟨by omega, ?_⟩
      have hd : (ck.capacity : ℤ) - ck.rewind.offset - spaceForNull data = -1 := by
        have ho : ck.rewind.offset = ck.position := rfl
        omega
      rw [hd]
      rfl

/-- A read of something behind the size is excluded, and so is a write that ends with a NUL but has to be cut
behind another byte. -/
def Fits (ck : Cookie) : Call → Prop
  | .read n _ => n = 0 ∨ ck.offset ≤ ck.size
  | .write data _ => ck.capacity - ck.position < data.length → ck.capacity ≠ ck.position →
      data.getD (data.length - 1) 0 = 0 → data.getD (ck.capacity - ck.position - 1) 0 = 0
  | .seek .. => True

def Meets (ck : Cookie) : Call → Reply → Cookie → Prop
  | .read n _, reply, ck' => Reads ck n reply ck'
  | .write data _, reply, ck' => Refuses ck reply ck' ∨ ∃ k, Stores ck data k reply ck'
  | .seek offset whence _, reply, ck' => Seeks ck offset whence reply ck'

def Behaves (ck : Cookie) (call : Call) : Prop :=
  Meets ck call (ck.call call).1 (ck.call call).2 ∧ Safe ck (ck.call call).1 (ck.call call).2

theorem read_behaves (hn : n < 2 ^ 31) : Behaves ck (.read n hn) ↔ Fits ck (.read n hn) := by
  constructor
  · intro h
    apply Classical.byContradiction
    intro hfit
    obtain ⟨hpos, hlt⟩ : n ≠ 0 ∧ ¬ ck.offset ≤ ck.size := not_or.mp hfit
    obtain ⟨k, hk, hret⟩ := read_past hb hn (by omega) (Nat.lt_of_not_le hlt)
    have hz : min n (ck.size - ck.offset) = 0 := by omega
    have hsp := h.1.ret
    have heq := Except.ok.inj (hret.symm.trans hsp)
    omega
  · intro h
    obtain ⟨extent, he, heq⟩ := read_eq hb hn h
    rw [Behaves, call, heq]
    have hs := hb.size_le
    have ho := hb.offset_le
    refine ⟨⟨rfl, rfl, rfl⟩, ⟨he.trans hs, fun _ _ => rfl, rfl, hs, ?_⟩⟩
    obtain rfl | hle := h
    · rw [Nat.zero_min]
      exact ho
    · show ck.offset + min n (ck.size - ck.offset) ≤ ck.capacity
      omega

/-- An overlong write that ends with a NUL stores a NUL behind the capacity, if its cut end is another byte. -/
theorem put_overflows (hk : 0 < k) (hr : ck.offset + k = ck.capacity)
    (hne : data.getD (k - 1) 0 ≠ 0) : (put ck data (k : ℕ)).1.extent = ck.capacity + 1 := by
  have hcap := hb.capacity_lt
  have hs := hb.size_le
  rw [put_eq hk (by omega), if_pos ⟨by omega, hne⟩, hr]

theorem write_behaves (hlen : data.length < 2 ^ 31) : Behaves ck (.write data hlen) ↔ Fits ck (.write data hlen) := by
  have hp := position_le hb
  have hof : ck.rewind.offset = ck.position := rfl
  have hc := ck.rewind_capacity
  have hput : ∀ k, 0 < k → k ≤ data.length → ck.position + k ≤ ck.capacity →
      (ck.position + k < ck.capacity ∨ data.getD (k - 1) 0 = 0) →
      fmemopenWrite ck data = put ck.rewind data (k : ℕ) → Behaves ck (.write data hlen) := by
    intro k hk hle hr hend heq
    have h := put_stores hb.rewind hk hle (by omega) (hend.imp_left fun h => by omega) ck.rewind_position
    rw [Behaves, call, heq]
    exact ⟨.inr ⟨k, h.1.of_rewind⟩, h.2.of_rewind⟩
  have hz : spaceForNull data = 0 ↔ data.getD (data.length - 1) 0 = 0 := spaceForNull_eq_zero_iff
  obtain ⟨hfit, heq⟩ | ⟨hcut, ⟨hn, heq⟩ | ⟨hso, heq⟩⟩ := write_cases hb hlen
  · refine iff_of_true ?_ (fun hlt => by omega)
    by_cases hpos : data.length = 0
    · rw [Behaves, call, heq, hpos, put_zero]
      have hs := hb.rewind
      refine ⟨.inr ⟨0, ⟨zero_le _, rfl, rfl, ?_, ?_, rfl, ?_, ?_⟩⟩, ⟨zero_le _, ?_, hc, ?_, ?_⟩⟩
      · intro i _
        exact congrFun ck.rewind_buf i
      · exact .inl (congrFun ck.rewind_buf _)
      · exact ck.rewind_size
      · intro hlt
        rw [ck.rewind_size] at hlt
        omega
      · intro i _
        exact congrFun ck.rewind_buf i
      · exact hs.size_le.trans (le_of_eq hc)
      · exact hp
    · refine hput data.length (by omega) le_rfl (by omega) ?_ heq
      by_cases hnul : data.getD (data.length - 1) 0 = 0
      · exact .inr hnul
      · have hone : spaceForNull data ≠ 0 := fun h => hnul (hz.mp h)
        exact .inl (by omega)
  · refine iff_of_true ?_ (fun hlt hne hnul => ?_)
    · rw [Behaves, call, heq]
      have hs := hb.rewind
      refine ⟨.inl ⟨rfl, ck.rewind_buf, ck.rewind_size⟩, ⟨zero_le _, ?_, hc, ?_, hp⟩⟩
      · intro i _
        exact congrFun ck.rewind_buf i
      · exact hs.size_le.trans (le_of_eq hc)
    · rw [hz.mpr hnul] at hn
      omega
  · by_cases hnul : data.getD (data.length - 1) 0 = 0
    · rw [hz.mpr hnul, Nat.sub_zero] at heq
      rw [hz.mpr hnul] at hcut hso
      constructor
      · intro h hlt hne _
        apply Classical.byContradiction
        intro hby
        have ho := put_overflows hb.rewind (k := ck.capacity - ck.position) (by omega) (by omega) hby
        have he := h.2.extent_le
        rw [call, heq, ho] at he
        omega
      · intro h
        exact hput _ (by omega) (by omega) (by omega) (.inr (h (by omega) (by omega) hnul)) heq
    · have hone : spaceForNull data ≠ 0 := fun h => hnul (hz.mp h)
      refine iff_of_true ?_ (fun _ _ h => absurd h hnul)
      exact hput _ (by omega) (by omega) (by omega) (.inl (by omega)) heq

theorem seek_behaves {offset : ℤ} {whence : Whence} (h : -2 ^ 63 ≤ offset ∧ offset < 2 ^ 63) :
    Behaves ck (.seek offset whence h) := by
  have hs := hb.size_le
  have hm : ∀ o, o = sizeT (whence.base ck + offset) → o ≤ ck.capacity →
      fmemopenSeek ck offset whence = seekTo ck o → Behaves ck (.seek offset whence h) := by
    intro o ho hle heq
    rw [Behaves, call, heq]
    exact ⟨⟨rfl, .inl ⟨rfl, ho⟩⟩, ⟨zero_le _, fun _ _ => rfl, rfl, hs, hle⟩⟩
  by_cases hset : whence = .seekSet ∧ offset ≥ 0 ∧ sizeT offset ≤ ck.capacity
  · refine hm (sizeT offset) ?_ hset.2.2 (if_pos hset)
    rw [hset.1, Whence.base, Int.natCast_zero, Int.zero_add]
  by_cases hcur : whence = .seekCur ∧ sizeT (ck.offset + offset) ≤ ck.capacity
  · refine hm (sizeT (ck.offset + offset)) ?_ hcur.2 (by rw [fmemopenSeek, if_neg hset, if_pos hcur])
    rw [hcur.1, Whence.base]
  by_cases hend : whence = .seekEnd ∧ offset ≤ 0 ∧ sizeT (-offset) ≤ ck.size
  · have hle : sizeT (ck.size + offset) ≤ ck.size := by
      have hneg := hend.2.2
      rw [sizeT] at hneg ⊢
      omega
    refine hm (sizeT (ck.size + offset)) ?_ (hle.trans hs)
      (by rw [fmemopenSeek, if_neg hset, if_neg hcur, if_pos hend])
    rw [hend.1, Whence.base]
  · rw [Behaves, call, fmemopenSeek, if_neg hset, if_neg hcur, if_neg hend]
    exact ⟨⟨rfl, .inr ⟨rfl, rfl⟩⟩, ⟨zero_le _, fun _ _ => rfl, rfl, hs, hb.offset_le⟩⟩

theorem behaves_iff (call : Call) : Behaves ck call ↔ Fits ck call := by
  cases call with
  | read n h => exact read_behaves hb h
  | write data h => exact write_behaves hb h
  | seek offset whence h => exact iff_of_true (seek_behaves hb h) trivial

end

variable (buf : ℕ → UInt8) {capacity : ℕ}

theorem strnlen_le (n : ℕ) : strnlen buf n ≤ n := by
  have h := (List.takeWhile_sublist (l := load buf 0 n) (· ≠ 0)).length_le
  rwa [length_load] at h

def system (allowed : Cookie → Call → Prop) (buf : ℕ → UInt8) (capacity : ℕ) (mode : Mode) : System Cookie where
  Init ck := ck = fmemopen buf capacity mode
  Step ck ck' := ∃ call, allowed ck call ∧ ck' = (ck.call call).2

structure Inv (buf : ℕ → UInt8) (capacity : ℕ) (ck : Cookie) : Prop where
  bounded : ck.Bounded
  capacity_eq : ck.capacity = capacity
  behind : ∀ i, capacity ≤ i → ck.buf i = buf i

theorem inv_fmemopen (hcap : capacity < 2 ^ 64) (mode : Mode) : Inv buf capacity (fmemopen buf capacity mode) := by
  cases mode with
  | a =>
    have hle := strnlen_le buf capacity
    exact ⟨⟨hcap, hle, hle⟩, rfl, fun _ _ => rfl⟩
  | r => exact ⟨⟨hcap, le_rfl, zero_le _⟩, rfl, fun _ _ => rfl⟩
  | w =>
    refine ⟨⟨hcap, zero_le _, zero_le _⟩, rfl, fun i hi => ?_⟩
    rw [fmemopen]
    dsimp only
    split
    · exact store_singleton_of_ne (by omega)
    · rfl

theorem inv_invariant (hcap : capacity < 2 ^ 64) (mode : Mode) :
    (system Fits buf capacity mode).Invariant (Inv buf capacity) := by
  constructor
  · rintro _ rfl
    exact inv_fmemopen buf hcap mode
  · rintro ck _ ⟨hb, rfl, hbe⟩ ⟨call, hf, rfl⟩
    have hs := ((behaves_iff hb call).mpr hf).2
    exact ⟨hs.bounded hb, hs.capacity_eq, fun i hi => (hs.behind i hi).trans (hbe i hi)⟩

/-- As long as no call reads behind the size and no overlong write ends with a NUL that its cut loses, the
cookie is a byte array of fixed capacity; and the first call that does either is not. -/
theorem cookie_behaves (buf : ℕ → UInt8) (capacity : ℕ) (hcap : capacity < 2 ^ 64) (mode : Mode) (ck : Cookie)
    (hck : (system Fits buf capacity mode).Reachable ck) :
    ck.size ≤ capacity ∧ ck.offset ≤ capacity ∧ (∀ i, capacity ≤ i → ck.buf i = buf i) ∧
      ∀ call, Behaves ck call ↔ Fits ck call := by
  obtain ⟨hb, rfl, hbe⟩ := (inv_invariant buf hcap mode).reachable hck
  exact ⟨hb.size_le, hb.offset_le, hbe, behaves_iff hb⟩

section Example

def ones : ℕ → UInt8 := fun _ => 0xff

def opened (capacity : ℕ) : Cookie := fmemopen ones capacity .w

def written : Cookie := (fmemopenWrite (opened 8) [104, 105]).2

theorem cookie_behaves_hi : (system Fits ones 8 .w).Reachable written ∧ Behaves written (.seek 0 .seekSet (by decide)) ∧
    written.size = 2 ∧ written.buf 8 = 0xff := by
  have hf : Fits (opened 8) (.write [104, 105] (by decide)) := by
    intro h
    exact absurd h (by decide)
  have hr : (system Fits ones 8 .w).Reachable written := .step (.of_init rfl) ⟨_, hf, rfl⟩
  have h := cookie_behaves ones 8 (by decide) .w written hr
  exact ⟨hr, (h.2.2.2 _).mpr trivial, rfl, h.2.2.1 8 le_rfl⟩

/-- With a capacity of four, the NUL of a cut write lands in the fifth cell; after a seek to the end a read
returns what lies behind it. -/
theorem nul_and_read_behind_capacity :
    (fmemopenWrite (opened 4) [1, 2, 3, 4, 5, 0]).2.buf 4 = 0 ∧ (opened 4).buf 4 = 0xff ∧
      (fmemopenRead (fmemopenSeek (opened 4) 4 .seekSet).2 2).1.bytes = [0xff, 0xff] ∧
      (fmemopenSeek (opened 4) 4 .seekSet).2.size = 0 := by
  decide

end Example

end Bionic.Fmemopen
