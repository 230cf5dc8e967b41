import Bionic.Liblog.EventList

namespace Bionic.EventList

open Lib Function Nat List

namespace Reader

variable {r : Reader} {data : Data} {i : ℕ} (msg : List UInt8)

section Peek

theorem readFixed_peek (r : Reader) (k : ℕ) (data : Data) :
    r.readFixed k data true = ((r.readFixed k data false).1, r) := by
  rw [readFixed, readFixed]
  split_ifs
  · rfl
  · rfl

theorem readString_peek (r : Reader) : r.readString true = ((r.readString false).1, r) := by
  simp only [readString]
  split_ifs
  all_goals rfl

theorem readList_peek (r : Reader) : r.readList true = ((r.readList false).1, r) := by
  by_cases hf : r.pos + 2 > r.len
  all_goals simp [readList, hf]

theorem readListStop_peek (r : Reader) : r.readListStop true = ((r.readListStop false).1, r) := by
  by_cases hd : r.listNestDepth > 0
  all_goals simp [readListStop, hd]

theorem readElement_peek (r : Reader) : r.readElement true = ((r.readElement false).1, r) := by
  simp only [readElement, readFixed_peek, readString_peek, readList_peek, readListStop_peek]
  split_ifs
  all_goals rfl

/-- A peek gives the element that the next read gives, and changes nothing. -/
theorem readNextInternal_peek (r : Reader) : r.androidLogReadNextInternal true = (r.androidLogReadNext.1, r) := by
  have hs : r.stop true = ((r.stop false).1, r) := rfl
  simp only [androidLogReadNext, androidLogReadNextInternal, hs, readElement_peek]
  by_cases hend : r.listNestDepth > maxListNestDepth ∨ maxEventPayload / 2 ≤ r.count r.listNestDepth
  · simp only [if_pos hend]
  · split_ifs
    all_goals rfl

end Peek

/-- What holds of a parser at any time: it is inside the message, behind which there are zeros. -/
structure Sane (r : Reader) : Prop where
  pos_le : r.pos ≤ r.len
  depth_le : r.listNestDepth ≤ maxListNestDepth + 1
  count_zero : r.count 0 = 0
  zeros : ∀ i, r.len ≤ i → r.storage i = 0

def measure (r : Reader) : ℕ := 2 * (r.len - r.pos) + r.listNestDepth

def Inside (r : Reader) (data : Data) : Prop :=
  ∀ bytes, data = .string bytes → ∃ p, p + bytes.length ≤ r.len ∧ bytes = load r.storage p bytes.length

/-- What a read may do: the parser stays sane over the same message, and the read is the last one or
makes progress. -/
structure Reads (r : Reader) (p : Element × Reader) : Prop where
  sane : p.2.Sane
  storage : p.2.storage = r.storage
  len : p.2.len = r.len
  progress : p.1.complete ∨ p.1.data = .unknown ∨ p.2.measure < r.measure
  inside : r.Inside p.1.data

theorem inside_of_ne (r : Reader) (h : ∀ bytes, data ≠ .string bytes) : r.Inside data := by
  intro bytes hd
  exact absurd hd (h bytes)

theorem inside_load (r : Reader) {p n : ℕ} (h : p + n ≤ r.len) : r.Inside (.string (load r.storage p n)) := by
  intro bytes hd
  cases hd
  rw [length_load]
  exact ⟨p, h, rfl⟩

section

variable (h : r.Sane)

include h

theorem Sane.unknown (complete : Bool) : Reads r (⟨.unknown, complete⟩, r) where
  sane := h
  storage := rfl
  len := rfl
  progress := Or.inr (Or.inl rfl)
  inside := r.inside_of_ne (fun bytes hd => by cases hd)

theorem Sane.tangible {pos : ℕ} (hpos : r.pos < pos) (hlen : pos ≤ r.len)
    (hda : r.Inside data) : Reads r (r.tangible data pos false) where
  sane := by
    refine ⟨hlen, h.depth_le, ?_, h.zeros⟩
    change update r.count r.listNestDepth (r.count r.listNestDepth - 1) 0 = 0
    by_cases hd : r.listNestDepth = 0
    · rw [hd, update_self, h.count_zero]
    · rw [update_of_ne (Ne.symm hd), h.count_zero]
  storage := rfl
  len := rfl
  progress := by
    refine Or.inr (Or.inr ?_)
    change 2 * (r.len - pos) + r.listNestDepth < 2 * (r.len - r.pos) + r.listNestDepth
    omega
  inside := hda

theorem Sane.readFixed (k : ℕ) (hda : ∀ bytes, data ≠ .string bytes) : Reads r (r.readFixed k data false) := by
  rw [Reader.readFixed]
  split_ifs with hf
  · exact h.unknown false
  · exact h.tangible (by omega) (by omega) (r.inside_of_ne hda)

theorem Sane.readString : Reads r (r.readString false) := by
  simp only [Reader.readString]
  split_ifs with hf hlen hcut hn
  · exact h.unknown true
  · exact h.unknown false
  · exact h.unknown true
  · exact h.tangible (by omega) (le_refl _) (r.inside_load (by omega))
  · exact h.tangible (by omega) (by omega) (r.inside_load (by omega))

theorem Sane.readList (hd : r.listNestDepth ≤ maxListNestDepth) : Reads r (r.readList false) := by
  by_cases hf : r.pos + 2 > r.len
  · rw [Reader.readList, if_pos hf]
    exact h.unknown true
  · have hdec : update r.count r.listNestDepth (r.count r.listNestDepth - 1) 0 = 0 := by
      by_cases hz : r.listNestDepth = 0
      · rw [hz, update_self, h.count_zero]
      · rw [update_of_ne (Ne.symm hz), h.count_zero]
    rw [Reader.readList, if_neg hf]
    simp only [Bool.false_eq_true, if_false]
    refine ⟨⟨le_of_not_gt hf, succ_le_succ hd, ?_, h.zeros⟩, rfl, rfl, Or.inr (Or.inr ?_), ?_⟩
    · simp only
      split_ifs
      · rw [update_of_ne (succ_ne_zero _).symm, hdec]
      · exact hdec
    · change 2 * (r.len - (r.pos + 2)) + (r.listNestDepth + 1) < 2 * (r.len - r.pos) + r.listNestDepth
      omega
    · exact r.inside_of_ne (fun bytes hd => by cases hd)

theorem Sane.readListStop (hpos : r.pos < r.len) : Reads r (r.readListStop false) := by
  simp only [Reader.readListStop, Bool.false_eq_true, if_false]
  split_ifs with hd
  · constructor
    · exact ⟨hpos, (sub_le _ _).trans h.depth_le, h.count_zero, h.zeros⟩
    · rfl
    · rfl
    · refine Or.inr (Or.inr ?_)
      change 2 * (r.len - (r.pos + 1)) + (r.listNestDepth - 1) < 2 * (r.len - r.pos) + r.listNestDepth
      omega
    · exact r.inside_of_ne (fun bytes hd => by cases hd)
  · exact ⟨⟨hpos, h.depth_le, h.count_zero, h.zeros⟩, rfl, rfl, Or.inl rfl, r.inside_of_ne (fun bytes hd => by cases hd)⟩

end

theorem stop_fields (r : Reader) :
    (r.stop false).2.pos = (if r.storage r.pos = eventTypeListStop then r.pos + 1 else r.pos) ∧
      (r.stop false).2.listNestDepth = r.listNestDepth - 1 ∧ (r.stop false).2.count = r.count ∧
      (r.stop false).2.storage = r.storage ∧ (r.stop false).2.len = r.len := by
  by_cases hs : r.storage r.pos = eventTypeListStop
  · by_cases hd : r.listNestDepth = 0
    all_goals simp [hs, hd]
  · by_cases hd : r.listNestDepth = 0
    all_goals simp [hs, hd]

theorem Sane.stop (h : r.Sane) : Reads r (r.stop false) := by
  obtain ⟨hpos, hde, hc, hs, hlen⟩ := r.stop_fields
  have hi : (r.stop false).2.pos ≤ r.len ∧ r.pos ≤ (r.stop false).2.pos := by
    have hle := h.pos_le
    rw [hpos]
    split_ifs with hst
    · refine ⟨?_, le_succ _⟩
      by_contra hge
      rw [h.zeros r.pos (by omega)] at hst
      cases hst
    · exact ⟨hle, le_refl _⟩
  constructor
  · constructor
    · rw [hlen]
      exact hi.1
    · rw [hde]
      exact (sub_le _ _).trans h.depth_le
    · rw [hc, h.count_zero]
    · rw [hlen, hs]
      exact h.zeros
  · exact hs
  · exact hlen
  · by_cases hd : r.listNestDepth = 0
    · left
      simp [h.count_zero, hd]
    · refine Or.inr (Or.inr ?_)
      rw [measure, measure, hlen]
      omega
  · exact r.inside_of_ne (fun bytes hd => by cases hd)

theorem Sane.readElement (h : r.Sane) (hd : r.listNestDepth ≤ maxListNestDepth) (hpos : r.pos < r.len) :
    Reads r (r.readElement false) := by
  simp only [Reader.readElement]
  split_ifs
  · exact h.readFixed 4 (fun bytes hd => by cases hd)
  · exact h.readFixed 4 (fun bytes hd => by cases hd)
  · exact h.readFixed 8 (fun bytes hd => by cases hd)
  · exact h.readString
  · exact h.readList hd
  · exact h.readListStop hpos
  · exact h.unknown false

theorem Sane.readNext (h : r.Sane) : Reads r r.androidLogReadNext := by
  rw [androidLogReadNext, androidLogReadNextInternal]
  by_cases hend : r.listNestDepth > maxListNestDepth ∨ maxEventPayload / 2 ≤ r.count r.listNestDepth
  · rw [if_pos hend]
    refine ⟨h, rfl, rfl, Or.inl rfl, r.inside_of_ne (fun bytes hd => ?_)⟩
    split_ifs at hd
  · rw [if_neg hend]
    rw [not_or] at hend
    split_ifs with hs hpos
    · exact h.stop
    · exact h.unknown true
    · exact h.readElement (le_of_not_gt hend.1) (by omega)

section CountArray

/-- Memory in which the cells of the array `count` are those of `f` and the ones behind it those of `g`. -/
def overlay (f g : ℕ → ℕ) : ℕ → ℕ := fun i => if i ≤ maxListNestDepth then f i else g i

theorem overlay_of_le (h : i ≤ maxListNestDepth) (f g : ℕ → ℕ) : overlay f g i = f i := if_pos h

theorem update_overlay (h : i ≤ maxListNestDepth) (f g : ℕ → ℕ) (n : ℕ) :
    update (overlay f g) i n = overlay (update f i n) g := by
  funext j
  by_cases hj : j = i
  · subst hj
    rw [update_self, overlay_of_le h, update_self]
  · rw [update_of_ne hj]
    by_cases hle : j ≤ maxListNestDepth
    · rw [overlay_of_le hle, overlay_of_le hle, update_of_ne hj]
    · rw [overlay, overlay, if_neg hle, if_neg hle]

def extend (r : Reader) (g : ℕ → ℕ) : Reader := { r with count := overlay r.count g }

variable {g : ℕ → ℕ}

def Within (g : ℕ → ℕ) (p q : Element × Reader) : Prop := q = (p.1, p.2.extend g)

theorem within_tangible (hd : r.listNestDepth ≤ maxListNestDepth) (data : Data) (pos : ℕ) :
    Within g (r.tangible data pos false) ((r.extend g).tangible data pos false) := by
  have hz := overlay_of_le (zero_le _) r.count g
  have hde := overlay_of_le hd r.count g
  simp only [Within, tangible, extend, hz, hde, update_overlay hd, Bool.false_eq_true, if_false]

theorem within_refl (e : Element) (r : Reader) : Within g (e, r) (e, r.extend g) := rfl

section

variable (hd : r.listNestDepth ≤ maxListNestDepth)
include hd

theorem within_readFixed (k : ℕ) (data : Data) :
    Within g (r.readFixed k data false) ((r.extend g).readFixed k data false) := by
  rw [readFixed]
  change Within g _ (if r.pos + (1 + k) > r.len then _ else (r.extend g).tangible data (r.pos + (1 + k)) false)
  split_ifs
  · exact within_refl _ r
  · exact within_tangible hd data _

theorem within_readString : Within g (r.readString false) ((r.extend g).readString false) := by
  have hpos : (r.extend g).pos = r.pos := rfl
  have hlen : (r.extend g).len = r.len := rfl
  have hw : (r.extend g).word 4 = r.word 4 := rfl
  simp only [readString, hpos, hlen, hw]
  split_ifs
  · exact within_refl _ r
  · exact within_refl _ r
  · exact within_refl _ r
  all_goals exact within_tangible hd _ _

theorem within_readList : Within g (r.readList false) ((r.extend g).readList false) := by
  have hdp := overlay_of_le hd r.count g
  rw [readList, readList]
  change Within g _ (if r.pos + 2 > r.len then _ else _)
  by_cases hf : r.pos + 2 > r.len
  · rw [if_pos hf, if_pos hf]
    exact within_refl _ r
  · rw [if_neg hf, if_neg hf]
    simp only [Within, extend, hdp, update_overlay hd]
    by_cases hde : r.listNestDepth + 1 ≤ maxListNestDepth
    · simp only [if_pos hde, update_overlay hde]
      rfl
    · simp only [if_neg hde]
      rfl

end

theorem within_readListStop : Within g (r.readListStop false) ((r.extend g).readListStop false) := by
  by_cases hd : r.listNestDepth > 0
  all_goals simp [Within, readListStop, extend, hd]

theorem within_stop (hd : r.listNestDepth ≤ maxListNestDepth) : Within g (r.stop false) ((r.extend g).stop false) := by
  have hze := overlay_of_le (zero_le _) r.count g
  have hone := overlay_of_le (show 1 ≤ maxListNestDepth by decide) r.count g
  have hp := overlay_of_le ((sub_le _ 1).trans hd) r.count g
  by_cases hz : r.listNestDepth = 0
  · by_cases hs : r.storage r.pos = eventTypeListStop
    · simp [Within, extend, hze, hz, hs]
    · simp [Within, extend, hze, hone, hz, hs]
  · by_cases hs : r.storage r.pos = eventTypeListStop
    all_goals simp [Within, extend, hze, hone, hp, hz, hs]

theorem within_readNext (r : Reader) (g : ℕ → ℕ) : Within g r.androidLogReadNext (r.extend g).androidLogReadNext := by
  have hde : (r.extend g).listNestDepth = r.listNestDepth := rfl
  have hst : (r.extend g).listStop = r.listStop := rfl
  by_cases hd : r.listNestDepth ≤ maxListNestDepth
  · have hc : (r.extend g).count r.listNestDepth = r.count r.listNestDepth := overlay_of_le hd r.count g
    have hpos : (r.extend g).pos = r.pos := rfl
    have hlen : (r.extend g).len = r.len := rfl
    have hs : (r.extend g).storage = r.storage := rfl
    have hw : ∀ k, (r.extend g).word k = r.word k := fun k => rfl
    simp only [androidLogReadNext, androidLogReadNextInternal, hde, hst, hc, hpos, hlen]
    by_cases hend : r.listNestDepth > maxListNestDepth ∨ maxEventPayload / 2 ≤ r.count r.listNestDepth
    · rw [if_pos hend, if_pos hend]
      exact within_refl _ r
    · split_ifs
      · exact within_stop hd
      · exact within_refl _ r
      · simp only [readElement, hs, hpos, hw]
        split_ifs
        · exact within_readFixed hd _ _
        · exact within_readFixed hd _ _
        · exact within_readFixed hd _ _
        · exact within_readString hd
        · exact within_readList hd
        · exact within_readListStop
        · exact within_refl _ r
  · have hdee : r.listNestDepth > maxListNestDepth := Nat.lt_of_not_le hd
    simp only [androidLogReadNext, androidLogReadNextInternal, hde, hst, hdee, hd, true_or, if_true, false_and,
      or_false]
    exact within_refl _ r

end CountArray

def afterReads (msg : List UInt8) (k : ℕ) : Reader := (fun r : Reader => r.androidLogReadNext.2)^[k] (createAndroidLogParser msg)

theorem afterReads_succ (k : ℕ) :
    afterReads msg (k + 1) = (afterReads msg k).androidLogReadNext.2 := iterate_succ_apply' _ k _

theorem sane_create : (createAndroidLogParser msg).Sane where
  pos_le := zero_le _
  depth_le := zero_le _
  count_zero := rfl
  zeros := by
    intro i hi
    change store (fun _ => 0) 0 (msg.take maxEventPayload) i = 0
    rw [store_of_le]
    rw [zero_add, length_take, min_comm]
    exact hi

theorem sane_afterReads (k : ℕ) :
    (afterReads msg k).Sane ∧ (afterReads msg k).storage = (createAndroidLogParser msg).storage ∧
      (afterReads msg k).len = (createAndroidLogParser msg).len := by
  induction k with
  | zero => exact ⟨sane_create msg, rfl, rfl⟩
  | succ k ih =>
    obtain ⟨hsa, hs, hlen⟩ := ih
    have hr := hsa.readNext
    rw [afterReads_succ]
    exact ⟨hr.sane, hr.storage.trans hs, hr.len.trans hlen⟩

def Done (e : Element) : Prop := e.complete ∨ e.data = .unknown

theorem exists_done_of_measure (n k : ℕ) (h : (afterReads msg k).measure ≤ n) :
    ∃ j, j ≤ n ∧ Done (afterReads msg (k + j)).androidLogReadNext.1 := by
  induction n generalizing k with
  | zero =>
    refine ⟨0, le_refl 0, ?_⟩
    rcases (sane_afterReads msg k).1.readNext.progress with hc | hu | hm
    · exact Or.inl hc
    · exact Or.inr hu
    · omega
  | succ n ih =>
    rcases (sane_afterReads msg k).1.readNext.progress with hc | hu | hm
    · exact ⟨0, zero_le _, Or.inl hc⟩
    · exact ⟨0, zero_le _, Or.inr hu⟩
    · rw [← afterReads_succ] at hm
      obtain ⟨j, hj, hdo⟩ := ih (k + 1) (by omega)
      exact ⟨j + 1, succ_le_succ hj, by rwa [add_right_comm] at hdo⟩

theorem load_create {msg : List UInt8} {p n : ℕ} (h : p + n ≤ (createAndroidLogParser msg).len) :
    p + n ≤ msg.length ∧ load (createAndroidLogParser msg).storage p n = (msg.drop p).take n := by
  have hlen : p + n ≤ min msg.length maxEventPayload := h
  refine ⟨by omega, ?_⟩
  apply ext_getElem
  · rw [length_load, length_take, length_drop]
    omega
  · intro i hi _
    rw [length_load] at hi
    have hin : p + i < (msg.take maxEventPayload).length := by
      rw [length_take]
      omega
    have hc := store_inside (m := fun _ => (0 : UInt8)) (p := 0) hin
    rw [zero_add] at hc
    simp only [load, getElem_map, getElem_range, getElem_take, getElem_drop]
    exact hc.trans getElem_take

/-- Reading a message ends after at most twice as many reads as it has bytes. The position and every string read
are inside the message, the depth only indexes `count`, and a peek gives the next element and changes nothing.
-/
theorem parser_sound (msg : List UInt8) :
    (∃ n, n ≤ 2 * msg.length ∧ Done (afterReads msg n).androidLogReadNext.1) ∧
      ∀ k, (afterReads msg k).pos ≤ msg.length ∧ (afterReads msg k).pos ≤ (afterReads msg k).len ∧
        (∀ bytes, (afterReads msg k).androidLogReadNext.1.data = .string bytes →
          ∃ p, p + bytes.length ≤ msg.length ∧ bytes = (msg.drop p).take bytes.length) ∧
        (∀ g, Within g (afterReads msg k).androidLogReadNext ((afterReads msg k).extend g).androidLogReadNext) ∧
        (afterReads msg k).androidLogReadNextInternal true = ((afterReads msg k).androidLogReadNext.1, afterReads msg k) := by
  constructor
  · have hm : (afterReads msg 0).measure ≤ 2 * msg.length := by
      change 2 * (min msg.length maxEventPayload - 0) + 0 ≤ _
      omega
    obtain ⟨n, hn, hdo⟩ := exists_done_of_measure msg (2 * msg.length) 0 hm
    rw [zero_add] at hdo
    exact ⟨n, hn, hdo⟩
  · intro k
    obtain ⟨hsa, hs, hlen⟩ := sane_afterReads msg k
    have hpos := hsa.pos_le
    have hmsg : (afterReads msg k).len ≤ msg.length := by
      rw [hlen]
      exact min_le_left _ _
    refine ⟨hpos.trans hmsg, hpos, ?_, ?_, readNextInternal_peek _⟩
    · intro bytes hb
      obtain ⟨p, hp, hl⟩ := hsa.readNext.inside bytes hb
      rw [hlen] at hp
      rw [hs] at hl
      obtain ⟨hin, heq⟩ := load_create hp
      exact ⟨p, hin, hl.trans heq⟩
    · intro g
      exact within_readNext _ g

end Reader

end Bionic.EventList
