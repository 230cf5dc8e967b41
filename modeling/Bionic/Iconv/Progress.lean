import Bionic.Iconv.Converter
import Bionic.Wchar.Inverse

namespace Bionic.Iconv

open Wchar Nat List State

variable {cv : Converter} {input : List UInt8} {s s' : State} {fuel : ℕ}

structure Within (input : List UInt8) (s : State) : Prop where
  size : input.length < UInt64.size
  bounds : s.srcPos.toNat + s.srcBytesLeft.toNat = input.length

def State.rest (input : List UInt8) (s : State) : List UInt8 := input.drop s.srcPos.toNat

section

variable (h : Within input s)
include h

theorem Within.length_rest : (s.rest input).length = s.srcBytesLeft.toNat := by
  have hb := h.bounds
  rw [rest, length_drop]
  omega

theorem Within.read_eq {n : ℕ} (hn : n ≤ s.srcBytesLeft.toNat) :
    read input s.srcPos.toNat n = some ((s.rest input).take n) := by
  have hb := h.bounds
  exact if_pos (by omega)

theorem Within.read_left : read input s.srcPos.toNat s.srcBytesLeft.toNat = some (s.rest input) := by
  rw [h.read_eq (le_refl _), take_of_length_le h.length_rest.le]

theorem Within.exists_cons (hl : 0 < s.srcBytesLeft.toNat) : ∃ b bs, s.rest input = b :: bs := by
  apply exists_cons_of_length_pos
  rwa [h.length_rest]

theorem Within.advance (hu : s.srcBytesUsed.toNat ≤ s.srcBytesLeft.toNat) :
    Within input s.advance ∧ s.advance.srcBytesLeft.toNat = s.srcBytesLeft.toNat - s.srcBytesUsed.toNat ∧
      s.advance.rest input = (s.rest input).drop s.srcBytesUsed.toNat := by
  have hb := h.bounds
  have hs := h.size
  have hl : s.advance.srcBytesLeft.toNat = s.srcBytesLeft.toNat - s.srcBytesUsed.toNat :=
    UInt64.toNat_sub_of_le _ _ (UInt64.le_iff_toNat_le.mpr hu)
  have hpos : s.advance.srcPos.toNat = s.srcPos.toNat + s.srcBytesUsed.toNat := by
    refine (UInt64.toNat_add _ _).trans (mod_eq_of_lt ?_)
    rw [UInt64.size] at hs
    omega
  refine ⟨⟨hs, by omega⟩, hl, ?_⟩
  rw [rest, hpos, rest, drop_drop]

theorem Within.skip (hu : s.srcBytesUsed.toNat ≤ s.srcBytesLeft.toNat) :
    Within input s.skip ∧ s.skip.srcBytesLeft.toNat = s.srcBytesLeft.toNat - s.srcBytesUsed.toNat ∧
      s.skip.rest input = (s.rest input).drop s.srcBytesUsed.toNat := by
  obtain ⟨hw, hl, hr⟩ := h.advance hu
  exact ⟨⟨hw.size, hw.bounds⟩, hl, hr⟩

end

section GetChar

def Got.Fits (left : ℕ) : Got → Prop
  | .char _ used ps => ps = .init ∧ 0 < used.toNat ∧ used.toNat ≤ left
  | .fail _ _ => True
  | .illegal _ _ => False
  | .fault => False

section

variable (h : Within input s) {bs : List UInt8} {b : UInt8}
include h

theorem getUtf16_fits (hps : s.ps = .init) (swap : Bool) : (getUtf16 input s swap).Fits s.srcBytesLeft.toNat := by
  rw [getUtf16]
  split
  · trivial
  rename_i htwo
  rw [UInt64.lt_iff_toNat_lt, not_lt] at htwo
  have htwo : 2 ≤ s.srcBytesLeft.toNat := htwo
  rw [h.read_eq htwo]
  dsimp only
  split
  · split
    · trivial
    split
    · trivial
    rename_i hf
    rw [UInt64.lt_iff_toNat_lt, not_lt] at hf
    have hf : 4 ≤ s.srcBytesLeft.toNat := hf
    have hb := h.bounds
    rw [read, if_pos (by omega)]
    exact ⟨hps, by decide, hf⟩
  · exact ⟨hps, by decide, htwo⟩

theorem getUtf32_fits (hps : s.ps = .init) (swap : Bool) : (getUtf32 input s swap).Fits s.srcBytesLeft.toNat := by
  rw [getUtf32]
  split
  · trivial
  rename_i hf
  rw [UInt64.lt_iff_toNat_lt, not_lt] at hf
  have hf : 4 ≤ s.srcBytesLeft.toNat := hf
  rw [h.read_eq hf]
  exact ⟨hps, by decide, hf⟩

theorem getAscii_eq (hr : s.rest input = b :: bs) :
    getAscii input s = if b > 0x7f then .illegal 1 s.ps else .char b.toNat 1 s.ps := by
  have hl := h.length_rest
  rw [hr, length_cons] at hl
  rw [getAscii, h.read_eq (by omega), hr]
  rfl

theorem getUtf8_eq (hps : s.ps = .init) :
    getUtf8 input s = .ofResult s.wc (mbrtoc32 true (some (s.rest input)) .init) := by
  rw [getUtf8, h.read_left, hps]

theorem getUtf8_fits (hps : s.ps = .init) (hr : s.rest input = b :: bs) (hb : b ≠ 0)
    (hl : (mbrtoc32 true (some (s.rest input)) .init).ret ≠ .illegal .eilseq) :
    (getUtf8 input s).Fits s.srcBytesLeft.toNat := by
  have hln := h.length_rest
  rw [getUtf8_eq h hps]
  rw [hr] at hl hln ⊢
  rcases mbrtoc32_cases b bs with ⟨hz, -⟩ | ⟨c, cs, rest, rfl, he, -, heq⟩ | heq | ⟨st, heq⟩
  · exact absurd hz hb
  · have hle := he.length_le
    have hc : (UInt64.ofNat (cs.length + 1)).toNat = cs.length + 1 :=
      UInt64.toNat_ofNat_of_lt' (by rw [UInt64.size]; omega)
    rw [heq]
    refine ⟨rfl, ?_, ?_⟩
    · omega
    · rw [hc]
      simp only [length_cons, length_append] at hln
      omega
  · rw [heq] at hl
    exact absurd rfl hl
  · rw [heq]
    trivial

end

end GetChar

/-- What the next turn must find: from UTF-8 no null character and, unless the mode is ERROR, nothing malformed;
from ASCII in the mode IGNORE some ASCII byte. -/
def Sound (cv : Converter) (rest : List UInt8) : Prop :=
  match cv.srcEncoding with
  | .utf8 => rest.head? ≠ some 0 ∧ (cv.mode = .error ∨ (mbrtoc32 true (some rest) .init).ret ≠ .illegal .eilseq)
  | .usAscii => cv.mode = .ignore → ∃ b ∈ rest, b ≤ 0x7f
  | _ => True

inductive Ends (input : List UInt8) (good : State → Prop) (short : Prop) : Outcome → Prop
  | go (s' : State) (h : Within input s') (hgood : good s') : Ends input good short (.go s')
  | fail (errno : Errno) (s' : State) (h : Within input s') : Ends input good short (.fail errno s')
  | fuel (h : short) : Ends input good short .fuel

/-- The character in hand comes from bytes at `*src_buf`, of which there are not more than before. -/
structure InHand (left : ℕ) (s : State) : Prop where
  ps : s.ps = .init
  used_pos : 0 < s.srcBytesUsed.toNat
  used_le : s.srcBytesUsed.toNat ≤ s.srcBytesLeft.toNat
  left_le : s.srcBytesLeft.toNat ≤ left

/-- Where the source encoding never sees `EILSEQ`, or the mode makes it an error, one reading is enough. -/
theorem getNext_of_fits (h : Within input s) (hf : (getChar cv.srcEncoding input s).Fits s.srcBytesLeft.toNat) :
    Ends input (InHand s.srcBytesLeft.toNat) False (getNext cv input (fuel + 1) s) := by
  simp only [getNext]
  cases hc : getChar cv.srcEncoding input s with
  | char wc used ps =>
    rw [hc] at hf
    exact .go _ ⟨h.size, h.bounds⟩ ⟨hf.1, hf.2.1, hf.2.2, le_refl _⟩
  | fail errno ps => exact .fail _ _ ⟨h.size, h.bounds⟩
  | illegal used ps | fault =>
    rw [hc] at hf
    exact hf.elim

variable {good : State → Prop} {short : Prop} {left : ℕ} {o : Outcome} (dst : Encoding) (c : ℕ)

theorem getNext_illegal_error {used : UInt64} {ps : MbState} (h : Within input s)
    (hc : getChar cv.srcEncoding input s = .illegal used ps) (hm : cv.mode = .error) :
    Ends input good short (getNext cv input (fuel + 1) s) := by
  simp only [getNext, hc, hm]
  exact .fail _ _ ⟨h.size, h.bounds⟩

theorem Ends.mono {good' : State → Prop} {short' : Prop} (h : Ends input good short o)
    (hgo : ∀ s, good s → good' s) (hs : short → short') : Ends input good' short' o := by
  cases h with
  | go s' h hg => exact .go s' h (hgo s' hg)
  | fail errno s' h => exact .fail errno s' h
  | fuel h => exact .fuel (hs h)

theorem Ends.cases (h : Ends input good short o) (hs : ¬short) :
    (∃ s', o = .go s' ∧ Within input s' ∧ good s') ∨ ∃ errno s', o = .fail errno s' ∧ Within input s' := by
  cases h with
  | go s' h hg => exact .inl ⟨s', rfl, h, hg⟩
  | fail errno s' h => exact .inr ⟨errno, s', rfl, h⟩
  | fuel h => exact absurd h hs

/-- Bytes that are not ASCII are passed over one by one, up to one that is. -/
theorem getNext_ascii (hsrc : cv.srcEncoding = .usAscii) (h : Within input s) (hps : s.ps = .init)
    (hl : 0 < s.srcBytesLeft.toNat) (hso : Sound cv (s.rest input)) :
    Ends input (InHand s.srcBytesLeft.toNat) (fuel ≤ s.srcBytesLeft.toNat) (getNext cv input fuel s) := by
  induction fuel generalizing s with
  | zero => exact .fuel (zero_le _)
  | succ fuel ih =>
    obtain ⟨b, bs, hr⟩ := h.exists_cons hl
    have hc := getAscii_eq h hr
    by_cases hb : b > 0x7f
    · rw [if_pos hb] at hc
      have hget : getChar cv.srcEncoding input s = .illegal 1 s.ps := by rw [hsrc]; exact hc
      cases hm : cv.mode with
      | error => exact getNext_illegal_error h hget hm
      | translit =>
        simp only [getNext, hget, hm]
        exact .go _ ⟨h.size, h.bounds⟩ ⟨hps, zero_lt_one, hl, le_refl _⟩
      | ignore =>
        simp only [getNext, hget, hm]
        set skipped := skip { s with srcBytesUsed := 1 }
        obtain ⟨hw, hls, hd⟩ : Within input skipped ∧ skipped.srcBytesLeft.toNat = s.srcBytesLeft.toNat - 1 ∧
            skipped.rest input = (s.rest input).drop 1 :=
          Within.skip (s := { s with srcBytesUsed := 1 }) ⟨h.size, h.bounds⟩ hl
        rw [hr, drop_one] at hd
        -- The byte that is ASCII is behind this one, so there is a byte behind this one.
        have hbe : ∃ a ∈ bs, a ≤ 0x7f := by
          simp only [Sound, hsrc, hr] at hso
          obtain ⟨a, ha, hle⟩ := hso hm
          rcases mem_cons.mp ha with rfl | ha
          · exact absurd hb (UInt8.not_lt.mpr hle)
          · exact ⟨a, ha, hle⟩
        have hmo : 0 < skipped.srcBytesLeft.toNat := by
          rw [← hw.length_rest, hd]
          obtain ⟨a, ha, -⟩ := hbe
          exact length_pos_of_mem ha
        have hso' : Sound cv (skipped.rest input) := by
          simp only [Sound, hsrc, hd]
          exact fun _ => hbe
        refine (ih hw hps hmo hso').mono (fun s' hs' => ⟨hs'.ps, hs'.used_pos, hs'.used_le, ?_⟩) fun hs => ?_
        · exact hs'.left_le.trans (by omega)
        · omega
    · rw [if_neg hb] at hc
      refine (getNext_of_fits h ?_).mono (fun _ => id) False.elim
      rw [hsrc]
      show (getAscii input s).Fits _
      rw [hc]
      exact ⟨hps, by decide, hl⟩

theorem getNext_utf8 (hsrc : cv.srcEncoding = .utf8) (h : Within input s) (hps : s.ps = .init)
    (hle : 0 < s.srcBytesLeft.toNat) (hs : Sound cv (s.rest input)) :
    Ends input (InHand s.srcBytesLeft.toNat) False (getNext cv input (fuel + 1) s) := by
  simp only [Sound, hsrc] at hs
  obtain ⟨b, bs, hr⟩ := h.exists_cons hle
  have hb : b ≠ 0 := by
    rintro rfl
    exact hs.1 (by rw [hr]; rfl)
  by_cases hl : (mbrtoc32 true (some (s.rest input)) .init).ret = .illegal .eilseq
  · have hm : cv.mode = .error := hs.2.resolve_right (not_not_intro hl)
    have hc : getChar cv.srcEncoding input s =
        .illegal (-1) (mbrtoc32 true (some (s.rest input)) .init).state := by
      rw [hsrc]
      show getUtf8 input s = _
      rw [getUtf8_eq h hps, Got.ofResult, hl]
    exact getNext_illegal_error h hc hm
  · apply getNext_of_fits h
    rw [hsrc]
    exact getUtf8_fits h hps hr hb hl

theorem getNext_ends (fuel : ℕ) (h : Within input s) (hps : s.ps = .init) (hl : 0 < s.srcBytesLeft.toNat)
    (hs : Sound cv (s.rest input)) :
    Ends input (InHand s.srcBytesLeft.toNat) (fuel ≤ s.srcBytesLeft.toNat) (getNext cv input fuel s) := by
  cases fuel with
  | zero => exact .fuel (zero_le _)
  | succ fuel =>
    cases hsrc : cv.srcEncoding with
    | usAscii => exact getNext_ascii hsrc h hps hl hs
    | utf8 => exact (getNext_utf8 hsrc h hps hl hs).mono (fun _ => id) False.elim
    | utf16le | utf16be | utf32le | utf32be | wcharT =>
      refine (getNext_of_fits h ?_).mono (fun _ => id) False.elim
      rw [hsrc]
      first | exact getUtf16_fits h hps _ | exact getUtf32_fits h hps _

section Convert

theorem c32rtomb_state : (c32rtomb true c .init).state = .init := by
  rw [c32rtomb]
  split_ifs <;> rfl

theorem putChar_state : (putChar dst c .init).2 = .init := by
  cases dst with
  | utf8 =>
    simp only [putChar]
    split <;> exact c32rtomb_state c
  | _ => rfl

theorem putChar_substitute : ∃ buf, (putChar dst 0x3f .init).1 = some buf := by
  cases dst <;> exact ⟨_, rfl⟩

structure Shrunk (left : ℕ) (s : State) : Prop where
  ps : s.ps = .init
  lt : s.srcBytesLeft.toNat < left

theorem emit_ends (h : Within input s) (hh : InHand left s) (buf : List UInt8) :
    Ends input (Shrunk left) False (s.emit buf) := by
  rw [emit]
  split
  · exact .fail _ _ h
  · obtain ⟨hw, hl, -⟩ := h.advance hh.used_le
    have hpos := hh.used_pos
    have hle := hh.left_le
    have hu := hh.used_le
    refine .go _ ⟨hw.size, hw.bounds⟩ ⟨hh.ps, ?_⟩
    show s.advance.srcBytesLeft.toNat < left
    omega

theorem skip_ends (h : Within input s) (hh : InHand left s) : Ends input (Shrunk left) False (.go s.skip) := by
  obtain ⟨hw, hl, -⟩ := h.skip hh.used_le
  have hpos := hh.used_pos
  have hle := hh.left_le
  have hu := hh.used_le
  exact .go _ hw ⟨hh.ps, by omega⟩

theorem convert_ends (h : Within input s) (hh : InHand left s) :
    Ends input (Shrunk left) (fuel < 2) (convert cv fuel s) := by
  cases fuel with
  | zero => exact .fuel (by decide)
  | succ fuel =>
    have hs := putChar_state cv.dstEncoding s.wc
    simp only [convert, hh.ps, hs]
    have hi : { s with ps := .init } = s := by rw [← hh.ps]
    rw [hi]
    split
    · exact (emit_ends h hh _).mono (fun _ => id) False.elim
    · split
      · exact (skip_ends h hh).mono (fun _ => id) False.elim
      · cases fuel with
        | zero => exact .fuel (by decide)
        | succ fuel =>
          have hs := putChar_state cv.dstEncoding 0x3f
          obtain ⟨buf, hbuf⟩ := putChar_substitute cv.dstEncoding
          have hps : s.substitute.ps = .init := hh.ps
          have hwc : s.substitute.wc = 0x3f := rfl
          simp only [convert, hps, hwc, hs, hbuf]
          refine (emit_ends (s := { s.substitute with ps := .init }) ⟨h.size, h.bounds⟩ ?_ buf).mono
            (fun _ => id) False.elim
          exact ⟨rfl, hh.used_pos, hh.used_le, hh.left_le⟩
      · exact .fail _ _ h

end Convert

theorem turn_ends (fuel : ℕ) (h : Within input s) (hps : s.ps = .init) (hl : 0 < s.srcBytesLeft.toNat)
    (hso : Sound cv (s.rest input)) :
    Ends input (Shrunk s.srcBytesLeft.toNat) (fuel ≤ s.srcBytesLeft.toNat) (turn cv input fuel s) := by
  rw [turn]
  have hn := getNext_ends fuel h hps hl hso
  cases hgot : getNext cv input fuel s with
  | go s' =>
    rw [hgot] at hn
    cases hn with
    | go _ hw hh => exact (convert_ends hw hh).mono (fun _ => id) fun hs => by omega
  | fail errno s' =>
    rw [hgot] at hn
    cases hn with
    | fail _ _ hw => exact .fail _ _ hw
  | fault =>
    rw [hgot] at hn
    cases hn
  | fuel =>
    rw [hgot] at hn
    cases hn with
    | fuel hs => exact .fuel hs

def Turns (cv : Converter) (input : List UInt8) (s s' : State) : Prop :=
  s.srcBytesLeft ≠ 0 ∧ ∃ fuel, turn cv input fuel s = .go s'

theorem pos_of_ne_zero (h : s.srcBytesLeft ≠ 0) : 0 < s.srcBytesLeft.toNat :=
  Nat.pos_of_ne_zero fun hz => h (UInt64.toNat_inj.mp hz)

theorem Turns.within (ht : Turns cv input s s') (h : Within input s) (hps : s.ps = .init)
    (hso : Sound cv (s.rest input)) : Within input s' ∧ Shrunk s.srcBytesLeft.toNat s' := by
  obtain ⟨hl, fuel, hgo⟩ := ht
  have he := turn_ends fuel h hps (pos_of_ne_zero hl) hso
  rw [hgo] at he
  cases he with
  | go _ hw hs => exact ⟨hw, hs⟩

theorem reaches_within (hr : Relation.ReflTransGen (Turns cv input) s s') (h : Within input s) (hps : s.ps = .init)
    (hso : ∀ s', Relation.ReflTransGen (Turns cv input) s s' → s'.srcBytesLeft ≠ 0 → Sound cv (s'.rest input)) :
    Within input s' ∧ s'.ps = .init := by
  induction hr with
  | refl => exact ⟨h, hps⟩
  | tail hr ht ih =>
    obtain ⟨hw, hs⟩ := ht.within ih.1 ih.2 (hso _ hr ht.1)
    exact ⟨hw, hs.ps⟩

theorem loop_ends (fuel : ℕ) (h : Within input s) (hps : s.ps = .init) (hf : s.srcBytesLeft.toNat < fuel)
    (hso : ∀ s', Relation.ReflTransGen (Turns cv input) s s' → s'.srcBytesLeft ≠ 0 → Sound cv (s'.rest input)) :
    Ends input (fun s' => s'.srcBytesLeft = 0) False (loop cv input fuel s) := by
  induction fuel generalizing s with
  | zero => exact absurd hf (not_lt_zero _)
  | succ fuel ih =>
    rw [loop]
    by_cases hl : s.srcBytesLeft = 0
    · rw [hl]
      exact .go s h hl
    have hpos := pos_of_ne_zero hl
    rw [if_pos (UInt64.lt_iff_toNat_lt.mpr (by simpa using hpos))]
    rcases (turn_ends (fuel + 1) h hps hpos (hso s .refl hl)).cases (by omega) with
      ⟨s', ht, hw, hs⟩ | ⟨errno, s', ht, hw⟩
    · have hlt := hs.lt
      rw [ht]
      apply ih hw hs.ps (by omega)
      exact fun s'' hr => hso s'' (.head ⟨hl, _, ht⟩ hr)
    · rw [ht]
      exact .fail _ _ hw

theorem Within.start (hs : input.length < UInt64.size) (dstBytesLeft : UInt64) :
    Within input (.start (.ofNat input.length) dstBytesLeft) := by
  refine ⟨hs, ?_⟩
  show 0 + (UInt64.ofNat input.length).toNat = _
  rw [UInt64.toNat_ofNat_of_lt' hs, zero_add]

/-- While every turn finds what it must find, every turn returns or leaves fewer bytes, no byte outside the
input is read and the call returns. -/
theorem iconv_progress (cv : Converter) (input : List UInt8) (hsize : input.length < UInt64.size) (dstBytesLeft : UInt64)
    (hsound : ∀ s, Relation.ReflTransGen (Turns cv input) (.start (.ofNat input.length) dstBytesLeft) s →
      s.srcBytesLeft ≠ 0 → Sound cv (s.rest input)) :
    (∀ s, Relation.ReflTransGen (Turns cv input) (.start (.ofNat input.length) dstBytesLeft) s → s.srcBytesLeft ≠ 0 →
      ∀ fuel, s.srcBytesLeft.toNat < fuel →
        (∃ s', turn cv input fuel s = .go s' ∧ s'.srcBytesLeft < s.srcBytesLeft ∧
          s'.srcPos.toNat + s'.srcBytesLeft.toNat = input.length) ∨
        ∃ errno s', turn cv input fuel s = .fail errno s' ∧ s'.srcPos.toNat + s'.srcBytesLeft.toNat = input.length) ∧
    ∃ r s', iconv cv input dstBytesLeft (input.length + 1) = some (r, s') ∧
      s'.srcPos.toNat + s'.srcBytesLeft.toNat = input.length := by
  have hs := Within.start hsize dstBytesLeft
  constructor
  · intro s hr hl fuel hf
    obtain ⟨hw, hps⟩ := reaches_within hr hs rfl hsound
    rcases (turn_ends fuel hw hps (pos_of_ne_zero hl) (hsound s hr hl)).cases (by omega) with
      ⟨s', ht, hw', hsh⟩ | ⟨errno, s', ht, hw'⟩
    · exact .inl ⟨s', ht, UInt64.lt_iff_toNat_lt.mpr hsh.lt, hw'.bounds⟩
    · exact .inr ⟨errno, s', ht, hw'.bounds⟩
  · have hl := hs.bounds
    rcases (loop_ends (input.length + 1) hs rfl (by omega) hsound).cases id with
      ⟨s', hlo, hw, -⟩ | ⟨errno, s', hlo, hw⟩
    · exact ⟨done cv s', s', by rw [iconv, hlo], hw.bounds⟩
    · exact ⟨.error errno, s', by rw [iconv, hlo], hw.bounds⟩

def toUtf16 : Converter := ⟨.utf8, .utf16le, .translit⟩

def afterA : State := ⟨0x41, 1, .init, 0, false, 1, 2, [0x41, 0], 6⟩

theorem toUtf16_reaches (hr : Relation.ReflTransGen (Turns toUtf16 [0x41, 0xc3, 0xa9]) (.start 3 8) s) :
    s = .start 3 8 ∨ s = afterA ∨ s.srcBytesLeft = 0 := by
  induction hr with
  | refl => exact .inl rfl
  | tail _ ht ih =>
    obtain ⟨hl, fuel, hgo⟩ := ht
    cases fuel with
    | zero => cases hgo
    | succ fuel =>
      rcases ih with rfl | rfl | hz
      · cases hgo
        exact .inr (.inl rfl)
      · cases hgo
        exact .inr (.inr rfl)
      · exact absurd hz hl

/-- A letter of one byte and one of two bytes. -/
theorem iconv_progress_utf8 :
    ∃ r s', iconv toUtf16 [0x41, 0xc3, 0xa9] 8 4 = some (r, s') ∧ s'.srcPos.toNat + s'.srcBytesLeft.toNat = 3 := by
  refine (iconv_progress toUtf16 [0x41, 0xc3, 0xa9] (by decide) 8 fun s hr hl => ?_).2
  rcases toUtf16_reaches hr with rfl | rfl | hz
  · exact ⟨by decide, .inr (by decide)⟩
  · exact ⟨by decide, .inr (by decide)⟩
  · exact absurd hz hl

/-- A null character is written again and again; a malformed one is answered by a step back; what is ignored at
the end of the input is followed by a reading behind it. -/
theorem turns_without_progress :
    turn ⟨.utf8, .utf8, .error⟩ [0] 5 (.start 1 8) =
        .go { start 1 8 with dst := [0], dstBytesLeft := 7 } ∧
      turn ⟨.utf8, .utf8, .translit⟩ [0xff] 5 (.start 1 8) =
        .go ⟨0x3f, -1, .init, 1, false, -1, 2, [0x3f], 7⟩ ∧
      turn ⟨.utf8, .utf8, .ignore⟩ [0xff] 5 (.start 1 8) = .fault ∧
      turn ⟨.usAscii, .utf8, .ignore⟩ [0x80] 5 (.start 1 8) = .fault :=
  ⟨rfl, rfl, rfl, rfl⟩

end Bionic.Iconv
