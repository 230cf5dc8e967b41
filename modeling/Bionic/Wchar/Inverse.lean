import Bionic.Wchar.Surrogates

namespace Bionic.Wchar

open Lib.Utf8 List

variable {b : UInt8} {q bs bytes : List UInt8} {n v : ℕ} {c : Char}

theorem Lead.outcome_append (h : Lead b n) (p : List UInt8) (wanted : ℕ) (hq : ∀ x ∈ q, IsCont x)
    (hf : p.length + 1 + q.length = n) (rest : List UInt8) : outcome b p (q ++ rest) n wanted = outcome b p q n wanted := by
  have hle := h.le_four
  have hn : n - (p.length + 1) = q.length := by omega
  have ht : (q ++ rest).take q.length = q.take q.length := by simp
  rw [outcome, outcome, hn, fill_of_cont (by omega) (ht ▸ by simpa using hq),
    fill_of_cont (by omega) (by simpa using hq), ht]
  dsimp only
  rw [if_neg (by simp), if_neg (by simp)]

theorem mbrtoc32_nul (q : List UInt8) : mbrtoc32 true (some (0 :: q)) .init = resetAndReturn 0 (some 0) := rfl

theorem mbrtoc32_append (h : Encodes b bs c) (hc : c.toNat ≠ 0) (rest : List UInt8) :
    mbrtoc32 true (some (b :: (bs ++ rest))) .init = resetAndReturn (bs.length + 1) (some c.toNat) := by
  rw [← mbrtoc32_encodes h hc]
  by_cases hbs : bs = []
  · subst hbs
    have hb : b ≠ 0 := by
      rintro rfl
      exact hc (encodes_one.mp h).2.symm
    rw [mbrtoc32_ascii _ h.length hb, mbrtoc32_ascii _ h.length hb]
  · have hl := Lead.of_encodes h hbs
    rw [hl.mbrtoc32_init, hl.mbrtoc32_init]
    exact hl.outcome_append _ _ h.cont (by rw [length_nil]; omega) rest

theorem mbrtoc32_of_not_lead (q : List UInt8) (h : leadLength b = none) :
    mbrtoc32 true (some (b :: q)) .init = resetAndReturnIllegal .eilseq := by
  have ha : ¬b &&& ~~~0x7f = 0 := by
    intro hz
    have hlow := (and_eq_iff 7 1 0 (by decide) (by decide)).mp hz
    have hlt := b.toNat_lt
    have hone := (leadLength_iff (b := b) (n := 1)).mpr (.inl ⟨rfl, by omega⟩)
    rw [h] at hone
    cases hone
  rw [mbrtoc32, if_neg (by decide), Option.getD_some]
  dsimp only
  rw [if_neg fun hf => ha hf.2, if_neg (by decide), leadOf_eq, h]
  rfl

/-- What a call with an initial state can do: store a character whose bytes come first, refuse, or ask for more. -/
theorem mbrtoc32_cases (b : UInt8) (q : List UInt8) :
    (b = 0 ∧ mbrtoc32 true (some (b :: q)) .init = resetAndReturn 0 (some 0)) ∨
    (∃ c bs rest, q = bs ++ rest ∧ Encodes b bs c ∧ c.toNat ≠ 0 ∧
      mbrtoc32 true (some (b :: q)) .init = resetAndReturn (bs.length + 1) (some c.toNat)) ∨
    mbrtoc32 true (some (b :: q)) .init = resetAndReturnIllegal .eilseq ∨
    ∃ st, mbrtoc32 true (some (b :: q)) .init = ⟨.incomplete, none, st⟩ := by
  by_cases hb : b = 0
  · subst hb
    exact .inl ⟨rfl, mbrtoc32_nul q⟩
  right
  cases hle : leadLength b with
  | none => exact .inr (.inl (mbrtoc32_of_not_lead q hle))
  | some n =>
    have hiff := leadLength_iff.mp hle
    by_cases hn : n = 1
    · have hlt : b.toNat < 0x80 := by omega
      have he : Encodes b [] (.ofNatAux b.toNat (.inl (by omega))) := encodes_one.mpr ⟨hlt, rfl⟩
      have hne : (Char.ofNatAux b.toNat (.inl (by omega))).toNat ≠ 0 := fun hz => hb (UInt8.toNat_inj.mp hz)
      exact .inl ⟨_, [], q, rfl, he, hne, mbrtoc32_append he hne q⟩
    have hl : Lead b n := ⟨hle, by omega⟩
    rw [hl.mbrtoc32_init]
    by_cases hco : ∀ x ∈ q.take (n - 1), IsCont x
    · by_cases hs : q.length < n - 1
      · rw [take_of_length_le (by omega)] at hco
        exact .inr (.inr ⟨_, hl.outcome_short (by rw [length_nil]; omega) hco (by rw [length_nil]; omega)⟩)
      · have hlen : (q.take (n - 1)).length = n - 1 := length_take_of_le (by omega)
        have ho := hl.outcome_append [] n hco (by rw [hlen, length_nil]; omega) (q.drop (n - 1))
        rw [take_append_drop] at ho
        rw [ho, hl.outcome_full (by rw [length_nil]; omega) hco (by rw [hlen, length_nil]; omega),
          nil_append]
        split
        · rename_i hok
          obtain ⟨c, hc⟩ := encodes_of_value hl hco (by omega) hok.1 hok.2
          have hpos := hl.lowest_pos
          refine .inl ⟨c, q.take (n - 1), q.drop (n - 1), (take_append_drop _ _).symm, hc, ?_, ?_⟩
          · rw [← hc.value]
            omega
          · rw [hc.value, hlen, Nat.sub_add_cancel (by omega)]
        · exact .inr (.inl rfl)
    · exact .inr (.inl (hl.outcome_of_not_cont (by rw [length_nil]; omega) hco))

section Encoder

variable {v : ℕ}

/-- The bytes that the encoder writes by the bits of the value, whether it is a character or not. -/
theorem c32rtomb_three (hlow : 0x800 ≤ v) (hh : v < 0x10000) :
    c32rtomb true v .init =
      ⟨.count 3, some [.ofNat (v / 4096 % 16 + 224), .ofNat (v / 64 % 64 + 128), .ofNat (v % 64 + 128)], .init⟩ := by
  rw [c32rtomb, if_neg (by decide), if_neg (by omega), if_neg (by decide),
    if_neg (by rw [and_mask _ 7 25 0xffffff80 rfl]; omega), if_neg (by rw [and_mask _ 11 21 0xfffff800 rfl]; omega),
    if_pos (by rw [and_mask _ 16 16 0xffff0000 rfl]; omega), encode_three hh]

theorem c32rtomb_four (hlow : 0x10000 ≤ v) (hh : v < 0x200000) :
    c32rtomb true v .init =
      ⟨.count 4, some [.ofNat (v / 262144 % 8 + 240), .ofNat (v / 4096 % 64 + 128), .ofNat (v / 64 % 64 + 128),
        .ofNat (v % 64 + 128)], .init⟩ := by
  rw [c32rtomb, if_neg (by decide), if_neg (by omega), if_neg (by decide),
    if_neg (by rw [and_mask _ 7 25 0xffffff80 rfl]; omega), if_neg (by rw [and_mask _ 11 21 0xfffff800 rfl]; omega),
    if_neg (by rw [and_mask _ 16 16 0xffff0000 rfl]; omega), if_pos (by rw [and_mask _ 21 11 0xffe00000 rfl]; omega),
    encode_four hh]

theorem c32rtomb_large (hlow : 0x200000 ≤ v) (hh : v < 0x100000000) :
    c32rtomb true v .init = ⟨.illegal .eilseq, none, .init⟩ := by
  rw [c32rtomb, if_neg (by decide), if_neg (by omega), if_neg (by decide),
    if_neg (by rw [and_mask _ 7 25 0xffffff80 rfl]; omega), if_neg (by rw [and_mask _ 11 21 0xfffff800 rfl]; omega),
    if_neg (by rw [and_mask _ 16 16 0xffff0000 rfl]; omega), if_neg (by rw [and_mask _ 21 11 0xffe00000 rfl]; omega)]

end Encoder

/-- Whatever the encoder writes for the value, the decoder makes the value of it, with the count of a null character
being 0. -/
def DecodesBack (v : ℕ) : Prop :=
  ∀ k bytes st, c32rtomb true v .init = ⟨.count k, some bytes, st⟩ →
    mbrtoc32 true (some bytes) .init = ⟨.count (if v = 0 then 0 else k), some v, .init⟩

theorem decodesBack_char (c : Char) : DecodesBack c.toNat := by
  intro k bytes st h
  rw [c32rtomb_eq] at h
  cases h
  obtain ⟨b, bs, hco⟩ := exists_cons_of_ne_nil (String.utf8EncodeChar_ne_nil (c := c))
  have he := eq_utf8EncodeChar_iff.mp hco.symm
  rw [hco]
  by_cases hc : c.toNat = 0
  · have hb : b :: bs = [0] := by
      rw [← hco]
      simp [String.utf8EncodeChar, hc]
    rw [hb, hc]
    rfl
  · rw [mbrtoc32_encodes he hc, if_neg hc]
    rfl

theorem isValidChar_of_stored (h : (mbrtoc32 true (some bytes) .init).stored = some v) : v.isValidChar := by
  cases bytes with
  | nil => cases h
  | cons b q =>
    rcases mbrtoc32_cases b q with ⟨-, heq⟩ | ⟨c, bs, rest, -, -, -, heq⟩ | heq | ⟨st, heq⟩
    · rw [heq] at h
      cases h
      exact .inl (by decide)
    · rw [heq] at h
      cases h
      exact isValidChar_toNat c
    all_goals
      rw [heq] at h
      cases h

theorem decodesBack_iff (hv : v < 0x100000000) :
    DecodesBack v ↔ ¬(0xd800 ≤ v ∧ v ≤ 0xdfff ∨ 0x110000 ≤ v ∧ v ≤ 0x1fffff) := by
  constructor
  · intro h hbad
    obtain ⟨k, bytes, hb⟩ : ∃ k bytes, c32rtomb true v .init = ⟨.count k, some bytes, .init⟩ := by
      by_cases ht : v < 0x10000
      · exact ⟨_, _, c32rtomb_three (by omega) ht⟩
      · exact ⟨_, _, c32rtomb_four (by omega) (by omega)⟩
    have hva : v.isValidChar := isValidChar_of_stored (congrArg Result.stored (h k bytes .init hb))
    omega
  · intro hg
    by_cases hl : 0x200000 ≤ v
    · intro k bytes st h
      rw [c32rtomb_large hl hv] at h
      cases h
    · have hva : v.isValidChar := by
        rw [Nat.isValidChar]
        omega
      exact decodesBack_char (.ofNatAux v hva)

theorem c32rtomb_of_mbrtoc32 {st : MbState} (hn : n ≠ 0)
    (h : mbrtoc32 true (some bytes) .init = ⟨.count n, some v, st⟩) :
    c32rtomb true v .init = ⟨.count n, some (bytes.take n), .init⟩ := by
  cases bytes with
  | nil => cases h
  | cons b q =>
    rcases mbrtoc32_cases b q with ⟨-, heq⟩ | ⟨c, bs, rest, rfl, he, -, heq⟩ | heq | ⟨st, heq⟩
    · rw [heq] at h
      cases h
      exact absurd rfl hn
    · rw [heq] at h
      cases h
      rw [c32rtomb_eq, ← eq_utf8EncodeChar_iff.mpr he]
      simp
    all_goals
      rw [heq] at h
      cases h

/-- The encoder and the decoder are inverse to each other, but for the values that only the encoder takes. -/
theorem utf8_round_trip (v : ℕ) (hv : v < 0x100000000) (bytes : List UInt8) :
    (DecodesBack v ↔ ¬(0xd800 ≤ v ∧ v ≤ 0xdfff ∨ 0x110000 ≤ v ∧ v ≤ 0x1fffff)) ∧
    ∀ n w st, n ≠ 0 → mbrtoc32 true (some bytes) .init = ⟨.count n, some w, st⟩ →
      c32rtomb true w .init = ⟨.count n, some (bytes.take n), .init⟩ :=
  ⟨decodesBack_iff hv, fun _ _ _ hn h => c32rtomb_of_mbrtoc32 hn h⟩

theorem utf8_round_trip_euro :
    DecodesBack 0x20ac ∧ c32rtomb true 0x20ac .init = ⟨.count 3, some [0xe2, 0x82, 0xac], .init⟩ := by
  have h := utf8_round_trip 0x20ac (by decide) [0xe2, 0x82, 0xac, 0x41]
  exact ⟨h.1.mpr (by decide), h.2 3 0x20ac .init (by decide) rfl⟩

theorem surrogate_not_decoded :
    c32rtomb true 0xd800 .init = ⟨.count 3, some [0xed, 0xa0, 0x80], .init⟩ ∧
    mbrtoc32 true (some [0xed, 0xa0, 0x80]) .init = ⟨.illegal .eilseq, none, .init⟩ :=
  ⟨rfl, rfl⟩

end Bionic.Wchar
