import Bionic.Wchar.Pieces

namespace Bionic.Wchar

open Lib Lib.Utf8 List Nat UInt8

variable (c : Char)

def units : List ℕ :=
  if c.toNat < 0x10000 then [c.toNat]
  else [0xd800 + (c.toNat - 0x10000) / 0x400, 0xdc00 + (c.toNat - 0x10000) % 0x400]

def feedUnits : MbState → List ℕ → List (Ret × Option (List UInt8)) × MbState
  | state, [] => ([], state)
  | state, u :: us =>
    let r := c16rtomb true u state
    let rest := feedUnits r.state us
    ((r.ret, r.stored) :: rest.1, rest.2)

def feed16 : MbState → List (List UInt8) → List (Ret × Option ℕ) × MbState
  | state, [] => ([], state)
  | state, piece :: pieces =>
    let r := mbrtoc16 (some piece) state
    let rest := feed16 r.state pieces
    ((r.ret, r.stored) :: rest.1, rest.2)

section Encode

theorem and_mask (x shift len m : ℕ) (hm : fieldMask shift len = m) :
    x &&& m = x / 2 ^ shift % 2 ^ len * 2 ^ shift := hm ▸ and_fieldMask x shift len

theorem contByte_eq (x : ℕ) : x &&& 0x3f ||| 0x80 = x % 64 + 128 := by
  have hlow : x &&& 0x3f = x % 64 := Nat.and_two_pow_sub_one_eq_mod x 6
  have hlt := Nat.mod_lt x (show 0 < 64 by decide)
  rw [hlow, Nat.or_comm, or_low (s := 6) hlt rfl, Nat.add_comm]

theorem leadByte_eq {x : ℕ} (lead s : ℕ) (hs : s ≤ 8) (hx : x < 2 ^ s) (hl : lead % 2 ^ s = 0) :
    x &&& 0xff ||| lead = x + lead := by
  have hlow : x &&& 0xff = x := by
    refine (Nat.and_two_pow_sub_one_eq_mod x 8).trans (Nat.mod_eq_of_lt (Nat.lt_of_lt_of_le hx ?_))
    exact Nat.pow_le_pow_right (by decide) hs
  rw [hlow, Nat.or_comm, or_low hx hl, Nat.add_comm]

theorem encode_two {c : ℕ} (h : c < 0x800) :
    encode 0xc0 1 c = [.ofNat (c / 64 % 32 + 192), .ofNat (c % 64 + 128)] := by
  rw [encode, encode, contByte_eq, shiftRight_eq_div_pow, leadByte_eq 0xc0 5 (by decide) (by omega) rfl,
    mod_eq_of_lt (show c / 64 < 32 by omega)]
  rfl

theorem encode_three {c : ℕ} (h : c < 0x10000) :
    encode 0xe0 2 c = [.ofNat (c / 4096 % 16 + 224), .ofNat (c / 64 % 64 + 128), .ofNat (c % 64 + 128)] := by
  have hdiv : c / 2 ^ 6 / 2 ^ 6 = c / 4096 := by omega
  rw [encode, encode, encode, contByte_eq, contByte_eq, shiftRight_eq_div_pow, shiftRight_eq_div_pow, hdiv,
    leadByte_eq 0xe0 4 (by decide) (by omega) rfl, mod_eq_of_lt (show c / 4096 < 16 by omega)]
  rfl

theorem encode_four {c : ℕ} (h : c < 0x200000) :
    encode 0xf0 3 c =
      [.ofNat (c / 262144 % 8 + 240), .ofNat (c / 4096 % 64 + 128), .ofNat (c / 64 % 64 + 128), .ofNat (c % 64 + 128)] := by
  have hdiv : c / 2 ^ 6 / 2 ^ 6 = c / 4096 := by omega
  have hdiv' : c / 4096 / 2 ^ 6 = c / 262144 := by omega
  rw [encode, encode, encode, encode, contByte_eq, contByte_eq, contByte_eq, shiftRight_eq_div_pow,
    shiftRight_eq_div_pow, shiftRight_eq_div_pow, hdiv, hdiv', leadByte_eq 0xf0 3 (by decide) (by omega) rfl,
    mod_eq_of_lt (show c / 262144 < 8 by omega)]
  rfl

theorem c32rtomb_eq (c : Char) :
    c32rtomb true c.toNat .init = ⟨.count (String.utf8EncodeChar c).length, some (String.utf8EncodeChar c), .init⟩ := by
  have hc := toNat_lt c
  have hone : c.toNat &&& 0xffffff80 = 0 ↔ c.toNat ≤ 0x7f := by
    rw [and_mask _ 7 25 0xffffff80 rfl]
    omega
  have htwo : c.toNat &&& 0xfffff800 = 0 ↔ c.toNat ≤ 0x7ff := by
    rw [and_mask _ 11 21 0xfffff800 rfl]
    omega
  have ht : c.toNat &&& 0xffff0000 = 0 ↔ c.toNat ≤ 0xffff := by
    rw [and_mask _ 16 16 0xffff0000 rfl]
    omega
  have hf : c.toNat &&& 0xffe00000 = 0 := by
    rw [and_mask _ 21 11 0xffe00000 rfl]
    omega
  by_cases hz : c.toNat = 0
  · have hb : String.utf8EncodeChar c = [0] := by
      simp [String.utf8EncodeChar, hz]
    rw [c32rtomb, if_pos hz, hb]
    rfl
  · rw [c32rtomb, if_neg (by decide), if_neg hz, if_neg (by decide)]
    simp only [String.utf8EncodeChar, Char.toNat_val, hone, htwo, ht]
    split
    · rfl
    · split
      · rw [encode_two (by omega)]
        rfl
      · split
        · rw [encode_three (by omega)]
          rfl
        · rw [encode_four (by omega)]
          rfl

end Encode

section Pairs

variable {a l : ℕ}

theorem surrogate_and {base mask : ℕ} (ha : a < 0x400) (hb : base % 0x400 = 0) (hc : base &&& mask = 0)
    (hk : mask % 0x400 = 0x3ff) : base + a &&& mask = a := by
  have hlow : a &&& 0x3ff = a := (Nat.and_two_pow_sub_one_eq_mod a 10).trans (Nat.mod_eq_of_lt ha)
  have hm : 0x3ff &&& mask = 0x3ff := by
    rw [Nat.and_comm]
    exact (Nat.and_two_pow_sub_one_eq_mod mask 10).trans hk
  calc
    base + a &&& mask = (base ||| a) &&& mask := by rw [or_low (s := 10) ha hb]
    _ = a &&& 0x3ff &&& mask := by rw [Nat.and_or_distrib_right, hc, Nat.zero_or, hlow]
    _ = a := by rw [Nat.and_assoc, hm, hlow]

theorem mbsinit_init : mbsinit .init := rfl

def pending (a : ℕ) : MbState := ⟨0, 0, .ofNat (a % 64 * 4), .ofNat (a / 64)⟩

theorem c16rtomb_high (ha : a < 0x400) : c16rtomb true (0xd800 + a) .init = ⟨.count 0, none, pending a⟩ := by
  have hb : (0xd800 + a &&& 0xffff27ff) <<< 10 = a * 1024 := by
    rw [surrogate_and ha rfl rfl rfl, shiftLeft_eq]
  have hh : (a * 1024 &&& 0xff0000) >>> 16 = a / 64 := by
    rw [and_mask _ 16 8 0xff0000 rfl]
    omega
  have hmid : (a * 1024 &&& 0x00ff00) >>> 8 = a % 64 * 4 := by
    rw [and_mask _ 8 8 0x00ff00 rfl, shiftRight_eq_div_pow]
    omega
  have hs : isHighSurrogate (0xd800 + a) := ⟨by omega, by omega⟩
  rw [c16rtomb, if_pos mbsinit_init, if_pos hs, hb]
  dsimp only
  rw [hh, hmid]
  rfl

theorem toNat_pending (ha : a < 0x400) :
    ((pending a).getByte 2).toNat = a % 64 * 4 ∧ ((pending a).getByte 3).toNat = a / 64 := by
  have htwo : ((pending a).getByte 2).toNat = a % 64 * 4 % 256 := toNat_ofNat'
  have ht : ((pending a).getByte 3).toNat = a / 64 % 256 := toNat_ofNat'
  omega

theorem mbsinit_pending (ha : a < 0x400) (hne : a ≠ 0) : mbsinit (pending a) = false := by
  apply decide_eq_false
  intro h
  obtain ⟨htwo, ht⟩ := toNat_pending ha
  rw [h] at htwo ht
  have htwo : 0 = a % 64 * 4 := htwo
  have ht : 0 = a / 64 := ht
  omega

theorem c16rtomb_low (ha : a < 0x400) (hne : a ≠ 0) (hl : l < 0x400) :
    c16rtomb true (0xdc00 + l) (pending a) = { c32rtomb true (a * 0x400 + l + 0x10000) .init with state := .init } := by
  have hlow : isLowSurrogate (0xdc00 + l) := ⟨by omega, by omega⟩
  obtain ⟨htwo, ht⟩ := toNat_pending ha
  have hp : (a / 64) <<< 16 ||| (a % 64 * 4) <<< 8 = a * 0x400 := by
    rw [shiftLeft_eq, or_low (s := 16) (by omega) (by omega)]
    omega
  have hb : (a / 64) <<< 16 ||| (a % 64 * 4) <<< 8 ||| 0xdc00 + l &&& 0xffff23ff = a * 0x400 + l := by
    rw [surrogate_and hl rfl rfl rfl, hp]
    exact or_low (s := 10) hl (mul_mod_left _ _)
  rw [c16rtomb, mbsinit_pending ha hne, if_neg Bool.false_ne_true, if_neg (not_not_intro hlow), htwo, ht, hb]

theorem c16rtomb_low_init (hl : l < 0x400) : c16rtomb true (0xdc00 + l) .init = resetAndReturnIllegal .einval := by
  have hh : ¬isHighSurrogate (0xdc00 + l) := fun h => absurd h.2 (by omega)
  have hlow : isLowSurrogate (0xdc00 + l) := ⟨by omega, by omega⟩
  rw [c16rtomb, if_pos mbsinit_init, if_neg hh, if_pos hlow]

end Pairs

theorem c16rtomb_unit {u : ℕ} (h : u < 0xd800 ∨ 0xdfff < u) : c16rtomb true u .init = c32rtomb true u .init := by
  have hh : ¬isHighSurrogate u := fun hu => by
    obtain ⟨hge, hlt⟩ := hu
    omega
  have hlow : ¬isLowSurrogate u := fun hu => by
    obtain ⟨hge, hlt⟩ := hu
    omega
  rw [c16rtomb, if_pos mbsinit_init, if_neg hh, if_neg hlow]

/-- The code units of a character give nothing for the first of a pair, and then what `c32rtomb` gives. -/
def UnitsGive : Prop :=
  let r := c32rtomb true c.toNat .init
  feedUnits .init (units c) = ((units c).dropLast.map (fun _ => (.count 0, none)) ++ [(r.ret, r.stored)], .init)

/-- The bytes that `c32rtomb` gives, in any pieces, give back the code units, with one more call for the second of a
pair. -/
def BytesGive : Prop :=
  ∀ bytes pieces next, (c32rtomb true c.toNat .init).stored = some bytes → (∀ q ∈ pieces, q ≠ []) →
    pieces.flatten = bytes →
    let r := feed16 .init (pieces ++ (units c).tail.map fun _ => next)
    r.1.filterMap (·.2) = units c ∧ r.2 = .init

variable {c : Char}

theorem units_of_lt (h : c.toNat < 0x10000) : units c = [c.toNat] := if_pos h

theorem units_of_le (h : 0x10000 ≤ c.toNat) :
    units c = [0xd800 + (c.toNat - 0x10000) / 0x400, 0xdc00 + (c.toNat - 0x10000) % 0x400] := if_neg (not_lt.mpr h)

theorem unitsGive_iff (c : Char) : UnitsGive c ↔ ¬(0x10000 ≤ c.toNat ∧ c.toNat < 0x10400) := by
  have hc := toNat_lt c
  have hva := isValidChar_toNat c
  rw [UnitsGive]
  by_cases hs : c.toNat < 0x10000
  · have hu : c16rtomb true c.toNat .init = c32rtomb true c.toNat .init := by
      apply c16rtomb_unit
      omega
    have hst : (c32rtomb true c.toNat .init).state = .init := by rw [c32rtomb_eq]
    rw [units_of_lt hs]
    refine iff_of_true ?_ (by omega)
    rw [feedUnits, hu, hst]
    rfl
  · have hla := Nat.le_of_not_lt hs
    have ha : (c.toNat - 0x10000) / 0x400 < 0x400 := by omega
    have hl : (c.toNat - 0x10000) % 0x400 < 0x400 := Nat.mod_lt _ (by decide)
    rw [units_of_le hla, feedUnits, c16rtomb_high ha, feedUnits]
    by_cases hz : (c.toNat - 0x10000) / 0x400 = 0
    · refine iff_of_false ?_ (by omega)
      have hp : pending 0 = .init := rfl
      rw [hz, hp, c16rtomb_low_init hl, c32rtomb_eq]
      intro h
      cases h
    · refine iff_of_true ?_ (by omega)
      rw [c16rtomb_low ha hz hl]
      have hv : (c.toNat - 0x10000) / 0x400 * 0x400 + (c.toNat - 0x10000) % 0x400 + 0x10000 = c.toNat := by omega
      rw [hv]
      rfl

section Back

variable {q : List UInt8} {st st' : MbState} {n : ℕ}

theorem getByte_three (h : (mbrtoc32 true (some q) st).ret ≠ .illegal .einval) : ¬st.getByte 3 ≠ 0 := by
  intro hne
  rw [mbrtoc32, if_pos hne] at h
  exact h rfl

theorem mbrtoc16_incomplete (h : mbrtoc32 true (some q) st = ⟨.incomplete, none, st'⟩) :
    mbrtoc16 (some q) st = ⟨.incomplete, none, st'⟩ := by
  have ht : ¬st.getByte 3 ≠ 0 := getByte_three (by rw [h]; simp)
  rw [mbrtoc16, if_neg ht, h]

section

variable (h : mbrtoc32 true (some q) st = resetAndReturn (n + 1) (some c.toNat))

include h

theorem mbrtoc16_small (hc : c.toNat < 0x10000) : mbrtoc16 (some q) st = resetAndReturn (n + 1) (some c.toNat) := by
  have ht : ¬st.getByte 3 ≠ 0 := getByte_three (by rw [h]; simp)
  rw [mbrtoc16, if_neg ht, h]
  exact (if_neg (by omega)).trans (if_pos hc)

theorem mbrtoc16_large (hc : 0x10000 ≤ c.toNat) : mbrtoc16 (some q) st = beginSurrogate c.toNat (n + 1) .init := by
  have hlt := toNat_lt c
  have ht : ¬st.getByte 3 ≠ 0 := getByte_three (by rw [h]; simp)
  rw [mbrtoc16, if_neg ht, h]
  exact (if_neg (by omega)).trans (if_neg (by omega))

end

theorem feed16_cons {piece : List UInt8} {pieces : List (List UInt8)} {r : Result ℕ} (h : mbrtoc16 (some piece) st = r) :
    feed16 st (piece :: pieces) = ((r.ret, r.stored) :: (feed16 r.state pieces).1, (feed16 r.state pieces).2) := by
  rw [feed16, h]

/-- Up to the last piece of a character, `mbrtoc16` returns what `mbrtoc32` returns. -/
theorem feed16_of_feed {pre : List (List UInt8)} {last : List UInt8} (more : List (List UInt8))
    (h : feed st (pre ++ [last]) = (waiting pre ++ [(.count n, some c.toNat)], .init)) :
    ∃ st', mbrtoc32 true (some last) st' = resetAndReturn n (some c.toNat) ∧
      (feed16 st (pre ++ [last] ++ more)).1.filterMap (·.2) = (feed16 st' (last :: more)).1.filterMap (·.2) ∧
      (feed16 st (pre ++ [last] ++ more)).2 = (feed16 st' (last :: more)).2 := by
  induction pre generalizing st with
  | nil =>
    refine ⟨st, ?_, rfl, rfl⟩
    obtain ⟨hret, hst⟩ := Prod.mk.inj h
    obtain ⟨hret, hs⟩ := Prod.mk.inj (cons.inj hret).1
    cases hr : mbrtoc32 true (some last) st with
    | mk ret stored state =>
      rw [hr] at hret hs hst
      cases hret
      cases hs
      cases hst
      rfl
  | cons q pre ih =>
    rw [cons_append, feed] at h
    obtain ⟨hret, hst⟩ := Prod.mk.inj h
    obtain ⟨hh, ht⟩ := cons.inj hret
    obtain ⟨hret, hs⟩ := Prod.mk.inj hh
    have hc : mbrtoc32 true (some q) st = ⟨.incomplete, none, (mbrtoc32 true (some q) st).state⟩ := by
      rw [← hret, ← hs]
    obtain ⟨st', hl, hso, hsa⟩ := ih (Prod.ext ht hst)
    rw [cons_append, cons_append, feed16_cons (mbrtoc16_incomplete hc)]
    exact ⟨st', hl, hso, hsa⟩

variable (c32 nconv : ℕ)

theorem beginSurrogate_stored (h : c32 < 0x110000) :
    (beginSurrogate c32 nconv .init).stored = some (0xd800 + (c32 - 0x10000) / 0x400) := by
  have hb : ((c32 - 0x10000 &&& 0xffc00) >>> 10) = (c32 - 0x10000) / 0x400 := by
    rw [and_mask _ 10 10 0xffc00 rfl]
    omega
  rw [beginSurrogate, hb, Nat.or_comm, or_low (s := 10) (by omega) rfl]

theorem finishSurrogate_begin : finishSurrogate (beginSurrogate c32 nconv .init).state =
      resetAndReturn (nconv % 256) (some (0xdc00 + (c32 - 0x10000) % 0x400)) := by
  have hlow : c32 - 0x10000 &&& 0x3ff = (c32 - 0x10000) % 0x400 := Nat.and_two_pow_sub_one_eq_mod _ 10
  have ht : c32 - 0x10000 &&& 0x3ff ||| 0xdc00 = 0xdc00 + (c32 - 0x10000) % 0x400 := by
    rw [hlow, Nat.or_comm]
    exact or_low (s := 10) (Nat.mod_lt _ (by decide)) rfl
  have hmod := Nat.mod_lt (c32 - 0x10000) (show 0 < 0x400 by decide)
  generalize (c32 - 0x10000) % 0x400 = l at ht hmod ⊢
  have hz : (0xdc00 + l &&& 0x00ff) % 256 = l % 256 := by
    rw [and_mask _ 0 8 0x00ff rfl]
    omega
  have hone : (0xdc00 + l &&& 0xff00) >>> 8 % 256 = 0xdc + l / 256 := by
    rw [and_mask _ 8 8 0xff00 rfl]
    omega
  have hp : (0xdc + l / 256) <<< 8 ||| l % 256 = 0xdc00 + l := by
    rw [shiftLeft_eq, or_low (s := 8) (by omega) (mul_mod_left _ _)]
    omega
  rw [beginSurrogate, ht]
  show resetAndReturn (ofNat nconv).toNat
    (some ((ofNat ((0xdc00 + l &&& 0xff00) >>> 8)).toNat <<< 8 ||| (ofNat (0xdc00 + l &&& 0x00ff)).toNat)) = _
  rw [toNat_ofNat', toNat_ofNat', toNat_ofNat']
  exact congrArg (fun u => resetAndReturn _ (some u)) ((congrArg₂ (fun x y => x <<< 8 ||| y) hone hz).trans hp)

theorem mbrtoc16_second (hpos : 0 < nconv) (hlt : nconv < 256) (next : List UInt8) :
    mbrtoc16 (some next) (beginSurrogate c32 nconv .init).state =
      resetAndReturn nconv (some (0xdc00 + (c32 - 0x10000) % 0x400)) := by
  have ht : (beginSurrogate c32 nconv .init).state.getByte 3 ≠ 0 := by
    intro hz
    have hnat : (ofNat nconv).toNat = 0 := congrArg toNat hz
    rw [toNat_ofNat'] at hnat
    omega
  rw [mbrtoc16, if_pos ht, finishSurrogate_begin, mod_eq_of_lt hlt]

end Back

theorem bytesGive_iff (c : Char) : BytesGive c ↔ c.toNat ≠ 0 := by
  constructor
  · intro h hz
    have hch : c = Char.ofNat 0 := Char.ext (UInt32.toNat_inj.mp hz)
    subst hch
    have hba := (h [0] [[0]] [] rfl (by simp) rfl).1
    cases hba
  · intro hc bytes pieces next hb hp hf
    rw [c32rtomb_eq] at hb
    obtain rfl := Option.some.inj hb
    obtain ⟨pre, last, rfl, hfe⟩ := feed_utf8EncodeChar hp hf hc
    obtain ⟨st', hl, hst, hsa⟩ := feed16_of_feed ((units c).tail.map fun _ => next) hfe
    dsimp only
    rw [hst, hsa]
    obtain ⟨n, hn⟩ := exists_eq_add_one_of_ne_zero (length_pos_iff.mpr (hp last (by simp))).ne'
    rw [hn] at hl
    have hsh : last.length ≤ 4 := by
      have hsi := Char.utf8Size_le_four c
      rw [← String.length_utf8EncodeChar, ← hf, flatten_append, length_append, flatten_singleton] at hsi
      omega
    by_cases hs : c.toNat < 0x10000
    · rw [units_of_lt hs, tail_cons, feed16_cons (mbrtoc16_small hl hs)]
      exact ⟨rfl, rfl⟩
    · have hla := Nat.le_of_not_lt hs
      rw [units_of_le hla, tail_cons, map_cons, map_nil, feed16_cons (mbrtoc16_large hl hla),
        feed16_cons (mbrtoc16_second _ _ (Nat.succ_pos n) (by omega) next), beginSurrogate_stored _ _ (toNat_lt c)]
      exact ⟨rfl, rfl⟩

/-- The code units of a character give its bytes and these the code units, except for the null character and
those with the first of the high surrogates. -/
theorem utf16_round_trip (c : Char) :
    UnitsGive c ∧ BytesGive c ↔ c.toNat ≠ 0 ∧ ¬(0x10000 ≤ c.toNat ∧ c.toNat < 0x10400) := by
  rw [unitsGive_iff, bytesGive_iff, And.comm]

/-- For `U+10000` the second call refuses its unit, and for the null character nothing is stored. -/
theorem first_pair_refused :
    feedUnits .init (units (Char.ofNat 0x10000)) = ([(.count 0, none), (.illegal .einval, none)], .init) ∧
      (c32rtomb true 0x10000 .init).stored = some [0xf0, 0x90, 0x80, 0x80] ∧
      mbrtoc16 (some [0]) .init = ⟨.count 0, none, .init⟩ :=
  ⟨rfl, rfl, rfl⟩

end Bionic.Wchar
