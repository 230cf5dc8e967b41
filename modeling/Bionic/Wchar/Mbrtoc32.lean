import Bionic.Lib.BitField
import Bionic.Lib.Utf8
import Bionic.Wchar.Mbstate

namespace Bionic.Wchar

open Lib Lib.Utf8 List Nat

@[simp] def MbState.holding (p : List UInt8) : MbState := ⟨p.getD 0 0, p.getD 1 0, p.getD 2 0, p.getD 3 0⟩

variable {b x : UInt8} {p q bs : List UInt8} {n i k : ℕ}

theorem and_eq_iff (shift len v : ℕ) (hm : fieldMask shift len < 256) (hv : v < 256) :
    b &&& .ofNat (fieldMask shift len) = .ofNat v ↔ b.toNat / 2 ^ shift % 2 ^ len * 2 ^ shift = v := by
  rw [← UInt8.toNat_inj, UInt8.toNat_and, UInt8.toNat_ofNat', UInt8.toNat_ofNat', mod_eq_of_lt hm,
    mod_eq_of_lt hv, and_fieldMask]

theorem cont_iff : b &&& 0xc0 = 0x80 ↔ IsCont b := by
  have hb := b.toNat_lt
  rw [isCont_iff]
  refine (and_eq_iff 6 2 0x80 (by decide) (by decide)).trans ?_
  omega

theorem leadOf_eq : leadOf b = (leadLength b).map fun n => (.ofNat (leadBits n - 1), n, lowest n) := by
  have hb := b.toNat_lt
  have hone : b &&& 0x80 = 0 ↔ b.toNat < 0x80 := (and_eq_iff 7 1 0 (by decide) (by decide)).trans (by omega)
  have htwo : b &&& 0xe0 = 0xc0 ↔ 0xc0 ≤ b.toNat ∧ b.toNat < 0xe0 :=
    (and_eq_iff 5 3 0xc0 (by decide) (by decide)).trans (by omega)
  have ht : b &&& 0xf0 = 0xe0 ↔ 0xe0 ≤ b.toNat ∧ b.toNat < 0xf0 :=
    (and_eq_iff 4 4 0xe0 (by decide) (by decide)).trans (by omega)
  have hf : b &&& 0xf8 = 0xf0 ↔ 0xf0 ≤ b.toNat ∧ b.toNat < 0xf8 :=
    (and_eq_iff 3 5 0xf0 (by decide) (by decide)).trans (by omega)
  simp only [leadOf, leadLength, hone, htwo, ht, hf, UInt8.lt_iff_toNat_lt, UInt8.reduceToNat]
  split_ifs <;> first | omega | rfl

theorem getByte_holding (hi : i < 4) : (MbState.holding p).getByte i = p.getD i 0 := by
  match i with
  | 0 | 1 | 2 | 3 => rfl

theorem setByte_holding (h : p.length < 4) : (MbState.holding p).setByte p.length x = .holding (p ++ [x]) := by
  match p with
  | [] | [_] | [_, _] | [_, _, _] => rfl

theorem mbsinit_holding (hb : b ≠ 0) : mbsinit (.holding (b :: p)) = false :=
  decide_eq_false fun h => hb (congrArg MbState.seq0 h)

theorem IsCont.ne_zero (h : IsCont x) : x ≠ 0 := by
  rintro rfl
  exact absurd h (by decide)

theorem bytesSoFar_holding (hb : b ≠ 0) (hp : ∀ x ∈ p, IsCont x) (hlength : p.length < 3) :
    (MbState.holding (b :: p)).bytesSoFar = p.length + 1 := by
  match p with
  | [] => simp [hb]
  | [x] =>
    have hx := IsCont.ne_zero (hp x (by simp))
    simp [hx]
  | [x, y] =>
    have hy := IsCont.ne_zero (hp y (by simp))
    simp [hy]

theorem fill_cons (hx : IsCont x) (hlength : p.length + 1 < 4) :
    fill (.holding (b :: p)) (p.length + 1) (n + 1) (x :: q) =
      fill (.holding (b :: (p ++ [x]))) ((p ++ [x]).length + 1) n q := by
  have hset : (MbState.holding (b :: p)).setByte (p.length + 1) x = .holding (b :: (p ++ [x])) :=
    setByte_holding (p := b :: p) hlength
  rw [fill, if_neg fun h => h.2 (cont_iff.mpr hx), hset, length_append]
  rfl

theorem fill_of_cont (hlength : p.length + 1 + n ≤ 4) (hq : ∀ x ∈ q.take n, IsCont x) :
    fill (.holding (b :: p)) (p.length + 1) n q = some (.holding (b :: (p ++ q.take n))) := by
  induction q generalizing p n with
  | nil => cases n <;> simp [fill]
  | cons x q ih =>
    cases n with
    | zero => simp [fill]
    | succ n =>
      rw [fill_cons (hq x mem_cons_self) (by omega), ih, take_succ_cons, append_assoc]
      · rfl
      · rw [length_append, length_singleton]
        omega
      · exact fun y hy => hq y (mem_cons_of_mem x hy)

theorem fill_of_not_cont (hb : b ≠ 0) (hlength : p.length + 1 + n ≤ 4) (hq : ¬∀ x ∈ q.take n, IsCont x) :
    fill (.holding (b :: p)) (p.length + 1) n q = none := by
  induction q generalizing p n with
  | nil => exact absurd (by simp) hq
  | cons x q ih =>
    cases n with
    | zero => exact absurd (by simp) hq
    | succ n =>
      by_cases hx : IsCont x
      · rw [fill_cons hx (by omega), ih]
        · rw [length_append, length_singleton]
          omega
        · intro hall
          rw [take_succ_cons, forall_mem_cons] at hq
          exact hq ⟨hx, hall⟩
      · rw [fill, mbsinit_holding hb, if_pos ⟨Bool.false_ne_true, fun h => hx (cont_iff.mp h)⟩]

theorem extend_append (v : ℕ) (p q : List UInt8) : extend v (p ++ q) = extend (extend v p) q := foldl_append

theorem toNat_and_low (b : UInt8) (hk : k < 8) : (b &&& .ofNat (2 ^ k - 1)).toNat = b.toNat % 2 ^ k := by
  have hlt : 2 ^ k - 1 < 256 := by
    have hle := Nat.pow_le_pow_right (show 0 < 2 by decide) (Nat.le_of_lt hk)
    omega
  rw [UInt8.toNat_and, UInt8.toNat_ofNat', mod_eq_of_lt hlt, and_two_pow_sub_one_eq_mod]

theorem toNat_and_leadBits (b : UInt8) (n : ℕ) : (b &&& .ofNat (leadBits n - 1)).toNat = b.toNat % leadBits n := by
  match n with
  | 1 => exact toNat_and_low b (k := 7) (by decide)
  | 2 => exact toNat_and_low b (k := 5) (by decide)
  | 3 => exact toNat_and_low b (k := 4) (by decide)
  | 0 | _ + 4 => exact toNat_and_low b (k := 3) (by decide)

theorem decode_holding (mask : UInt8) (hi : i ≤ bs.length) (hlength : bs.length < 4) :
    decode (.holding (b :: bs)) mask i = extend (b &&& mask).toNat (bs.take i) := by
  induction i with
  | zero => rfl
  | succ i ih =>
    have hlow : ((MbState.holding (b :: bs)).getByte (i + 1) &&& 0x3f).toNat = (bs.getD i 0).toNat % 64 := by
      rw [getByte_holding (by omega)]
      exact toNat_and_low _ (k := 6) (by decide)
    have ht : bs.take (i + 1) = bs.take i ++ [bs.getD i 0] := by
      rw [take_succ_eq_append_getElem hi, getD_eq_getElem _ _ hi]
    rw [decode, ih (by omega), hlow, ht, extend_append, shiftLeft_eq]
    refine (or_low (s := 6) (mod_lt _ (by decide)) (mul_mod_left _ _)).trans ?_
    rfl

/-- The result of a call when the state holds `b :: p`, with the rest `q` of its bytes still to be put there. -/
def outcome (b : UInt8) (p q : List UInt8) (n wanted : ℕ) : Result ℕ :=
  match fill (.holding (b :: p)) (p.length + 1) (n - (p.length + 1)) q with
  | none => resetAndReturnIllegal .eilseq
  | some state =>
    if q.length < n - (p.length + 1) then ⟨.incomplete, none, state⟩
    else finish true state (.ofNat (leadBits n - 1)) n (lowest n) wanted

structure Lead (b : UInt8) (n : ℕ) : Prop where
  length : leadLength b = some n
  several : 2 ≤ n

namespace Lead

variable (h : Lead b n) {s : Option (List UInt8)}

include h

theorem le_four : n ≤ 4 := by
  have hlength := leadLength_iff.mp h.length
  omega

theorem ne_zero : b ≠ 0 := by
  have hlength := leadLength_iff.mp h.length
  have hs := h.several
  rintro rfl
  rw [UInt8.toNat_zero] at hlength
  omega

theorem lowest_pos : 0 < lowest n := by
  have hle := h.le_four
  match n with
  | 2 | 3 | 4 => decide

theorem leadOf_eq : leadOf b = some (.ofNat (leadBits n - 1), n, lowest n) := by
  rw [Wchar.leadOf_eq, h.length]
  rfl

theorem not_ascii : b &&& ~~~0x7f ≠ 0 := by
  have hlength := leadLength_iff.mp h.length
  have hs := h.several
  intro hz
  have hlow := (and_eq_iff 7 1 0 (by decide) (by decide)).mp hz
  omega

theorem mbrtoc32_eq {state : MbState} (hs : s.getD [0] = x :: q)
    (hl : state.getByte 3 = 0) (hn : ¬(mbsinit state ∧ x &&& ~~~0x7f = 0)) (hk : state.bytesSoFar = k)
    (hb : (if k > 0 then state.getByte 0 else x) = b) :
    mbrtoc32 true s state =
      match fill state k (n - k) (x :: q) with
      | none => resetAndReturnIllegal .eilseq
      | some state =>
        if (x :: q).length < n - k then ⟨.incomplete, none, state⟩
        else finish s.isSome state (.ofNat (leadBits n - 1)) n (lowest n) (n - k) := by
  rw [mbrtoc32, if_neg (not_not_intro hl), hs]
  dsimp only
  rw [if_neg hn, hk, hb, h.leadOf_eq]
  rfl

theorem mbrtoc32_init (q : List UInt8) : mbrtoc32 true (some (b :: q)) .init = outcome b [] q n n := by
  have hf : fill .init 0 n (b :: q) = fill (.holding [b]) 1 (n - 1) q := by
    obtain ⟨m, rfl⟩ := Nat.exists_eq_add_of_le' (Nat.le_of_succ_le h.several)
    rfl
  have hs : (b :: q).length < n ↔ q.length < n - 1 := by
    rw [length_cons]
    omega
  rw [h.mbrtoc32_eq (k := 0) rfl rfl (fun ha => h.not_ascii ha.2) rfl rfl, Nat.sub_zero, hf]
  simp only [hs]
  rfl

section Holding

variable (hp : ∀ x ∈ p, IsCont x) (hlength : p.length + 1 < n)

include hp hlength

theorem mbrtoc32_more (hs : s.getD [0] = x :: q) :
    mbrtoc32 true s (.holding (b :: p)) =
      match fill (.holding (b :: p)) (p.length + 1) (n - (p.length + 1)) (x :: q) with
      | none => resetAndReturnIllegal .eilseq
      | some state =>
        if (x :: q).length < n - (p.length + 1) then ⟨.incomplete, none, state⟩
        else finish s.isSome state (.ofNat (leadBits n - 1)) n (lowest n) (n - (p.length + 1)) := by
  have hle := h.le_four
  have hl : (MbState.holding (b :: p)).getByte 3 = 0 :=
    (getByte_holding (by decide)).trans (getD_eq_default _ _ (by rw [length_cons]; omega))
  have hn : ¬(mbsinit (.holding (b :: p)) ∧ x &&& ~~~0x7f = 0) := by
    rw [mbsinit_holding h.ne_zero]
    exact fun ha => Bool.false_ne_true ha.1
  exact h.mbrtoc32_eq hs hl hn (bytesSoFar_holding h.ne_zero hp (by omega)) (if_pos (succ_pos _))

theorem mbrtoc32_holding (hq : q ≠ []) :
    mbrtoc32 true (some q) (.holding (b :: p)) = outcome b p q n (n - (p.length + 1)) := by
  obtain ⟨x, q, rfl⟩ := exists_cons_of_ne_nil hq
  exact h.mbrtoc32_more hp hlength rfl

theorem mbrtoc32_null : mbrtoc32 true none (.holding (b :: p)) = resetAndReturnIllegal .eilseq := by
  have hle := h.le_four
  have hz : ¬∀ x ∈ [(0 : UInt8)].take (n - (p.length + 1)), IsCont x := by
    rw [take_of_length_le (by simp; omega)]
    exact fun hall => absurd (hall 0 mem_cons_self) (by decide)
  rw [h.mbrtoc32_more hp hlength (q := []) rfl, fill_of_not_cont h.ne_zero (by omega) hz]

end Holding

section Outcome

variable {wanted : ℕ} (hlength : p.length + 1 ≤ n)

include hlength

theorem outcome_of_not_cont (hq : ¬∀ x ∈ q.take (n - (p.length + 1)), IsCont x) :
    outcome b p q n wanted = resetAndReturnIllegal .eilseq := by
  have hle := h.le_four
  rw [outcome, fill_of_not_cont h.ne_zero (by omega) hq]

theorem outcome_short (hq : ∀ x ∈ q, IsCont x) (hs : p.length + 1 + q.length < n) :
    outcome b p q n wanted = ⟨.incomplete, none, .holding (b :: (p ++ q))⟩ := by
  have hle := h.le_four
  have ht : q.take (n - (p.length + 1)) = q := take_of_length_le (by omega)
  rw [outcome, fill_of_cont (by omega) (ht.symm ▸ hq), ht]
  exact if_pos (by omega)

/-- With all its bytes there, a character is stored if it is one, in its shortest form. -/
theorem outcome_full (hq : ∀ x ∈ q, IsCont x) (hf : p.length + 1 + q.length = n) :
    outcome b p q n wanted =
      if lowest n ≤ value b (p ++ q) ∧ (value b (p ++ q)).isValidChar then
        resetAndReturn wanted (some (value b (p ++ q)))
      else resetAndReturnIllegal .eilseq := by
  have hle := h.le_four
  have hs := h.several
  have ht : q.take (n - (p.length + 1)) = q := take_of_length_le (by omega)
  have hlen : (p ++ q).length + 1 = n := by
    rw [length_append]
    omega
  have hd : decode (.holding (b :: (p ++ q))) (.ofNat (leadBits n - 1)) (n - 1) = value b (p ++ q) := by
    rw [decode_holding _ (by omega) (by omega), toNat_and_leadBits, take_of_length_le (by omega), value, hlen]
  rw [outcome, fill_of_cont (by omega) (ht.symm ▸ hq), ht]
  dsimp only
  rw [if_neg (by omega), finish, hd]
  generalize value b (p ++ q) = v
  by_cases hlow : v < lowest n
  · rw [if_pos hlow, if_neg fun hok => absurd hok.1 (not_le.mpr hlow)]
  · rw [if_neg hlow]
    by_cases hv : v.isValidChar
    · have hne : v ≠ 0 := Nat.ne_of_gt (Nat.lt_of_lt_of_le h.lowest_pos (Nat.le_of_not_lt hlow))
      have hi : ¬(0xd800 ≤ v ∧ v ≤ 0xdfff ∨ v > 0x10ffff) := by
        omega
      rw [if_neg hi, if_neg hne, if_pos rfl, if_pos ⟨Nat.le_of_not_lt hlow, hv⟩]
    · have ho : 0xd800 ≤ v ∧ v ≤ 0xdfff ∨ v > 0x10ffff := by
        rw [Nat.isValidChar] at hv
        omega
      rw [if_pos ho, if_neg fun hok => hv hok.2]

end Outcome

end Lead

end Bionic.Wchar
