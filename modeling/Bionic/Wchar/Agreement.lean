import Bionic.Wchar.Inverse

namespace Bionic.Wchar

open Lib.Utf8 List

variable {b : UInt8} {p q : List UInt8} {n wanted : ℕ} {st : MbState}

/-- The states that calls of `mbrtoc16` leave behind. -/
inductive Reached : MbState → Prop
  | init : Reached .init
  | call {st : MbState} (h : Reached st) (s : Option (List UInt8)) : Reached (mbrtoc16 s st).state

inductive Between : MbState → Prop
  | init : Between .init
  | partway {b : UInt8} {p : List UInt8} {n : ℕ} (h : Lead b n) (hp : ∀ x ∈ p, IsCont x) (hl : p.length + 1 < n) :
    Between (.holding (b :: p))

/-- What `mbrtoc32` can do with bytes that do not start with a null character. -/
inductive Does : Result ℕ → Prop
  | stores {c m : ℕ} (hm : m < 4) : Does (resetAndReturn (m + 1) (some c))
  | illegal : Does (resetAndReturnIllegal .eilseq)
  | incomplete {st : MbState} (h : Between st) : Does ⟨.incomplete, none, st⟩

def IsErr (ret : Ret) : Prop := ∀ m, ret ≠ .count m

def Agrees (q : List UInt8) (st : MbState) : Prop :=
  let r := mbrtoc32 true (some q) st
  let r' := mbrtoc16 (some q) st
  (∀ c < 0x10000, r.stored = some c → r'.stored = some c ∧ r'.ret = r.ret ∧ r'.state = r.state) ∧
    (IsErr r.ret → r'.ret = r.ret ∧ r'.state = r.state) ∧ (q = [] → r'.state = r.state)

theorem Between.getByte_three (h : Between st) : st.getByte 3 = 0 := by
  cases h with
  | init => rfl
  | partway h hp hl =>
    have hle := h.le_four
    exact (getByte_holding (by decide)).trans (getD_eq_default _ _ (by rw [length_cons]; omega))

theorem mbrtoc32_nil (h : Between st) : mbrtoc32 true (some []) st = ⟨.count 0, none, st⟩ := by
  rw [mbrtoc32, if_neg (not_not_intro h.getByte_three)]
  rfl

theorem Lead.does_outcome (h : Lead b n) (hp : ∀ x ∈ p, IsCont x) (hl : p.length + 1 ≤ n) (hw : 0 < wanted)
    (hle : wanted ≤ n) : Does (outcome b p q n wanted) := by
  have h4 := h.le_four
  by_cases hco : ∀ x ∈ q.take (n - (p.length + 1)), IsCont x
  · rw [outcome, fill_of_cont (by omega) hco]
    dsimp only
    split
    · rw [take_of_length_le (by omega)] at hco ⊢
      refine .incomplete (.partway h (fun x hx => ?_) (by rw [length_append]; omega))
      exact (mem_append.1 hx).elim (hp x) (hco x)
    · rw [finish]
      split
      · exact .illegal
      split
      · exact .illegal
      obtain ⟨m, rfl⟩ := Nat.exists_eq_add_of_le' hw
      split
      · exact absurd h.lowest_pos (by omega)
      · exact .stores (by omega)
  · rw [h.outcome_of_not_cont hl hco]
    exact .illegal

def AtNul (q : List UInt8) (st : MbState) : Prop := st = .init ∧ q.head? = some 0

theorem Between.does (h : Between st) (hq : q ≠ []) (hz : ¬AtNul q st) : Does (mbrtoc32 true (some q) st) := by
  obtain ⟨b, q, rfl⟩ := exists_cons_of_ne_nil hq
  cases h with
  | partway h hp hl =>
    rw [h.mbrtoc32_holding hp hl hq]
    exact h.does_outcome hp (by omega) (by omega) (by omega)
  | init =>
    cases hle : leadLength b with
    | none =>
      rw [mbrtoc32_of_not_lead q hle]
      exact .illegal
    | some n =>
      have hiff := leadLength_iff.1 hle
      have hb : b ≠ 0 := by
        rintro rfl
        exact hz ⟨rfl, rfl⟩
      by_cases hn : n = 1
      · subst hn
        rw [mbrtoc32_ascii q hle hb]
        exact .stores (by decide)
      · have h : Lead b n := ⟨hle, by omega⟩
        rw [h.mbrtoc32_init]
        exact h.does_outcome (by simp) (by simp; omega) (by omega) (by omega)

section Call

variable (h : st.getByte 3 = 0) {r : Result ℕ} {s : Option (List UInt8)}

include h

theorem mbrtoc16_of_ret (hr : mbrtoc32 true s st = r) (he : IsErr r.ret) :
    mbrtoc16 s st = ⟨r.ret, none, r.state⟩ := by
  rw [mbrtoc16, if_neg (not_not_intro h), hr]
  rcases r with ⟨_ | _ | _ | m, stored, state⟩
  case count => exact absurd rfl (he m)
  all_goals rfl

theorem mbrtoc16_of_zero (hr : mbrtoc32 true s st = r) (h0 : r.ret = .count 0) :
    mbrtoc16 s st = resetAndReturn 0 none := by
  rw [mbrtoc16, if_neg (not_not_intro h), hr]
  simp only [h0]

theorem mbrtoc16_of_stored {c m : ℕ} (hr : mbrtoc32 true (some q) st = resetAndReturn (m + 1) (some c)) :
    mbrtoc16 (some q) st =
      if c > 0x10ffff then resetAndReturnIllegal .eilseq
      else if c < 0x10000 then resetAndReturn (m + 1) (some c)
      else beginSurrogate c (m + 1) .init := by
  rw [mbrtoc16, if_neg (not_not_intro h), hr]
  rfl

end Call

theorem AtNul.mbrtoc32_eq (h : AtNul q st) : mbrtoc32 true (some q) st = resetAndReturn 0 (some 0) := by
  obtain ⟨rfl, hz⟩ := h
  obtain ⟨q, rfl⟩ := head?_eq_some_iff.1 hz
  exact mbrtoc32_nul q

theorem isErr_illegal (errno : Errno) : IsErr (.illegal errno) := fun _ h => by cases h

theorem isErr_incomplete : IsErr .incomplete := fun _ h => by cases h

theorem Reached.between (h : Reached st) : Between st ∨ st.getByte 3 ≠ 0 := by
  induction h with
  | init => exact .inl .init
  | @call st h s ih =>
    rcases ih with hb | hne
    · have h3 := hb.getByte_three
      cases s with
      | none =>
        cases hb with
        | init => exact .inl .init
        | partway hl hp hlt =>
          rw [mbrtoc16_of_ret h3 (hl.mbrtoc32_null hp hlt) (isErr_illegal _)]
          exact .inl .init
      | some q =>
        by_cases hq : q = []
        · rw [hq, mbrtoc16_of_zero h3 (mbrtoc32_nil hb) rfl]
          exact .inl .init
        by_cases hz : AtNul q st
        · rw [mbrtoc16_of_zero h3 hz.mbrtoc32_eq rfl]
          exact .inl .init
        have hd := hb.does hq hz
        generalize hr : mbrtoc32 true (some q) st = r at hd
        cases hd with
        | illegal =>
          rw [mbrtoc16_of_ret h3 hr (isErr_illegal _)]
          exact .inl .init
        | incomplete h =>
          rw [mbrtoc16_of_ret h3 hr isErr_incomplete]
          exact .inl h
        | @stores c m hm =>
          rw [mbrtoc16_of_stored h3 hr]
          split
          · exact .inl .init
          split
          · exact .inl .init
          · refine .inr fun hz => ?_
            have h0 := congrArg UInt8.toNat (show UInt8.ofNat (m + 1) = 0 from hz)
            rw [UInt8.toNat_ofNat', UInt8.toNat_zero] at h0
            omega
    · rw [mbrtoc16, if_pos hne]
      exact .inl .init

/-- The two functions agree unless a null character is read, which is not stored, or no byte is given within a
character, whose first bytes are lost. -/
theorem mbrtoc16_agrees_iff (h : Reached st) (hst : st.getByte 3 = 0) (q : List UInt8) :
    Agrees q st ↔ ¬AtNul q st ∧ ¬(st ≠ .init ∧ q = []) := by
  have hb := h.between.resolve_right (not_not_intro hst)
  rw [Agrees]
  by_cases hq : q = []
  · rw [hq, mbrtoc32_nil hb, mbrtoc16_of_zero hst (mbrtoc32_nil hb) rfl]
    simp [IsErr, AtNul, eq_comm]
  by_cases hz : AtNul q st
  · rw [hz.mbrtoc32_eq, mbrtoc16_of_zero hst hz.mbrtoc32_eq rfl]
    simp [hz]
  have hd := hb.does hq hz
  generalize hr : mbrtoc32 true (some q) st = r at hd
  simp only [hq, hz, not_false_eq_true, and_false, and_self, iff_true, false_imp_iff, and_true]
  cases hd with
  | illegal =>
    rw [mbrtoc16_of_ret hst hr (isErr_illegal _)]
    refine ⟨fun c _ hc => ?_, fun _ => ⟨rfl, rfl⟩⟩
    cases hc
  | incomplete h =>
    rw [mbrtoc16_of_ret hst hr isErr_incomplete]
    refine ⟨fun c _ hc => ?_, fun _ => ⟨rfl, rfl⟩⟩
    cases hc
  | @stores c m hm =>
    rw [mbrtoc16_of_stored hst hr]
    refine ⟨fun d hlt hd => ?_, fun he => absurd rfl (he (m + 1))⟩
    cases hd
    rw [if_neg (by omega), if_pos hlt]
    exact ⟨rfl, rfl, rfl⟩

/-- The first byte of the euro sign has been read. -/
def euroBegun : MbState := (mbrtoc16 (some [0xe2]) .init).state

theorem reached_euroBegun : Reached euroBegun := Reached.init.call _

theorem mbrtoc16_agrees_euro : Agrees [0x82, 0xac] euroBegun :=
  (mbrtoc16_agrees_iff reached_euroBegun rfl _).2 ⟨fun h => absurd h.1 (by decide), fun h => absurd h.2 (by decide)⟩

theorem mbrtoc16_disagrees :
    ((mbrtoc32 true (some [0]) .init).stored = some 0 ∧ (mbrtoc16 (some [0]) .init).stored = none) ∧
      Reached euroBegun ∧ (mbrtoc32 true (some []) euroBegun).state = euroBegun ∧
      (mbrtoc16 (some []) euroBegun).state = .init ∧ euroBegun ≠ .init :=
  ⟨by decide, reached_euroBegun, by decide⟩

end Bionic.Wchar
