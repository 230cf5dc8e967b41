import Bionic.Wchar.Mbrtoc32

namespace Bionic.Wchar

open Lib.Utf8 List

def feed : MbState → List (List UInt8) → List (Ret × Option ℕ) × MbState
  | state, [] => ([], state)
  | state, piece :: pieces =>
    let r := mbrtoc32 true (some piece) state
    let rest := feed r.state pieces
    ((r.ret, r.stored) :: rest.1, rest.2)

variable {state : MbState} {piece : List UInt8}

theorem feed_cons {pieces : List (List UInt8)} {r : Result ℕ} (h : mbrtoc32 true (some piece) state = r) :
    feed state (piece :: pieces) = ((r.ret, r.stored) :: (feed r.state pieces).1, (feed r.state pieces).2) := by
  rw [feed, h]

def waiting (pieces : List (List UInt8)) : List (Ret × Option ℕ) := pieces.map fun _ => (.incomplete, none)

variable {b : UInt8} {p bs q : List UInt8} {n wanted : ℕ} {c : Char} {pieces : List (List UInt8)} {last : List UInt8}

theorem isValidChar_toNat (c : Char) : c.toNat.isValidChar := c.valid

theorem Lead.of_encodes (h : Encodes b bs c) (hbs : bs ≠ []) : Lead b (bs.length + 1) :=
  ⟨h.length, Nat.succ_le_succ (length_pos_iff.mpr hbs)⟩

theorem outcome_encodes (h : Encodes b (p ++ q) c) (hq : p ++ q ≠ []) :
    outcome b p q ((p ++ q).length + 1) wanted = resetAndReturn wanted (some c.toNat) := by
  have hle := Lead.of_encodes h hq
  have hl : p.length + 1 + q.length = (p ++ q).length + 1 := by
    rw [length_append]
    omega
  rw [hle.outcome_full (by omega) (fun x hx => h.cont x (mem_append_right p hx)) hl, h.value,
    if_pos ⟨h.lowest, isValidChar_toNat c⟩]

theorem feed_holding (hp : ∀ q ∈ pieces ++ [last], q ≠ []) (h : Encodes b (p ++ (pieces ++ [last]).flatten) c) :
    feed (.holding (b :: p)) (pieces ++ [last]) = (waiting pieces ++ [(.count last.length, some c.toNat)], .init) := by
  induction pieces generalizing p with
  | nil =>
    have hl : last ≠ [] := hp last mem_cons_self
    rw [nil_append, flatten_singleton] at h
    have hpos := length_pos_iff.mpr hl
    have hbs : p ++ last ≠ [] := append_ne_nil_of_right_ne_nil p hl
    have hc : mbrtoc32 true (some last) (.holding (b :: p)) = resetAndReturn last.length (some c.toNat) := by
      rw [(Lead.of_encodes h hbs).mbrtoc32_holding (fun x hx => h.cont x (mem_append_left last hx)), outcome_encodes h hbs,
        length_append]
      · congr 1
        omega
      · rw [length_append]
        omega
      · exact hl
    rw [nil_append, feed_cons hc]
    rfl
  | cons q pieces ih =>
    have hq : q ≠ [] := hp q mem_cons_self
    have hr : 0 < (pieces ++ [last]).flatten.length := by
      have hl := length_pos_iff.mpr (hp last (by simp))
      rw [flatten_append, length_append, flatten_singleton]
      omega
    rw [cons_append, flatten_cons, ← append_assoc] at h
    have hle := Lead.of_encodes h (append_ne_nil_of_right_ne_nil _ (length_pos_iff.mp hr))
    have hlo : p.length + q.length < (p ++ q ++ (pieces ++ [last]).flatten).length := by
      rw [length_append, length_append]
      omega
    have hco (x : UInt8) (hx : x ∈ p ++ q) : IsCont x := h.cont x (mem_append_left _ hx)
    have hc : mbrtoc32 true (some q) (.holding (b :: p)) = ⟨.incomplete, none, .holding (b :: (p ++ q))⟩ := by
      rw [hle.mbrtoc32_holding (fun x hx => hco x (mem_append_left q hx)) (by omega) hq,
        hle.outcome_short (by omega) (fun x hx => hco x (mem_append_right p hx)) (by omega)]
    have hih := ih (fun q hq => hp q (mem_cons_of_mem _ hq)) h
    rw [cons_append, feed_cons hc, hih]
    rfl

theorem mbrtoc32_ascii (q : List UInt8) (h : leadLength b = some 1) (hb : b ≠ 0) :
    mbrtoc32 true (some (b :: q)) .init = resetAndReturn 1 (some b.toNat) := by
  have ha : b &&& ~~~0x7f = 0 := by
    have hl := leadLength_iff.mp h
    exact (and_eq_iff 7 1 0 (by decide) (by decide)).mpr (by omega)
  rw [mbrtoc32, if_neg (by decide), Option.getD_some]
  dsimp only
  rw [if_pos ⟨rfl, ha⟩, if_pos hb]
  rfl

theorem mbrtoc32_encodes (h : Encodes b bs c) (hc : c.toNat ≠ 0) :
    mbrtoc32 true (some (b :: bs)) .init = resetAndReturn (bs.length + 1) (some c.toNat) := by
  by_cases hbs : bs = []
  · subst hbs
    obtain ⟨-, hv⟩ := encodes_one.mp h
    have hb : b ≠ 0 := by
      rintro rfl
      exact hc hv.symm
    rw [mbrtoc32_ascii [] h.length hb, hv]
    rfl
  · rw [(Lead.of_encodes h hbs).mbrtoc32_init]
    exact outcome_encodes (p := []) h hbs

theorem feed_encodes (hp : ∀ q ∈ pieces ++ [last], q ≠ []) (hb : (pieces ++ [last]).flatten = b :: bs)
    (h : Encodes b bs c) (hc : c.toNat ≠ 0) :
    feed .init (pieces ++ [last]) = (waiting pieces ++ [(.count last.length, some c.toNat)], .init) := by
  cases pieces with
  | nil =>
    rw [nil_append, flatten_singleton] at hb
    subst hb
    rw [nil_append, feed_cons (mbrtoc32_encodes h hc)]
    rfl
  | cons q pieces =>
    obtain ⟨x, q, rfl⟩ := exists_cons_of_ne_nil (hp q mem_cons_self)
    rw [cons_append, flatten_cons, cons_append] at hb
    obtain ⟨rfl, rfl⟩ := cons.inj hb
    have hpos : 0 < (pieces ++ [last]).flatten.length := by
      have hla := length_pos_iff.mpr (hp last (by simp))
      rw [flatten_append, length_append, flatten_singleton]
      omega
    have hl := Lead.of_encodes h (append_ne_nil_of_right_ne_nil _ (length_pos_iff.mp hpos))
    have hca : mbrtoc32 true (some (x :: q)) .init = ⟨.incomplete, none, .holding (x :: q)⟩ := by
      rw [hl.mbrtoc32_init, hl.outcome_short (p := []) (Nat.succ_le_succ (Nat.zero_le _)) fun y hy => h.cont y (mem_append_left _ hy)]
      · rfl
      · rw [length_append, length_nil]
        omega
    rw [cons_append, feed_cons hca, feed_holding (fun q hq => hp q (mem_cons_of_mem _ hq)) h]
    rfl

/-- Every cutting of the bytes of a character has a last piece, which gives the character. -/
theorem feed_utf8EncodeChar (hp : ∀ q ∈ pieces, q ≠ []) (hb : pieces.flatten = String.utf8EncodeChar c)
    (hc : c.toNat ≠ 0) :
    ∃ pre last, pieces = pre ++ [last] ∧ feed .init pieces = (waiting pre ++ [(.count last.length, some c.toNat)], .init) := by
  obtain ⟨b, bs, hco⟩ := exists_cons_of_ne_nil (String.utf8EncodeChar_ne_nil (c := c))
  obtain rfl | ⟨pre, last, rfl⟩ := pieces.eq_nil_or_concat
  · exact absurd hb.symm String.utf8EncodeChar_ne_nil
  · rw [concat_eq_append] at *
    exact ⟨pre, last, rfl, feed_encodes hp (hb.trans hco) (eq_utf8EncodeChar_iff.mp hco.symm) hc⟩

/-- Some call refuses its piece, and those before it ask for more bytes. -/
def Refused (state : MbState) (pieces : List (List UInt8)) : Prop :=
  ∃ pre piece post st, pieces = pre ++ piece :: post ∧ feed state pre = (waiting pre, st) ∧
    mbrtoc32 true (some piece) st = resetAndReturnIllegal .eilseq

theorem Refused.now
    (h : mbrtoc32 true (some piece) state = resetAndReturnIllegal .eilseq) : Refused state (piece :: pieces) :=
  ⟨[], piece, pieces, state, rfl, rfl, h⟩

theorem Refused.later {st : MbState}
    (h : mbrtoc32 true (some piece) state = ⟨.incomplete, none, st⟩) (hr : Refused st pieces) :
    Refused state (piece :: pieces) := by
  obtain ⟨pre, q, post, st', rfl, hf, hq⟩ := hr
  refine ⟨piece :: pre, q, post, st', rfl, ?_, hq⟩
  rw [feed_cons h, hf]
  rfl

theorem encodes_of_value (hle : Lead b n) (hbs : ∀ x ∈ bs, IsCont x) (hl : bs.length + 1 = n)
    (hlow : lowest n ≤ value b bs) (hv : (value b bs).isValidChar) : ∃ c, Encodes b bs c :=
  ⟨.ofNatAux (value b bs) hv, hle.length.trans (congrArg some hl.symm), hbs, rfl, hl ▸ hlow⟩

theorem refused_outcome (hle : Lead b n)
    (hp : ∀ x ∈ p, IsCont x) (hc : mbrtoc32 true (some piece) state = outcome b p q n wanted)
    (hpi : ∀ q ∈ pieces, q ≠ []) (hl : (p ++ q ++ pieces.flatten).length + 1 = n)
    (h : ¬∃ c, Encodes b (p ++ q ++ pieces.flatten) c)
    (hla : (∀ x ∈ p ++ q, IsCont x) → (p ++ q).length + 1 < n → Refused (.holding (b :: (p ++ q))) pieces) :
    Refused state (piece :: pieces) := by
  rw [length_append, length_append] at hl
  by_cases hq : ∀ x ∈ q, IsCont x
  · have hall (x : UInt8) (hx : x ∈ p ++ q) : IsCont x := (mem_append.mp hx).elim (hp x) (hq x)
    cases pieces with
    | nil =>
      rw [flatten_nil, append_nil] at h
      rw [flatten_nil, length_nil] at hl
      apply Refused.now
      rw [hc, hle.outcome_full (by omega) hq (by omega), if_neg]
      rintro ⟨hlow, hv⟩
      exact h (encodes_of_value hle hall (by rw [length_append]; omega) hlow hv)
    | cons r pieces =>
      have hpos := length_pos_iff.mpr (hpi r mem_cons_self)
      rw [flatten_cons, length_append] at hl
      rw [hle.outcome_short (by omega) hq (by omega)] at hc
      exact .later hc (hla hall (by rw [length_append]; omega))
  · apply Refused.now
    rw [hc, hle.outcome_of_not_cont (by omega)]
    rwa [take_of_length_le (by omega)]

theorem refused_holding (hle : Lead b n) (hp : ∀ x ∈ p, IsCont x) (hpi : ∀ q ∈ pieces, q ≠ [])
    (hl : (p ++ pieces.flatten).length + 1 = n) (hlt : p.length + 1 < n)
    (h : ¬∃ c, Encodes b (p ++ pieces.flatten) c) : Refused (.holding (b :: p)) pieces := by
  induction pieces generalizing p with
  | nil =>
    rw [flatten_nil, append_nil] at hl
    omega
  | cons q pieces ih =>
    rw [flatten_cons, ← append_assoc] at hl h
    have hre (r : List UInt8) (hr : r ∈ pieces) : r ≠ [] := hpi r (mem_cons_of_mem q hr)
    exact refused_outcome hle hp (hle.mbrtoc32_holding hp hlt (hpi q mem_cons_self)) hre hl h
      fun hall hlt => ih hall hre hl hlt h

theorem refused_init (hle : Lead b n) (hp : ∀ q ∈ pieces, q ≠ []) (hb : pieces.flatten = b :: bs)
    (hl : bs.length + 1 = n) (h : ¬∃ c, Encodes b bs c) : Refused .init pieces := by
  cases pieces with
  | nil => cases hb
  | cons q pieces =>
    obtain ⟨x, q, rfl⟩ := exists_cons_of_ne_nil (hp q mem_cons_self)
    obtain ⟨rfl, rfl⟩ := cons.inj hb
    have hre (r : List UInt8) (hr : r ∈ pieces) : r ≠ [] := hp r (mem_cons_of_mem _ hr)
    exact refused_outcome (p := []) hle (by simp) (hle.mbrtoc32_init q) hre hl h
      fun hall hlt => refused_holding hle hall hre hl hlt h

/-- The bytes of a character other than the null one are taken in any pieces, the last of which gives the
character; bytes that encode none are refused by some call, up to which nothing is stored. -/
theorem mbrtoc32_pieces (pieces : List (List UInt8)) (hpieces : ∀ q ∈ pieces, q ≠ []) :
    (∀ c : Char, c.toNat ≠ 0 → pieces.flatten = String.utf8EncodeChar c →
      ∃ pre last, pieces = pre ++ [last] ∧
        feed .init pieces = (waiting pre ++ [(.count last.length, some c.toNat)], .init)) ∧
    (∀ b bs, pieces.flatten = b :: bs → leadLength b = some (bs.length + 1) →
      (∀ c, String.utf8EncodeChar c ≠ b :: bs) → Refused .init pieces) := by
  constructor
  · intro c hc hb
    exact feed_utf8EncodeChar hpieces hb hc
  · intro b bs hb hl hn
    have hn' : ¬∃ c, Encodes b bs c := by
      rintro ⟨c, hc⟩
      exact hn c (eq_utf8EncodeChar_iff.mpr hc).symm
    cases bs with
    | nil =>
      have ha : b.toNat < 0x80 := by
        have hiff := leadLength_iff.mp hl
        rw [length_nil] at hiff
        omega
      exact absurd ⟨.ofNatAux b.toNat (Or.inl (by omega)), encodes_one.mpr ⟨ha, rfl⟩⟩ hn'
    | cons x bs => exact refused_init ⟨hl, by simp⟩ hpieces hb rfl hn'

theorem mbrtoc32_pieces_euro :
    (∃ pre last, [[0xe2], [0x82, 0xac]] = pre ++ [last] ∧
      feed .init [[0xe2], [0x82, 0xac]] = (waiting pre ++ [(.count last.length, some 0x20ac)], .init)) ∧
      Refused .init [[0xc0], [0x80]] := by
  refine ⟨(mbrtoc32_pieces [[0xe2], [0x82, 0xac]] (by decide)).1 '€' (by decide) (by decide), ?_⟩
  refine (mbrtoc32_pieces [[0xc0], [0x80]] (by decide)).2 0xc0 [0x80] rfl rfl fun c hc => ?_
  have he := encodes_two.mp (eq_utf8EncodeChar_iff.mp hc.symm)
  simp at he
  omega

/-- After a refused piece the next one is taken from the initial state. -/
theorem stores_after_refusal :
    feed .init [[0xe2], [0x41], [0x42]] =
        ([(.incomplete, none), (.illegal .eilseq, none), (.count 1, some 0x42)], .init) ∧
      leadLength 0xe2 = some 3 ∧ ∀ c, String.utf8EncodeChar c ≠ [0xe2, 0x41, 0x42] := by
  refine ⟨rfl, rfl, fun c hc => ?_⟩
  have he := encodes_three.mp (eq_utf8EncodeChar_iff.mp hc.symm)
  simp at he

end Bionic.Wchar
