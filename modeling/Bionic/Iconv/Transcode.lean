import Bionic.Iconv.Progress

namespace Bionic.Iconv

open Lib Wchar List Nat

variable {cv : Converter} {input : List UInt8} {s : State} {fuel : ℕ} {c : Char} {cs : List Char}

def encode : Encoding → Char → List UInt8
  | .usAscii, c => [.ofNat c.toNat]
  | .utf8, c => String.utf8EncodeChar c
  | .utf16le, c => (units c).flatMap (leBytes 2)
  | .utf16be, c => (units c).flatMap fun u => (leBytes 2 u).reverse
  | .utf32le, c | .wcharT, c => leBytes 4 c.toNat
  | .utf32be, c => (leBytes 4 c.toNat).reverse

variable (e : Encoding) (fuel : ℕ)

@[simp] def encodeAll (cs : List Char) : List UInt8 := cs.flatMap (encode e)

section Bytes

variable {u : ℕ}

theorem out16_swap (u : ℕ) : out16 u true = (leBytes 2 u).reverse := leBytes_byteSwap 2 u

theorem out32_swap (u : ℕ) : out32 u true = (leBytes 4 u).reverse := leBytes_byteSwap 4 u

theorem in16_out16 (hu : u < 0x10000) (swap : Bool) : in16 (out16 u swap) swap = u := by
  have hv : leValue (leBytes 2 u) = u := (leValue_leBytes 2 u).trans (mod_eq_of_lt hu)
  cases swap with
  | false => exact hv
  | true =>
    rw [out16_swap]
    exact (byteSwap_leValue_reverse (leBytes 2 u)).trans hv

theorem in32_out32 (hu : u < 0x100000000) (swap : Bool) : in32 (out32 u swap) swap = u := by
  have hv : leValue (leBytes 4 u) = u := (leValue_leBytes 4 u).trans (mod_eq_of_lt hu)
  cases swap with
  | false => exact hv
  | true =>
    rw [out32_swap]
    exact (byteSwap_leValue_reverse (leBytes 4 u)).trans hv

@[simp]
theorem length_out16 (u : ℕ) (swap : Bool) : (out16 u swap).length = 2 := length_leBytes 2 _

@[simp]
theorem length_out32 (u : ℕ) (swap : Bool) : (out32 u swap).length = 4 := length_leBytes 4 _

end Bytes

theorem encode_utf16 (c : Char) :
    encode .utf16le c = (units c).flatMap (out16 · false) ∧ encode .utf16be c = (units c).flatMap (out16 · true) := by
  refine ⟨rfl, ?_⟩
  show (units c).flatMap _ = _
  congr 1
  funext u
  exact (out16_swap u).symm

theorem encode_utf32 (c : Char) :
    encode .utf32le c = out32 c.toNat false ∧ encode .wcharT c = out32 c.toNat false ∧
      encode .utf32be c = out32 c.toNat true :=
  ⟨rfl, rfl, (out32_swap c.toNat).symm⟩

section Put

theorem putUtf16_eq (c : Char) (swap : Bool) : putChar.putUtf16 c.toNat swap = (units c).flatMap (out16 · swap) := by
  have hc := Utf8.toNat_lt c
  rw [putChar.putUtf16]
  split
  · rename_i hs
    rw [units_of_lt hs]
    simp
  · rename_i hl
    have hlow : c.toNat - 0x10000 &&& 0x3ff = (c.toNat - 0x10000) % 0x400 := and_two_pow_sub_one_eq_mod _ 10
    have hhi : (0xd800 ||| (c.toNat - 0x10000) >>> 10) % 0x10000 = 0xd800 + (c.toNat - 0x10000) / 0x400 := by
      rw [or_low (s := 10) (by omega) rfl]
      omega
    have hlo : 0xdc00 ||| c.toNat - 0x10000 &&& 0x3ff = 0xdc00 + (c.toNat - 0x10000) % 0x400 := by
      rw [hlow]
      exact or_low (s := 10) (mod_lt _ (by decide)) rfl
    rw [units_of_le (by omega)]
    simp only [hhi, hlo, flatMap_cons, flatMap_nil, append_nil]

theorem putChar_eq {e : Encoding} (he : e ≠ .usAscii) (c : Char) :
    putChar e c.toNat .init = (some (encode e c), .init) := by
  cases e with
  | usAscii => exact absurd rfl he
  | utf8 => simp only [putChar, c32rtomb_eq]; rfl
  | utf16le => simp only [putChar, putUtf16_eq, (encode_utf16 c).1]
  | utf16be => simp only [putChar, putUtf16_eq, (encode_utf16 c).2]
  | utf32le => simp only [putChar, (encode_utf32 c).1]
  | wcharT => simp only [putChar, (encode_utf32 c).2.1]
  | utf32be => simp only [putChar, (encode_utf32 c).2.2]

end Put

section Get

variable {tail : List UInt8} {left : UInt64}

theorem Within.read_at (h : Within input s) {k n : ℕ} (hn : k + n ≤ s.srcBytesLeft.toNat) :
    read input (s.srcPos.toNat + k) n = some (((s.rest input).drop k).take n) := by
  have hb := h.bounds
  rw [read, if_pos (by omega), State.rest, drop_drop]

theorem not_lt_two (h : 2 ≤ left.toNat) : ¬left < 2 :=
  fun hlt => absurd (UInt64.lt_iff_toNat_lt.mp hlt) (not_lt.mpr h)

theorem not_lt_four (h : 4 ≤ left.toNat) : ¬left < 4 :=
  fun hlt => absurd (UInt64.lt_iff_toNat_lt.mp hlt) (not_lt.mpr h)

theorem getUtf16_eq (h : Within input s) (hps : s.ps = .init) (swap : Bool)
    (hr : s.rest input = (units c).flatMap (out16 · swap) ++ tail) :
    getUtf16 input s swap = .char c.toNat (.ofNat ((units c).flatMap (out16 · swap)).length) .init := by
  have hva : c.toNat.isValidChar := isValidChar_toNat c
  have hl := h.length_rest
  rw [getUtf16]
  by_cases hs : c.toNat < 0x10000
  · rw [units_of_lt hs] at hr ⊢
    simp only [flatMap_cons, flatMap_nil, append_nil, length_out16] at hr ⊢
    rw [hr, length_append, length_out16] at hl
    have hsu : ¬(c.toNat ≥ 0xd800 ∧ c.toNat ≤ 0xdfff) := by
      omega
    rw [if_neg (not_lt_two (by omega)), h.read_eq (by omega), hr,
      take_append_of_le_length (by simp), take_of_length_le (by simp)]
    dsimp only
    rw [in16_out16 hs, if_neg hsu, hps]
    rfl
  · have hla := Nat.le_of_not_lt hs
    rw [units_of_le hla] at hr ⊢
    simp only [flatMap_cons, flatMap_nil, append_nil, length_append, length_out16] at hr ⊢
    set hi := 0xd800 + (c.toNat - 0x10000) / 0x400 with hhi
    set lo := 0xdc00 + (c.toNat - 0x10000) % 0x400 with hlo
    rw [hr, length_append, length_append, length_out16, length_out16] at hl
    have hf : (s.rest input).take 2 = out16 hi swap := by
      rw [hr, append_assoc, take_append_of_le_length (by simp), take_of_length_le (by simp)]
    have hse : ((s.rest input).drop 2).take 2 = out16 lo swap := by
      rw [hr, append_assoc, drop_append_of_le_length (by simp), drop_of_length_le (by simp),
        nil_append, take_append_of_le_length (by simp), take_of_length_le (by simp)]
    have hv : 0x10000 + (hi - 0xd800) <<< 10 + lo - 0xdc00 = c.toNat := by
      rw [shiftLeft_eq]
      omega
    rw [if_neg (not_lt_two (by omega)), h.read_eq (by omega), hf]
    dsimp only
    rw [in16_out16 (by omega), if_pos (by omega), if_neg (by omega),
      if_neg (not_lt_four (by omega)), h.read_at (by omega), hse]
    dsimp only
    rw [in16_out16 (by omega), hv, hps]
    rfl

theorem getUtf32_eq (h : Within input s) (hps : s.ps = .init) (swap : Bool)
    (hr : s.rest input = out32 c.toNat swap ++ tail) :
    getUtf32 input s swap = .char c.toNat (.ofNat (out32 c.toNat swap).length) .init := by
  have hc := Utf8.toNat_lt c
  have hl := h.length_rest
  rw [hr, length_append, length_out32] at hl
  rw [getUtf32, if_neg (not_lt_four (by omega)), h.read_eq (by omega), hr,
    take_append_of_le_length (by simp), take_of_length_le (by simp)]
  dsimp only
  rw [in32_out32 (by omega), hps]
  rfl

theorem getUtf8_char (h : Within input s) (hps : s.ps = .init) (hc : c.toNat ≠ 0)
    (hr : s.rest input = String.utf8EncodeChar c ++ tail) :
    getUtf8 input s = .char c.toNat (.ofNat (String.utf8EncodeChar c).length) .init := by
  obtain ⟨b, bs, hco⟩ := exists_cons_of_ne_nil (String.utf8EncodeChar_ne_nil (c := c))
  have he := Utf8.eq_utf8EncodeChar_iff.mp hco.symm
  rw [getUtf8_eq h hps, hr, hco, cons_append, mbrtoc32_append he hc]
  rfl

theorem getChar_eq {e : Encoding} (he : e ≠ .usAscii) (h : Within input s) (hps : s.ps = .init) (hc : c.toNat ≠ 0)
    (hr : s.rest input = encode e c ++ tail) :
    getChar e input s = .char c.toNat (.ofNat (encode e c).length) .init := by
  cases e with
  | usAscii => exact absurd rfl he
  | utf8 => exact getUtf8_char h hps hc hr
  | utf16le =>
    rw [(encode_utf16 c).1] at hr ⊢
    exact getUtf16_eq h hps false hr
  | utf16be =>
    rw [(encode_utf16 c).2] at hr ⊢
    exact getUtf16_eq h hps true hr
  | utf32le =>
    rw [(encode_utf32 c).1] at hr ⊢
    exact getUtf32_eq h hps false hr
  | wcharT =>
    exact getUtf32_eq h hps false hr
  | utf32be =>
    rw [(encode_utf32 c).2.2] at hr ⊢
    exact getUtf32_eq h hps true hr

end Get

structure Transcodes (cv : Converter) : Prop where
  src : cv.srcEncoding ≠ .usAscii
  dst : cv.dstEncoding ≠ .usAscii
  mode : cv.mode = .error

structure Behind (cv : Converter) (input : List UInt8) (s : State) (pre post : List Char) (s' : State) : Prop where
  within : Within input s'
  ps : s'.ps = .init
  ignored : s'.ignored = s.ignored
  dst : s'.dst = s.dst ++ encodeAll cv.dstEncoding pre
  room : s'.dstBytesLeft.toNat + (encodeAll cv.dstEncoding pre).length = s.dstBytesLeft.toNat
  rest : s'.rest input = encodeAll cv.srcEncoding post

theorem encodeAll_cons (c : Char) (cs : List Char) : encodeAll e (c :: cs) = encode e c ++ encodeAll e cs :=
  flatMap_cons

theorem encode_ne_nil (c : Char) : encode e c ≠ [] := by
  cases e with
  | utf8 => exact String.utf8EncodeChar_ne_nil
  | utf16le | utf16be =>
    by_cases hs : c.toNat < 0x10000
    · simp [encode, units_of_lt hs, leBytes]
    · simp [encode, units_of_le (Nat.le_of_not_lt hs), leBytes]
  | usAscii | utf32le | utf32be | wcharT => simp [encode, leBytes]

/-- A turn is for one character: it writes all its bytes and passes over all of them, or does nothing. -/
theorem turn_char (hcv : Transcodes cv) (h : Within input s) (hps : s.ps = .init) (hc : c.toNat ≠ 0)
    (hr : s.rest input = encodeAll cv.srcEncoding (c :: cs)) :
    (s.dstBytesLeft.toNat < (encode cv.dstEncoding c).length ∧
      ∃ s', turn cv input (fuel + 1) s = .fail .e2big s' ∧ Behind cv input s [] (c :: cs) s') ∨
    ∃ s', turn cv input (fuel + 1) s = .go s' ∧ Behind cv input s [c] cs s' := by
  rw [encodeAll_cons] at hr
  have hget := getChar_eq hcv.src h hps hc hr
  have hl := h.length_rest
  rw [hr, length_append] at hl
  set got : State := { s with wc := c.toNat, srcBytesUsed := .ofNat (encode cv.srcEncoding c).length, ps := .init }
  have hw : Within input got := ⟨h.size, h.bounds⟩
  have hu : got.srcBytesUsed.toNat = (encode cv.srcEncoding c).length := by
    have hlt := s.srcBytesLeft.toNat_lt
    exact UInt64.toNat_ofNat_of_lt' (by rw [UInt64.size]; omega)
  have ht : turn cv input (fuel + 1) s = got.emit (encode cv.dstEncoding c) := by
    have hput : putChar cv.dstEncoding got.wc got.ps = (some (encode cv.dstEncoding c), .init) := putChar_eq hcv.dst c
    simp only [turn, getNext, hget]
    show convert cv (fuel + 1) got = _
    simp only [convert, hput]
    rfl
  rw [ht, State.emit]
  by_cases hf : got.dstBytesLeft.toNat < (encode cv.dstEncoding c).length
  · rw [if_pos hf]
    refine .inl ⟨hf, got, rfl, hw, rfl, rfl, ?_, ?_, ?_⟩
    · simp [got]
    · simp [got]
    · exact hr
  · rw [if_neg hf]
    obtain ⟨ha, -, hd⟩ := hw.advance (by rw [hu]; show _ ≤ s.srcBytesLeft.toNat; omega)
    have hs : (UInt64.ofNat (encode cv.dstEncoding c).length).toNat = (encode cv.dstEncoding c).length := by
      have hlt := got.dstBytesLeft.toNat_lt
      exact UInt64.toNat_ofNat_of_lt' (by rw [UInt64.size]; omega)
    refine .inr ⟨_, rfl, ⟨ha.size, ha.bounds⟩, rfl, rfl, ?_, ?_, ?_⟩
    · simp [got]
    · show (got.dstBytesLeft - _).toNat + _ = got.dstBytesLeft.toNat
      rw [UInt64.toNat_sub_of_le _ _ (UInt64.le_iff_toNat_le.mpr (by omega)), hs]
      simp only [encodeAll, flatMap_cons, flatMap_nil, append_nil]
      omega
    · refine hd.trans ?_
      rw [hu]
      show (s.rest input).drop _ = _
      rw [hr]
      simp

theorem loop_chars (hcv : Transcodes cv) (h : Within input s) (hps : s.ps = .init) (hcs : ∀ c ∈ cs, c.toNat ≠ 0)
    (hr : s.rest input = encodeAll cv.srcEncoding cs) (hf : cs.length < fuel) :
    ∃ pre post s', cs = pre ++ post ∧ Behind cv input s pre post s' ∧
      (post = [] ∧ loop cv input fuel s = .go s' ∨
        ∃ c cs', post = c :: cs' ∧ loop cv input fuel s = .fail .e2big s' ∧
          s'.dstBytesLeft.toNat < (encode cv.dstEncoding c).length) := by
  induction cs generalizing s fuel with
  | nil =>
    obtain ⟨fuel, rfl⟩ := exists_eq_succ_of_ne_zero (ne_zero_of_lt hf)
    have hle : s.srcBytesLeft = 0 := by
      have hl := h.length_rest
      rw [hr] at hl
      exact UInt64.toNat_inj.mp hl.symm
    refine ⟨[], [], s, rfl, ⟨h, hps, rfl, ?_, ?_, hr⟩, .inl ⟨rfl, ?_⟩⟩
    · simp
    · simp
    · rw [loop, hle]
      rfl
  | cons c cs ih =>
    obtain ⟨fuel, rfl⟩ := exists_eq_succ_of_ne_zero (ne_zero_of_lt hf)
    have hle : s.srcBytesLeft > 0 := by
      have hl := h.length_rest
      have hpos := length_pos_of_ne_nil (encode_ne_nil cv.srcEncoding c)
      rw [hr, encodeAll_cons, length_append] at hl
      exact UInt64.lt_iff_toNat_lt.mpr (by simp only [UInt64.toNat_zero]; omega)
    rw [loop, if_pos hle]
    rcases turn_char fuel hcv h hps (hcs c mem_cons_self) hr with
      ⟨hfu, s', ht, hb⟩ | ⟨s', ht, hb⟩
    · rw [ht]
      have hro : s'.dstBytesLeft.toNat = s.dstBytesLeft.toNat := hb.room
      exact ⟨[], c :: cs, s', rfl, hb, .inr ⟨c, cs, rfl, rfl, by omega⟩⟩
    · rw [ht]
      obtain ⟨pre, post, s'', rfl, hb', he⟩ := ih _ hb.within hb.ps
        (fun d hd => hcs d (mem_cons_of_mem c hd)) hb.rest (lt_of_succ_lt_succ hf)
      refine ⟨c :: pre, post, s'', rfl, ⟨hb'.within, hb'.ps, hb'.ignored.trans hb.ignored, ?_, ?_,
        hb'.rest⟩, he⟩
      · rw [hb'.dst, hb.dst]
        simp
      · have hro := hb.room
        have hro' := hb'.room
        simp only [encodeAll, flatMap_cons, flatMap_nil, append_nil, length_append] at hro hro' ⊢
        omega

/-- What a program has when it gives a new buffer to each call: all that was written, what is left of the input, and what
the last call returned. -/
structure Session where
  out : List UInt8
  rest : List UInt8
  ret : Return

def session (cv : Converter) (input : List UInt8) (sizes : ℕ → UInt64) : ℕ → Option Session
  | 0 => some ⟨[], input, .error .e2big⟩
  | n + 1 =>
    (session cv input sizes n).bind fun p =>
      if p.ret = .error .e2big then
        (iconv cv p.rest (sizes n) (p.rest.length + 1)).map fun r => ⟨p.out ++ r.2.dst, r.2.rest p.rest, r.1⟩
      else some p

theorem length_le_encodeAll (cs : List Char) : cs.length ≤ (encodeAll e cs).length := by
  induction cs with
  | nil => exact zero_le _
  | cons c cs ih =>
    have hpos := length_pos_of_ne_nil (encode_ne_nil e c)
    rw [encodeAll_cons, length_append, length_cons]
    omega

theorem encodeAll_append (pre post : List Char) : encodeAll e (pre ++ post) = encodeAll e pre ++ encodeAll e post :=
  flatMap_append

theorem iconv_chars (hcv : Transcodes cv) (hcs : ∀ c ∈ cs, c.toNat ≠ 0) (hi : input = encodeAll cv.srcEncoding cs)
    (hsi : input.length < UInt64.size) (size : UInt64) :
    ∃ pre post r s', cs = pre ++ post ∧ iconv cv input size (input.length + 1) = some (r, s') ∧
      s'.dst = encodeAll cv.dstEncoding pre ∧ s'.rest input = encodeAll cv.srcEncoding post ∧
      (post = [] ∧ r = .count 0 ∨
        ∃ c cs', post = c :: cs' ∧ r = .error .e2big ∧
          (pre = [] → size.toNat < (encode cv.dstEncoding c).length)) := by
  have hle := length_le_encodeAll cv.srcEncoding cs
  have hs := Within.start hsi size
  obtain ⟨pre, post, s', rfl, hb, he⟩ := loop_chars (input.length + 1) hcv hs rfl hcs hi
    (by rw [hi]; omega)
  have hdst : s'.dst = encodeAll cv.dstEncoding pre := hb.dst
  rcases he with ⟨rfl, hl⟩ | ⟨c, cs', rfl, hl, hf⟩
  · have hd : done cv s' = .count 0 := by
      have hig : s'.ignored = false := hb.ignored
      rw [done, hcv.mode, hig]
      rfl
    exact ⟨pre, [], .count 0, s', rfl, by simp only [iconv, hl, hd], hdst, hb.rest, .inl ⟨rfl, rfl⟩⟩
  · refine ⟨pre, c :: cs', .error .e2big, s', rfl, by rw [iconv, hl], hdst, hb.rest, .inr ⟨c, cs', rfl, rfl, ?_⟩⟩
    rintro rfl
    have hr : s'.dstBytesLeft.toNat = size.toNat := hb.room
    omega

/-- After every call the input is at the end of a character and what was written encodes the characters up to
there; a call that has room for a character takes one. -/
theorem session_chars (hcv : Transcodes cv) (hcs : ∀ c ∈ cs, c.toNat ≠ 0) (hi : input = encodeAll cv.srcEncoding cs)
    (hsi : input.length < UInt64.size) {sizes : ℕ → UInt64}
    (hro : ∀ n p c post, session cv input sizes (n + 1) = some p → p.ret = .error .e2big →
      p.rest = encodeAll cv.srcEncoding (c :: post) → (encode cv.dstEncoding c).length ≤ (sizes (n + 1)).toNat) (n : ℕ) :
    ∃ p pre post, session cv input sizes n = some p ∧ cs = pre ++ post ∧ p.out = encodeAll cv.dstEncoding pre ∧
      p.rest = encodeAll cv.srcEncoding post ∧
      (p.ret = .count 0 ∧ post = [] ∨ p.ret = .error .e2big ∧ (0 < n → post ≠ [] ∧ n ≤ pre.length + 1)) := by
  induction n with
  | zero =>
    refine ⟨_, [], cs, rfl, rfl, rfl, hi, .inr ⟨rfl, ?_⟩⟩
    intro hlt
    exact absurd hlt (lt_irrefl 0)
  | succ n ih =>
    obtain ⟨p, pre, post, hp, rfl, hout, hr, hret⟩ := ih
    rcases hret with ⟨hret, rfl⟩ | ⟨hret, hl⟩
    · refine ⟨p, pre, [], ?_, rfl, hout, hr, .inl ⟨hret, rfl⟩⟩
      rw [session, hp, Option.bind_some, if_neg (by rw [hret]; simp)]
    · have hpo : ∀ c ∈ post, c.toNat ≠ 0 := fun c hc => hcs c (mem_append_right pre hc)
      have hs : p.rest.length < UInt64.size := by
        rw [hi, encodeAll_append, length_append] at hsi
        rw [hr]
        omega
      obtain ⟨pre', post', r, s', rfl, hca, hdst, hr', he⟩ := iconv_chars hcv hpo hr hs (sizes n)
      refine ⟨⟨p.out ++ s'.dst, s'.rest p.rest, r⟩, pre ++ pre', post', ?_, ?_, ?_, hr', ?_⟩
      · rw [session, hp, Option.bind_some, if_pos hret, hca]
        rfl
      · rw [append_assoc]
      · rw [hout, hdst, encodeAll_append]
      · rcases he with ⟨rfl, rfl⟩ | ⟨c, cs', rfl, rfl, hf⟩
        · exact .inl ⟨rfl, rfl⟩
        · refine .inr ⟨rfl, fun _ => ⟨cons_ne_nil c cs', ?_⟩⟩
          cases n with
          | zero => omega
          | succ n =>
            have hne : pre' ≠ [] := by
              rintro rfl
              have hle := hro n p c cs' hp hret hr
              have hlt := hf rfl
              omega
            have hpos := length_pos_of_ne_nil hne
            rw [length_append]
            omega

/-- Between any two of the encodings of all characters, a text is transcoded whatever buffers the output comes in. -/
theorem transcode_buffers (cv : Converter) (hcv : Transcodes cv) (cs : List Char) (hcs : ∀ c ∈ cs, c.toNat ≠ 0)
    (sizes : ℕ → UInt64) (hsize : (encodeAll cv.srcEncoding cs).length < UInt64.size)
    (hroom : ∀ n p c post, session cv (encodeAll cv.srcEncoding cs) sizes (n + 1) = some p → p.ret = .error .e2big →
      p.rest = encodeAll cv.srcEncoding (c :: post) → (encode cv.dstEncoding c).length ≤ (sizes (n + 1)).toNat) :
    (∀ n, ∃ p pre post, session cv (encodeAll cv.srcEncoding cs) sizes n = some p ∧ cs = pre ++ post ∧
      p.out = encodeAll cv.dstEncoding pre ∧ p.rest = encodeAll cv.srcEncoding post ∧
      (p.ret = .count 0 ∧ post = [] ∨ p.ret = .error .e2big ∧ (0 < n → post ≠ []))) ∧
    ∃ p, session cv (encodeAll cv.srcEncoding cs) sizes (cs.length + 1) = some p ∧ p.ret = .count 0 ∧
      p.out = encodeAll cv.dstEncoding cs ∧ p.rest = [] := by
  have h := session_chars hcv hcs rfl hsize hroom
  constructor
  · intro n
    obtain ⟨p, pre, post, hp, ha, hout, hr, hret⟩ := h n
    exact ⟨p, pre, post, hp, ha, hout, hr, hret.imp_right fun ⟨hret, hl⟩ => ⟨hret, fun hn => (hl hn).1⟩⟩
  · obtain ⟨p, pre, post, hp, ha, hout, hr, hret⟩ := h (cs.length + 1)
    rcases hret with ⟨hret, rfl⟩ | ⟨-, hl⟩
    · rw [append_nil] at ha
      exact ⟨p, hp, hret, ha ▸ hout, hr⟩
    · obtain ⟨hne, hlen⟩ := hl (succ_pos _)
      have hpos := length_pos_of_ne_nil hne
      rw [ha, length_append] at hlen
      omega

theorem transcode_buffers_euro :
    ∃ p, session ⟨.utf8, .utf32be, .error⟩ (encodeAll .utf8 ['a', '€']) (fun _ => 4) 3 = some p ∧ p.ret = .count 0 ∧
      p.out = encodeAll .utf32be ['a', '€'] ∧ p.rest = [] := by
  have hr (c : Char) : (encode .utf32be c).length ≤ 4 := by simp [encode]
  exact (transcode_buffers ⟨.utf8, .utf32be, .error⟩ ⟨by decide, by decide, rfl⟩ ['a', '€'] (by simp) (fun _ => 4)
    (by decide) fun _ _ c _ _ _ _ => hr c).2

end Bionic.Iconv
