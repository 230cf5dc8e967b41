import Bionic.Liblog.EventListWrite

namespace Bionic.EventList

open Lib Function List Nat Forest

namespace Forest

def tokens : Forest → List Data
  | nil => []
  | scalar s rest => s.data :: rest.tokens
  | list inner rest => .list :: (inner.tokens ++ .listStop :: rest.tokens)

def Small : Forest → Prop
  | nil => True
  | scalar _ rest => rest.Small
  | list inner rest => inner.length ≤ 127 ∧ inner.Small ∧ rest.Small

end Forest

namespace Reader

variable {r r' : Reader} {d c p : ℕ} {s : Scalar}

def reads : List Data → Reader → Option Reader
  | [], r => some r
  | t :: ts, r => if r.androidLogReadNext.1 = ⟨t, false⟩ then reads ts r.androidLogReadNext.2 else none

theorem reads_append (ts us : List Data) (r : Reader) : reads (ts ++ us) r = (reads ts r).bind (reads us) := by
  induction ts generalizing r with
  | nil => rfl
  | cons t ts ih =>
    rw [cons_append, reads, reads]
    split
    · exact ih _
    · rfl

variable {t : Data} {ts : List Data}

theorem reads_cons_of_eq (h : r.androidLogReadNext = (⟨t, false⟩, r')) : reads (t :: ts) r = reads ts r' := by
  rw [reads, h]
  exact if_pos rfl

theorem reads_cons_of_complete (h : r.androidLogReadNext.1.complete) : reads (t :: ts) r = none := by
  rw [reads, if_neg]
  intro heq
  rw [heq] at h
  cases h

structure Open (r : Reader) : Prop where
  depth : r.listNestDepth ≤ maxListNestDepth
  count : r.count r.listNestDepth < maxEventPayload / 2
  stop : r.listStop = false
  len : r.len ≤ maxEventPayload

theorem readNext_open (h : r.Open) (hpos : r.pos < r.len) : r.androidLogReadNext = r.readElement false := by
  rw [androidLogReadNext, androidLogReadNextInternal, if_neg, h.stop, if_neg Bool.false_ne_true,
    if_neg (not_lt.mpr hpos)]
  rintro (hd | hc)
  · exact not_lt.mpr h.depth hd
  · exact not_le.mpr h.count hc

variable {k n : ℕ}

theorem word_eq (h : Holds r.storage (r.pos + 1) (leBytes k n)) : r.word k = n % 256 ^ k := by
  have hl := h.load_eq
  rw [length_leBytes] at hl
  rw [word, hl, leValue_leBytes]

variable {bytes : List UInt8} {b : UInt8}

theorem readFixed_holds {type : UInt8} (hk : bytes.length = k) (data : Data)
    (hf : r.pos + (type :: bytes).length ≤ r.len) :
    r.readFixed k data false = r.tangible data (r.pos + (type :: bytes).length) false := by
  rw [length_cons, hk, add_comm k] at hf
  rw [readFixed, if_neg (not_lt.mpr hf), length_cons, hk, add_comm k]

theorem readString_holds {value : List UInt8} {maxlen : ℕ} (h : r.Open)
    (hf : r.pos + (Scalar.string value maxlen).encode.length ≤ r.len)
    (hb : Holds r.storage (r.pos + 1) (leBytes 4 (text value maxlen).length ++ text value maxlen)) :
    r.readString false =
      r.tangible (.string (text value maxlen)) (r.pos + (Scalar.string value maxlen).encode.length) false := by
  obtain ⟨hl, ht⟩ := holds_append.mp hb
  rw [length_leBytes] at ht
  rw [Scalar.length_encode_string] at hf ⊢
  have hs : (text value maxlen).length < 4065 := by
    have hlen : r.len ≤ 4064 := h.len
    omega
  have hw : r.word 4 = (text value maxlen).length := by
    rw [word_eq hl]
    exact mod_eq_of_lt (by omega)
  have hmod : (text value maxlen).length % 2 ^ 16 = (text value maxlen).length := mod_eq_of_lt (by omega)
  rw [readString, hw, if_neg (by omega), if_neg (by omega)]
  rw [hmod, if_neg (by omega), ht.load_eq, add_assoc]

theorem length_encode_pos (s : Scalar) : 0 < s.encode.length := by
  cases s <;> exact succ_pos _

theorem ofNat_word_four {value : UInt32} (h : Holds r.storage (r.pos + 1) (leBytes 4 value.toNat)) :
    UInt32.ofNat (r.word 4) = value := by
  have hlt : value.toNat < 256 ^ 4 := value.toNat_lt
  rw [word_eq h, mod_eq_of_lt hlt, UInt32.ofNat_toNat]

theorem ofNat_word_eight {value : UInt64} (h : Holds r.storage (r.pos + 1) (leBytes 8 value.toNat)) :
    UInt64.ofNat (r.word 8) = value := by
  have hlt : value.toNat < 256 ^ 8 := value.toNat_lt
  rw [word_eq h, mod_eq_of_lt hlt, UInt64.ofNat_toNat]

theorem readNext_scalar (h : r.Open) (hf : r.pos + s.encode.length ≤ r.len) (hb : Holds r.storage r.pos s.encode) :
    r.androidLogReadNext = r.tangible s.data (r.pos + s.encode.length) false := by
  have hpos := length_encode_pos s
  rw [readNext_open h (by omega), readElement]
  cases s with
  | int32 value =>
    rw [show r.storage r.pos = eventTypeInt from hb.1, ofNat_word_four hb.2]
    exact readFixed_holds (length_leBytes 4 _) _ hf
  | int64 value =>
    rw [show r.storage r.pos = eventTypeLong from hb.1, ofNat_word_eight hb.2]
    exact readFixed_holds (length_leBytes 8 _) _ hf
  | float32 value =>
    rw [show r.storage r.pos = eventTypeFloat from hb.1, ofNat_word_four hb.2]
    exact readFixed_holds (length_leBytes 4 _) _ hf
  | string value maxlen =>
    rw [show r.storage r.pos = eventTypeString from hb.1]
    exact readString_holds h hf hb.2

def enter (r : Reader) (b : UInt8) : Reader :=
  let count := update r.count r.listNestDepth (r.count r.listNestDepth - 1)
  { r with
    count := if r.listNestDepth + 1 ≤ maxListNestDepth then update count (r.listNestDepth + 1) (elementCount b)
      else count
    listStop := b = 0
    listNestDepth := r.listNestDepth + 1
    pos := r.pos + 2 }

theorem count_enter (hd : r.listNestDepth < maxListNestDepth) :
    (r.enter b).count =
      update (update r.count r.listNestDepth (r.count r.listNestDepth - 1)) (r.listNestDepth + 1)
        (elementCount b) := if_pos hd

theorem readNext_list (h : r.Open) (hf : r.pos + 2 ≤ r.len)
    (hb : Holds r.storage r.pos (eventTypeList :: b :: bytes)) :
    r.androidLogReadNext = (⟨.list, maxListNestDepth ≤ r.listNestDepth⟩, r.enter b) := by
  rw [readNext_open h (by omega), readElement, show r.storage r.pos = eventTypeList from hb.1]
  rw [readList, if_neg (not_lt.mpr hf), show r.storage (r.pos + 1) = b from hb.2.1]
  rfl

/-- The context stands at `p`, in a list at depth `d` of which `c` elements are still to come. -/
structure At (r : Reader) (d c p : ℕ) : Prop where
  depth : r.listNestDepth = d
  nested : d ≤ maxListNestDepth
  count : r.count d = c
  small : c < maxEventPayload / 2
  stop : r.listStop = decide (c = 0)
  pos : r.pos = p
  len : r.len ≤ maxEventPayload

structure Same (d : ℕ) (r r' : Reader) : Prop where
  storage : r'.storage = r.storage
  len : r'.len = r.len
  outer : ∀ i, i < d → r'.count i = r.count i

theorem Same.trans {r'' : Reader} (h : Same d r r') (h' : Same d r' r'') : Same d r r'' :=
  ⟨h'.storage.trans h.storage, h'.len.trans h.len, fun i hi => (h'.outer i hi).trans (h.outer i hi)⟩

theorem At.opened (h : r.At d c p) (hc : c ≠ 0) : r.Open where
  depth := h.depth ▸ h.nested
  count := by
    rw [h.depth, h.count]
    exact h.small
  stop := h.stop.trans (decide_eq_false hc)
  len := h.len

theorem At.readNext_stop (h : r.At d 0 p) : r.androidLogReadNext = r.stop false := by
  rw [androidLogReadNext, androidLogReadNextInternal, if_neg, h.stop, decide_eq_true rfl, if_pos rfl]
  rw [h.depth, h.count]
  rintro (hd | hc)
  · exact not_lt.mpr h.nested hd
  · exact not_le.mpr h.small hc

theorem At.reads_cons_due (h : r.At d 0 p) (ht : t ≠ .listStop) : reads (t :: ts) r = none := by
  rw [reads, h.readNext_stop, if_neg]
  exact fun heq => ht (congrArg Element.data heq).symm

theorem At.readNext_scalar_eq (h : r.At d c p) (hc : c ≠ 0) (hd : 0 < d) (hf : p + s.encode.length ≤ r.len)
    (hb : Holds r.storage p s.encode) :
    ∃ r', r.androidLogReadNext = (⟨s.data, false⟩, r') ∧ r'.At d (c - 1) (p + s.encode.length) ∧ Same d r r' := by
  obtain rfl := h.depth
  obtain rfl := h.pos
  obtain ⟨c, rfl⟩ := exists_eq_succ_of_ne_zero hc
  have hr := readNext_scalar (h.opened hc) hf hb
  rw [tangible, decide_eq_false fun h0 => ne_of_gt hd h0.1, h.count, h.stop] at hr
  refine ⟨_, hr, ⟨rfl, h.nested, ?_, lt_of_succ_lt h.small, ?_, rfl, h.len⟩, ⟨rfl, rfl, fun i hi => ?_⟩⟩
  · exact update_self ..
  · cases c with
    | zero => rfl
    | succ c => rfl
  · exact update_of_ne (Nat.ne_of_lt hi) ..

theorem elementCount_small (h : n % 256 < 128) : elementCount (.ofNat n) = n % 256 := if_pos h

theorem elementCount_large (h : 128 ≤ n % 256) : maxEventPayload / 2 ≤ elementCount (.ofNat n) := by
  have ht : (UInt8.ofNat n).toNat = n % 256 := rfl
  rw [elementCount, if_neg (by omega), maxEventPayload]
  omega

theorem At.readNext_list_eq (h : r.At d c p) (hc : c ≠ 0) (hd : d < maxListNestDepth)
    (hf : p + 2 ≤ r.len) (hb : Holds r.storage p (eventTypeList :: b :: bytes)) :
    r.androidLogReadNext = (⟨.list, false⟩, r.enter b) ∧ (r.enter b).count d = c - 1 ∧ Same d r (r.enter b) := by
  obtain rfl := h.depth
  obtain rfl := h.pos
  have hr := readNext_list (h.opened hc) hf hb
  rw [decide_eq_false (not_le.mpr hd)] at hr
  refine ⟨hr, ?_, ⟨rfl, rfl, fun i hi => ?_⟩⟩
  · rw [count_enter hd, update_of_ne (by omega), update_self, h.count]
  · rw [count_enter hd, update_of_ne (by omega), update_of_ne (by omega)]

theorem enter_at (hd : r.listNestDepth < maxListNestDepth) (hn : n % 256 < 128) (hlen : r.len ≤ maxEventPayload) :
    (r.enter (.ofNat n)).At (r.listNestDepth + 1) (n % 256) (r.pos + 2) where
  depth := rfl
  nested := hd
  count := by rw [count_enter hd, update_self, elementCount_small hn]
  small := lt_of_lt_of_le hn (by decide)
  stop := by
    refine decide_eq_decide.mpr ?_
    rw [← UInt8.toNat_inj]
    exact Iff.rfl
  pos := rfl
  len := hlen

theorem enter_complete (hd : r.listNestDepth < maxListNestDepth) (hn : 128 ≤ n % 256) :
    (r.enter (.ofNat n)).androidLogReadNext.1.complete := by
  rw [androidLogReadNext, androidLogReadNextInternal, if_pos]
  refine Or.inr ?_
  have hc : (r.enter (.ofNat n)).count (r.listNestDepth + 1) = elementCount (.ofNat n) := by
    rw [count_enter hd, update_self]
  exact (elementCount_large hn).trans_eq hc.symm

theorem At.readNext_stop_eq (h : r.At (d + 1) 0 p) (hd : 0 < d) (hc : r.count d = c)
    (hsm : c < maxEventPayload / 2) (hb : r.storage p ≠ eventTypeListStop) :
    ∃ r', r.androidLogReadNext = (⟨.listStop, false⟩, r') ∧ r'.At d c p ∧ Same (d + 1) r r' := by
  have hs := h.readNext_stop
  have hi : ¬(r.count 0 = 0 ∧ (d + 1 = 0 ∨ d + 1 = 1 ∧ r.count 1 = 0)) := by
    rintro ⟨-, h0 | h1⟩
    · cases h0
    · omega
  rw [Reader.stop, h.depth, decide_eq_false hi, if_neg Bool.false_ne_true, h.pos, if_neg hb,
    Nat.add_sub_cancel, hc, h.stop] at hs
  refine ⟨_, hs, ⟨rfl, Nat.le_of_succ_le h.nested, hc, hsm, ?_, h.pos, h.len⟩, ⟨rfl, rfl, fun _ _ => rfl⟩⟩
  cases c with
  | zero => rfl
  | succ c => rfl

variable {m : ℕ → UInt8} {f inner : Forest} {y : Reader}

theorem head_ne_stop (h : Holds m p f.encode)
    (hend : m (p + f.encode.length) ≠ eventTypeListStop) : m p ≠ eventTypeListStop := by
  cases f with
  | nil => exact hend
  | scalar s rest =>
    have hh := (holds_append.mp h).1
    cases s <;> exact hh.1 ▸ by decide
  | list inner rest => exact h.1 ▸ by decide

theorem At.reads_list {u : Reader} (h : r.At d c p) (hc : c ≠ 0)
    (hd : 0 < d) (hde : d < maxListNestDepth) (hf : p + 2 ≤ r.len)
    (hb : Holds r.storage p (eventTypeList :: .ofNat n :: bytes))
    (hend : r.storage (p + 2 + inner.encode.length) ≠ eventTypeListStop)
    (hin : reads inner.tokens (r.enter (.ofNat n)) = some u) (hu : u.At (d + 1) 0 (p + 2 + inner.encode.length))
    (hs : Same (d + 1) (r.enter (.ofNat n)) u) :
    ∃ x, reads (.list :: (inner.tokens ++ [.listStop])) r = some x ∧ x.At d (c - 1) (p + 2 + inner.encode.length) ∧
      Same d r x := by
  obtain ⟨hr, hco, hs'⟩ := h.readNext_list_eq hc hde hf hb
  have huc : u.count d = c - 1 := (hs.outer d (Nat.lt_succ_self d)).trans hco
  obtain ⟨x, hst, hx, hs''⟩ := hu.readNext_stop_eq hd huc (Nat.lt_of_le_of_lt (Nat.sub_le c 1) h.small)
    (by rw [hs.storage]; exact hend)
  refine ⟨x, ?_, hx, hs''.storage.trans (hs.storage.trans hs'.storage),
    hs''.len.trans (hs.len.trans hs'.len), fun i hi => ?_⟩
  · rw [reads_cons_of_eq hr, reads_append, hin]
    exact reads_cons_of_eq hst
  · rw [hs''.outer i (by omega), hs.outer i (by omega), hs'.outer i hi]

theorem At.of_reads_list (h : r.At d c p)
    (hf : p + 2 ≤ r.len) (hb : Holds r.storage p (eventTypeList :: .ofNat n :: bytes)) (hts : ts ≠ [])
    (hr : reads (.list :: ts) r = some y) :
    c ≠ 0 ∧ d < maxListNestDepth ∧ n % 256 < 128 ∧ reads ts (r.enter (.ofNat n)) = some y := by
  have hc : c ≠ 0 := by
    rintro rfl
    rw [h.reads_cons_due (t := .list) (by decide)] at hr
    cases hr
  have hre := readNext_list (h.opened hc) (h.pos.symm ▸ hf) (h.pos.symm ▸ hb)
  rw [h.depth] at hre
  have hd : d < maxListNestDepth := by
    by_contra hfu
    rw [reads_cons_of_complete (by rw [hre]; exact decide_eq_true (Nat.le_of_not_lt hfu))] at hr
    cases hr
  rw [decide_eq_false (Nat.not_le.mpr hd)] at hre
  rw [reads_cons_of_eq hre] at hr
  refine ⟨hc, hd, ?_, hr⟩
  by_contra hl
  obtain ⟨t, ts, rfl⟩ := exists_cons_of_ne_nil hts
  rw [reads_cons_of_complete (enter_complete (h.depth.symm ▸ hd) (Nat.le_of_not_lt hl))] at hr
  cases hr

theorem reads_tokens_list (inner rest : Forest) (r : Reader) :
    reads (list inner rest).tokens r =
      (reads (.list :: (inner.tokens ++ [.listStop])) r).bind (reads rest.tokens) := by
  rw [← reads_append, cons_append, append_assoc]
  rfl

theorem holds_list {rest : Forest} (h : Holds m p (list inner rest).encode)
    (hend : m (p + (list inner rest).encode.length) ≠ eventTypeListStop) :
    Holds m (p + 2) inner.encode ∧ Holds m (p + 2 + inner.encode.length) rest.encode ∧
      m (p + 2 + inner.encode.length) ≠ eventTypeListStop ∧
      m (p + 2 + inner.encode.length + rest.encode.length) ≠ eventTypeListStop := by
  obtain ⟨hi, hr⟩ := holds_append.mp h.2.2
  have hl : p + (list inner rest).encode.length = p + 2 + inner.encode.length + rest.encode.length := by
    rw [encode, length_cons, length_cons, length_append]
    omega
  rw [hl] at hend
  exact ⟨hi, hr, head_ne_stop hr hend, hend⟩

theorem At.reads_forest (h : r.At d c p) (hle : f.length ≤ c) (hd : 0 < d) (hsm : f.Small)
    (hde : d + f.depth ≤ maxListNestDepth) (hf : p + f.encode.length ≤ r.len) (hb : Holds r.storage p f.encode)
    (hend : r.storage (p + f.encode.length) ≠ eventTypeListStop) :
    ∃ r', reads f.tokens r = some r' ∧ r'.At d (c - f.length) (p + f.encode.length) ∧ Same d r r' := by
  induction f generalizing r d c p with
  | nil => exact ⟨r, rfl, h, rfl, rfl, fun _ _ => rfl⟩
  | scalar s rest ih =>
    rw [Forest.length] at hle
    rw [Forest.encode, length_append] at hf
    rw [encode, length_append, ← add_assoc] at hend
    obtain ⟨hsc, hr⟩ := holds_append.mp hb
    obtain ⟨v, hra, hv, hs⟩ := h.readNext_scalar_eq (s := s) (by omega) hd (by omega) hsc
    obtain ⟨r', hre, hr', hs'⟩ := ih hv (by omega) hd hsm hde (by rw [hs.len]; omega)
      (hs.storage ▸ hr) (hs.storage ▸ hend)
    refine ⟨r', (reads_cons_of_eq hra).trans hre, ?_, hs.trans hs'⟩
    rw [Forest.encode, length_append, ← Nat.add_assoc, Forest.length, Nat.add_comm, ← Nat.sub_sub]
    exact hr'
  | list inner rest ihInner ihRest =>
    obtain ⟨hln, hin, hr⟩ := hsm
    obtain ⟨hi, hrs, hn, hl⟩ := holds_list hb hend
    rw [Forest.length] at hle
    rw [Forest.depth] at hde
    have hsi : (list inner rest).encode.length = 2 + inner.encode.length + rest.encode.length := by
      rw [encode, length_cons, length_cons, length_append]
      omega
    have hmod : inner.length % 256 = inner.length := mod_eq_of_lt (by omega)
    have hv : (r.enter (.ofNat inner.length)).At (d + 1) inner.length (p + 2) := by
      have hat := enter_at (r := r) (n := inner.length) (by rw [h.depth]; omega) (by omega) h.len
      rwa [h.depth, h.pos, hmod] at hat
    obtain ⟨u, hre, hu, hs⟩ := ihInner hv (Nat.le_refl _) (Nat.succ_pos d) hin (by omega)
      (Nat.le_trans (by omega) hf) hi hn
    rw [Nat.sub_self] at hu
    obtain ⟨x, hli, hx, hs'⟩ := h.reads_list (by omega) hd (by omega) (by omega) hb hn hre hu hs
    obtain ⟨r', hre', hr', hs''⟩ := ihRest hx (by omega) hd hr (by omega) (by rw [hs'.len]; omega)
      (hs'.storage ▸ hrs) (hs'.storage ▸ hl)
    refine ⟨r', ?_, ?_, hs'.trans hs''⟩
    · rw [reads_tokens_list, hli]
      exact hre'
    · rw [hsi, ← Nat.add_assoc, ← Nat.add_assoc, Forest.length, Nat.add_comm rest.length, ← Nat.sub_sub]
      exact hr'

theorem At.of_reads (h : r.At d c p) (hd : 0 < d) (hf : p + f.encode.length ≤ r.len)
    (hb : Holds r.storage p f.encode) (hend : r.storage (p + f.encode.length) ≠ eventTypeListStop)
    (hr : reads f.tokens r = some y) :
    f.length ≤ c ∧ f.Small ∧ d + f.depth ≤ maxListNestDepth := by
  induction f generalizing r d c p y with
  | nil => exact ⟨zero_le c, trivial, h.nested⟩
  | scalar s rest ih =>
    rw [encode, length_append] at hf
    rw [encode, length_append, ← add_assoc] at hend
    obtain ⟨hsc, hrs⟩ := holds_append.mp hb
    by_cases hc : c = 0
    · subst hc
      rw [tokens, h.reads_cons_due (t := s.data) (by cases s <;> exact Data.noConfusion)] at hr
      cases hr
    · obtain ⟨v, hra, hv, hs⟩ := h.readNext_scalar_eq (s := s) hc hd (by omega) hsc
      rw [tokens, reads_cons_of_eq hra] at hr
      obtain ⟨hle, hsm, hde⟩ := ih hv hd (by rw [hs.len]; omega) (hs.storage ▸ hrs)
        (hs.storage ▸ hend) hr
      exact ⟨by rw [Forest.length]; omega, hsm, hde⟩
  | list inner rest ihInner ihRest =>
    obtain ⟨hi, hre, hne, hla⟩ := holds_list hb hend
    have hsi : (list inner rest).encode.length = 2 + inner.encode.length + rest.encode.length := by
      rw [encode, length_cons, length_cons, length_append]
      omega
    obtain ⟨hc, hde, hmod, ht⟩ := h.of_reads_list (by omega) hb
      (append_ne_nil_of_right_ne_nil _ (cons_ne_nil _ _)) hr
    rw [reads_append] at ht
    obtain ⟨u, hin, -⟩ := Option.bind_eq_some_iff.mp ht
    have hv := enter_at (r := r) (n := inner.length) (h.depth.symm ▸ hde) hmod h.len
    rw [h.depth, h.pos] at hv
    obtain ⟨hle, hsm, hn⟩ := ihInner hv (succ_pos d) (le_trans (by omega) hf) hi hne hin
    have hl : inner.length % 256 = inner.length := le_antisymm (mod_le _ _) hle
    rw [hl] at hv hmod
    obtain ⟨v, hin', hv', hs⟩ := hv.reads_forest (Nat.le_refl _) (Nat.succ_pos d) hsm hn
      (Nat.le_trans (by omega) hf) hi hne
    rw [Nat.sub_self] at hv'
    obtain ⟨x, hli, hx, hs'⟩ := h.reads_list hc hd hde (by omega) hb hne hin' hv' hs
    rw [reads_tokens_list, hli] at hr
    obtain ⟨hle', hsm', hn'⟩ := ihRest hx hd (by rw [hs'.len]; omega) (hs'.storage ▸ hre)
      (hs'.storage ▸ hla) hr
    refine ⟨by rw [Forest.length]; omega, ⟨le_of_lt_succ hmod, hsm, hsm'⟩, ?_⟩
    rw [Forest.depth]
    omega

end Reader

end Bionic.EventList
