import Bionic.Liblog.EventListRead

namespace Bionic.EventList

open Lib List Nat Forest Reader

def readAll : ℕ → Reader → Option (List Element)
  | 0, _ => none
  | n + 1, r =>
    let next := r.androidLogReadNext
    if next.1.complete then some [next.1] else (readAll n next.2).map (next.1 :: ·)

def upTo (ts : List Data) (last : Data) : List Element := ts.map (⟨·, false⟩) ++ [⟨last, true⟩]

/-- What is to be read of a written event. The elements of an event that has several are in a list of their own. -/
def expected : Forest → List Element
  | .nil => upTo [] .unknown
  | .scalar s .nil => upTo [] s.data
  | .list inner .nil => upTo (.list :: inner.tokens) .listStop
  | f => upTo (.list :: f.tokens) .listStop

variable (f : Forest) {w : Writer}

/-- The lists inside are short enough for the reader. The list around several elements takes one of the levels that
the reader has. -/
def Readable : Prop :=
  f.Small ∧ (2 ≤ f.length → f.length ≤ 127 ∧ f.depth < maxListNestDepth)

theorem exists_readAll_iff (ts : List Data) (last : Data) (r : Reader) :
    (∃ n, readAll n r = some (upTo ts last)) ↔
      ∃ r', r.reads ts = some r' ∧ r'.androidLogReadNext.1 = ⟨last, true⟩ := by
  induction ts generalizing r with
  | nil =>
    constructor
    · rintro ⟨n, hn⟩
      refine ⟨r, rfl, ?_⟩
      cases n with
      | zero => cases hn
      | succ n =>
        rw [readAll] at hn
        split at hn
        · exact (cons.inj (Option.some.inj hn)).1
        · rename_i hi
          obtain ⟨es, -, hes⟩ := Option.map_eq_some_iff.mp hn
          rw [(cons.inj hes).1] at hi
          exact absurd rfl hi
    · rintro ⟨r', hr', hl⟩
      cases hr'
      refine ⟨1, ?_⟩
      rw [readAll, hl]
      rfl
  | cons t ts ih =>
    constructor
    · rintro ⟨n, hn⟩
      cases n with
      | zero => cases hn
      | succ n =>
        rw [readAll] at hn
        split at hn
        · rename_i hc
          rw [(cons.inj (Option.some.inj hn)).1] at hc
          cases hc
        · obtain ⟨es, hre, hes⟩ := Option.map_eq_some_iff.mp hn
          obtain ⟨hh, rfl⟩ := cons.inj hes
          obtain ⟨r', hr, hl⟩ := (ih _).mp ⟨n, hre⟩
          exact ⟨r', (reads_cons_of_eq (Prod.ext hh rfl)).trans hr, hl⟩
    · rintro ⟨r', hr, hl⟩
      rw [reads] at hr
      split at hr
      · rename_i hh
        obtain ⟨n, hn⟩ := (ih _).mpr ⟨r', hr, hl⟩
        refine ⟨n + 1, ?_⟩
        rw [readAll]
        rw [hh, hn]
        rfl
      · cases hr

section Parser

variable {msg : List UInt8}

theorem parser_open (msg : List UInt8) : (createAndroidLogParser msg).Open where
  depth := zero_le _
  count := (by decide : 0 < maxEventPayload / 2)
  stop := rfl
  len := min_le_right ..

section

variable (h : msg.length ≤ maxEventPayload)

include h

theorem parser_len : (createAndroidLogParser msg).len = msg.length :=
  min_eq_left h

theorem parser_holds : Holds (createAndroidLogParser msg).storage 0 msg := by
  rw [createAndroidLogParser, take_of_length_le h]
  exact holds_store _ 0 msg

theorem parser_end : (createAndroidLogParser msg).storage msg.length = 0 := by
  rw [createAndroidLogParser, take_of_length_le h]
  dsimp only
  rw [store_of_le (le_of_eq (zero_add _))]

end

theorem readAll_scalar (s : Scalar) (h : s.encode.length ≤ maxEventPayload) :
    ∃ n, readAll n (createAndroidLogParser s.encode) = some (upTo [] s.data) := by
  refine (exists_readAll_iff [] s.data _).mpr ⟨_, rfl, ?_⟩
  rw [readNext_scalar (parser_open _) _ (parser_holds h)]
  · rfl
  · rw [parser_len h]
    exact le_of_eq (zero_add _)

def listBytes : List UInt8 := eventTypeList :: UInt8.ofNat f.length :: f.encode

theorem readAll_list_iff (h : (listBytes f).length ≤ maxEventPayload) :
    (∃ n, readAll n (createAndroidLogParser (listBytes f)) = some (upTo (.list :: f.tokens) .listStop)) ↔
      f.length ≤ 127 ∧ f.Small ∧ f.depth < maxListNestDepth := by
  have hlen := parser_len h
  have hb := parser_holds h
  have hend : (createAndroidLogParser (listBytes f)).storage (2 + f.encode.length) ≠ eventTypeListStop := by
    have hln : 2 + f.encode.length = (listBytes f).length := by
      rw [listBytes, length_cons, length_cons]
      omega
    rw [hln, parser_end h]
    decide
  have hf : 2 + f.encode.length ≤ (createAndroidLogParser (listBytes f)).len := by
    rw [hlen, listBytes, length_cons, length_cons]
    omega
  have hre := readNext_list (parser_open _) (Nat.le_trans (Nat.le_add_right ..) hf) hb
  have hat (hmod : f.length % 256 < 128) :=
    enter_at (r := createAndroidLogParser (listBytes f)) (Nat.succ_pos _) hmod (parser_open _).len
  rw [exists_readAll_iff, reads_cons_of_eq hre]
  constructor
  · rintro ⟨r', hr, -⟩
    have hmod : f.length % 256 < 128 := by
      by_contra hl
      cases f with
      | nil => exact hl (by decide)
      | scalar s rest | list inner rest =>
        rw [tokens, reads_cons_of_complete (enter_complete (Nat.succ_pos _) (Nat.le_of_not_lt hl))]
          at hr
        cases hr
    obtain ⟨hle, hs, hd⟩ := (hat hmod).of_reads (Nat.succ_pos 0) hf hb.2.2 hend hr
    exact ⟨le_of_lt_succ (lt_of_le_of_lt hle hmod), hs, by omega⟩
  · rintro ⟨hln, hs, hd⟩
    have hmod : f.length % 256 = f.length := mod_eq_of_lt (by omega)
    have hat := hat (by omega)
    rw [hmod] at hat
    obtain ⟨r', hr, hr', hsa⟩ := hat.reads_forest (Nat.le_refl _) (Nat.succ_pos 0) hs
      (Nat.add_comm f.depth 1 ▸ hd) hf hb.2.2 hend
    refine ⟨r', hr, ?_⟩
    rw [Nat.sub_self] at hr'
    have hc : r'.count 0 = 0 := hsa.outer 0 (Nat.succ_pos 0)
    rw [hr'.readNext_stop, stop, hc, hr'.depth]
    exact congrArg (Element.mk .listStop) (decide_eq_true ⟨rfl, Or.inr ⟨rfl, hr'.count⟩⟩)

end Parser

def eventBytes : List UInt8 := if f.length ≤ 1 then f.encode else listBytes f

theorem writeListBuffer_eq {f : Forest} (hd : w.listNestDepth = 0) (hc : w.count 0 = f.length)
    (hpos : w.pos = 2 + f.encode.length) (ht : w.storage 0 = eventTypeList) (hb : Holds w.storage 2 f.encode) :
    w.androidLogWriteListBuffer = .ok (eventBytes f) := by
  have hh : Holds (store w.storage 1 [.ofNat (w.count 0)]) 2 f.encode :=
    hb.congr fun i hi _ => store_singleton_of_ne (by omega)
  rw [Writer.androidLogWriteListBuffer, if_neg (not_not_intro hd), eventBytes]
  dsimp only
  rw [hc] at hh ⊢
  split
  · rw [hpos, Nat.add_sub_cancel_left, hh.load_eq]
  · have hl : Holds (store w.storage 1 [.ofNat f.length]) 0 (listBytes f) := by
      refine ⟨?_, store_singleton .., hh⟩
      rw [store_of_lt (by decide), ht]
    rw [hpos, add_comm]
    exact congrArg _ hl.load_eq

theorem readAll_eventBytes_iff {f : Forest} (hf : 2 + f.encode.length ≤ maxEventPayload)
    (hd : f.depth ≤ maxListNestDepth) :
    (∃ n, readAll n (createAndroidLogParser (eventBytes f)) = some (expected f)) ↔ Readable f := by
  have hse (g : Forest) (hg : 2 ≤ g.length) (hb : 2 + g.encode.length ≤ maxEventPayload) :
      (∃ n, readAll n (createAndroidLogParser (eventBytes g)) = some (upTo (.list :: g.tokens) .listStop)) ↔
        Readable g := by
    rw [eventBytes, if_neg (by omega), readAll_list_iff g ((add_comm g.encode.length 2).trans_le hb), Readable]
    constructor
    · rintro ⟨hl, hs, hn⟩
      exact ⟨hs, fun _ => ⟨hl, hn⟩⟩
    · rintro ⟨hs, hlo⟩
      exact ⟨(hlo hg).1, hs, (hlo hg).2⟩
  cases f with
  | nil => exact iff_of_true ⟨1, rfl⟩ ⟨trivial, fun h => absurd h (not_succ_le_zero _)⟩
  | scalar s rest =>
    cases rest with
    | nil =>
      have hb : eventBytes (.scalar s .nil) = s.encode := append_nil _
      rw [encode, encode, append_nil] at hf
      rw [hb]
      exact iff_of_true (readAll_scalar s (by omega)) ⟨trivial, fun h => absurd h (Nat.lt_irrefl _)⟩
    | scalar t rest | list inner rest => exact hse _ (Nat.le_add_left ..) hf
  | list inner rest =>
    cases rest with
    | nil =>
      have hb : eventBytes (.list inner .nil) = listBytes inner := by
        exact congrArg (fun x => eventTypeList :: UInt8.ofNat inner.length :: x) (append_nil _)
      rw [encode, encode, append_nil, length_cons] at hf
      rw [hb]
      refine (readAll_list_iff inner (Nat.le_trans (Nat.le_add_left ..) hf)).trans ?_
      rw [depth, depth] at hd
      constructor
      · rintro ⟨hl, hs, -⟩
        exact ⟨⟨hl, hs, trivial⟩, fun h => absurd h (Nat.lt_irrefl _)⟩
      · rintro ⟨⟨hl, hs, -⟩, -⟩
        exact ⟨hl, hs, by omega⟩
    | scalar t rest | list inner' rest => exact hse _ (Nat.le_add_left ..) hf

namespace Writer.Wrote

variable {f : Forest} (h : Writer.Wrote createAndroidLogger f w)

include h

theorem listBuffer_eq : w.androidLogWriteListBuffer = .ok (eventBytes f) :=
  writeListBuffer_eq h.depth (h.count.trans (zero_add _)) h.pos (h.below 0 (by decide)) h.holds

theorem readAll_iff : (∃ n, readAll n (createAndroidLogParser (eventBytes f)) = some (expected f)) ↔ Readable f :=
  readAll_eventBytes_iff (h.pos ▸ h.fits (by decide)) (zero_add f.depth ▸ h.nested (by decide))

end Writer.Wrote

/-- Calls that succeed, cut no string and close all their lists are read back exactly if no list has more than
127 elements and the lists are not nested too deep. -/
theorem event_round_trip (cs : List Call) (w : Writer) (h : writeAll cs createAndroidLogger = some w)
    (hclosed : w.listNestDepth = 0) :
    ∃ f buffer, cs = f.calls ∧ w.androidLogWriteListBuffer = .ok buffer ∧
      ((∃ n, readAll n (createAndroidLogParser buffer) = some (expected f)) ↔ Readable f) := by
  obtain ⟨f, gs, rfl, hgs⟩ := exists_closing h (by decide) hclosed
  obtain rfl := eq_nil_of_length_eq_zero hgs
  have hw := Writer.wrote_of_writeAll (by decide) h
  exact ⟨f, eventBytes f, rfl, hw.listBuffer_eq, hw.readAll_iff⟩

theorem event_round_trip_nested :
    ∃ f buffer w,
      [.write (.int32 7), .listBegin, .write (.string [104, 105] 8), .listEnd] = f.calls ∧
      writeAll f.calls createAndroidLogger = some w ∧ w.androidLogWriteListBuffer = .ok buffer ∧
      ((∃ n, readAll n (createAndroidLogParser buffer) = some (expected f)) ↔ Readable f) := by
  have hrun : ∃ w, writeAll [.write (.int32 7), .listBegin, .write (.string [104, 105] 8), .listEnd]
      createAndroidLogger = some w ∧ w.listNestDepth = 0 := by
    rw [writeAll_cons_of_ok rfl, writeAll_cons_of_ok rfl, writeAll_string_of_fits, writeAll_cons_of_ok rfl]
    · exact ⟨_, rfl, rfl⟩
    · rfl
    · decide
  obtain ⟨w, hw, hd⟩ := hrun
  obtain ⟨f, buffer, hc, hb, hiff⟩ := event_round_trip _ w hw hd
  exact ⟨f, buffer, w, hc, hc ▸ hw, hb, hiff⟩

def nest : ℕ → Forest → Forest
  | 0, rest => rest
  | n + 1, rest => .list (nest n .nil) rest

/-- The writer takes eight levels of lists in front of a number; the reader stops at the head of the innermost. -/
theorem eight_levels_unreadable :
    ∃ w buffer, writeAll (nest 8 (.scalar (.int32 1) .nil)).calls createAndroidLogger = some w ∧
      w.listNestDepth = 0 ∧ w.androidLogWriteListBuffer = .ok buffer ∧
      readAll 20 (createAndroidLogParser buffer) = some (replicate 8 ⟨.list, false⟩ ++ [⟨.list, true⟩]) ∧
      ¬∃ n, readAll n (createAndroidLogParser buffer) = some (expected (nest 8 (.scalar (.int32 1) .nil))) := by
  have hw := Writer.wrote_of_writeAll (f := nest 8 (.scalar (.int32 1) .nil)) (w := createAndroidLogger) (by decide) rfl
  refine ⟨_, eventBytes (nest 8 (.scalar (.int32 1) .nil)), rfl, rfl, hw.listBuffer_eq, by rfl, ?_⟩
  rw [hw.readAll_iff]
  exact fun hr => absurd (hr.2 (by decide)).2 (by decide)

end Bionic.EventList
