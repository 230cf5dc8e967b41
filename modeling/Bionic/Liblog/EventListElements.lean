import Bionic.Liblog.EventListBounds
import Bionic.Liblog.EventListResults

namespace Bionic.EventList

open Lib Function List Nat Writer

namespace Forest

def append : Forest → Forest → Forest
  | nil, g => g
  | scalar s rest, g => scalar s (rest.append g)
  | list inner rest, g => list inner (rest.append g)

variable (f g : Forest)

theorem encode_append : (f.append g).encode = f.encode ++ g.encode := by
  induction f with
  | nil => rfl
  | scalar s rest ih => rw [append, encode, encode, ih, append_assoc]
  | list inner rest _ ih => rw [append, encode, encode, ih, cons_append, cons_append, append_assoc]

theorem length_append : (f.append g).length = f.length + g.length := by
  induction f with
  | nil => exact (zero_add _).symm
  | scalar s rest ih | list inner rest _ ih => rw [append, length, length, ih, add_right_comm]

theorem depth_append : (f.append g).depth = max f.depth g.depth := by
  induction f with
  | nil => exact (max_eq_right (zero_le _)).symm
  | scalar s rest ih => exact ih
  | list inner rest _ ih => rw [append, depth, depth, ih, max_assoc]

end Forest

/-- The bytes of the lists that are open, each up to the head of the one in it. -/
def opened : List Forest → List UInt8
  | [] => []
  | g :: gs => opened gs ++ (g.encode ++ [eventTypeList, 0])

theorem length_opened (g : Forest) (gs : List Forest) :
    (opened (g :: gs)).length = (opened gs ++ g.encode).length + 2 := by
  rw [opened, ← append_assoc, List.length_append, length_cons, length_singleton]

/-- The lists that are open around the innermost one are counted right, with the one in them. -/
def Outer (w : Writer) : List Forest → Prop
  | [] => True
  | g :: gs => w.count gs.length = g.length + 1 ∧ w.list (gs.length + 1) + 1 = 2 + (opened (g :: gs)).length ∧
      gs.length + g.depth ≤ maxListNestDepth ∧ Outer w gs

theorem Outer.congr {w w' : Writer} {gs : List Forest} (h : Outer w gs)
    (hc : ∀ i, i < gs.length → w'.count i = w.count i) (hl : ∀ i, i ≤ gs.length → w'.list i = w.list i) :
    Outer w' gs := by
  induction gs with
  | nil => trivial
  | cons g gs ih =>
    obtain ⟨hcount, hlist, hd, ho⟩ := h
    refine ⟨?_, ?_, hd, ih ho (fun i hi => hc i (lt_succ_of_lt hi)) fun i hi => hl i (le_succ_of_le hi)⟩
    · rw [hc _ (lt_succ_self _), hcount]
    · rw [hl (gs.length + 1) (le_refl _), hlist]

/-- The storage holds whole elements up to the position, in the lists that are open. -/
structure Growing (w : Writer) (f : Forest) (gs : List Forest) : Prop where
  depth : w.listNestDepth = gs.length
  nested : gs.length + f.depth ≤ maxListNestDepth
  head : w.storage 0 = eventTypeList
  body : Holds w.storage 2 (opened gs ++ f.encode)
  pos : w.pos = 2 + (opened gs ++ f.encode).length
  fits : w.pos ≤ maxEventPayload
  count : w.count gs.length = f.length
  outer : Outer w gs

/-- A list that is opened and counted, though its head is not written. -/
def Phantom (w : Writer) : Call → Prop
  | .listBegin => w.pos + 2 ≤ maxEventPayload ∧ (w.listNestDepth = maxListNestDepth ∨ w.overflow)
  | _ => False

namespace Growing

variable {w w' : Writer} {f : Forest} {gs : List Forest} (h : Growing w f gs)

include h

theorem fail (e : Errno) : Growing (w.fail e).2 f gs :=
  ⟨h.depth, h.nested, h.head, h.body, h.pos, h.fits, h.count, h.outer.congr (fun _ _ => rfl) fun _ _ => rfl⟩

theorem holds_store_pos (bytes : List UInt8) :
    Holds (store w.storage w.pos bytes) 2 (opened gs ++ f.encode ++ bytes) := by
  have hp := h.pos
  rw [holds_append]
  refine ⟨h.body.congr fun i _ hi => store_of_lt (by omega), ?_⟩
  rw [← hp]
  exact holds_store _ _ _

theorem scalar {s : Scalar} (hf : w.pos + s.encode.length ≤ maxEventPayload) :
    Growing (w.append s.encode) (f.append (.scalar s .nil)) gs := by
  have henc : opened gs ++ (f.append (.scalar s .nil)).encode = opened gs ++ f.encode ++ s.encode := by
    rw [Forest.encode_append, Forest.encode, Forest.encode, append_nil, append_assoc]
  have hp := h.pos
  constructor
  · exact h.depth
  · rw [Forest.depth_append]
    exact (congrArg (gs.length + ·) (max_eq_left (zero_le _))).trans_le h.nested
  · exact (store_of_lt (by omega)).trans h.head
  · rw [henc]
    exact h.holds_store_pos s.encode
  · rw [henc, List.length_append, ← add_assoc, ← hp]
    rfl
  · exact hf
  · rw [Forest.length_append, ← h.count, ← h.depth]
    exact update_self ..
  · exact h.outer.congr (fun i hi => update_of_ne (by rw [h.depth]; omega) ..) fun _ _ => rfl

theorem write {s : Scalar} (hs : (Call.write s).Short) (hc : ¬Cut w (.write s)) :
    ∃ f', Growing (s.write w).2 f' gs := by
  rcases write_cases h.fits hs hc with hw | hw | ⟨hf, hw⟩
  · exact ⟨f, hw.symm ▸ h⟩
  · exact ⟨f, hw.symm ▸ h.fail .eio⟩
  · exact ⟨_, hw.symm ▸ h.scalar hf⟩

theorem listBegin (hp : ¬Phantom w .listBegin) : ∃ f' gs', Growing w.androidLogWriteListBegin.2 f' gs' := by
  have hd := h.depth
  have hn := h.nested
  have hle := h.pos
  by_cases hf : w.pos + 2 > maxEventPayload
  · rw [androidLogWriteListBegin, if_neg (by omega), if_pos hf]
    exact ⟨f, gs, h.fail .eio⟩
  · have hroom : w.pos + 2 ≤ maxEventPayload := not_lt.mp hf
    have hmax : w.listNestDepth ≠ maxListNestDepth := fun hm => hp ⟨hroom, .inl hm⟩
    have ho : ¬w.overflow := fun ho => hp ⟨hroom, .inr ho⟩
    rw [androidLogWriteListBegin, if_neg (by omega), if_neg hf]
    dsimp only
    rw [if_neg (by omega), if_neg ho]
    have hcount (i : ℕ) (hi : i ≤ gs.length) : update w.counted (w.listNestDepth + 1) 0 i = w.counted i :=
      update_of_ne (by omega) ..
    refine ⟨.nil, f :: gs, ?_, ?_, ?_, ?_, ?_, hroom, ?_, ?_, ?_, hn, ?_⟩
    · rw [length_cons, ← hd]
    · rw [length_cons, Forest.depth]
      omega
    · exact (store_of_lt (by omega)).trans h.head
    · rw [opened, Forest.encode, append_nil, ← append_assoc]
      exact h.holds_store_pos _
    · rw [List.length_append, length_opened, Forest.encode, length_nil]
      dsimp only
      omega
    · rw [length_cons, ← hd]
      exact update_self ..
    · refine (hcount gs.length (le_refl _)).trans ?_
      rw [counted, hd, update_self, h.count]
    · change update w.list (w.listNestDepth + 1) (w.pos + 1) (gs.length + 1) + 1 = _
      rw [hd, update_self, length_opened]
      omega
    · exact h.outer.congr (fun i hi => (hcount i (by omega)).trans (update_of_ne (by omega) ..))
        fun i hi => update_of_ne (by omega) ..

theorem listEnd : ∃ f' gs', Growing w.androidLogWriteListEnd.2 f' gs' := by
  have hd := h.depth
  have hn := h.nested
  cases gs with
  | nil =>
    rw [androidLogWriteListEnd, if_neg (by omega), if_pos (show w.listNestDepth = 0 from hd)]
    exact ⟨f, [], h.fail .eoverflow⟩
  | cons g gs =>
    obtain ⟨hcount, hlist, hdepth, hout⟩ := h.outer
    rw [length_cons] at hd hn
    rw [length_opened] at hlist
    have hq : w.list (gs.length + 1) = 2 + (opened gs ++ g.encode).length + 1 := by omega
    have hc : w.count (gs.length + 1) = f.length := h.count
    rw [androidLogWriteListEnd, if_neg (by omega), if_neg (by omega), hd, if_neg (by omega), hq, hc]
    have henc : opened gs ++ (g.append (.list f .nil)).encode =
        opened gs ++ g.encode ++ (eventTypeList :: [UInt8.ofNat f.length] ++ f.encode) := by
      rw [Forest.encode_append, Forest.encode, Forest.encode, append_nil, append_assoc]
      rfl
    have hbody := h.body
    rw [opened, ← append_assoc (opened gs), append_assoc _ [eventTypeList, 0], holds_append] at hbody
    obtain ⟨hold, ht, -, hin⟩ := hbody
    have hpos := h.pos
    have hkeep (i : ℕ) (hi : i ≠ 2 + (opened gs ++ g.encode).length + 1) :
        store w.storage (2 + (opened gs ++ g.encode).length + 1) [UInt8.ofNat f.length] i = w.storage i :=
      store_singleton_of_ne hi
    refine ⟨g.append (.list f .nil), gs, rfl, ?_, ?_, ?_, ?_, h.fits, ?_, ?_⟩
    · rw [Forest.depth_append, Forest.depth, Forest.depth]
      omega
    · exact (hkeep 0 (by omega)).trans h.head
    · rw [henc, holds_append]
      refine ⟨hold.congr fun i _ hi => hkeep i (by omega), ?_, ?_, ?_⟩
      · exact (hkeep _ (by omega)).trans ht
      · exact store_singleton _ _ _
      · exact hin.congr fun i hi _ => hkeep i (Nat.ne_of_gt hi)
    · rw [henc, List.length_append]
      rw [opened] at hpos
      simp only [List.length_append, length_cons, length_nil] at hpos ⊢
      omega
    · rw [Forest.length_append, hcount]
      rfl
    · exact hout.congr (fun _ _ => rfl) fun _ _ => rfl

theorem sealHead : Growing w.sealHead f gs := by
  rw [Writer.sealHead]
  split_ifs
  · exact h
  · have hkeep (i : ℕ) (hi : i ≠ 1) : store w.storage 1 [.ofNat (w.count 0)] i = w.storage i :=
      store_singleton_of_ne hi
    refine ⟨h.depth, h.nested, ?_, ?_, h.pos, h.fits, h.count, h.outer.congr (fun _ _ => rfl) fun _ _ => rfl⟩
    · exact (hkeep 0 Nat.zero_ne_one).trans h.head
    · exact h.body.congr fun i hi _ => hkeep i (by omega)

omit h in
theorem exec {c : Call} (h : Growing w f gs) (hs : c.Short) (hc : ¬Cut w c) (hp : ¬Phantom w c) :
    ∃ f' gs', Growing (c.exec w).2 f' gs' := by
  cases c with
  | listBegin => exact h.listBegin hp
  | listEnd => exact h.listEnd
  | write s =>
    obtain ⟨f', hf⟩ := h.write hs hc
    exact ⟨f', gs, hf⟩

end Growing

/-- The runs in which no list is opened without its head. -/
inductive HeadedStep : Writer → Writer → Prop
  | call (w : Writer) (c : Call) (hs : c.Short) (hc : ¬Cut w c) (hp : ¬Phantom w c) : HeadedStep w (c.exec w).2
  | listBuffer (w : Writer) : HeadedStep w w.sealHead

def headedSystem : System Writer where
  Init w := w = createAndroidLogger
  Step := HeadedStep

theorem HeadedStep.step {w w' : Writer} (h : HeadedStep w w') : Step w w' := by
  cases h with
  | call c hs hc => exact .call w c hs hc
  | listBuffer => exact .listBuffer w

def execAll (w : Writer) (cs : List Call) : Writer := cs.foldl (fun w c => (c.exec w).2) w

theorem Growing.invariant : headedSystem.Invariant fun w => ∃ f gs, Growing w f gs where
  init := by
    rintro w rfl
    exact ⟨.nil, [], rfl, by decide, store_singleton (fun _ => 0) 0 eventTypeList, trivial, rfl, by decide, rfl, trivial⟩
  step := by
    rintro w w' ⟨f, gs, h⟩ hs
    cases hs with
    | call c hs hc hp => exact h.exec hs hc hp
    | listBuffer => exact ⟨f, gs, h.sealHead⟩

/-- In a run of calls with strings that are short and not cut, the position stays within the payload, no call stores
outside the storage, and the buffer handed out is the storage up to the position, made of whole tokens. Unless a list
was opened without its head, they are those of whole elements with their numbers, and the parser finds these exactly if
they are readable. -/
theorem writer_bounds (w : Writer) (h : system.Reachable w) :
    w.pos ≤ maxEventPayload ∧
      (∀ (c : Call) (m : ℕ → UInt8) (i : ℕ), c.Short → loggerEntryMaxPayload ≤ i →
        (c.exec (w.withStorage m)).2.storage i = m i) ∧
      ∀ bytes, w.androidLogWriteListBuffer = .ok bytes →
        bytes = load w.sealHead.storage (if w.count 0 ≤ 1 then 2 else 0) (w.pos - if w.count 0 ≤ 1 then 2 else 0) ∧
          (∃ ts, bytes = Token.encodeAll ts) ∧
          (headedSystem.Reachable w → ∃ f, bytes = eventBytes f ∧
            ((∃ n, readAll n (createAndroidLogParser bytes) = some (expected f)) ↔ Readable f)) := by
  obtain ⟨ts, hw⟩ := Whole.invariant.reachable h
  refine ⟨hw.fits, fun c m i hs hi => exec_inside hw hs hi, ?_⟩
  intro bytes hb
  obtain ⟨hload, hts⟩ := hw.listBuffer hb
  refine ⟨hload, hts, fun hr => ?_⟩
  obtain ⟨f, gs, hg⟩ := Growing.invariant.reachable hr
  have hclosed : w.listNestDepth = 0 := by
    by_contra hd
    rw [androidLogWriteListBuffer, if_pos hd] at hb
    cases hb
  obtain rfl := eq_nil_of_length_eq_zero (hg.depth.symm.trans hclosed)
  have heq := writeListBuffer_eq hg.depth hg.count hg.pos hg.head hg.body
  cases hb.symm.trans heq
  exact ⟨f, rfl, readAll_eventBytes_iff (hg.pos ▸ hg.fits) ((zero_add _).symm.trans_le hg.nested)⟩

/-- A number and a list of one, and a list that is closed twice. -/
theorem writer_bounds_nested :
    (execAll createAndroidLogger [.write (.int32 7), .listBegin, .write (.int32 8), .listEnd, .listEnd]).pos ≤
        maxEventPayload ∧
      ∃ f, [3, 2, 0, 7, 0, 0, 0, 3, 1, 0, 8, 0, 0, 0] = eventBytes f ∧
        ((∃ n, readAll n (createAndroidLogParser [3, 2, 0, 7, 0, 0, 0, 3, 1, 0, 8, 0, 0, 0]) = some (expected f)) ↔
          Readable f) := by
  have hrun : headedSystem.Reachable
      (execAll createAndroidLogger [.write (.int32 7), .listBegin, .write (.int32 8), .listEnd, .listEnd]) :=
    (((((System.Reachable.of_init (S := headedSystem) rfl).step
      (.call _ (.write (.int32 7)) trivial id id)).step
      (.call _ .listBegin trivial id (by rintro ⟨-, hd | ho⟩; exacts [absurd hd (by decide), absurd ho (by decide)]))).step
      (.call _ (.write (.int32 8)) trivial id id)).step
      (.call _ .listEnd trivial id id)).step
      (.call _ .listEnd trivial id id)
  have h := writer_bounds _ (System.Reachable.mono (S := headedSystem) (fun _ h => h) (fun _ _ h => h.step) hrun)
  exact ⟨h.1, (h.2.2 _ rfl).2.2 hrun⟩

theorem text_replicate (n : ℕ) : text (replicate n 65) n = replicate n 65 := by
  rw [text, take_of_length_le (by rw [length_replicate])]
  induction n with
  | zero => rfl
  | succ n ih => rw [replicate_succ, takeWhile_cons_of_pos (by decide), ih]

theorem length_text_replicate (n : ℕ) : (text (replicate n 65) n).length = n := by
  rw [text_replicate, length_replicate]

/-- A length of three bytes below 2^32 is taken for -3. -/
theorem storage_of_negative {n : ℕ} (hn : n = 2 ^ 32 - 3) :
    (createAndroidLogger.androidLogWriteString8Len (replicate n 65) n).2.storage 5000 = 65 := by
  have hlen : Int.bmod (text (replicate n 65) n).length (2 ^ 32) = -3 := by
    rw [length_text_replicate, hn]
    decide
  have hcopy : (replicate n (65 : UInt8)).take ((-3 : ℤ) % 2 ^ 64).toNat = replicate n 65 :=
    take_of_length_le (by rw [length_replicate, hn]; decide)
  have hcut : ¬((maxEventPayload : ℤ) < createAndroidLogger.pos + (5 + -3) ∨
      (createAndroidLogger.pos : ℤ) + (5 + -3) < 0) := by decide
  have hget (head : List UInt8) (hh : head.length = 5) (h : 4998 < (head ++ replicate n 65).length) :
      (head ++ replicate n (65 : UInt8))[4998] = 65 := by
    rw [getElem_append_right (by omega), getElem_replicate]
  rw [androidLogWriteString8Len, if_neg (by decide), hlen]
  dsimp only
  rw [if_neg fun h => hcut h.1, if_neg hcut, hcopy]
  refine (store_inside (p := 2) (i := 4998) ?_).trans (hget _ (by rw [length_cons, length_leBytes]) _)
  rw [List.length_append, length_replicate, hn]
  omega

/-- The buffer of an event of one int does not start where the storage does. A string of 4060 bytes moves the position
past the payload, and one of 2^32 - 3 bytes is stored past the storage. After nine lists one in the other the innermost
head has a number without an element; so has the outermost one after lists that are begun behind a failure. -/
theorem buffer_not_leading :
    ((createAndroidLogger.androidLogWriteInt32 7).2.androidLogWriteListBuffer = .ok [0, 7, 0, 0, 0] ∧
      ¬∃ n, [0, 7, 0, 0, 0] = load (createAndroidLogger.androidLogWriteInt32 7).2.sealHead.storage 0 n) ∧
    maxEventPayload < (createAndroidLogger.androidLogWriteString8Len (replicate 4060 65) 4060).2.pos ∧
    (createAndroidLogger.androidLogWriteString8Len (replicate (2 ^ 32 - 3) 65) (2 ^ 32 - 3)).2.storage 5000 ≠
      createAndroidLogger.storage 5000 ∧
    (∃ buffer, (execAll createAndroidLogger (replicate 9 .listBegin ++ replicate 9 .listEnd)).androidLogWriteListBuffer =
        .ok buffer ∧
      readAll 9 (createAndroidLogParser buffer) = some (replicate 8 ⟨.list, false⟩ ++ [⟨.unknown, true⟩])) ∧
    (execAll createAndroidLogger [.listEnd, .listBegin, .listEnd, .listBegin, .listEnd]).androidLogWriteListBuffer =
      .ok [eventTypeList, 2] := by
  refine ⟨⟨rfl, ?_⟩, ?_, ?_, ⟨_, rfl, ?_⟩, rfl⟩
  · rintro ⟨n, hn⟩
    have hl := congrArg length hn
    rw [length_load] at hl
    subst hl
    exact absurd hn (by decide)
  · have hl := length_text_replicate 4060
    rw [writeString_of_lt (by decide) rfl (by rw [hl]; decide) (by rw [hl]; decide), if_neg (by decide), hl]
    decide
  · rw [storage_of_negative rfl]
    decide
  · rfl

end Bionic.EventList
