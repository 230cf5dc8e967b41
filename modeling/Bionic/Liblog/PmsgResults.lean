import Bionic.Liblog.PmsgFile
import Mathlib.Data.List.Nodup

namespace Bionic.Pmsg

open Lib Logd List Nat

structure File where
  dir : List UInt8
  base : List UInt8
  content : List UInt8
  logId : LogId
  prio : UInt8
  sec : UInt32

namespace File

variable (f : File) (w : Writer)

def name : List UInt8 := f.dir ++ slash :: f.base

def tag : List UInt8 := tagOf f.dir f.base

def write : Except Errno ℕ × List UInt8 := pmsgFileWrite w f.logId f.prio f.sec f.name f.content

def callback : Callback := ⟨logIdByte f.logId, f.prio, f.name, f.content⟩

/-- A packet has room for two bytes of the content, and the priority is one that records have. -/
structure Valid : Prop where
  dir : Plain f.dir
  base : Plain f.base
  content : f.content ≠ []
  room : 1 + (f.name.length + 1) + 2 ≤ loggerEntryMaxPayload
  prio : 2 ≤ f.prio ∧ f.prio < 8

def msg (sequence : ℕ) (piece : List UInt8) : LogMsg :=
  (pieceHeader w f.logId f.sec f.tag sequence piece).msg (f.prio :: (f.tag ++ 0 :: piece))

def msgs : ℕ → List (List UInt8) → List LogMsg
  | _, [] => []
  | sequence, piece :: pieces => f.msg w sequence piece :: msgs (sequence + 1) pieces

def stream (sequence : ℕ) (pieces : List (List UInt8)) : List UInt8 :=
  pieceStream w f.logId f.prio f.sec f.tag sequence pieces

def names (content : List LogMsg) : Names := ⟨logIdByte f.logId, f.prio, f.tag, content⟩

end File

def anyFile : LoggerList := ⟨fileMask none, 0, 0, 0⟩

theorem anyFile_mask {id : LogId} (h : id ≠ .kernel ∧ id ≠ .events ∧ id ≠ .security) :
    anyFile.logMask &&& (1 <<< (logIdByte id).toUInt32) ≠ 0 := by
  obtain ⟨hk, he, hs⟩ := h
  cases id with
  | kernel => exact absurd rfl hk
  | events => exact absurd rfl he
  | security => exact absurd rfl hs
  | _ => decide

section Read

variable {f : File} {w : Writer} {sequence : ℕ} {piece : List UInt8}

theorem length_tag (f : File) : f.tag.length = f.name.length := by
  rw [File.tag, tagOf, File.name, length_append, length_append, length_cons, length_cons]

theorem File.Valid.packetLen_eq (hf : f.Valid) : packetLen f.tag = loggerEntryMaxPayload - 1 - (f.tag.length + 1) := by
  have hr := hf.room
  rw [← length_tag] at hr
  rw [packetLen, loggerEntryMaxPayload] at *
  omega

theorem nsec_toNat (h : sequence < fileMaxSequence) :
    (UInt32.ofNat (sequence * fileSequence)).toNat = sequence * fileSequence := by
  rw [fileMaxSequence] at h
  rw [fileSequence]
  exact mod_eq_of_lt (by omega)

theorem pmsgRead_piece (hf : f.Valid) (hid : f.logId ≠ .kernel ∧ f.logId ≠ .events ∧ f.logId ≠ .security)
    (hseq : sequence < fileMaxSequence) (hp : piece.length ≤ packetLen f.tag) (pieces : List (List UInt8))
    (rest : List UInt8) :
    pmsgRead anyFile [] (f.stream w sequence (piece :: pieces) ++ rest) =
      .msg (f.msg w sequence piece) (f.stream w (sequence + 1) pieces ++ rest) := by
  have hr := hf.room
  rw [hf.packetLen_eq] at hp
  rw [← length_tag, loggerEntryMaxPayload] at hr
  rw [loggerEntryMaxPayload] at hp
  have hl : (f.tag ++ 0 :: piece).length = f.tag.length + 1 + piece.length := by
    rw [length_append, length_cons]
    omega
  have hv : (pieceHeader w f.logId f.sec f.tag sequence piece).Valid f.prio (f.tag ++ 0 :: piece).length := by
    refine ⟨?_, ?_, ?_, show logIdByte f.logId < logIdMax by cases f.logId <;> decide, ?_, Or.inr (Or.inr hf.prio)⟩
    · rw [pieceHeader, UInt16.toNat_ofNat', hl, sizeofBuf]
      exact mod_eq_of_lt (by omega)
    · omega
    · rw [hl, loggerEntryMaxPayload]
      omega
    · rw [pieceHeader, UInt32.lt_iff_toNat_lt, nsec_toNat hseq]
      exact lt_of_lt_of_le (mul_lt_mul_of_pos_right hseq (by decide)) (by decide)
  have ht : anyFile.takes (pieceHeader w f.logId f.sec f.tag sequence piece) :=
    decide_eq_true ⟨anyFile_mask hid, Or.inl ⟨rfl, rfl⟩, Or.inl rfl⟩
  rw [File.stream, pieceStream, append_assoc, cons_append, append_assoc]
  exact pmsgRead_record hv ht

theorem isFor_msg (n : Names) :
    n.isFor (f.msg w sequence piece) = decide (n.name = cstring (f.tag ++ 0 :: piece) ∧ n.id = logIdByte f.logId ∧ n.prio = f.prio) :=
  rfl

theorem File.Valid.cstring_tag (hf : f.Valid) : cstring (f.tag ++ 0 :: piece) = f.tag :=
  cstring_append (tagOf_ne_zero hf.dir hf.base)

theorem File.Valid.isFileTag_tag (hf : f.Valid) : isFileTag false (f.tag ++ 0 :: piece) :=
  isFileTag_tagOf hf.dir hf.base

theorem isFor_names (hf : f.Valid) (content : List LogMsg) : (f.names content).isFor (f.msg w sequence piece) := by
  rw [isFor_msg, hf.cstring_tag]
  exact decide_eq_true ⟨rfl, rfl, rfl⟩

theorem isFor_of_ne (hf : f.Valid) {n : Names} (h : n.name ≠ f.tag) : n.isFor (f.msg w sequence piece) = false := by
  rw [isFor_msg, hf.cstring_tag]
  exact decide_eq_false fun h' => h h'.1

theorem addMessage_piece (hf : f.Valid) (hseq : sequence < fileMaxSequence) (names : List Names) :
    addMessage [] 0 names (f.msg w sequence piece) =
      updateFirst (·.isFor (f.msg w sequence piece))
        (fun n => { n with content := insertContent (f.msg w sequence piece) n.content })
        (if names.any (·.isFor (f.msg w sequence piece)) then names else insertName (f.names []) names) := by
  have hn : (f.msg w sequence piece).nsec.toNat = sequence * fileSequence := nsec_toNat hseq
  have htag : (f.msg w sequence piece).msg.drop 1 = f.tag ++ 0 :: piece := rfl
  rw [addMessage, hn, htag, hf.isFileTag_tag, hf.cstring_tag,
    if_neg, if_neg (not_not_intro rfl), if_neg fun h => h.1 rfl]
  · rfl
  · rintro (h | h)
    · exact h (Nat.mul_mod_left ..)
    · rw [Nat.mul_div_cancel _ (by decide)] at h
      exact Nat.not_le.mpr hseq h

variable (w piece) in
theorem addMessage_first (hf : f.Valid) (hseq : sequence < fileMaxSequence) {names : List Names}
    (hnames : ∀ n ∈ names, n.name ≠ f.tag) :
    (addMessage [] 0 names (f.msg w sequence piece)).Perm (f.names [f.msg w sequence piece] :: names) := by
  have hnone : names.any (·.isFor (f.msg w sequence piece)) = false := by
    rw [any_eq_false]
    intro n hn
    rw [isFor_of_ne hf (hnames n hn)]
    exact Bool.false_ne_true
  rw [addMessage_piece hf hseq, hnone, if_neg Bool.false_ne_true]
  exact updateFirst_perm (insertName_perm _ names) (isFor_names hf []) fun n hn => isFor_of_ne hf (hnames n hn)

variable (w piece) in
theorem addMessage_next (hf : f.Valid) (hseq : sequence < fileMaxSequence) {names others : List Names}
    {content : List LogMsg} (h : names.Perm (f.names content :: others)) (hothers : ∀ n ∈ others, n.name ≠ f.tag)
    (hcontent : ∀ m ∈ content, m.nsec.toNat < sequence * fileSequence) :
    (addMessage [] 0 names (f.msg w sequence piece)).Perm
      (f.names (content ++ [f.msg w sequence piece]) :: others) := by
  have hany : names.any (·.isFor (f.msg w sequence piece)) :=
    any_eq_true.mpr ⟨_, h.mem_iff.mpr (mem_cons_self ..), isFor_names hf content⟩
  have hinsert : insertContent (f.msg w sequence piece) content = content ++ [f.msg w sequence piece] := by
    refine insertContent_last fun m hm => UInt32.lt_iff_toNat_lt.mpr ?_
    exact (hcontent m hm).trans_eq (nsec_toNat hseq).symm
  rw [addMessage_piece hf hseq, hany, if_pos rfl, ← hinsert]
  exact updateFirst_perm h (isFor_names hf content) fun n hn => isFor_of_ne hf (hothers n hn)

theorem msgs_concat (f : File) (w : Writer) (sequence : ℕ) (content : List LogMsg) (piece : List UInt8)
    (pieces : List (List UInt8)) :
    content ++ [f.msg w sequence piece] ++ f.msgs w (sequence + 1) pieces = content ++ f.msgs w sequence (piece :: pieces) := by
  rw [append_assoc]
  rfl

variable {pieces : List (List UInt8)} {names : List Names}

theorem collect_next (hf : f.Valid) (hid : f.logId ≠ .kernel ∧ f.logId ≠ .events ∧ f.logId ≠ .security) (hseq : sequence + pieces.length ≤ fileMaxSequence)
    (hp : ∀ piece ∈ pieces, piece.length ≤ packetLen f.tag) {others : List Names} {content : List LogMsg}
    (h : names.Perm (f.names content :: others)) (ho : ∀ n ∈ others, n.name ≠ f.tag)
    (hc : ∀ m ∈ content, m.nsec.toNat < sequence * fileSequence) (n : ℕ) (rest : List UInt8) :
    ∃ names', collect anyFile [] 0 (pieces.length + n) (f.stream w sequence pieces ++ rest) names =
        collect anyFile [] 0 n rest names' ∧
      names'.Perm (f.names (content ++ f.msgs w sequence pieces) :: others) := by
  induction pieces generalizing sequence names content with
  | nil =>
    rw [length_nil, zero_add]
    exact ⟨names, rfl, (append_nil content).symm ▸ h⟩
  | cons piece pieces ih =>
    rw [length_cons] at hseq
    have hlt : sequence < fileMaxSequence := by omega
    have hr := pmsgRead_piece (w := w) hf hid hlt (hp piece (mem_cons_self ..)) pieces rest
    have hadd := addMessage_next w piece hf hlt h ho hc
    have he : ∀ m ∈ content ++ [f.msg w sequence piece], m.nsec.toNat < (sequence + 1) * fileSequence := by
      intro m hm
      rw [Nat.succ_mul]
      obtain hm | hm := mem_append.mp hm
      · exact Nat.lt_add_right _ (hc m hm)
      · rw [mem_singleton.mp hm]
        exact (nsec_toNat hlt).trans_lt (Nat.lt_add_of_pos_right (by decide))
    obtain ⟨names', hco, hpe⟩ := ih (by omega)
      (fun piece hpi => hp piece (mem_cons_of_mem _ hpi)) hadd he
    refine ⟨names', ?_, msgs_concat f w sequence content piece pieces ▸ hpe⟩
    rw [length_cons, add_right_comm, collect, hr]
    exact hco

theorem collect_file (hf : f.Valid) (hid : f.logId ≠ .kernel ∧ f.logId ≠ .events ∧ f.logId ≠ .security) (hp : Pieces (packetLen f.tag) fileMaxSequence f.content pieces) (hn : ∀ n ∈ names, n.name ≠ f.tag) (n : ℕ) (rest : List UInt8) :
    ∃ names', collect anyFile [] 0 (pieces.length + n) (f.stream w 0 pieces ++ rest) names =
        collect anyFile [] 0 n rest names' ∧
      names'.Perm (f.names (f.msgs w 0 pieces) :: names) := by
  cases pieces with
  | nil => exact absurd hp.flatten.symm hf.content
  | cons piece pieces =>
    have hl := hp.length
    rw [length_cons] at hl
    have hr := pmsgRead_piece (w := w) hf hid (by decide : 0 < fileMaxSequence) (hp.fits piece (mem_cons_self ..)) pieces rest
    have hadd := addMessage_first w piece hf (by decide : 0 < fileMaxSequence) hn
    obtain ⟨names', hc, hpe⟩ := collect_next (w := w) hf hid (by omega : 1 + pieces.length ≤ fileMaxSequence)
      (fun piece hpi => hp.fits piece (mem_cons_of_mem _ hpi)) hadd hn
      (fun m hm => by rw [mem_singleton.mp hm]; exact succ_pos _) n rest
    refine ⟨names', ?_, hpe⟩
    rw [length_cons, add_right_comm, collect, hr]
    exact hc

theorem assemble_msgs (hseq : sequence + pieces.length ≤ fileMaxSequence) (hp : ∀ piece ∈ pieces, piece ≠ []) :
    assemble (f.tag.length + 1) (sequence * fileSequence) (f.msgs w sequence pieces) = pieces.flatten := by
  induction pieces generalizing sequence with
  | nil => rfl
  | cons piece pieces ih =>
    rw [length_cons] at hseq
    have hn : (f.msg w sequence piece).nsec.toNat = sequence * fileSequence := nsec_toNat (by omega)
    have hpos := length_pos_iff.mpr (hp piece (mem_cons_self ..))
    have hl : (f.msg w sequence piece).msg.length = f.tag.length + 1 + 1 + piece.length := by
      have hmsg : (f.msg w sequence piece).msg = f.prio :: (f.tag ++ 0 :: piece) := rfl
      rw [hmsg, length_cons, length_append, length_cons]
      omega
    have hd : (f.msg w sequence piece).msg.drop (f.tag.length + 1 + 1) = piece := by
      have hmsg : (f.msg w sequence piece).msg = (f.prio :: (f.tag ++ [0])) ++ piece := by
        rw [cons_append, append_assoc]
        rfl
      rw [hmsg]
      refine drop_left' ?_
      rw [length_cons, length_append]
      rfl
    rw [File.msgs, assemble, if_neg (by omega), hn, Nat.sub_self, hd, ← Nat.succ_mul, ih (by omega)
      fun piece hpi => hp piece (mem_cons_of_mem _ hpi)]
    rfl

theorem deliver_names (hf : f.Valid) (hp : Pieces (packetLen f.tag) fileMaxSequence f.content pieces) :
    deliver (f.names (f.msgs w 0 pieces)) = some f.callback := by
  have hbuf : assemble (f.tag.length + 1) 0 (f.msgs w 0 pieces) = pieces.flatten := by
    exact assemble_msgs ((zero_add _).trans_le hp.length) hp.nonempty
  rw [hp.flatten] at hbuf
  have hn : toFilename f.tag = f.name := toFilename_tagOf hf.dir
  rw [deliver, show (f.names (f.msgs w 0 pieces)).name = f.tag from rfl,
    show (f.names (f.msgs w 0 pieces)).content = f.msgs w 0 pieces from rfl, hbuf, if_neg hf.content, hn]
  rfl

theorem length_stream (f : File) (w : Writer) (sequence : ℕ) (pieces : List (List UInt8)) :
    pieces.length ≤ (f.stream w sequence pieces).length := by
  induction pieces generalizing sequence with
  | nil => exact zero_le _
  | cons piece pieces ih =>
    have hr := ih (sequence + 1)
    rw [File.stream] at hr ⊢
    rw [pieceStream, length_append, length_cons, length_cons, length_append]
    omega

end Read

theorem File.Valid.write_eq {f : File} {w : Writer} (hf : f.Valid) (hw : (f.write w).1 = .ok f.content.length) :
    (f.logId ≠ .kernel ∧ f.logId ≠ .events ∧ f.logId ≠ .security) ∧
      ∃ pieces, Pieces (packetLen f.tag) fileMaxSequence f.content pieces ∧ (f.write w).2 = f.stream w 0 pieces := by
  have htag : fileTag f.name = f.tag := fileTag_eq hf.dir hf.base
  have hro := hf.room
  have hp := hf.packetLen_eq
  rw [← length_tag] at hro
  rw [File.write, pmsgFileWrite] at hw ⊢
  split at hw
  · cases hw
  · rename_i hid
    rw [not_or, not_or] at hid
    refine ⟨hid, ?_⟩
    rw [if_neg (by rw [not_or, not_or]; exact hid)]
    dsimp only at hw ⊢
    rw [htag] at hw ⊢
    cases hr : (writeFrom w f.logId f.prio f.sec f.tag fileMaxSequence 0 f.content).1 with
    | error e =>
      rw [hr] at hw
      cases hw
    | ok left =>
      rw [hr] at hw
      have hl : f.content.length - left = f.content.length := Except.ok.inj hw
      have hpos := length_pos_iff.mpr hf.content
      obtain rfl : left = 0 := by omega
      exact writeFrom_pieces (by omega) (by omega) (Prod.ext hr rfl)

theorem collect_files {w : Writer} {files : List File} (hv : ∀ f ∈ files, f.Valid)
    (hw : ∀ f ∈ files, (f.write w).1 = .ok f.content.length) (hd : (files.map File.tag).Nodup)
    {names : List Names} (hna : ∀ f ∈ files, ∀ n ∈ names, n.name ≠ f.tag) {n : ℕ}
    (hn : (files.flatMap fun f => (f.write w).2).length ≤ n) :
    ∃ entries : List Names, (collect anyFile [] 0 n (files.flatMap fun f => (f.write w).2) names).Perm (entries ++ names) ∧
      entries.filterMap deliver = (files.map File.callback).reverse := by
  induction files generalizing names n with
  | nil =>
    refine ⟨[], .of_eq ?_, rfl⟩
    cases n with
    | zero => rfl
    | succ n =>
      rw [flatMap_nil, collect, pmsgRead_nil]
      rfl
  | cons f files ih =>
    have hf := hv f (mem_cons_self ..)
    obtain ⟨hid, pieces, hp, hs⟩ := hf.write_eq (hw f (mem_cons_self ..))
    obtain ⟨hno, hnd⟩ := nodup_cons.mp hd
    rw [flatMap_cons, length_append, hs] at hn
    have hl := length_stream f w 0 pieces
    obtain ⟨m, rfl⟩ := Nat.exists_eq_add_of_le (Nat.le_trans hl (Nat.le_of_add_right_le hn))
    obtain ⟨names', hc, hpe⟩ := collect_file (w := w) hf hid hp (hna f (mem_cons_self ..)) m
      (files.flatMap fun f => (f.write w).2)
    have hna' : ∀ g ∈ files, ∀ n ∈ names', n.name ≠ g.tag := by
      intro g hg n hmem
      obtain rfl | hmem := mem_cons.mp (hpe.subset hmem)
      · exact fun heq => hno (mem_map.mpr ⟨g, hg, heq.symm⟩)
      · exact hna g (mem_cons_of_mem f hg) n hmem
    obtain ⟨entries, he, hde⟩ := ih (fun g hg => hv g (mem_cons_of_mem f hg))
      (fun g hg => hw g (mem_cons_of_mem f hg)) hnd hna' (n := m) (by omega)
    refine ⟨entries ++ [f.names (f.msgs w 0 pieces)], ?_, ?_⟩
    · rw [flatMap_cons, hs, hc, append_assoc]
      exact he.trans (hpe.append_left entries)
    · rw [filterMap_append, hde, map_cons, reverse_cons, filterMap_cons,
        deliver_names hf hp]
      rfl

theorem nodup_tags {files : List File} (hv : ∀ f ∈ files, f.Valid) (h : (files.map File.name).Nodup) :
    (files.map File.tag).Nodup := by
  have hn : (files.map File.tag).map toFilename = files.map File.name := by
    rw [map_map]
    exact map_congr_left fun f hf => toFilename_tagOf (hv f hf).dir
  exact Nodup.of_map toFilename (hn ▸ h)

/-- Files with distinct names and some content that are written whole are all read back: the callback is called
once for each. -/
theorem pmsg_files_round_trip (w : Writer) (files : List File) (hvalid : ∀ f ∈ files, f.Valid)
    (hdistinct : (files.map File.name).Nodup) (hwrote : ∀ f ∈ files, (f.write w).1 = .ok f.content.length) :
    ∃ calls, pmsgFileRead none 0 [] (files.flatMap fun f => (f.write w).2) = .ok calls ∧
      calls.Perm (files.map File.callback) := by
  obtain ⟨entries, hp, hd⟩ := collect_files hvalid hwrote (nodup_tags hvalid hdistinct)
    (fun _ _ n (h : n ∈ ([] : List Names)) => nomatch h) (le_refl _)
  refine ⟨_, rfl, ?_⟩
  rw [append_nil] at hp
  exact ((hp.filterMap deliver).trans (.of_eq hd)).trans (reverse_perm _)

def twoLines : File := ⟨[97], [98], [120, 10, 121], .system, 4, 7⟩

/-- A file for two packets, the first of which ends with its newline. -/
def longFile : File := ⟨[97], [99], replicate 4061 120 ++ newline :: replicate 38 121, .system, 4, 7⟩

theorem pmsg_files_round_trip_twoFiles :
    transfer (packetLen longFile.tag) longFile.content = 4062 ∧
      ∃ calls, pmsgFileRead none 0 [] ([twoLines, longFile].flatMap fun f => (f.write ⟨true, true, 0, 1, 1⟩).2) =
          .ok calls ∧ calls.Perm [twoLines.callback, longFile.callback] := by
  have hv : ∀ f ∈ [twoLines, longFile], f.Valid := by
    rintro f (_ | ⟨_, _ | ⟨_, ⟨⟩⟩⟩)
    · exact ⟨by decide, by decide, by decide, by decide, by decide⟩
    · exact ⟨by decide, by decide, by decide, by decide, by decide +kernel⟩
  refine ⟨by decide +kernel, pmsg_files_round_trip ⟨true, true, 0, 1, 1⟩ [twoLines, longFile] hv (by decide) ?_⟩
  rintro f (_ | ⟨_, _ | ⟨_, ⟨⟩⟩⟩)
  · decide +kernel
  · decide +kernel

def colonFile : File := ⟨[97], [58], [120], .system, 4, 7⟩

theorem pmsgRead_colonFile :
    ∃ m, pmsgRead anyFile [] (colonFile.write ⟨true, true, 0, 1, 1⟩).2 = .msg m [] ∧ addMessage [] 0 [] m = [] := by
  refine ⟨(pieceHeader ⟨true, true, 0, 1, 1⟩ .system 7 [97, 58, 58] 0 [120]).msg [4, 97, 58, 58, 0, 120], ?_, by decide⟩
  have hv : (pieceHeader ⟨true, true, 0, 1, 1⟩ .system 7 [97, 58, 58] 0 [120]).Valid 4 [97, 58, 58, 0, 120].length :=
    ⟨rfl, by decide, by decide, by decide, by decide, by decide⟩
  exact pmsgRead_record hv rfl

/-- Nothing is written of an empty file, and a name with a colon of its own is not read back. -/
theorem empty_file_and_colon_lost :
    (⟨[97], [98], [], .system, 4, 7⟩ : File).write ⟨true, true, 0, 1, 1⟩ = (.ok 0, []) ∧
      pmsgFileRead none 0 [] [] = .ok [] ∧
      (colonFile.write ⟨true, true, 0, 1, 1⟩).1 = .ok 1 ∧
      pmsgFileRead none 0 [] (colonFile.write ⟨true, true, 0, 1, 1⟩).2 = .ok [] := by
  obtain ⟨m, hr, hadd⟩ := pmsgRead_colonFile
  refine ⟨rfl, rfl, rfl, ?_⟩
  have hc : collect anyFile [] 0 (22 + 1 + 1) (colonFile.write ⟨true, true, 0, 1, 1⟩).2 [] = [] := by
    rw [collect, hr]
    dsimp only
    rw [hadd, collect, pmsgRead_nil]
  exact congrArg (fun names => Except.ok (names.filterMap deliver)) hc

end Bionic.Pmsg
