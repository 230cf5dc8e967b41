import Bionic.Properties.Seqlock

namespace Bionic.Properties.Seqlock

open Function

variable {P : Type}

/-- What a writer step does to one property, as far as a reader of it can tell. -/
structure Effect (s s' : State P) (p : P) : Prop where
  out : s'.out = s.out
  history : ∀ k ≤ s.completed p, s'.history p k = s.history p k
  serial : s'.completed p = s.completed p + 1 ∨
    s'.completed p = s.completed p ∧
      (s'.serial p = s.serial p ∨ serialDirty (s.serial p) = false ∧ serialDirty (s'.serial p))

variable {s s' : State P}

theorem Effect.of_memory (p : P) (ho : s'.out = s.out) (hh : s'.history = s.history)
    (hc : s'.completed = s.completed) (hs : s'.serial p = s.serial p) : Effect s s' p :=
  ⟨ho, fun _ _ => by rw [hh], .inr ⟨by rw [hc], .inl hs⟩⟩

theorem WriterStep.reader_eq [DecidableEq P] (h : WriterStep s s') : s'.reader = s.reader := by
  cases h with
  | update u hw => split <;> rfl
  | load | backup | backupDone | markDirty | strlcpy | publish | areaLoad | areaStore => rfl

theorem WriterStep.effect [DecidableEq P] (hi : WriterInv s) (h : WriterStep s s') (p : P) : Effect s s' p := by
  cases h with
  | update u hw => split <;> exact .of_memory p rfl rfl rfl rfl
  | load | backup | backupDone | strlcpy | areaLoad | areaStore => exact .of_memory p rfl rfl rfl rfl
  | markDirty u serial hw =>
    by_cases hp : p = u.pi
    · subst hp
      have hph := hi.phase
      rw [hw] at hph
      have hq := hi.quiet u.pi (by simp [hw])
      have hc := (hi.current u.pi).clean
      refine ⟨rfl, fun _ _ => rfl, .inr ⟨rfl, .inr ⟨by rw [hq.1]; exact hc, ?_⟩⟩⟩
      simp only [update_self, hph.2.1]
      exact mark_dirty hc
    · exact .of_memory p rfl rfl rfl (update_of_ne hp _ _)
  | publish u serial hw =>
    by_cases hp : p = u.pi
    · subst hp
      refine ⟨rfl, fun k hk => ?_, .inl (update_self _ _ _)⟩
      simp only [update_self]
      exact update_of_ne (by omega) _ _
    · refine ⟨rfl, fun k _ => ?_, .inr ⟨update_of_ne hp _ _, .inl (update_of_ne hp _ _)⟩⟩
      simp only [update_of_ne hp]

variable {p : P}

theorem Effect.completed_le (he : Effect s s' p) : s.completed p ≤ s'.completed p := by
  rcases he.serial with h | h <;> omega

def byteAt (v : List UInt8) (i : Nat) : UInt8 := v.getD i 0

/-- The reader holds `serial`, loaded when `m` updates were complete. While the serial in memory is that one,
the bytes copied so far are those of publication `m`. -/
structure Copying (s : State P) (p : P) (start : Nat) (serial : UInt32) (left : Finset Nat) (m : Nat) : Prop where
  start_le : start ≤ m
  le_completed : m ≤ s.completed p
  loaded : serial = if serialDirty serial then (s.history p m).serial ||| 1 else (s.history p m).serial
  sticky : serialDirty serial → s.completed p = m → s.serial p = serial
  copied : s.completed p = m → s.serial p = serial →
    ∀ i ≤ (s.history p m).value.length, i ∉ left → s.out i = byteAt (s.history p m).value i

structure Returned (s : State P) (p : P) (start : Nat) (serial : UInt32) (stop n : Nat) : Prop where
  start_le : start ≤ n
  le_stop : n ≤ stop
  value : CString s.out (s.history p n).value
  len : (s.history p n).value.length = serialValueLen serial
  serial : serial = if serialDirty serial then (s.history p n).serial ||| 1 else (s.history p n).serial

def ReaderOk (s : State P) : Reader P → Prop
  | .idle => True
  | .load p start => start ≤ s.completed p
  | .copy p start serial left => ∃ m, Copying s p start serial left m
  | .reload p start serial => ∃ m, Copying s p start serial ∅ m
  | .done p start serial stop =>
    stop ≤ s.completed p ∧ (stop - start < 2 ^ 23 → ∃ n, Returned s p start serial stop n)

variable {start m : Nat} {serial : UInt32} {left : Finset Nat}

theorem Copying.step
    (h : Copying s p start serial left m) (he : Effect s s' p) : Copying s' p start serial left m := by
  have hm := he.history m h.le_completed
  -- If nothing has completed since the load, then nothing had completed before this step either.
  have hb (hc : s'.completed p = m) : s.completed p = m :=
    le_antisymm (hc ▸ he.completed_le) h.le_completed
  have hsa (hc : s'.completed p = m) :
      s'.serial p = s.serial p ∨ serialDirty (s.serial p) = false ∧ serialDirty (s'.serial p) := by
    rcases he.serial with hs | hs
    · have := hb hc; omega
    · exact hs.2
  have hst (hd : serialDirty serial) (hc : s'.completed p = m) : s'.serial p = serial := by
    have hmem := h.sticky hd (hb hc)
    rcases hsa hc with hs | hs
    · exact hs.trans hmem
    · rw [hmem, hd] at hs
      cases hs.1
  refine ⟨h.start_le, h.le_completed.trans he.completed_le, by rw [hm]; exact h.loaded, hst, ?_⟩
  intro hc hs
  have hold : s.serial p = serial := by
    cases hd : serialDirty serial with
    | true => exact h.sticky hd (hb hc)
    | false =>
      rcases hsa hc with hq | hq
      · exact hq.symm.trans hs
      · rw [hs, hd] at hq
        cases hq.2
  rw [hm, he.out]
  exact h.copied (hb hc) hold

theorem Returned.step {stop n : Nat}
    (h : Returned s p start serial stop n) (hs : stop ≤ s.completed p) (he : Effect s s' p) :
    Returned s' p start serial stop n := by
  have hn := he.history n (h.le_stop.trans hs)
  exact ⟨h.start_le, h.le_stop, by rw [hn, he.out]; exact h.value, by rw [hn]; exact h.len,
    by rw [hn]; exact h.serial⟩

theorem ReaderOk.writerStep (he : ∀ p, Effect s s' p) {r : Reader P} (h : ReaderOk s r) : ReaderOk s' r := by
  cases r with
  | idle => trivial
  | load p start => exact le_trans (b := s.completed p) h (he p).completed_le
  | copy p start serial left | reload p start serial =>
    obtain ⟨m, hm⟩ := h
    exact ⟨m, hm.step (he p)⟩
  | done p start serial stop =>
    refine ⟨h.1.trans (he p).completed_le, fun hlt => ?_⟩
    obtain ⟨n, hn⟩ := h.2 hlt
    exact ⟨n, hn.step h.1 (he p)⟩

theorem CString.byteAt {b : Buffer} {v : List UInt8} (h : CString b v) (i : Nat) (hi : i ≤ v.length) :
    b i = byteAt v i := by
  rcases hi.lt_or_eq with hlt | rfl
  · rw [h.bytes i hlt, Seqlock.byteAt, List.getD_eq_getElem _ _ hlt]
  · rw [h.terminator, Seqlock.byteAt, List.getD_eq_default _ _ le_rfl]

/-- The serial in memory is the last published one, marked exactly while its value is being overwritten, and the
buffer the mark points to holds the last published value. -/
theorem WriterInv.memory (hi : WriterInv s) (p : P) :
    (s.serial p = if serialDirty (s.serial p) then (s.current p).serial ||| 1 else (s.current p).serial) ∧
      CString (s.source p (s.serial p)) (s.current p).value := by
  have hc := (hi.current p).clean
  by_cases hd : s.writer.dirty = some p
  · have hp := hi.phase
    obtain ⟨hs, hb⟩ :
        s.serial p = (s.current p).serial ||| 1 ∧ CString s.dirtyBackupArea (s.current p).value := by
      cases hw : s.writer with
      | strlcpy u serial i | publish u serial =>
        rw [hw] at hp hd
        obtain rfl : u.pi = p := Option.some.inj hd
        exact ⟨hp.2.2.1.trans hp.2.1, hp.2.2.2.1⟩
      | _ => simp [hw] at hd
    have hm := mark_dirty hc
    rw [State.source, hs, hm]
    exact ⟨rfl, hb⟩
  · obtain ⟨hs, hv⟩ := hi.quiet p hd
    rw [State.source, hs, hc]
    exact ⟨rfl, hv⟩

theorem PublishedOk.valueLen {base : UInt32} {k : Nat} {pub : Published} (h : PublishedOk base k pub)
    (hs : serial = if serialDirty serial then pub.serial ||| 1 else pub.serial) :
    serialValueLen serial = pub.value.length := by
  cases hd : serialDirty serial with
  | true =>
    rw [hs, hd, if_pos rfl, mark_valueLen h.clean]
    exact h.len
  | false =>
    rw [hs, hd]
    exact h.len

section

variable (hi : WriterInv s)
include hi

theorem Copying.of_load (hle : start ≤ s.completed p) :
    Copying s p start (s.serial p) (memcpyRange (s.serial p)) (s.completed p) := by
  have hmem := (hi.memory p).1
  refine ⟨hle, le_rfl, hmem, fun _ _ => rfl, ?_⟩
  intro _ _ i hlen hnot
  refine absurd ?_ hnot
  rw [memcpyRange, (hi.current p).valueLen hmem, Finset.mem_range]
  exact Nat.lt_succ_of_le hlen

theorem Copying.copy (h : Copying s p start serial left m) (i : Nat) (r : Reader P) :
    Copying { s with out := update s.out i (s.source p serial i), reader := r }
      p start serial (left.erase i) m := by
  refine ⟨h.start_le, h.le_completed, h.loaded, h.sticky, ?_⟩
  intro hc hs j hj hnot
  by_cases he : j = i
  · subst he
    have hbuf := (hi.memory p).2
    rw [hs, State.current, hc] at hbuf
    simpa using hbuf.byteAt j hj
  · simp only [update_of_ne he]
    exact h.copied hc hs j hj (fun hmem => hnot (Finset.mem_erase.2 ⟨he, hmem⟩))

/-- Equal serials mean equal counts modulo the 2 ^ 23 values that fit beside the length and the mark. -/
theorem WriterInv.no_update (hm : m ≤ s.completed p) (hfew : s.completed p - m < 2 ^ 23)
    (hl : serial = if serialDirty serial then (s.history p m).serial ||| 1 else (s.history p m).serial)
    (hs : s.serial p = serial) : s.completed p = m := by
  have hold := hi.published p m hm
  have hnew := hi.current p
  have hmem := (hi.memory p).1
  rw [hs] at hmem
  have heq : (s.history p m).serial = (s.current p).serial := by
    cases hd : serialDirty serial with
    | true =>
      rw [hd, if_pos rfl] at hl hmem
      exact mark_inj hold.clean hnew.clean (hl.symm.trans hmem)
    | false =>
      rw [hd] at hl hmem
      exact hl.symm.trans hmem
  have hc := hold.count.symm.trans ((congrArg serialCount heq).trans hnew.count)
  omega

theorem Copying.leave (h : Copying s p start serial ∅ m) (hs : s.serial p = serial) (r : Reader P)
    (hfew : s.completed p - start < 2 ^ 23) :
    Returned { s with reader := r } p start serial (s.completed p) m := by
  have hst := h.start_le
  have hc := hi.no_update h.le_completed (by omega) h.loaded hs
  have hm := hi.published p m h.le_completed
  refine ⟨h.start_le, h.le_completed, ?_, (hm.valueLen h.loaded).symm, h.loaded⟩
  have hbuf := (hi.memory p).2
  rw [State.current, hc] at hbuf
  refine .of_getD hbuf.nulFree fun i hlen => ?_
  exact h.copied hc hs i hlen (Finset.notMem_empty i)

theorem ReaderOk.readerStep (h : ReaderOk s s.reader) (hs : ReaderStep s s') : ReaderOk s' s'.reader := by
  cases hs with
  | call p hr => exact le_rfl
  | load p start hr =>
    rw [hr] at h
    have hc := Copying.of_load hi h
    exact ⟨_, hc.start_le, hc.le_completed, hc.loaded, hc.sticky, hc.copied⟩
  | copy p start serial left i hr hmem =>
    rw [hr] at h
    obtain ⟨m, hm⟩ := h
    exact ⟨m, hm.copy hi i _⟩
  | copyDone p start serial hr =>
    rw [hr] at h
    obtain ⟨m, hm⟩ := h
    exact ⟨m, hm.start_le, hm.le_completed, hm.loaded, hm.sticky, hm.copied⟩
  | leave p start serial hr he =>
    rw [hr] at h
    obtain ⟨m, hm⟩ := h
    exact ⟨le_rfl, fun hfew => ⟨m, hm.leave hi he _ hfew⟩⟩
  | again p start serial hr he =>
    rw [hr] at h
    obtain ⟨m, hm⟩ := h
    have hc := Copying.of_load hi (hm.start_le.trans hm.le_completed)
    exact ⟨_, hc.start_le, hc.le_completed, hc.loaded, hc.sticky, hc.copied⟩
  | ret p start serial stop hr => trivial

end

theorem inv_invariant [DecidableEq P] : (system P).Invariant (fun s => WriterInv s ∧ ReaderOk s s.reader) where
  init := by
    intro s h
    refine ⟨.of_init h, ?_⟩
    rw [Init.reader h]
    trivial
  step := by
    rintro s s' ⟨hw, hr⟩ hs
    cases hs with
    | writer h =>
      refine ⟨hw.step h, ?_⟩
      rw [h.reader_eq]
      exact ReaderOk.writerStep (h.effect hw) hr
    | reader h => exact ⟨by cases h <;> exact hw.read _ _, ReaderOk.readerStep hw hr h⟩

/-- `start` and `stop` are the numbers of completed updates at the call and at the exit of the loop. -/
theorem readMutablePropertyValue_returns_published [DecidableEq P] {s : State P} (hs : (system P).Reachable s) {p : P} {start : Nat}
    {serial : UInt32} {stop : Nat} (hr : s.reader = .done p start serial stop) (hfew : stop - start < 2 ^ 23) :
    ∃ n, start ≤ n ∧ n ≤ stop ∧ CString s.out (s.history p n).value ∧
      (s.history p n).value.length = serialValueLen serial ∧
      serial = if serialDirty serial then (s.history p n).serial ||| 1 else (s.history p n).serial := by
  have h := (inv_invariant.reachable hs).2
  rw [hr] at h
  obtain ⟨n, hn⟩ := h.2 hfew
  exact ⟨n, hn.start_le, hn.le_stop, hn.value, hn.len, hn.serial⟩

/-- A reader that meets a property in the middle of its first update takes the old, empty value from the
backup area. -/
theorem readMutablePropertyValue_returns_backup :
    ∃ s : State Unit, (system Unit).Reachable s ∧ s.reader = .done () 0 1 0 ∧ serialDirty 1 = true ∧
      ∃ n, 0 ≤ n ∧ n ≤ 0 ∧ CString s.out (s.history () n).value ∧
        (s.history () n).value.length = serialValueLen 1 ∧
        1 = if serialDirty 1 then (s.history () n).serial ||| 1 else (s.history () n).serial := by
  let u : UpdateArgs Unit := ⟨(), [98], by decide⟩
  have h₀ : (system Unit).Reachable
      ⟨fun _ => 0, fun _ _ => 0, fun _ => 0, 0, fun _ => 0, .idle, .idle, fun _ => 0, fun _ _ => ⟨0, []⟩⟩ :=
    .of_init ⟨fun _ => ⟨by simp, rfl, by simp⟩, fun _ => by simp [propValueMax], fun _ => rfl,
      fun _ => by simp [serialDirty], fun _ => by simp [serialValueLen], fun _ => rfl, rfl, rfl⟩
  have h₁ := (h₀.step (.writer _ (.update u rfl))).step (.writer _ (.load u rfl))
    |>.step (.writer _ (.backup u 0 (memcpyRange 0) 0 rfl (by decide)))
    |>.step (.writer _ (.backupDone u 0 rfl))
    |>.step (.writer _ (.markDirty u 1 rfl))
    |>.step (.reader _ (.call () rfl))
    |>.step (.reader _ (.load () 0 rfl))
    |>.step (.reader _ (.copy () 0 1 (memcpyRange 1) 0 rfl (by decide)))
    |>.step (.reader _ (.copyDone () 0 1 rfl))
    |>.step (.reader _ (.leave () 0 1 rfl rfl))
  exact ⟨_, h₁, rfl, rfl, readMutablePropertyValue_returns_published h₁ rfl (by decide)⟩

end Bionic.Properties.Seqlock
