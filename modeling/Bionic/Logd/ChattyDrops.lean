import Bionic.Lib.BitField
import Bionic.Logd.ChattyPrune

namespace Bionic.Logd.Chatty

open Lib Function List Option Nat

def dropsOf (x : Source) (es : List LogBufferElement) : ℕ :=
  (es.map fun e => if source e = x then e.droppedCount else 0).sum

section Drops

variable (x : Source)

@[simp] theorem dropsOf_nil : dropsOf x [] = 0 := rfl

@[simp] theorem dropsOf_cons (e : LogBufferElement) (es : List LogBufferElement) :
    dropsOf x (e :: es) = (if source e = x then e.droppedCount else 0) + dropsOf x es := by
  simp [dropsOf]

@[simp] theorem dropsOf_append (es es' : List LogBufferElement) : dropsOf x (es ++ es') = dropsOf x es + dropsOf x es' := by
  simp [dropsOf]

theorem dropsOf_set {es : List LogBufferElement} {i : ℕ} {e e' : LogBufferElement} (h : es[i]? = some e)
    (hs : source e' = source e) :
    dropsOf x (es.set i e') + (if source e = x then e.droppedCount else 0) =
      dropsOf x es + if source e = x then e'.droppedCount else 0 := by
  induction es generalizing i with
  | nil => cases h
  | cons a es ih =>
    cases i with
    | zero =>
      cases h
      rw [set_cons_zero, dropsOf_cons, dropsOf_cons, hs]
      omega
    | succ i =>
      have ht := ih (i := i) h
      rw [set_cons_succ, dropsOf_cons, dropsOf_cons]
      omega

end Drops

def Apart (S : Source → Prop) : Prop := ∀ x y, S x → S y → logBufferElementKey x = logBufferElementKey y → x = y

structure Inv (S : Source → Prop) (id : LogId) (total : Source → ℕ) (l : Loop) (rest : List LogBufferElement) : Prop where
  sources : ∀ e ∈ l.done ++ rest, e.logId = id → S (source e)
  last : ∀ k i, l.last k = some i →
    ∃ e, l.done[i]? = some e ∧ logBufferElementKey (source e) = k ∧ e.logId = id
  balance : ∀ x, dropsOf x (l.done ++ rest) + dropsOf x l.account.leading + dropsOf x l.account.high =
    total x + l.account.turned.count x
  credits : ∀ p ∈ l.account.credits, p.1 = p.2

namespace Inv

variable {S : Source → Prop} {id : LogId} {total : Source → ℕ} {l l' : Loop} {e : LogBufferElement}
  {rest : List LogBufferElement} (c : Call)

section

variable (h : Inv S id total l rest) (e : LogBufferElement)
include h

theorem forget (hd : l'.done = l.done) (ha : l'.account = l.account)
    (hla : ∀ k i, l'.last k = some i → l.last k = some i) : Inv S id total l' rest := by
  obtain ⟨hs, hl, hb, hc⟩ := h
  constructor
  · rw [hd]
    exact hs
  · intro k i hk
    rw [hd]
    exact hl k i (hla k i hk)
  · rw [hd, ha]
    exact hb
  · rw [ha]
    exact hc

theorem congr (hd : l'.done = l.done) (hl : l'.last = l.last)
    (ha : l'.account = l.account) : Inv S id total l' rest :=
  h.forget hd ha fun _ _ hk => hl ▸ hk

theorem clear : Inv S id total (l.clear e) rest := by
  refine h.forget rfl rfl ?_
  intro k i hk
  exact (filter_eq_some_iff.mp hk).1

theorem erase (rest' : List LogBufferElement) : Inv S id total (l.erase c e rest') rest :=
  h.congr rfl rfl rfl

end

section

variable (h : Inv S id total l (e :: rest)) (rest' : List LogBufferElement)
include h

theorem keep : Inv S id total (l.keep e) rest := by
  have hl : l.done ++ [e] ++ rest = l.done ++ e :: rest := by simp
  constructor
  · change ∀ e' ∈ l.done ++ [e] ++ rest, _
    rw [hl]
    exact h.sources
  · intro k i hk
    obtain ⟨e', he', hr⟩ := h.last k i hk
    refine ⟨e', ?_, hr⟩
    change (l.done ++ [e])[i]? = some e'
    rw [getElem?_append_left (List.getElem?_eq_some_iff.mp he').1, he']
  · intro x
    change dropsOf x (l.done ++ [e] ++ rest) + _ + _ = _
    rw [hl]
    exact h.balance x
  · exact h.credits

theorem addKeep (hid : e.logId = id) : Inv S id total (l.addKeep e) rest := by
  have hke := h.keep
  refine ⟨hke.sources, ?_, hke.balance, hke.credits⟩
  intro k i hk
  change update l.last _ _ k = some i at hk
  by_cases hkey : k = logBufferElementKey (source e)
  · subst hkey
    rw [update_self, some.injEq] at hk
    subst hk
    refine ⟨e, ?_, rfl, hid⟩
    exact getElem?_concat_length
  · rw [update_of_ne hkey] at hk
    exact hke.last k i hk

theorem remove (hdo : l'.done = l.done) (hl : l'.last = l.last)
    (ht : l'.account.turned = l.account.turned) (hc : l'.account.credits = l.account.credits)
    (hsum : ∀ x, dropsOf x l'.account.leading + dropsOf x l'.account.high =
      dropsOf x l.account.leading + dropsOf x l.account.high + dropsOf x [e]) : Inv S id total l' rest := by
  constructor
  · intro e' he'
    rw [hdo, mem_append] at he'
    apply h.sources e'
    rw [mem_append, mem_cons]
    exact he'.imp (fun hd => hd) Or.inr
  · rw [hdo, hl]
    exact h.last
  · intro x
    have hb := h.balance x
    have hx := hsum x
    rw [hdo, ht]
    simp only [dropsOf_append, dropsOf_cons, dropsOf_nil] at hb hx ⊢
    omega
  · rw [hc]
    exact h.credits

theorem eraseLeading : Inv S id total (l.eraseLeading c e rest') rest := by
  refine h.remove rfl rfl rfl rfl ?_
  intro x
  change dropsOf x (l.account.leading ++ [e]) + dropsOf x l.account.high = _
  rw [dropsOf_append]
  omega

theorem eraseHigh : Inv S id total (l.eraseHigh c e rest') rest := by
  refine h.remove rfl rfl rfl rfl ?_
  intro x
  change dropsOf x l.account.leading + dropsOf x (l.account.high ++ [e]) = _
  rw [dropsOf_append]
  omega

end

theorem coalesce_false (h : Inv S id total l rest) {n : ℕ} (hc : (l.coalesce e n).2 = false) :
    Inv S id total (l.coalesce e n).1 rest := by
  revert hc
  rw [Loop.coalesce]
  split
  · exact fun _ => h
  next i hi =>
    split
    · exact fun _ => h
    next found hf =>
      split_ifs
      · intro hc
        cases hc
      · intro _
        refine h.forget rfl rfl ?_
        intro k j hk
        change update l.last _ none k = some j at hk
        by_cases hkey : k = logBufferElementKey (source e)
        · rw [hkey, update_self] at hk
          cases hk
        · rwa [update_of_ne hkey] at hk

section

variable (h : Inv S id total l (e :: rest))

include h

theorem credit {i : ℕ} {found found' : LogBufferElement} (hf : l.done[i]? = some found)
    (hs : source found' = source found) (hlog : found'.logId = found.logId) (hsa : source found = source e)
    (hc : found'.droppedCount = e.droppedCount + found.droppedCount) (hd : l'.done = l.done.set i found')
    (hl : l'.last = l.last)
    (ha : l'.account = { l.account with credits := l.account.credits ++ [(source e, source found)] }) :
    Inv S id total l' rest := by
  constructor
  · intro e' he' hid'
    rw [hd, mem_append] at he'
    rcases he' with he' | he'
    · rcases mem_or_eq_of_mem_set he' with hmem | rfl
      · exact h.sources e' (mem_append_left _ hmem) hid'
      · rw [hs]
        exact h.sources found (mem_append_left _ (mem_of_getElem? hf)) (hlog ▸ hid')
    · exact h.sources e' (mem_append_right _ (mem_cons_of_mem e he')) hid'
  · intro k j hk
    rw [hl] at hk
    obtain ⟨e₁, he₁, hkey, hid₁⟩ := h.last k j hk
    rw [hd]
    by_cases hij : i = j
    · subst hij
      obtain rfl := mem_unique hf he₁
      refine ⟨found', ?_, hs ▸ hkey, hlog ▸ hid₁⟩
      exact getElem?_set_self (List.getElem?_eq_some_iff.mp hf).1
    · exact ⟨e₁, by rw [getElem?_set_ne hij, he₁], hkey, hid₁⟩
  · intro x
    have hb := h.balance x
    have hset := dropsOf_set x hf hs
    rw [hd, ha]
    rw [hsa] at hset
    simp only [dropsOf_append, dropsOf_cons] at hb ⊢
    by_cases hx : source e = x
    · simp only [hx, if_true] at hb hset ⊢
      omega
    · simp only [hx, if_false] at hb hset ⊢
      omega
  · rw [ha]
    exact forall_mem_append.mpr ⟨h.credits, forall_mem_singleton.mpr hsa.symm⟩

theorem coalesce_true (hk : Apart S) (hid : e.logId = id) (hc : (l.coalesce e e.droppedCount).2) :
    Inv S id total (l.coalesce e e.droppedCount).1 rest := by
  revert hc
  rw [Loop.coalesce]
  split
  · intro hc
    cases hc
  next i hi =>
    split
    · intro hc
      cases hc
    next found hf =>
      split_ifs with hn
      · intro _
        obtain ⟨found', hf', hkey, hfid⟩ := h.last _ i hi
        obtain rfl := mem_unique hf hf'
        have hmem : found ∈ l.done ++ e :: rest := mem_append_left _ (mem_of_getElem? hf)
        have hs : source found = source e :=
          hk _ _ (h.sources found hmem hfid)
            (h.sources e mem_append_cons_self hid) hkey
        have hco : (found.setDropped (UInt16.ofNat (e.droppedCount + found.droppedCount))
            (Loop.coalesced_ne_zero hn)).droppedCount = e.droppedCount + found.droppedCount := by
          rw [LogBufferElement.droppedCount_setDropped, UInt16.toNat_ofNat', mod_eq_of_lt (by omega)]
        exact h.credit hf (by rfl) (by rfl) hs hco rfl rfl rfl
      · intro hc
        cases hc

theorem turn (hz : e.droppedCount = 0) (hone : (1 : UInt16) ≠ 0) :
    Inv S id total (l.turn e) (e.setDropped 1 hone :: rest) := by
  have hs : source (e.setDropped 1 hone) = source e := rfl
  constructor
  · intro e' he' hid'
    rw [mem_append, mem_cons] at he'
    rcases he' with he' | rfl | he'
    · exact h.sources e' (mem_append_left _ he') hid'
    · exact h.sources e mem_append_cons_self hid'
    · exact h.sources e' (mem_append_right _ (mem_cons_of_mem e he')) hid'
  · exact h.last
  · intro x
    have hb := h.balance x
    change dropsOf x (l.done ++ _) + _ + _ = total x + (l.account.turned ++ [source e]).count x
    simp only [dropsOf_append, dropsOf_cons, hz] at hb ⊢
    rw [hs, count_append, count_singleton]
    by_cases hx : source e = x
    · simp only [hx, if_true, beq_self_eq_true] at hb ⊢
      change dropsOf x l.done + (1 + dropsOf x rest) + dropsOf x l.account.leading + dropsOf x l.account.high = _
      omega
    · simp only [hx, if_false, beq_iff_eq] at hb ⊢
      exact hb
  · exact h.credits

theorem prune (hk : Apart S) (hid : e.logId = id) (hz : e.droppedCount = 0) (c : Call) (w : Worst) (gc : Bool)
    (rest' : List LogBufferElement) : Inv S id total (l.prune c w gc e rest') rest := by
  have hone : (1 : UInt16) ≠ 0 := by decide
  have ht := h.turn hz hone
  rw [Loop.prune, Loop.settle]
  split_ifs with hl hm
  · exact h.eraseLeading c rest'
  · exact (ht.coalesce_true hk hid hm).erase c _ rest'
  · have hf := ht.coalesce_false (e := e.setDropped 1 hone) (Bool.eq_false_iff.mpr hm)
    exact (hf.addKeep hid).congr rfl rfl rfl

end

end Inv

def remaining (o : Loop.Outcome) (e : LogBufferElement) (rest : List LogBufferElement) : List LogBufferElement :=
  if o = .stay then e :: rest else rest

/-- What a visit keeps, the inner loop keeps. -/
theorem scan_induction {P : Loop → List LogBufferElement → Prop} {c : Call} {w : Worst} {gc : Bool} {lastt : LogTime}
    (hvi : ∀ l e rest, P l (e :: rest) →
      P (l.visit c w gc lastt e rest).1 (remaining (l.visit c w gc lastt e rest).2 e rest))
    {l : Loop} {rest : List LogBufferElement} (h : P l rest) :
    P (l.scan c w gc lastt rest).1 (l.scan c w gc lastt rest).2 := by
  induction rest generalizing l with
  | nil => exact h
  | cons e rest ih =>
    have hv := hvi l e rest h
    rw [Loop.scan]
    split
    next l' heq =>
      rw [heq] at hv
      exact ih hv
    next l' heq =>
      rw [heq] at hv
      exact hv
    next l' heq =>
      rw [heq] at hv
      exact hv

namespace Inv

variable {S : Source → Prop} {c : Call} {total : Source → ℕ} {l : Loop} {e : LogBufferElement}
  {rest : List LogBufferElement}

theorem visitHigh (h : Inv S c.id total l (e :: rest)) (w : Worst) (rest' : List LogBufferElement) :
    Inv S c.id total (l.visitHigh c w e rest').1 (remaining (l.visitHigh c w e rest').2 e rest) := by
  have hg := (h.clear e).eraseHigh c rest'
  simp only [Loop.visitHigh]
  split_ifs
  · exact hg
  all_goals exact hg.congr rfl rfl rfl

theorem visitMessage (hk : Apart S)
    (h : Inv S c.id total l (e :: rest)) (hid : e.logId = c.id) (hz : e.droppedCount = 0) (w : Worst) (gc : Bool)
    (rest' : List LogBufferElement) :
    Inv S c.id total (l.visitMessage c w gc e rest').1 (remaining (l.visitMessage c w gc e rest').2 e rest) := by
  have ht : Inv S c.id total l.takeRow.kicked (e :: rest) := h.congr rfl rfl rfl
  have hp := ht.prune hk hid hz c w gc rest'
  simp only [Loop.visitMessage]
  split_ifs
  · have hl : Inv S c.id total { l with leading := false } (e :: rest) := h.congr rfl rfl rfl
    exact (hl.clear e).keep
  · exact h.congr rfl rfl rfl
  · exact hp
  · exact hp.congr rfl rfl rfl

theorem visit (hk : Apart S)
    (h : Inv S c.id total l (e :: rest)) (w : Worst) (gc : Bool) (lastt : LogTime) (rest' : List LogBufferElement) :
    Inv S c.id total (l.visit c w gc lastt e rest').1 (remaining (l.visit c w gc lastt e rest').2 e rest) := by
  rw [Loop.visit]
  split_ifs with hold hid hl hm
  · exact h
  · exact h.keep
  · exact h.eraseLeading c rest'
  · rw [Loop.coalesceEntry] at hm ⊢
    split_ifs at hm ⊢ with hz
    exact (h.coalesce_true hk (not_not.mp hid) hm).erase c e rest'
  · have hown : Inv S c.id total (l.coalesceEntry e).1 (e :: rest) := by
      rw [Loop.coalesceEntry] at hm ⊢
      split_ifs at hm ⊢ with hz
      · exact h.coalesce_false (Bool.eq_false_iff.mpr hm)
      · exact h
    rw [Loop.visitOwn]
    split_ifs with hh ht hz
    · exact hown.visitHigh w rest'
    · exact hown
    · exact (hown.addKeep (not_not.mp hid)).congr rfl rfl rfl
    · exact hown.visitMessage hk (not_not.mp hid) (not_not.mp hz) w gc rest'

theorem scan (hk : Apart S) (w : Worst) (gc : Bool) (lastt : LogTime) (h : Inv S c.id total l rest) :
    Inv S c.id total (l.scan c w gc lastt rest).1 (l.scan c w gc lastt rest).2 :=
  scan_induction (P := Inv S c.id total) (fun _ _ rest hl => hl.visit hk w gc lastt rest) h

end Inv

/-- A pass that has kicked the worst offender has pruned a row. -/
def Rows (n : ℕ) (l : Loop) : Prop := l.pruneRows ≤ n ∧ (l.kick → l.pruneRows < n)

namespace Rows

variable {n : ℕ} {l : Loop} {c : Call} {w : Worst} {gc : Bool} {e : LogBufferElement} {rest : List LogBufferElement}

section

variable (h : Rows n l) (lastt : LogTime)
include h

theorem takeRow : Rows n l.takeRow := by
  constructor
  · exact (sub_le _ _).trans h.1
  · intro hk
    exact (sub_le _ _).trans_lt (h.2 hk)

theorem kicked (hr : l.takeRow.pruneRows ≠ 0) : Rows n l.takeRow.kicked := by
  have hle := h.1
  change l.pruneRows - 1 ≠ 0 at hr
  refine ⟨(sub_le _ _).trans hle, fun _ => ?_⟩
  change l.pruneRows - 1 < n
  omega

theorem coalesce (e : LogBufferElement) (m : ℕ) : Rows n (l.coalesce e m).1 := by
  rw [Loop.coalesce]
  split
  · exact h
  · split
    · exact h
    · split_ifs
      · exact h
      · exact h

theorem prune : Rows n (l.prune c w gc e rest) := by
  have ht : Rows n (l.turn e) := h
  rw [Loop.prune, Loop.settle]
  split_ifs
  · exact h
  all_goals exact ht.coalesce _ _

theorem visitHigh : Rows n (l.visitHigh c w e rest).1 := by
  have hg : Rows n ((l.clear e).eraseHigh c e rest) := h
  simp only [Loop.visitHigh]
  split_ifs with hd hr hkey hs
  · exact hg
  · exact hg.takeRow
  · exact hg.takeRow
  all_goals exact hg.kicked hr

theorem visitMessage : Rows n (l.visitMessage c w gc e rest).1 := by
  simp only [Loop.visitMessage]
  split_ifs with hkey hr hs
  · exact h
  · exact h.takeRow
  all_goals exact (h.kicked hr).prune

theorem visit : Rows n (l.visit c w gc lastt e rest).1 := by
  have he : Rows n (l.coalesceEntry e).1 := by
    rw [Loop.coalesceEntry]
    split_ifs
    · exact h.coalesce _ _
    · exact h
  rw [Loop.visit, Loop.visitOwn]
  split_ifs
  · exact h
  · exact h
  · exact h
  · exact he
  · exact he.visitHigh
  · exact he
  · exact he
  · exact he.visitMessage

theorem scan : Rows n (l.scan c w gc lastt rest).1 :=
  scan_induction (P := fun l _ => Rows n l) (fun _ _ _ hl => hl.visit lastt) h

end

end Rows

theorem rows_turn (s : Pass) (c : Call) (w : Worst) (h : (s.turn c w).2) :
    (s.turn c w).1.pruneRows < s.pruneRows := by
  have hs : ∀ done leading oldest, Rows s.pruneRows (s.loopAt w done leading oldest) := by
    intro done leading oldest
    refine ⟨le_refl _, ?_⟩
    intro hk
    cases hk
  revert h
  rw [Pass.turn]
  cases hf : s.findWatermark w with
  | some p => exact ((hs p.1 false s.oldest).scan s.lastRealtime).2
  | none => exact ((hs _ true _).scan s.lastRealtime).2

theorem firstPass_succ (c : Call) (stats : Stats) (fuel : ℕ) (s : Pass) :
    Pass.firstPass c stats (fuel + 1) s =
      if s.pruneRows = 0 then s
      else if (s.worst c stats).worst = noWorst ∧ !c.checkHighPriority then s
      else if !(s.turn c (s.worst c stats)).2 || !c.prune.worstUidEnabled then (s.turn c (s.worst c stats)).1
      else Pass.firstPass c stats fuel (s.turn c (s.worst c stats)).1 :=
  rfl

/-- As much fuel as there are rows to prune is enough. -/
theorem firstPass_fuel (c : Call) (stats : Stats) {fuel : ℕ} {s : Pass} (h : s.pruneRows ≤ fuel) :
    Pass.firstPass c stats (fuel + 1) s = Pass.firstPass c stats fuel s := by
  induction fuel generalizing s with
  | zero =>
    rw [firstPass_succ, if_pos (le_zero.mp h)]
    rfl
  | succ fuel ih =>
    rw [firstPass_succ c stats (fuel + 1) s, firstPass_succ c stats fuel s]
    split_ifs with hz hw hk
    · rfl
    · rfl
    · rfl
    · apply ih
      have hki : (s.turn c (s.worst c stats)).2 := by
        cases hb : (s.turn c (s.worst c stats)).2 with
        | true => rfl
        | false => simp [hb] at hk
      have hr := rows_turn s c (s.worst c stats) hki
      omega

structure PassInv (S : Source → Prop) (id : LogId) (total : Source → ℕ) (s : Pass) : Prop where
  sources : ∀ e ∈ s.logs, e.logId = id → S (source e)
  balance : ∀ x, dropsOf x s.logs + dropsOf x s.account.leading + dropsOf x s.account.high =
    total x + s.account.turned.count x
  credits : ∀ p ∈ s.account.credits, p.1 = p.2

namespace PassInv

variable {S : Source → Prop} {c : Call} {total : Source → ℕ} {s : Pass} {id : LogId}

theorem loopAt (h : PassInv S id total s) (w : Worst) {done it : List LogBufferElement}
    (hs : done ++ it = s.logs) (leading : Bool) (oldest : LogId → Option ℕ) :
    Inv S id total (s.loopAt w done leading oldest) it := by
  constructor
  · change ∀ e ∈ done ++ it, _
    rw [hs]
    exact h.sources
  · intro k i hk
    cases hk
  · intro x
    change dropsOf x (done ++ it) + _ + _ = _
    rw [hs]
    exact h.balance x
  · exact h.credits

theorem ofLoop {l : Loop} {rest : List LogBufferElement} (h : Inv S id total l rest) :
    PassInv S id total (Pass.ofLoop l rest) :=
  ⟨h.sources, h.balance, h.credits⟩

theorem findWatermark_split {w : Worst} {done it : List LogBufferElement} (h : s.findWatermark w = some (done, it)) :
    done ++ it = s.logs := by
  have hm : ∀ o : Option ℕ, o.bind s.watermark = some (done, it) → done ++ it = s.logs := by
    intro o ho
    obtain ⟨q, -, hq⟩ := bind_eq_some_iff.mp ho
    rw [Pass.watermark] at hq
    split_ifs at hq
    cases hq
    exact takeWhile_append_dropWhile
  rw [Pass.findWatermark] at h
  split_ifs at h with hgc hpid
  · rcases or_eq_some_iff.mp h with h | ⟨-, h⟩
    all_goals exact hm _ h
  · exact hm _ h

theorem getOldest_split (s : Pass) (id : LogId) : (s.getOldest id).1 ++ (s.getOldest id).2 = s.logs := by
  rw [Pass.getOldest]
  split
  next skipped it heq =>
    rw [append_assoc, takeWhile_append_dropWhile]
    split at heq
    · cases heq
      rfl
    · cases heq
      exact takeWhile_append_dropWhile

theorem turn (hk : Apart S) (h : PassInv S c.id total s) (w : Worst) : PassInv S c.id total (s.turn c w).1 := by
  rw [Pass.turn]
  cases hf : s.findWatermark w with
  | some p =>
    exact ofLoop ((h.loopAt w (findWatermark_split hf) false s.oldest).scan hk w _ _)
  | none => exact ofLoop ((h.loopAt w (getOldest_split s c.id) true _).scan hk w _ _)

theorem firstPass (hk : Apart S) (stats : Stats)
    (fuel : ℕ) (h : PassInv S c.id total s) : PassInv S c.id total (Pass.firstPass c stats fuel s) := by
  induction fuel generalizing s with
  | zero => exact h
  | succ fuel ih =>
    have ht := h.turn hk (s.worst c stats)
    rw [firstPass_succ]
    split_ifs
    · exact h
    · exact h
    · exact ht
    · exact ih ht

end PassInv

theorem toNat_logBufferElementKey {x : Source} (hp : x.pid < 65536) (ht : x.tid < 65536) :
    (logBufferElementKey x).toNat = x.uid.toNat * 4294967296 + x.pid.toNat * 65536 + x.tid.toNat := by
  have hp' : x.pid.toNat < 65536 := hp
  have ht' : x.tid.toNat < 65536 := ht
  have hu := x.uid.toNat_lt
  have hpid : extend x.pid = x.pid.toUInt64 := if_pos (show x.pid.toNat < 2147483648 by omega)
  have htid : extend x.tid = x.tid.toUInt64 := if_pos (show x.tid.toNat < 2147483648 by omega)
  have hh : (x.uid.toUInt64 <<< 32).toNat = x.uid.toNat * 4294967296 := by
    simp
    omega
  have hmid : (x.pid.toUInt64 <<< 16).toNat = x.pid.toNat * 65536 := by
    simp [shiftLeft_eq]
    omega
  have hor : x.uid.toNat * 4294967296 ||| x.pid.toNat * 65536 = x.uid.toNat * 4294967296 + x.pid.toNat * 65536 :=
    or_low (s := 32) (by omega) (by omega)
  rw [logBufferElementKey, hpid, htid, UInt64.toNat_or, UInt64.toNat_or, hh, hmid, UInt32.toNat_toUInt64, hor,
    or_low (s := 16) (by omega) (by omega)]

/-- Pids and tids of 16 bits keep the keys apart. -/
theorem logBufferElementKey_inj {x y : Source} (hx : x.pid < 65536 ∧ x.tid < 65536) (hy : y.pid < 65536 ∧ y.tid < 65536)
    (h : logBufferElementKey x = logBufferElementKey y) : x = y := by
  have hn := congrArg UInt64.toNat h
  have hxp : x.pid.toNat < 65536 := hx.1
  have hxt : x.tid.toNat < 65536 := hx.2
  have hyp : y.pid.toNat < 65536 := hy.1
  have hyt : y.tid.toNat < 65536 := hy.2
  rw [toNat_logBufferElementKey hx.1 hx.2, toNat_logBufferElementKey hy.1 hy.2] at hn
  obtain ⟨yu, yp, yt⟩ := y
  simp only at hn hxp hxt hyp hyt
  rw [Source.mk.injEq, ← UInt32.toNat_inj, ← UInt32.toNat_inj, ← UInt32.toNat_inj]
  omega

def noAccount : Account := ⟨[], [], [], []⟩

/-- When no two sources of a log share a key, the entries of each source stand after the first pass for what
they stood for before and for the messages turned into drops, less the counts of erased entries; no count went
to another source. -/
theorem firstPass_accounts (c : Call) (stats : Stats) (fuel : ℕ) (s : Pass) (haccount : s.account = noAccount)
    (hkeys : ∀ a ∈ s.logs, ∀ b ∈ s.logs, a.logId = c.id → b.logId = c.id →
      logBufferElementKey (source a) = logBufferElementKey (source b) → source a = source b) :
    (∀ x, dropsOf x (Pass.firstPass c stats fuel s).logs + dropsOf x (Pass.firstPass c stats fuel s).account.leading +
        dropsOf x (Pass.firstPass c stats fuel s).account.high =
      dropsOf x s.logs + (Pass.firstPass c stats fuel s).account.turned.count x) ∧
      ∀ p ∈ (Pass.firstPass c stats fuel s).account.credits, p.1 = p.2 := by
  have hs : PassInv (fun x => ∃ e ∈ s.logs, e.logId = c.id ∧ source e = x) c.id (fun x => dropsOf x s.logs) s := by
    constructor
    · intro e he hid
      exact ⟨e, he, hid, rfl⟩
    · intro x
      simp [haccount, noAccount]
    · intro p hp
      rw [haccount] at hp
      cases hp
  have hend := PassInv.firstPass (c := c) (fun x y hx hy hkey => by
    obtain ⟨a, ha, haid, rfl⟩ := hx
    obtain ⟨b, hb, hbid, rfl⟩ := hy
    exact hkeys a ha b hb haid hbid hkey) stats fuel hs
  exact ⟨hend.balance, hend.credits⟩

def quiet : LogBufferElement := ⟨10001, 5, 5, 1, ⟨1, 0⟩, .main, .message ⟨[4], by decide⟩⟩

def chatty (sequence : ℕ) (body : Body) : LogBufferElement := ⟨10000, 7, 7, sequence, ⟨1, 0⟩, .main, body⟩

def start (logs : List LogBufferElement) : Pass := ⟨logs, 10, fun _ => none, fun _ => none, fun _ => none, noAccount⟩

def worstChatty : Stats := ⟨fun _ => (10000, 100, 0), fun _ _ => none⟩

def byChatty : Call := ⟨.main, none, ⟨[], [], true, false⟩⟩

def threeEntries : Pass :=
  start [quiet, chatty 2 (.dropped 0 3 (by decide)), chatty 3 (.message ⟨[4], by decide⟩)]

/-- The first turn turns a message into drops, and the pass goes on. -/
theorem firstPass_fuel_threeEntries : (threeEntries.turn byChatty (threeEntries.worst byChatty worstChatty)).2 ∧
    Pass.firstPass byChatty worstChatty 11 threeEntries = Pass.firstPass byChatty worstChatty 10 threeEntries :=
  ⟨by decide, firstPass_fuel _ _ (le_refl 10)⟩

theorem firstPass_accounts_chatty :
    dropsOf ⟨10000, 7, 7⟩ (Pass.firstPass byChatty worstChatty 10 threeEntries).logs = 4 := by
  have h := (firstPass_accounts byChatty worstChatty 10 threeEntries rfl (by
      intro a ha b hb _ _ hkey
      apply logBufferElementKey_inj _ _ hkey
      · simp only [threeEntries, start, mem_cons, not_mem_nil, or_false] at ha
        rcases ha with rfl | rfl | rfl <;> decide
      · simp only [threeEntries, start, mem_cons, not_mem_nil, or_false] at hb
        rcases hb with rfl | rfl | rfl <;> decide)).1 ⟨10000, 7, 7⟩
  exact h

/-- A high priority rule takes an entry that does not lead the log. -/
theorem high_priority_entry_erased :
    let s := start [quiet, chatty 2 (.dropped 0 3 (by decide))]
    let s' := Pass.firstPass ⟨.main, none, ⟨[⟨10000, pidAll⟩], [], false, false⟩⟩ worstChatty 10 s
    ¬(dropsOf ⟨10000, 7, 7⟩ s'.logs + dropsOf ⟨10000, 7, 7⟩ s'.account.leading =
      dropsOf ⟨10000, 7, 7⟩ s.logs + s'.account.turned.count ⟨10000, 7, 7⟩) := by
  decide

end Bionic.Logd.Chatty
