
namespace Bionic.Dns

open List

def labellen (n bitlen : UInt8) : Option Nat :=
  if n = 0x41 then some (((if bitlen = 0 then 256 else bitlen.toNat) + 7) / 8 + 1) else none

/-- `ns_name_skip` with `skip` bytes of the present label still to pass; `l` is the length of the last
extended label, which one without a second byte uses again. -/
def nsNameSkip : (l skip : Nat) → List UInt8 → Option (List UInt8)
  | _, 0, [] => some []
  | _, _ + 1, [] => none
  | l, skip + 1, _ :: cp => nsNameSkip l skip cp
  | l, 0, n :: cp =>
    if n = 0 then some cp
    else if n &&& 0xC0 = 0 then nsNameSkip l n.toNat cp
    else if n &&& 0xC0 = 0x40 then
      match cp with
      | [] => nsNameSkip l l []
      | bitlen :: cp => (labellen n bitlen).bind fun l => nsNameSkip l l (bitlen :: cp)
    else if n &&& 0xC0 = 0xC0 then cp.tail?
    else none

def dnSkipname (rdata : List UInt8) : Option (List UInt8) := nsNameSkip 0 0 rdata

def nsGet32 (src : List UInt8) : Nat := (src.take 4).foldl (fun dst b => dst * 256 + b.toNat) 0

structure NsRr where
  type : Nat
  ttl : Nat
  rdata : List UInt8

/-- The records of two sections as `ns_parserr` gives them, none where it fails. -/
structure NsMsg where
  answers : List (Option NsRr)
  authority : List (Option NsRr)

def nsTSoa : Nat := 6

/-- The MINIMUM field of a well-formed SOA record: two names and five numbers. -/
def soaMinimum (rr : NsRr) : Option Nat :=
  if rr.type = nsTSoa then
    (dnSkipname rr.rdata).bind fun rdata => (dnSkipname rdata).bind fun rdata =>
      if rdata.length = 20 then some (nsGet32 (rdata.drop 16)) else none
  else none

def recResult (rr : NsRr) : Option Nat :=
  (soaMinimum rr).map fun ttl => if ttl < rr.ttl then ttl else rr.ttl

/-- The loop over a section from record `n` on; `value` is none where it skips the record. -/
def minLoop {ρ : Type} (value : ρ → Option Nat) : (n result : Nat) → List ρ → Nat
  | _, result, [] => result
  | n, result, rr :: rrs =>
    minLoop value (n + 1)
      (match value rr with
        | some ttl => if n = 0 ∨ ttl < result then ttl else result
        | none => result) rrs

variable (handle : NsMsg)

def answerGetNegativeTTL : Nat := minLoop (·.bind recResult) 0 0 handle.authority

/-- The argument is none where `ns_initparse` fails. -/
def answerGetTTL : Option NsMsg → Nat
  | none => 0
  | some handle =>
    if handle.answers.length = 0 then answerGetNegativeTTL handle
    else minLoop (·.map NsRr.ttl) 0 0 handle.answers

def NsMsg.ttls : List (Option Nat) :=
  if handle.answers = [] then handle.authority.map (·.bind fun rr => (soaMinimum rr).map (min rr.ttl))
  else handle.answers.map (·.map NsRr.ttl)

def NsMsg.minTTL : Nat := (handle.ttls.filterMap id).min?.getD 0

theorem recResult_eq : recResult = fun rr => (soaMinimum rr).map (min rr.ttl) := by
  funext rr
  apply congrArg (Option.map · (soaMinimum rr))
  funext ttl
  split <;> omega

section MinLoop

variable {ρ : Type} {value : ρ → Option Nat} (ttls : List Nat)

theorem minLoop_succ (n result : Nat) (rrs : List ρ) :
    minLoop value (n + 1) result rrs = (rrs.filterMap value).foldl min result := by
  induction rrs generalizing n result with
  | nil => rfl
  | cons rr rrs ih =>
    rw [minLoop, ih]
    cases hv : value rr with
    | none => simp [hv]
    | some ttl =>
      have hm : (if ttl < result then ttl else result) = min result ttl := by split <;> omega
      simp [hv, hm]

theorem foldl_min_zero : ttls.foldl min 0 = 0 := by
  induction ttls with
  | nil => rfl
  | cons ttl ttls ih => simpa using ih

theorem min_getD_eq_zero_iff : ttls.min?.getD 0 = 0 ↔ ttls = [] ∨ 0 ∈ ttls := by
  cases hm : ttls.min? with
  | none => simp [min?_eq_none_iff.1 hm]
  | some m =>
    obtain ⟨hmem, hle⟩ := min?_eq_some_iff.1 hm
    constructor
    · rintro rfl
      exact .inr hmem
    · rintro (rfl | h0)
      · cases hm
      · exact Nat.le_zero.1 (hle 0 h0)

/-- The running minimum is set by the record at position 0 only. -/
theorem minLoop_eq_min_iff (rrs : List ρ) :
    minLoop value 0 0 rrs = (rrs.filterMap value).min?.getD 0 ↔
      ((rrs.map value).head?.join.isSome ∨ rrs.filterMap value = [] ∨ 0 ∈ rrs.filterMap value) := by
  cases rrs with
  | nil => simp [minLoop]
  | cons rr rrs =>
    rw [minLoop, minLoop_succ]
    cases hv : value rr with
    | some ttl =>
      rw [filterMap_cons_some hv, min?_cons']
      simp [hv]
    | none =>
      simp only [filterMap_cons_none hv, foldl_min_zero, eq_comm (a := 0), min_getD_eq_zero_iff]
      simp [hv]

end MinLoop

/-- The result is the minimum exactly if the first record of the section has a time to say, or none has,
or one says 0. -/
theorem answerGetTTL_min_iff (handle : NsMsg) :
    answerGetTTL (some handle) = handle.minTTL ↔
      (handle.ttls.head?.join.isSome ∨ handle.ttls.filterMap id = [] ∨ 0 ∈ handle.ttls.filterMap id) := by
  have hl (rrs : List (Option NsRr)) (value : Option NsRr → Option Nat) :
      (rrs.map value).filterMap id = rrs.filterMap value := by simp [filterMap_map]
  by_cases ha : handle.answers = []
  · simp only [answerGetTTL, answerGetNegativeTTL, NsMsg.minTTL, NsMsg.ttls, ha, length_nil, if_true,
      recResult_eq, hl]
    exact minLoop_eq_min_iff _
  · simp only [answerGetTTL, NsMsg.minTTL, NsMsg.ttls, ha, length_eq_zero_iff, if_false, hl]
    exact minLoop_eq_min_iff _

/-- A name server record in front of the SOA record hides the time to keep a negative answer. -/
theorem soa_behind_ns_not_cached :
    let soa : NsRr := ⟨nsTSoa, 600, 0 :: 0 :: replicate 18 0 ++ [1, 0]⟩
    answerGetTTL (some ⟨[], [some ⟨2, 600, [0]⟩, some soa]⟩) = 0 ∧
      NsMsg.minTTL ⟨[], [some ⟨2, 600, [0]⟩, some soa]⟩ = 256 ∧ answerGetTTL (some ⟨[], [some soa]⟩) = 256 := by
  decide

end Bionic.Dns
