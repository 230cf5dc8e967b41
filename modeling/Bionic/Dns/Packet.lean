import Mathlib.Data.List.Basic

namespace Bionic.Dns

open Option List

/-!
The cursor of a `DnsPacket` is the list of the bytes from it to the end of the packet.
-/

def dnsHeaderSize : Nat := 12

variable (packet rest : List UInt8) (hash : UInt32) (i : Nat)

def byteAt : UInt8 := packet.getD i 0

def int16At : Nat := (byteAt packet i).toNat * 256 + (byteAt packet (i + 1)).toNat

def readInt16 : List UInt8 → Int × List UInt8
  | a :: b :: rest => (((a.toNat * 256 + b.toNat : Nat) : Int), rest)
  | rest => (-1, rest)

section Check

def checkBytes (bytes rest : List UInt8) : Option (List UInt8) :=
  if rest.take bytes.length = bytes then some (rest.drop bytes.length) else none

/-- `_dnsPacket_checkQName`; the number is what is left of the current label. -/
def checkQName : Nat → List UInt8 → Option (List UInt8)
  | _, [] => none
  | label + 1, _ :: rest => checkQName label rest
  | 0, c :: rest =>
    if c = 0 then some rest
    else if c ≥ 64 then none
    else checkQName c.toNat rest

/-- The supported types. The text of `DNS_TYPE_ALL` has the byte `\037` followed by the digit 7. -/
def dnsTypes : List (List UInt8) := [[0, 1], [0, 12], [0, 15], [0, 28], [0, 31]]

def dnsClassIn : List UInt8 := [0, 1]

def checkQR : Option (List UInt8) := do
  let rest ← checkQName 0 rest
  let rest ← dnsTypes.findSome? (checkBytes · rest)
  checkBytes dnsClassIn rest

def checkQRs : Nat → List UInt8 → Bool
  | 0, _ => true
  | count + 1, rest =>
    match checkQR rest with
    | none => false
    | some rest => checkQRs count rest

variable (packet : List UInt8)

def qdCount : Nat := int16At packet 4
def anCount : Nat := int16At packet 6
def dnCount : Nat := int16At packet 8
def arCount : Nat := int16At packet 10

def checkQuery : Bool :=
  if packet.length < dnsHeaderSize then false
  else if byteAt packet 2 &&& 0xFC ≠ 0 ∨ byteAt packet 3 &&& 0xCF ≠ 0 then false
  else if anCount packet ≠ 0 ∨ dnCount packet ≠ 0 ∨ arCount packet > 1 then false
  else if qdCount packet = 0 then false
  else checkQRs (qdCount packet) (packet.drop dnsHeaderSize)

end Check

section Hash

def fnv (byte : UInt8) : UInt32 := hash * 16777619 ^^^ byte.toUInt32

/-- `_dnsPacket_hashBytes`: the count is not counted down, so the loop goes to the end of the packet. -/
def hashBytes (numBytes : Int) (rest : List UInt8) (hash : UInt32) : UInt32 × List UInt8 :=
  if numBytes > 0 then (rest.foldl fnv hash, []) else (hash, rest)

def hashQName : Nat → List UInt8 → UInt32 → UInt32 × List UInt8
  | _, [], hash => (hash, [])
  | label + 1, byte :: rest, hash => hashQName label rest (fnv hash byte)
  | 0, c :: rest, hash =>
    if c = 0 ∨ c ≥ 64 ∨ rest.length ≤ c.toNat then (hash, rest) else hashQName c.toNat rest hash

def hashQR : UInt32 × List UInt8 :=
  let (hash, rest) := hashQName 0 rest hash
  hashBytes 4 rest hash

def hashRR : UInt32 × List UInt8 :=
  let (hash, rest) := hashQR rest hash
  let (hash, rest) := hashBytes 4 rest hash
  let (rdlength, rest) := readInt16 rest
  hashBytes rdlength rest hash

def hashMany (one : List UInt8 → UInt32 → UInt32 × List UInt8) : Nat → List UInt8 → UInt32 → UInt32 × List UInt8
  | 0, rest, hash => (hash, rest)
  | count + 1, rest, hash =>
    let (hash, rest) := one rest hash
    hashMany one count rest hash

def hashQuery : UInt32 :=
  let hash := fnv 2166136261 (byteAt packet 2 &&& 1)
  let (hash, rest) := hashBytes 1 (packet.drop 3) hash
  let (count, rest) := readInt16 rest
  let (arcount, rest) := readInt16 (rest.drop 4)
  let (hash, rest) := hashMany hashQR count.toNat rest hash
  (hashMany hashRR arcount.toNat rest hash).1

end Hash

section Compare

/-- `_dnsPacket_isEqualDomainName`; the number is what is left of the current label. -/
@[simp] def isEqualDomainName : Nat → List UInt8 → List UInt8 → Option (List UInt8 × List UInt8)
  | _, [], _ => none
  | _, _ :: _, [] => none
  | label + 1, b₁ :: rest₁, b₂ :: rest₂ => if b₁ ≠ b₂ then none else isEqualDomainName label rest₁ rest₂
  | 0, c₁ :: rest₁, c₂ :: rest₂ =>
    if c₁ ≠ c₂ then none
    else if c₁ = 0 then some (rest₁, rest₂)
    else if c₁ ≥ 64 then none
    else isEqualDomainName c₁.toNat rest₁ rest₂

def isEqualBytes (numBytes : Nat) (rest₁ rest₂ : List UInt8) : Option (List UInt8 × List UInt8) :=
  if rest₁.length < numBytes ∨ rest₂.length < numBytes then none
  else if rest₁.take numBytes ≠ rest₂.take numBytes then none
  else some (rest₁.drop numBytes, rest₂.drop numBytes)

def isEqualQR (rest₁ rest₂ : List UInt8) : Option (List UInt8 × List UInt8) := do
  let (rest₁, rest₂) ← isEqualDomainName 0 rest₁ rest₂
  isEqualBytes 4 rest₁ rest₂

def isEqualRR (rest₁ rest₂ : List UInt8) : Option (List UInt8 × List UInt8) := do
  let (rest₁, rest₂) ← isEqualQR rest₁ rest₂
  let (rest₁, rest₂) ← isEqualBytes 4 rest₁ rest₂
  let (rdlength₁, rest₁) := readInt16 rest₁
  let (rdlength₂, rest₂) := readInt16 rest₂
  -- the source passes a length of -1 on to `memcmp`
  if rdlength₁ ≠ rdlength₂ ∨ rdlength₁ < 0 then none else isEqualBytes rdlength₁.toNat rest₁ rest₂

def isEqualMany (one : List UInt8 → List UInt8 → Option (List UInt8 × List UInt8)) :
    Nat → List UInt8 → List UInt8 → Option (List UInt8 × List UInt8)
  | 0, rest₁, rest₂ => some (rest₁, rest₂)
  | count + 1, rest₁, rest₂ => do
    let (rest₁, rest₂) ← one rest₁ rest₂
    isEqualMany one count rest₁ rest₂

def isEqualQuery (packet₁ packet₂ : List UInt8) : Bool :=
  if byteAt packet₁ 2 &&& 1 ≠ byteAt packet₂ 2 &&& 1 then false
  else if byteAt packet₁ 3 ≠ byteAt packet₂ 3 then false
  else
    let (count₁, rest₁) := readInt16 (packet₁.drop 4)
    let (count₂, rest₂) := readInt16 (packet₂.drop 4)
    if count₁ ≠ count₂ ∨ count₁ < 0 then false
    else
      let (arcount₁, rest₁) := readInt16 (rest₁.drop 4)
      let (arcount₂, rest₂) := readInt16 (rest₂.drop 4)
      if arcount₁ ≠ arcount₂ ∨ arcount₁ < 0 then false
      else
        ((isEqualMany isEqualQR count₁.toNat rest₁ rest₂).bind fun rests =>
          isEqualMany isEqualRR arcount₁.toNat rests.1 rests.2).isSome

def entryEquals (query₁ query₂ : List UInt8) : Bool :=
  if query₁.length ≠ query₂.length then false else isEqualQuery query₁ query₂

end Compare

section Splits

abbrev Comparison := List UInt8 → List UInt8 → Option (List UInt8 × List UInt8)

/-- Whatever follows `c` on both sides, the comparison succeeds and ends behind it. -/
def Common (c : List UInt8) (cmp : Comparison) : Prop :=
  ∀ s₁ s₂, cmp (c ++ s₁) (c ++ s₂) = some (s₁, s₂)

/-- What a successful comparison has passed is the same on both sides, and all that it depends on. -/
def Splits (cmp : Comparison) : Prop :=
  ∀ ⦃r₁ r₂ r : _⦄, cmp r₁ r₂ = some r → ∃ c, r₁ = c ++ r.1 ∧ r₂ = c ++ r.2 ∧ Common c cmp

def isEqualSections (count arcount : Nat) (rest₁ rest₂ : List UInt8) : Option (List UInt8 × List UInt8) :=
  (isEqualMany isEqualQR count rest₁ rest₂).bind fun rests => isEqualMany isEqualRR arcount rests.1 rests.2

variable {cmp cmp' : Comparison} {c d r : List UInt8}

theorem Common.bind (hc : Common c cmp) (hd : Common d cmp') :
    Common (c ++ d) fun r₁ r₂ => (cmp r₁ r₂).bind fun r => cmp' r.1 r.2 := by
  intro s₁ s₂
  simp [hc (d ++ s₁) (d ++ s₂), hd s₁ s₂]

theorem Common.unique (hc : Common c cmp) (hd : Common d cmp) (hcr : c <+: r) (hdr : d <+: r) : c = d := by
  obtain ⟨s, rfl⟩ := hcr
  obtain ⟨s', h⟩ := hdr
  have h₁ := hc s s
  rw [← h, hd s' s'] at h₁
  cases h₁
  exact (append_cancel_right h).symm

theorem Splits.bind (h : Splits cmp) (h' : Splits cmp') :
    Splits fun r₁ r₂ => (cmp r₁ r₂).bind fun r => cmp' r.1 r.2 := by
  intro r₁ r₂ r hr
  obtain ⟨m, hm, hm'⟩ := bind_eq_some_iff.1 hr
  obtain ⟨c, hc₁, hc₂, hc⟩ := h hm
  obtain ⟨d, hd₁, hd₂, hd⟩ := h' hm'
  exact ⟨c ++ d, by simp [hc₁, hd₁], by simp [hc₂, hd₂], hc.bind hd⟩

theorem Splits.many (h : Splits cmp) (count : Nat) : Splits (isEqualMany cmp count) := by
  induction count with
  | zero =>
    intro r₁ r₂ r hr
    cases hr
    exact ⟨[], rfl, rfl, fun _ _ => rfl⟩
  | succ count ih => exact h.bind ih

theorem common_isEqualBytes (c : List UInt8) : Common c (isEqualBytes c.length) := by
  intro s₁ s₂
  simp [isEqualBytes]

theorem splits_isEqualBytes (numBytes : Nat) : Splits (isEqualBytes numBytes) := by
  intro r₁ r₂ r h
  rw [isEqualBytes] at h
  split at h
  · cases h
  split at h
  · cases h
  rename_i hl ht
  cases h
  have hlen : (r₁.take numBytes).length = numBytes := length_take_of_le (by omega)
  refine ⟨r₁.take numBytes, (take_append_drop _ _).symm, ?_, ?_⟩
  · rw [not_not.1 ht, take_append_drop]
  · simpa only [hlen] using common_isEqualBytes (r₁.take numBytes)

theorem splits_isEqualDomainName (label : Nat) : Splits (isEqualDomainName label) := by
  intro r₁
  induction r₁ generalizing label with
  | nil =>
    intro r₂ r h
    cases label <;> cases h
  | cons b r₁ ih =>
    intro r₂ r h
    cases r₂ with
    | nil => cases label <;> cases h
    | cons b₂ r₂ =>
      cases label with
      | succ label =>
        obtain ⟨hb, hs⟩ := ite_none_left_eq_some.1 h
        obtain ⟨c, rfl, rfl, hc⟩ := ih label hs
        exact ⟨b :: c, rfl, by rw [not_not.1 hb]; rfl, fun s₁ s₂ => by simpa using hc s₁ s₂⟩
      | zero =>
        obtain ⟨hb, hs⟩ := ite_none_left_eq_some.1 h
        obtain rfl := not_not.1 hb
        by_cases h0 : b = 0
        · rw [if_pos h0] at hs
          cases hs
          exact ⟨[b], rfl, rfl, fun s₁ s₂ => by simp [h0]⟩
        · rw [if_neg h0] at hs
          obtain ⟨h64, hs⟩ := ite_none_left_eq_some.1 hs
          obtain ⟨c, rfl, rfl, hc⟩ := ih _ hs
          exact ⟨b :: c, rfl, rfl, fun s₁ s₂ => by
            simpa [h0, UInt8.not_le.1 h64] using hc s₁ s₂⟩

theorem splits_isEqualQR : Splits isEqualQR := (splits_isEqualDomainName 0).bind (splits_isEqualBytes 4)

theorem readInt16_inj {r₁ r₂ : List UInt8} (h : (readInt16 r₁).1 = (readInt16 r₂).1) (h0 : ¬(readInt16 r₁).1 < 0) :
    ∃ a b, r₁ = a :: b :: (readInt16 r₁).2 ∧ r₂ = a :: b :: (readInt16 r₂).2 := by
  match r₁, r₂ with
  | a₁ :: b₁ :: r₁, a₂ :: b₂ :: r₂ =>
    have h₁ := b₁.toNat_lt
    have h₂ := b₂.toNat_lt
    simp only [readInt16, Int.natCast_inj] at h
    obtain rfl : a₁ = a₂ := UInt8.toNat_inj.1 (by omega)
    obtain rfl : b₁ = b₂ := UInt8.toNat_inj.1 (by omega)
    exact ⟨a₁, b₁, rfl, rfl⟩
  | [], _ | [_], _ => simp [readInt16] at h0
  | _ :: _ :: _, [] | _ :: _ :: _, [_] =>
    simp only [readInt16] at h h0
    omega

def isEqualRdata (rest₁ rest₂ : List UInt8) : Option (List UInt8 × List UInt8) :=
  if (readInt16 rest₁).1 ≠ (readInt16 rest₂).1 ∨ (readInt16 rest₁).1 < 0 then none
  else isEqualBytes (readInt16 rest₁).1.toNat (readInt16 rest₁).2 (readInt16 rest₂).2

theorem splits_isEqualRdata : Splits isEqualRdata := by
  intro r₁ r₂ r h
  obtain ⟨hl, hs⟩ := ite_none_left_eq_some.1 h
  obtain ⟨he, h0⟩ := not_or.1 hl
  obtain ⟨a, b, h₁, h₂⟩ := readInt16_inj (not_not.1 he) h0
  obtain ⟨c, hc₁, hc₂, hc⟩ := splits_isEqualBytes _ hs
  refine ⟨a :: b :: c, h₁.trans (by rw [hc₁]; rfl), h₂.trans (by rw [hc₂]; rfl), fun s₁ s₂ => ?_⟩
  have hi (s : List UInt8) : readInt16 (a :: b :: c ++ s) = ((readInt16 r₁).1, c ++ s) := by
    rw [h₁]
    rfl
  simp only [isEqualRdata, hi, ne_eq, not_true_eq_false, false_or, if_neg h0]
  exact hc s₁ s₂

theorem splits_isEqualRR : Splits isEqualRR :=
  splits_isEqualQR.bind ((splits_isEqualBytes 4).bind splits_isEqualRdata)

end Splits

section Grammar

/-- A name without compression: labels of at most 63 bytes behind their lengths, and a zero. -/
inductive DomainName : List UInt8 → Prop
  | root : DomainName [0]
  | label (n : UInt8) (bytes rest : List UInt8) (h0 : n ≠ 0) (h64 : n < 64) (hlen : bytes.length = n.toNat)
      (hrest : DomainName rest) : DomainName (n :: (bytes ++ rest))

/-- A name, a type and a class. -/
def Question (w : List UInt8) : Prop :=
  ∃ name typeAndClass, DomainName name ∧ typeAndClass.length = 4 ∧ w = name ++ typeAndClass

def Rdata (w : List UInt8) : Prop :=
  ∃ a b data, w = a :: b :: data ∧ data.length = a.toNat * 256 + b.toNat

/-- A name, a type, a class, a TTL, a length and as many bytes. -/
def ResourceRecord (w : List UInt8) : Prop :=
  ∃ question ttl rdata, Question question ∧ ttl.length = 4 ∧ Rdata rdata ∧ w = question ++ (ttl ++ rdata)

def Questions : Nat → List UInt8 → Prop
  | 0, w => w = []
  | count + 1, w => ∃ question rest, Question question ∧ Questions count rest ∧ w = question ++ rest

/-- Behind the questions there is nothing, or exactly the additional record that the header announces. -/
def Filled (packet : List UInt8) : Prop :=
  ∃ questions rest, packet.drop 12 = questions ++ rest ∧ Questions (qdCount packet) questions ∧
    if arCount packet = 0 then rest = [] else ResourceRecord rest

/-- Compared with themselves, the packets that go through are those that begin with a word of the grammar. -/
def Reads (word : List UInt8 → Prop) (cmp : Comparison) : Prop :=
  ∀ r t, cmp r r = some t ↔ ∃ c s, word c ∧ r = c ++ s ∧ t = (s, s)

variable {word word' : List UInt8 → Prop} {cmp cmp' : Comparison}

theorem Reads.bind (h : Reads word cmp) (h' : Reads word' cmp') :
    Reads (fun w => ∃ c d, word c ∧ word' d ∧ w = c ++ d) fun r₁ r₂ => (cmp r₁ r₂).bind fun r => cmp' r.1 r.2 := by
  intro r t
  rw [bind_eq_some_iff]
  constructor
  · rintro ⟨m, hm, ht⟩
    obtain ⟨c, s, hc, rfl, rfl⟩ := (h r m).1 hm
    obtain ⟨d, s', hd, rfl, rfl⟩ := (h' s t).1 ht
    exact ⟨c ++ d, s', ⟨c, d, hc, hd, rfl⟩, by simp, rfl⟩
  · rintro ⟨_, s, ⟨c, d, hc, hd, rfl⟩, rfl, rfl⟩
    exact ⟨(d ++ s, d ++ s), (h _ _).2 ⟨c, d ++ s, hc, by simp, rfl⟩, (h' _ _).2 ⟨d, s, hd, rfl, rfl⟩⟩

theorem reads_isEqualBytes (numBytes : Nat) : Reads (·.length = numBytes) (isEqualBytes numBytes) := by
  intro r t
  constructor
  · intro h
    rw [isEqualBytes] at h
    split at h
    · cases h
    rename_i hlen
    rw [if_neg (by simp)] at h
    cases h
    exact ⟨r.take numBytes, r.drop numBytes, length_take_of_le (by omega), (take_append_drop _ _).symm, rfl⟩
  · rintro ⟨c, s, rfl, rfl, rfl⟩
    exact common_isEqualBytes c s s

theorem isEqualDomainName_label (bytes r : List UInt8) :
    isEqualDomainName bytes.length (bytes ++ r) (bytes ++ r) = isEqualDomainName 0 r r := by
  induction bytes with
  | nil => rfl
  | cons b bytes ih => simpa using ih

theorem DomainName.isEqual {name : List UInt8} (h : DomainName name) (s : List UInt8) :
    isEqualDomainName 0 (name ++ s) (name ++ s) = some (s, s) := by
  induction h with
  | root => simp
  | label n bytes rest h0 h64 hlen _ ih =>
    have hn := isEqualDomainName_label bytes (rest ++ s)
    rw [hlen, ih] at hn
    simpa [h0, UInt8.not_le.2 h64] using hn

theorem DomainName.of_isEqual {label : Nat} {r : List UInt8} {t : List UInt8 × List UInt8}
    (h : isEqualDomainName label r r = some t) :
    ∃ bytes name s, bytes.length = label ∧ DomainName name ∧ r = bytes ++ name ++ s ∧ t = (s, s) := by
  induction r generalizing label with
  | nil => cases label <;> cases h
  | cons b r ih =>
    cases label with
    | succ label =>
      obtain ⟨bytes, name, s, hlen, hn, rfl, rfl⟩ := ih (ite_none_left_eq_some.1 h).2
      exact ⟨b :: bytes, name, s, by simp [hlen], hn, rfl, rfl⟩
    | zero =>
      have h := (ite_none_left_eq_some.1 h).2
      split at h
      · rename_i h0
        cases h
        exact ⟨[], [0], r, rfl, .root, by simp [h0], rfl⟩
      · rename_i h0
        obtain ⟨h64, h⟩ := ite_none_left_eq_some.1 h
        obtain ⟨bytes, name, s, hlen, hn, rfl, rfl⟩ := ih h
        exact ⟨[], b :: (bytes ++ name), s, rfl, .label b bytes name h0 (UInt8.not_le.1 h64) hlen hn, by simp, rfl⟩

theorem reads_isEqualDomainName : Reads DomainName (isEqualDomainName 0) := by
  intro r t
  constructor
  · intro h
    obtain ⟨bytes, name, s, hlen, hn, hr, ht⟩ := DomainName.of_isEqual h
    rw [eq_nil_of_length_eq_zero hlen, nil_append] at hr
    exact ⟨name, s, hn, hr, ht⟩
  · rintro ⟨name, s, hn, rfl, rfl⟩
    exact hn.isEqual s

theorem reads_isEqualQR : Reads Question isEqualQR := reads_isEqualDomainName.bind (reads_isEqualBytes 4)

theorem reads_isEqualRdata : Reads Rdata isEqualRdata := by
  intro r t
  constructor
  · intro h
    obtain ⟨hl, h⟩ := ite_none_left_eq_some.1 h
    obtain ⟨a, b, hr, -⟩ := readInt16_inj rfl (not_or.1 hl).2
    obtain ⟨data, s, hlen, hd, rfl⟩ := (reads_isEqualBytes _ _ _).1 h
    rw [hd] at hr
    refine ⟨a :: b :: data, s, ⟨a, b, data, rfl, ?_⟩, hr, rfl⟩
    rw [hlen, hr]
    rfl
  · rintro ⟨_, s, ⟨a, b, data, rfl, hlen⟩, rfl, rfl⟩
    have h := common_isEqualBytes data s s
    rw [hlen] at h
    have h0 : ¬((a.toNat * 256 + b.toNat : Nat) : Int) < 0 := by omega
    exact (if_neg (not_or.2 ⟨not_not.2 rfl, h0⟩)).trans h

theorem reads_isEqualRR : Reads ResourceRecord isEqualRR := by
  intro r t
  have h := reads_isEqualQR.bind ((reads_isEqualBytes 4).bind reads_isEqualRdata) r t
  refine Iff.trans h (exists_congr fun c => exists_congr fun s => and_congr_left fun _ => ?_)
  constructor
  · rintro ⟨question, _, hq, ⟨ttl, rdata, ht, hr, rfl⟩, rfl⟩
    exact ⟨question, ttl, rdata, hq, ht, hr, rfl⟩
  · rintro ⟨question, ttl, rdata, hq, ht, hr, rfl⟩
    exact ⟨question, ttl ++ rdata, hq, ⟨ttl, rdata, ht, hr, rfl⟩, rfl⟩

theorem reads_questions (count : Nat) : Reads (Questions count) (isEqualMany isEqualQR count) := by
  induction count with
  | zero =>
    intro r t
    constructor
    · intro h
      cases h
      exact ⟨[], r, rfl, rfl, rfl⟩
    · rintro ⟨_, s, rfl, rfl, rfl⟩
      rfl
  | succ count ih => exact reads_isEqualQR.bind ih

theorem additional_iff {arcount : Nat} (h : arcount ≤ 1) (rest : List UInt8) :
    isEqualMany isEqualRR arcount rest rest = some ([], []) ↔
      if arcount = 0 then rest = [] else ResourceRecord rest := by
  match arcount, h with
  | 0, _ => simp [isEqualMany]
  | 1, _ =>
    have hone : isEqualMany isEqualRR 1 rest rest = isEqualRR rest rest := by
      cases hr : isEqualRR rest rest <;> simp [isEqualMany, hr]
    rw [hone, reads_isEqualRR, if_neg (by decide)]
    constructor
    · rintro ⟨c, s, hc, rfl, hs⟩
      cases hs
      rwa [append_nil]
    · exact fun hr => ⟨rest, [], hr, (append_nil _).symm, rfl⟩

theorem isEqualSections_eq_nil_iff {q : List UInt8} (h : arCount q ≤ 1) :
    isEqualSections (qdCount q) (arCount q) (q.drop 12) (q.drop 12) = some ([], []) ↔ Filled q := by
  rw [isEqualSections, bind_eq_some_iff]
  constructor
  · rintro ⟨m, hm, ht⟩
    obtain ⟨questions, rest, hq, hd, rfl⟩ := (reads_questions _ _ _).1 hm
    exact ⟨questions, rest, hd, hq, (additional_iff h rest).1 ht⟩
  · rintro ⟨questions, rest, hd, hq, hr⟩
    exact ⟨(rest, rest), (reads_questions _ _ _).2 ⟨questions, rest, hq, hd, rfl⟩, (additional_iff h rest).2 hr⟩

end Grammar

section Checked

variable {c d r r' q q₁ q₂ : List UInt8} {i : Nat}

theorem checkQName_eq (label : Nat) (r : List UInt8) :
    checkQName label r = (isEqualDomainName label r r).map Prod.fst := by
  induction r generalizing label with
  | nil => cases label <;> rfl
  | cons b r ih =>
    cases label with
    | succ label => simp [checkQName, ih]
    | zero =>
      simp only [checkQName, isEqualDomainName, ih, ne_eq, not_true_eq_false, if_false]
      split_ifs <;> rfl

theorem checkQName_common {label : Nat} (h : checkQName label r = some r') :
    ∃ c, r = c ++ r' ∧ (∀ s, checkQName label (c ++ s) = some s) ∧ Common c (isEqualDomainName label) := by
  rw [checkQName_eq] at h
  obtain ⟨rests, hr, rfl⟩ := map_eq_some_iff.1 h
  obtain ⟨c, hc, -, hcm⟩ := splits_isEqualDomainName label hr
  exact ⟨c, hc, fun s => by simp [checkQName_eq, hcm s s], hcm⟩

theorem checkBytes_some {bytes : List UInt8} (h : checkBytes bytes r = some r') : r = bytes ++ r' := by
  obtain ⟨hb, hr⟩ := ite_none_right_eq_some.1 h
  cases hr
  exact (prefix_iff_eq_append.1 (prefix_iff_eq_take.2 hb.symm)).symm

theorem checkTypes_common (h : dnsTypes.findSome? (checkBytes · r) = some r') :
    ∃ c, c.length = 2 ∧ r = c ++ r' ∧ ∀ s, dnsTypes.findSome? (checkBytes · (c ++ s)) = some s := by
  obtain ⟨c, hm, hc⟩ := exists_of_findSome?_eq_some h
  refine ⟨c, ?_, checkBytes_some hc, fun s => ?_⟩ <;>
  · simp only [dnsTypes, mem_cons, not_mem_nil, or_false] at hm
    rcases hm with rfl | rfl | rfl | rfl | rfl <;> rfl

theorem checkQR_common (h : checkQR r = some r') :
    ∃ c, r = c ++ r' ∧ (∀ s, checkQR (c ++ s) = some s) ∧ Common c isEqualQR := by
  obtain ⟨r₁, hn, h⟩ := bind_eq_some_iff.1 h
  obtain ⟨r₂, ht, hl⟩ := bind_eq_some_iff.1 h
  obtain ⟨n, rfl, hnc, hne⟩ := checkQName_common hn
  obtain ⟨t, htl, rfl, htc⟩ := checkTypes_common ht
  obtain rfl := checkBytes_some hl
  have hb := common_isEqualBytes (t ++ dnsClassIn)
  rw [length_append, htl] at hb
  refine ⟨n ++ (t ++ dnsClassIn), by simp, fun s => ?_, hne.bind hb⟩
  have hs : checkBytes dnsClassIn (dnsClassIn ++ s) = some s := rfl
  simp [checkQR, hnc, htc, hs]

theorem checkQRs_common {count : Nat} (h : checkQRs count r) :
    ∃ c, c <+: r ∧ (∀ s, checkQRs count (c ++ s)) ∧ Common c (isEqualMany isEqualQR count) := by
  induction count generalizing r with
  | zero => exact ⟨[], nil_prefix, fun _ => rfl, fun _ _ => rfl⟩
  | succ count ih =>
    rw [checkQRs] at h
    cases hq : checkQR r with
    | none => simp [hq] at h
    | some r₁ =>
      obtain ⟨d, ⟨s, rfl⟩, hd, hde⟩ := ih (by simpa [hq] using h)
      obtain ⟨c, rfl, hc, hce⟩ := checkQR_common hq
      exact ⟨c ++ d, ⟨s, by simp⟩, by simpa [checkQRs, hc] using hd, hce.bind hde⟩

theorem checkQuery_iff : checkQuery q ↔ 12 ≤ q.length ∧
    (byteAt q 2 &&& 0xFC = 0 ∧ byteAt q 3 &&& 0xCF = 0) ∧ (anCount q = 0 ∧ dnCount q = 0 ∧ arCount q ≤ 1) ∧
    qdCount q ≠ 0 ∧ checkQRs (qdCount q) (q.drop 12) := by
  simp only [checkQuery, dnsHeaderSize]
  grind

def header (q : List UInt8) : Nat × UInt8 × UInt8 × Nat × Nat :=
  (q.length, byteAt q 2 &&& 1, byteAt q 3, qdCount q, arCount q)

structure Covers (c q : List UInt8) : Prop where
  front : c <+: q.drop 12
  common : Common c (isEqualSections (qdCount q) (arCount q))
  checked : ∀ s, checkQRs (qdCount q) (c ++ s)

theorem readInt16_drop (h : i + 2 ≤ q.length) : readInt16 (q.drop i) = ((int16At q i : Int), q.drop (i + 2)) := by
  have h₀ : i < q.length := by omega
  have h₁ : i + 1 < q.length := by omega
  have hb₀ : byteAt q i = q[i] := by simp [byteAt, h₀]
  have hb₁ : byteAt q (i + 1) = q[i + 1] := by simp [byteAt, h₁]
  rw [drop_eq_getElem_cons h₀, drop_eq_getElem_cons h₁, readInt16, int16At, hb₀, hb₁]

theorem entryEquals_eq (h₁ : 12 ≤ q₁.length) (h₂ : 12 ≤ q₂.length) : entryEquals q₁ q₂ ↔
    header q₁ = header q₂ ∧ (isEqualSections (qdCount q₁) (arCount q₁) (q₁.drop 12) (q₂.drop 12)).isSome := by
  have hq₁ := readInt16_drop (show 4 + 2 ≤ q₁.length by omega)
  have hq₂ := readInt16_drop (show 4 + 2 ≤ q₂.length by omega)
  have ha₁ := readInt16_drop (show 10 + 2 ≤ q₁.length by omega)
  have ha₂ := readInt16_drop (show 10 + 2 ≤ q₂.length by omega)
  simp only [entryEquals, isEqualQuery, hq₁, hq₂, drop_drop, Nat.reduceAdd, ha₁, ha₂, header, qdCount,
    arCount, Int.toNat_natCast, isEqualSections, Prod.mk.injEq]
  grind

theorem entryEquals_iff (h₁ : checkQuery q₁) (h₂ : checkQuery q₂) :
    entryEquals q₁ q₂ ↔ header q₁ = header q₂ ∧ ∃ c, Covers c q₁ ∧ Covers c q₂ := by
  obtain ⟨hl₁, -, -, -, hc⟩ := checkQuery_iff.1 h₁
  rw [entryEquals_eq hl₁ (checkQuery_iff.1 h₂).1]
  refine and_congr_right fun hh => ?_
  simp only [header, Prod.mk.injEq] at hh
  obtain ⟨-, -, -, hqd, har⟩ := hh
  constructor
  · intro h
    obtain ⟨r, hr⟩ := isSome_iff_exists.1 h
    obtain ⟨m, hm, hr⟩ := bind_eq_some_iff.1 hr
    obtain ⟨c, hc₁, hc₂, hcm⟩ := splits_isEqualQR.many _ hm
    obtain ⟨d, hd₁, hd₂, hdm⟩ := splits_isEqualRR.many _ hr
    obtain ⟨c', hcr, hck, hcm'⟩ := checkQRs_common hc
    obtain rfl := hcm.unique hcm' ⟨m.1, hc₁.symm⟩ hcr
    have hck' (s : List UInt8) : checkQRs (qdCount q₁) (c ++ d ++ s) := by simpa using hck (d ++ s)
    have hco : Common (c ++ d) (isEqualSections (qdCount q₁) (arCount q₁)) := hcm.bind hdm
    refine ⟨c ++ d, ⟨⟨r.1, by rw [hc₁, hd₁]; simp⟩, hco, hck'⟩, ⟨r.2, by rw [hc₂, hd₂]; simp⟩, ?_, ?_⟩
    · rwa [← hqd, ← har]
    · rwa [← hqd]
  · rintro ⟨c, ⟨⟨s₁, hs₁⟩, hco, -⟩, ⟨s₂, hs₂⟩, -, -⟩
    simp [← hs₁, ← hs₂, hco s₁ s₂]

/-- A query that passes the check and has no additional record compares equal to itself. -/
theorem entryEquals_self (hc : checkQuery q) (har : arCount q = 0) : entryEquals q q := by
  obtain ⟨hl, -, -, -, hk⟩ := checkQuery_iff.1 hc
  obtain ⟨c, ⟨s, hs⟩, -, hcm⟩ := checkQRs_common hk
  rw [entryEquals_eq hl hl]
  exact ⟨rfl, by simp [isEqualSections, har, ← hs, hcm s s, isEqualMany]⟩

theorem hashQuery_eq (q : List UInt8) :
    hashQuery q = (q.drop 3).foldl fnv (fnv 2166136261 (byteAt q 2 &&& 1)) := rfl

theorem drop_eq_of_header (h : header q₁ = header q₂) (h₁ : checkQuery q₁) (h₂ : checkQuery q₂)
    (hd : q₁.drop 12 = q₂.drop 12) : q₁.drop 3 = q₂.drop 3 := by
  obtain ⟨hl, -, ⟨ha₁, hn₁, -⟩, -⟩ := checkQuery_iff.1 h₁
  obtain ⟨-, -, ⟨ha₂, hn₂, -⟩, -⟩ := checkQuery_iff.1 h₂
  simp only [header, Prod.mk.injEq] at h
  obtain ⟨hlen, -, h3, hq, har⟩ := h
  have hb (i : Nat) : (byteAt q₁ i).toNat < 256 ∧ (byteAt q₂ i).toNat < 256 := ⟨UInt8.toNat_lt _, UInt8.toNat_lt _⟩
  have hi (i : Nat) (h : int16At q₁ i = int16At q₂ i) :
      byteAt q₁ i = byteAt q₂ i ∧ byteAt q₁ (i + 1) = byteAt q₂ (i + 1) := by
    have := hb (i + 1)
    simp only [int16At] at h
    exact ⟨UInt8.toNat_inj.1 (by omega), UInt8.toNat_inj.1 (by omega)⟩
  have h4 := hi 4 hq
  have h6 := hi 6 (ha₁.trans ha₂.symm)
  have h8 := hi 8 (hn₁.trans hn₂.symm)
  have h10 := hi 10 har
  have hs (q : List UInt8) (hl : 12 ≤ q.length) : q.drop 3 = [byteAt q 3, byteAt q 4, byteAt q 5, byteAt q 6,
      byteAt q 7, byteAt q 8, byteAt q 9, byteAt q 10, byteAt q 11] ++ q.drop 12 := by
    match q, hl with
    | _ :: _ :: _ :: _ :: _ :: _ :: _ :: _ :: _ :: _ :: _ :: _ :: _, _ => rfl
  rw [hs q₁ hl, hs q₂ (hlen ▸ hl), h3, h4.1, h4.2, h6.1, h6.2, h8.1, h8.2, h10.1, h10.2, hd]

theorem byteAt_append (h : i < c.length) : byteAt (c ++ d) i = byteAt c i := by
  simp [byteAt, getElem?_append_left h]

theorem hashQuery_concat_inj {b b' : UInt8} (hl : 12 ≤ c.length) (h : hashQuery (c ++ [b]) = hashQuery (c ++ [b'])) :
    b = b' := by
  have hd (b : UInt8) : (c ++ [b]).drop 3 = c.drop 3 ++ [b] := drop_append_of_le_length (by omega)
  simp only [hashQuery_eq, byteAt_append (show 2 < c.length by omega), hd, foldl_append, foldl_cons,
    foldl_nil, fnv, UInt32.xor_right_inj] at h
  have hb := congrArg UInt32.toNat h
  exact UInt8.toNat_inj.1 (by simpa using hb)

/-- A byte behind the sections can be any other one. -/
theorem entryEquals_concat {b : UInt8} (hl : 12 ≤ d.length) (hc : checkQuery (d ++ [b]))
    (hv : Covers c (d ++ [b])) (hp : c <+: d.drop 12) (b' : UInt8) :
    checkQuery (d ++ [b']) ∧ entryEquals (d ++ [b]) (d ++ [b']) := by
  have hb {i : Nat} (hi : i < 12) : byteAt (d ++ [b']) i = byteAt (d ++ [b]) i := by
    rw [byteAt_append (by omega), byteAt_append (by omega)]
  have hn {i : Nat} (hi : i < 11) : int16At (d ++ [b']) i = int16At (d ++ [b]) i := by
    simp only [int16At, hb (show i < 12 by omega), hb (show i + 1 < 12 by omega)]
  have hqd : qdCount (d ++ [b']) = qdCount (d ++ [b]) := hn (by omega)
  have har : arCount (d ++ [b']) = arCount (d ++ [b]) := hn (by omega)
  have hd : (d ++ [b']).drop 12 = d.drop 12 ++ [b'] := drop_append_of_le_length hl
  obtain ⟨s, hs⟩ := hp
  have hv' : Covers c (d ++ [b']) := by
    refine ⟨⟨s ++ [b'], by rw [hd, ← hs, append_assoc]⟩, ?_, ?_⟩
    · rw [hqd, har]
      exact hv.common
    · rw [hqd]
      exact hv.checked
  have hc' : checkQuery (d ++ [b']) := by
    obtain ⟨-, hf, hk, h0, -⟩ := checkQuery_iff.1 hc
    refine checkQuery_iff.2 ⟨by simp; omega, ?_, ?_, by rwa [hqd], ?_⟩
    · rwa [hb (by omega), hb (by omega)]
    · simpa only [anCount, dnCount, arCount, hn (show 6 < 11 by omega), hn (show 8 < 11 by omega),
        hn (show 10 < 11 by omega)] using hk
    · rw [hd, ← hs, append_assoc]
      exact hv'.checked _
  refine ⟨hc', (entryEquals_iff hc hc').2 ⟨?_, c, hv, hv'⟩⟩
  simp [header, hqd, har, hb]

/-- Equal queries have one hash exactly if the packet ends with the questions or with a whole additional record: the
hash goes to its end, and the comparison stops at the end of the record, which the check does not look at. -/
theorem query_congruent_iff (hq : checkQuery q = true) :
    (entryEquals q q = true ∧ ∀ q₁, checkQuery q₁ = true → entryEquals q q₁ = true →
      entryEquals q₁ q = true ∧ hashQuery q = hashQuery q₁ ∧
        ∀ q₂, checkQuery q₂ = true → entryEquals q₁ q₂ = true → entryEquals q q₂ = true) ↔
      Filled q := by
  have hk := checkQuery_iff.1 hq
  rw [← isEqualSections_eq_nil_iff hk.2.2.1.2.2]
  constructor
  · rintro ⟨he, hc⟩
    obtain ⟨-, c, hv, -⟩ := (entryEquals_iff hq hq).1 he
    obtain ⟨s, hs⟩ := hv.front
    rcases eq_nil_or_concat s with rfl | ⟨s, b, rfl⟩
    · rw [← hs, hv.common [] []]
    · obtain ⟨d, hd⟩ : ∃ d, d = q.take 12 ++ (c ++ s) := ⟨_, rfl⟩
      have hq' : q = d ++ [b] := by
        rw [hd, ← take_append_drop 12 q, ← hs]
        simp [hk.1]
      have hp : d.drop 12 = c ++ s := by simp [hd, hk.1]
      have hl : 12 ≤ d.length := by simp [hd, hk.1]
      subst hq'
      obtain ⟨hc', he'⟩ := entryEquals_concat hl hq hv ⟨s, hp.symm⟩ (b + 1)
      have := hashQuery_concat_inj hl (hc _ hc' he').2.1
      simp at this
  · intro hw
    have he : entryEquals q q = true := (entryEquals_eq hk.1 hk.1).2 ⟨rfl, by simp [hw]⟩
    refine ⟨he, fun q₁ h₁ he₁ => ?_⟩
    obtain ⟨hh, c, hc, hc₁⟩ := (entryEquals_iff hq h₁).1 he₁
    refine ⟨(entryEquals_iff h₁ hq).2 ⟨hh.symm, c, hc₁, hc⟩, ?_, fun q₂ h₂ he₂ => ?_⟩
    · obtain ⟨s, hs⟩ := hc.front
      obtain ⟨s₁, hs₁⟩ := hc₁.front
      rw [← hs, hc.common s s] at hw
      cases hw
      have hlen := congrArg Prod.fst hh
      have := congrArg length hs
      have := congrArg length hs₁
      simp only [header, length_append, length_drop, length_nil] at *
      obtain rfl : s₁ = [] := eq_nil_of_length_eq_zero (by omega)
      rw [hashQuery_eq, hashQuery_eq, drop_eq_of_header hh hq h₁ (hs.symm.trans hs₁)]
      exact congrArg (fun b => foldl fnv (fnv _ b) _) (congrArg (·.2.1) hh)
    · obtain ⟨hh₂, d, hd₁, hd⟩ := (entryEquals_iff h₁ h₂).1 he₂
      obtain rfl := hc₁.common.unique hd₁.common hc₁.front hd₁.front
      exact (entryEquals_iff hq h₂).2 ⟨hh.trans hh₂, c, hc, hd⟩

/-- A question for the root with an OPT record of two bytes behind it. -/
theorem query_of_root_congruent :
    let q : List UInt8 :=
      [0, 7, 1, 0, 0, 1, 0, 0, 0, 0, 0, 1] ++ [0, 0, 1, 0, 1] ++ [0, 0, 41, 16, 0, 0, 0, 0, 0, 0, 2, 5, 6]
    checkQuery q = true ∧ entryEquals q q = true := by
  intro q
  have hq : checkQuery q = true := by decide +kernel
  have hquestion (a b c d : UInt8) : Question [0, a, b, c, d] := ⟨[0], [a, b, c, d], .root, rfl, rfl⟩
  refine ⟨hq, ((query_congruent_iff hq).2 ⟨[0, 0, 1, 0, 1], [0, 0, 41, 16, 0, 0, 0, 0, 0, 0, 2, 5, 6], rfl, ?_, ?_⟩).1⟩
  · rw [show qdCount q = 1 by decide +kernel]
    exact ⟨_, [], hquestion 0 1 0 1, rfl, rfl⟩
  · rw [if_neg (show ¬arCount q = 0 by decide +kernel)]
    exact ⟨_, [0, 0, 0, 0], _, hquestion 0 41 16 0, rfl, ⟨0, 2, [5, 6], rfl, rfl⟩, rfl⟩

/-- A byte behind the question changes the hash; an additional record that is not there matches none. -/
theorem equal_queries_hash_differently :
    let q (ar : UInt8) (s : List UInt8) : List UInt8 := [0, 7, 1, 0, 0, 1, 0, 0, 0, 0, 0, ar, 0, 0, 1, 0, 1] ++ s
    (checkQuery (q 0 [1]) ∧ checkQuery (q 0 [2]) ∧ entryEquals (q 0 [1]) (q 0 [2]) ∧
      hashQuery (q 0 [1]) ≠ hashQuery (q 0 [2])) ∧ checkQuery (q 1 []) ∧ entryEquals (q 1 []) (q 1 []) = false := by
  decide

end Checked

end Bionic.Dns
