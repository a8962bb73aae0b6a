import CrossByte.Net.Stun.StunMessage

/-!
# What a signature covers

A receiver that has verified a message acts on its attributes.  The signature is a code
for the bytes before it, so it vouches for the attributes that stand before it and for
nothing after.  The accessors search all that `decode` listed, and `decode` goes on to
the end of the message: what somebody appends to a signed message is believed, unless
the accessor that would read it finds the like of it before the signature first.

The two walks over the bytes agree, `decode`'s and that of `__attributeOffset`
(`attributesFrom_split`): the attributes are those before the signature, which are read
off the covered bytes alone, and those from the signature on.

## Main results

* `believes_covered_iff`: all that the accessors read of a verified message is covered
  by its signature if and only if everything of a kind they look for that follows the
  signature has one of its kind before it; and two such messages with the same covered
  bytes and code read alike.
* `appended_is_believed`: a signed check to which USE-CANDIDATE was appended.
-/

namespace CrossByte

namespace Stun

open Bytes StunMessage

variable {bytes raw p : List Byte} {type limit offset length read count i j n : ℕ}
  {l : List StunAttribute} {a : StunAttribute} {m m' : StunMessage}

/-! ## Bytes that agree -/

/-- Two byte strings agree from `i` to `j`. -/
def Agree (p bytes : List Byte) (i j : ℕ) : Prop := ∀ k, i ≤ k → k < j → p[k]? = bytes[k]?

theorem u16_congr (h : Agree p bytes i j) (hi : i ≤ offset) (hj : offset + 2 ≤ j) :
    u16 p offset = u16 bytes offset := by
  have h0 := h offset hi (by omega)
  have h1 := h (offset + 1) (by omega) (by omega)
  simp only [u16, List.getD_eq_getElem?_getD, h0, h1]

theorem slice_congr (h : Agree p bytes i j) (hi : i ≤ offset) (hj : offset + n ≤ j) :
    slice p offset n = slice bytes offset n := by
  ext1 k
  simp only [slice, List.getElem?_take, List.getElem?_drop]
  split
  · next hk => exact h (offset + k) (by omega) (by omega)
  · rfl

theorem length_slice_le (bytes : List Byte) (i n : ℕ) : (slice bytes i n).length ≤ n :=
  List.length_take_le n _

theorem covered_agree (bytes : List Byte) (upTo stated : ℕ) :
    Agree (covered bytes upTo stated) bytes 4 upTo := by
  intro k hk hlt
  rw [covered, List.getElem?_set_ne (by omega), List.getElem?_set_ne (by omega),
    List.getElem?_take_of_lt hlt]

theorem covered_agree_type (bytes : List Byte) {upTo : ℕ} (h : 2 ≤ upTo) (stated : ℕ) :
    Agree (covered bytes upTo stated) bytes 0 2 := by
  intro k _ hlt
  rw [covered, List.getElem?_set_ne (by omega), List.getElem?_set_ne (by omega),
    List.getElem?_take_of_lt (by omega)]

theorem length_covered (h : i ≤ bytes.length) (stated : ℕ) :
    (covered bytes i stated).length = i := by
  simp [covered, h]

/-! ## The two walks -/

/-- The attributes before a place, as the bytes before it say. -/
def coveredFrom (bytes : List Byte) (upTo offset : ℕ) : List StunAttribute :=
  if offset < upTo then
    let n := u16 bytes (offset + 2)
    ⟨offset, u16 bytes offset, slice bytes (offset + 4) n⟩ ::
      coveredFrom bytes upTo (offset + (4 + n + padding n))
  else []
termination_by upTo - offset

theorem attributeOffsetFrom_bounds (h : attributeOffsetFrom bytes type limit offset = some i) :
    offset ≤ i ∧ i + 4 ≤ limit := by
  fun_induction attributeOffsetFrom bytes type limit offset with
  | case1 offset hle _ =>
    obtain rfl : offset = i := Option.some.inj h
    exact ⟨le_rfl, hle⟩
  | case2 offset hle _ n ih =>
    have := ih h
    omega
  | case3 => cases h

theorem le_start (h : attributesFrom raw length read count = some l) :
    ∀ a ∈ l, HEADER_LENGTH + read ≤ a.start := by
  fun_induction attributesFrom raw length read count generalizing l with
  | case1 => cases h
  | case2 =>
    obtain rfl : [] = l := Option.some.inj h
    simp
  | case3 read count _ _ type n _ skip =>
    rename_i ih
    obtain ⟨l', hl', rfl⟩ := Option.map_eq_some_iff.1 h
    intro a ha
    obtain rfl | ha := List.mem_cons.1 ha
    · exact le_rfl
    · have := ih hl' a ha
      omega
  | case4 =>
    obtain rfl : [] = l := Option.some.inj h
    simp

/-- The walk of `decode` lists the attributes before the place that the other walk finds, each of
which ends before it, and then those from there on. -/
theorem attributesFrom_split (hd : attributesFrom raw length read count = some l)
    (ho : attributeOffsetFrom raw type (HEADER_LENGTH + length) (HEADER_LENGTH + read) = some i)
    (hp : Agree p raw HEADER_LENGTH i) :
    ∃ tail, l = coveredFrom p i (HEADER_LENGTH + read) ++ tail ∧
      (∀ a ∈ coveredFrom p i (HEADER_LENGTH + read), a.start + 4 + a.value.length ≤ i) ∧
      ∀ a ∈ tail, i ≤ a.start := by
  fun_induction attributesFrom raw length read count generalizing l with
  | case1 => cases hd
  | case2 read count hle _ hbreak =>
    -- an attribute longer than the message: the other walk can only have stopped at it
    obtain rfl : [] = l := Option.some.inj hd
    rw [attributeOffsetFrom] at ho
    split at ho
    · split at ho
      · obtain rfl := Option.some.inj ho
        refine ⟨[], ?_, ?_, by simp⟩ <;> simp [coveredFrom]
      · have hb := attributeOffsetFrom_bounds ho
        omega
    · cases ho
  | case3 read count hle _ type' n hfits skip =>
    rename_i ih
    obtain ⟨l', hl', rfl⟩ := Option.map_eq_some_iff.1 hd
    rw [attributeOffsetFrom] at ho
    split at ho
    · split at ho
      · obtain rfl := Option.some.inj ho
        refine ⟨⟨HEADER_LENGTH + read, type', slice raw (HEADER_LENGTH + read + 4) n⟩ :: l', ?_, ?_, ?_⟩
        · rw [coveredFrom, if_neg (lt_irrefl _), List.nil_append]
        · simp [coveredFrom]
        · intro a ha
          obtain rfl | ha := List.mem_cons.1 ha
          · exact le_rfl
          · have := le_start hl' a ha
            omega
      · -- the walks go on to the same place: the padding is within the message
        have hb : HEADER_LENGTH + read + (4 + n + padding n) ≤ i ∧
            i + 4 ≤ HEADER_LENGTH + length := attributeOffsetFrom_bounds ho
        have hskip : skip = padding n := by
          simp only [skip]
          split <;> omega
        have hnext : HEADER_LENGTH + (read + 4 + n + skip) =
            HEADER_LENGTH + read + (4 + n + padding n) := by omega
        rw [hnext] at ih
        obtain ⟨tail, rfl, hcov, htail⟩ := ih hl' ho
        have ht : u16 p (HEADER_LENGTH + read) = u16 raw (HEADER_LENGTH + read) :=
          u16_congr hp (by omega) (by omega)
        have hn : u16 p (HEADER_LENGTH + read + 2) = n := u16_congr hp (by omega) (by omega)
        have hv : slice p (HEADER_LENGTH + read + 4) n = slice raw (HEADER_LENGTH + read + 4) n :=
          slice_congr hp (by omega) (by omega)
        have hhead : coveredFrom p i (HEADER_LENGTH + read) =
            ⟨HEADER_LENGTH + read, u16 raw (HEADER_LENGTH + read),
              slice raw (HEADER_LENGTH + read + 4) n⟩ ::
              coveredFrom p i (HEADER_LENGTH + read + (4 + n + padding n)) := by
          rw [coveredFrom, if_pos (by omega)]
          simp only [ht, hn, hv]
        refine ⟨tail, ?_, ?_, htail⟩
        · rw [hhead, List.cons_append]
        · rw [hhead]
          intro a ha
          obtain rfl | ha := List.mem_cons.1 ha
          · have := length_slice_le raw (HEADER_LENGTH + read + 4) n
            show HEADER_LENGTH + read + 4 + (slice raw (HEADER_LENGTH + read + 4) n).length ≤ i
            omega
          · exact hcov a ha
    · cases ho
  | case4 read count hno =>
    have hb := attributeOffsetFrom_bounds ho
    omega

/-! ## The accessors -/

/-- The kinds of attribute that an accessor stops at. -/
inductive Sought
  | ofType (type : ℕ)
  | roleClaim
  | errorCode
  | xorMapped
  | anyMapped

/-- Whether an attribute is of a kind. -/
def Sought.holds (transactionId : List Byte) : Sought → StunAttribute → Bool
  | .ofType type, a => a.type = type
  | .roleClaim, a => claimsRole a
  | .errorCode, a => statesError a
  | .xorMapped, a =>
    a.type = ATTR_XOR_MAPPED_ADDRESS ∧ (readAddress transactionId a.value true).isSome
  | .anyMapped, a =>
    (a.type = ATTR_XOR_MAPPED_ADDRESS ∧ (readAddress transactionId a.value true).isSome) ∨
      (a.type = ATTR_MAPPED_ADDRESS ∧ (readAddress transactionId a.value false).isSome)

/-- The accessors: those of one type (`attribute`, `hasUseCandidate`, `addressOf`, `uintOf`), and
those with a rule of their own. -/
inductive Accessor
  | ofType (type : ℕ)
  | iceRoleClaim
  | errorCodeValue
  | mappedAddress

/-- The attribute of a list that an accessor reads. -/
def Accessor.picksFrom (transactionId : List Byte) (l : List StunAttribute) :
    Accessor → Option StunAttribute
  | .ofType type => l.find? ((Sought.ofType type).holds transactionId)
  | .iceRoleClaim => l.find? (Sought.roleClaim.holds transactionId)
  | .errorCodeValue => l.find? (Sought.errorCode.holds transactionId)
  | .mappedAddress => (l.find? (Sought.xorMapped.holds transactionId)).or
      (l.find? (Sought.anyMapped.holds transactionId))

/-- The attribute of a message that an accessor reads. -/
def Accessor.picks (m : StunMessage) (x : Accessor) : Option StunAttribute :=
  x.picksFrom m.transactionId m.attributes

/-- The types of what signs a message or stands outside of it. -/
def sealTypes : List ℕ := [ATTR_FINGERPRINT, ATTR_MESSAGE_INTEGRITY, ATTR_MESSAGE_INTEGRITY_SHA256]

/-- Kinds that are not acted on. -/
def Sought.sealing : Sought → Bool
  | .ofType type => type ∈ sealTypes
  | _ => false

/-- Accessors that read only what is not acted on. -/
def Accessor.sealing : Accessor → Bool
  | .ofType type => type ∈ sealTypes
  | _ => false

/-- What the agent reads of a message in `__answer`, `__accept` and `__refused`. -/
structure Reading where
  type : ℕ
  transactionId : List Byte
  username : Option (List Byte)
  useCandidate : Bool
  claim : Option (Bool × ℤ)
  priority : ℕ
  mapped : Option ReflexiveAddress
  errorCode : ℕ

def StunMessage.reading (m : StunMessage) : Reading where
  type := m.type
  transactionId := m.transactionId
  username := m.attribute_ ATTR_USERNAME
  useCandidate := m.hasUseCandidate
  claim := m.iceRoleClaim
  priority := m.uintOf ATTR_PRIORITY 0
  mapped := m.mappedAddress
  errorCode := m.errorCodeValue

/-! ## Signatures -/

inductive Verifier
  | integrity
  | sha256
  | any

/-- The type of the signature that a verification looks at. -/
def Verifier.signatureType (m : StunMessage) : Verifier → ℕ
  | .integrity => ATTR_MESSAGE_INTEGRITY
  | .sha256 => ATTR_MESSAGE_INTEGRITY_SHA256
  | .any => if (m.attribute_ ATTR_MESSAGE_INTEGRITY_SHA256).isSome then ATTR_MESSAGE_INTEGRITY_SHA256
      else ATTR_MESSAGE_INTEGRITY

def Verifier.verify (hmac : Hmac) (key : List Byte) (m : StunMessage) : Verifier → Bool
  | .integrity => m.verifyIntegrityWithKey hmac key
  | .sha256 => m.verifyIntegritySha256WithKey hmac key
  | .any => m.verifyAnyIntegrityWithKey hmac key

/-- Where the signature is. -/
def Verifier.signedAt (v : Verifier) (m : StunMessage) : Option ℕ := attributeOffset m.raw (v.signatureType m)

/-- The length of the code of the signature at a place. -/
def Verifier.codeLength (v : Verifier) (m : StunMessage) (i : ℕ) : ℕ :=
  if v.signatureType m = ATTR_MESSAGE_INTEGRITY then INTEGRITY_LENGTH else u16 m.raw (i + 2)

/-- The bytes that the signature at a place covers. -/
def Verifier.coveredBytes (v : Verifier) (m : StunMessage) (i : ℕ) : List Byte :=
  covered m.raw i (i - HEADER_LENGTH + 4 + v.codeLength m i)

/-- The covered bytes and the code that they were compared with. -/
def Verifier.signature (v : Verifier) (m : StunMessage) : Option (List Byte × List Byte) :=
  (v.signedAt m).map fun i => (v.coveredBytes m i, slice m.raw (i + 4) (v.codeLength m i))

/-- All that the accessors read lies before the signature. -/
def BelievesCovered (v : Verifier) (m : StunMessage) : Prop :=
  ∀ i ∈ v.signedAt m, ∀ x : Accessor, x.sealing = false → ∀ a ∈ x.picks m,
    a.start + 4 + a.value.length ≤ i

/-- Whatever kind of attribute follows the signature, one of its kind stands before it. -/
def Shadowed (v : Verifier) (m : StunMessage) : Prop :=
  ∀ i ∈ v.signedAt m, ∀ k : Sought, k.sealing = false → ∀ a ∈ m.attributes, i ≤ a.start →
    k.holds m.transactionId a → ∃ b ∈ m.attributes, b.start < i ∧ k.holds m.transactionId b

theorem signedAt_of_verify {hmac : Hmac} {key : List Byte} {v : Verifier}
    (h : v.verify hmac key m = true) : ∃ i, v.signedAt m = some i := by
  have sha1 (h : m.verifyIntegrityWithKey hmac key = true) :
      ∃ i, attributeOffset m.raw ATTR_MESSAGE_INTEGRITY = some i := by
    rw [verifyIntegrityWithKey] at h
    split at h
    · cases h
    · next i hi => exact ⟨i, hi⟩
  have sha256 (h : m.verifyIntegritySha256WithKey hmac key = true) :
      ∃ i, attributeOffset m.raw ATTR_MESSAGE_INTEGRITY_SHA256 = some i := by
    rw [verifyIntegritySha256WithKey] at h
    split at h
    · cases h
    · next i hi => exact ⟨i, hi⟩
  cases v with
  | integrity => exact sha1 h
  | sha256 => exact sha256 h
  | any =>
    have h' : m.verifyAnyIntegrityWithKey hmac key = true := h
    rw [verifyAnyIntegrityWithKey] at h'
    rw [Verifier.signedAt, Verifier.signatureType]
    by_cases hs : (m.attribute_ ATTR_MESSAGE_INTEGRITY_SHA256).isSome = true
    · rw [if_pos hs] at h' ⊢
      exact sha256 h'
    · rw [if_neg hs] at h' ⊢
      exact sha1 h'

/-- What `decode` has checked and done. -/
theorem decode_some (h : decode raw = some m) :
    HEADER_LENGTH + u16 raw 2 ≤ raw.length ∧ m.raw = raw ∧ m.type = u16 raw 0 ∧
      m.transactionId = slice raw 8 TRANSACTION_LENGTH ∧
      attributesFrom raw (u16 raw 2) 0 0 = some m.attributes := by
  rw [decode] at h
  split at h
  · cases h
  · split at h
    · cases h
    · split at h
      · cases h
      · next hlen =>
        obtain ⟨l, hl, rfl⟩ := Option.map_eq_some_iff.1 h
        exact ⟨not_lt.1 hlen, rfl, rfl, rfl, hl⟩

/-- A decoded message with a signature: what the covered bytes say, and what follows. -/
theorem decode_split (h : decode raw = some m) {v : Verifier} (hi : v.signedAt m = some i) :
    HEADER_LENGTH ≤ i ∧ i ≤ raw.length ∧
    m.type = u16 (v.coveredBytes m i) 0 ∧
    m.transactionId = slice (v.coveredBytes m i) 8 TRANSACTION_LENGTH ∧
    ∃ tail, m.attributes = coveredFrom (v.coveredBytes m i) i HEADER_LENGTH ++ tail ∧
      (∀ a ∈ coveredFrom (v.coveredBytes m i) i HEADER_LENGTH,
        a.start + 4 + a.value.length ≤ i) ∧ ∀ a ∈ tail, i ≤ a.start := by
  obtain ⟨hlen, hraw, htype, htx, hatt⟩ := decode_some h
  rw [Verifier.signedAt, hraw, attributeOffset] at hi
  split at hi
  · cases hi
  · rw [min_eq_left hlen] at hi
    have hb := attributeOffsetFrom_bounds hi
    have h20 : HEADER_LENGTH = 20 := rfl
    have hagree : Agree (v.coveredBytes m i) raw 4 i := by
      rw [Verifier.coveredBytes, hraw]
      exact covered_agree raw i _
    have htop : Agree (v.coveredBytes m i) raw 0 2 := by
      rw [Verifier.coveredBytes, hraw]
      exact covered_agree_type raw (by omega) _
    refine ⟨hb.1, by omega, ?_, ?_, ?_⟩
    · rw [htype]
      exact (u16_congr htop le_rfl le_rfl).symm
    · rw [htx]
      exact (slice_congr hagree (by omega) (by rw [TRANSACTION_LENGTH]; omega)).symm
    · exact attributesFrom_split hatt hi fun k hk hlt => hagree k (by omega) hlt

/-! ## What is read -/

variable {transactionId : List Byte} {front tail : List StunAttribute}

theorem find_append_of_shadow {q : StunAttribute → Bool}
    (h : ∀ a ∈ tail, q a → ∃ b ∈ front, q b) : (front ++ tail).find? q = front.find? q := by
  rw [List.find?_append]
  cases hf : front.find? q with
  | some b => rfl
  | none =>
    rw [Option.none_or, List.find?_eq_none]
    intro a ha hq
    obtain ⟨b, hb, hqb⟩ := h a ha hq
    exact List.find?_eq_none.1 hf b hb hqb

/-- An accessor reads nothing of what follows, if that has nothing new to it. -/
theorem picksFrom_append {x : Accessor} (hx : x.sealing = false)
    (h : ∀ k : Sought, k.sealing = false → ∀ a ∈ tail, k.holds transactionId a →
      ∃ b ∈ front, k.holds transactionId b) :
    x.picksFrom transactionId (front ++ tail) = x.picksFrom transactionId front := by
  cases x with
  | ofType t => exact find_append_of_shadow (h (.ofType t) hx)
  | iceRoleClaim => exact find_append_of_shadow (h .roleClaim rfl)
  | errorCodeValue => exact find_append_of_shadow (h .errorCode rfl)
  | mappedAddress =>
    rw [Accessor.picksFrom, Accessor.picksFrom, find_append_of_shadow (h .xorMapped rfl),
      find_append_of_shadow (h .anyMapped rfl)]

theorem mem_of_picksFrom {x : Accessor} (h : x.picksFrom transactionId l = some a) : a ∈ l := by
  cases x with
  | mappedAddress =>
    obtain h | ⟨-, h⟩ := Option.or_eq_some_iff.1 h
    · exact List.mem_of_find?_eq_some h
    · exact List.mem_of_find?_eq_some h
  | _ => exact List.mem_of_find?_eq_some h

theorem anyMapped_of_xorMapped (h : Sought.xorMapped.holds transactionId a) :
    Sought.anyMapped.holds transactionId a := by
  simp only [Sought.holds, decide_eq_true_eq] at h ⊢
  exact .inl h

/-- Of whatever kind a list has an attribute, some accessor reads one of it. -/
theorem exists_picks {k : Sought} (hk : k.sealing = false) (ha : a ∈ l)
    (h : k.holds transactionId a) : ∃ x : Accessor, x.sealing = false ∧
      ∃ b ∈ l, x.picksFrom transactionId l = some b ∧ k.holds transactionId b := by
  have hfind : ∀ k : Sought, k.holds transactionId a → ∃ b ∈ l,
      l.find? (k.holds transactionId) = some b ∧ k.holds transactionId b := by
    intro k h
    obtain ⟨b, hb⟩ := Option.isSome_iff_exists.1 (List.find?_isSome.2 ⟨a, ha, h⟩)
    exact ⟨b, List.mem_of_find?_eq_some hb, hb, List.find?_some hb⟩
  cases k with
  | ofType t => exact ⟨.ofType t, hk, hfind (.ofType t) h⟩
  | roleClaim => exact ⟨.iceRoleClaim, rfl, hfind .roleClaim h⟩
  | errorCode => exact ⟨.errorCodeValue, rfl, hfind .errorCode h⟩
  | xorMapped =>
    obtain ⟨b, hb, hf, hh⟩ := hfind .xorMapped h
    exact ⟨.mappedAddress, rfl, b, hb, by rw [Accessor.picksFrom, hf]; rfl, hh⟩
  | anyMapped =>
    obtain ⟨b, hb, hf, hh⟩ := hfind .anyMapped h
    refine ⟨.mappedAddress, rfl, ?_⟩
    cases hx : l.find? (Sought.xorMapped.holds transactionId) with
    | some c =>
      exact ⟨c, List.mem_of_find?_eq_some hx, by rw [Accessor.picksFrom, hx]; rfl,
        anyMapped_of_xorMapped (List.find?_some hx)⟩
    | none => exact ⟨b, hb, by rw [Accessor.picksFrom, hx, hf]; rfl, hh⟩

/-- The loop of `mappedAddress` ends with the first address that is masked, or else with the first
there is. -/
theorem mappedFrom_eq (transactionId : List Byte) (l : List StunAttribute) :
    ∀ fallback, mappedFrom transactionId fallback l =
      match l.find? (Sought.xorMapped.holds transactionId) with
      | some a => readAddress transactionId a.value true
      | none => fallback.or ((l.find? (Sought.anyMapped.holds transactionId)).bind
          fun a => readAddress transactionId a.value false) := by
  induction l with
  | nil => intro fallback; simp [mappedFrom]
  | cons a l ih =>
    intro fallback
    have hne : ATTR_XOR_MAPPED_ADDRESS ≠ ATTR_MAPPED_ADDRESS := by decide
    rw [mappedFrom]
    by_cases hx : a.type = ATTR_XOR_MAPPED_ADDRESS
    · cases hr : readAddress transactionId a.value true with
      | some d => simp [Sought.holds, hx, hr]
      | none => simp [Sought.holds, hx, hr, hne, ih]
    · by_cases hm : a.type = ATTR_MAPPED_ADDRESS
      · cases fallback with
        | some d => simp [Sought.holds, hm, ih, hne.symm]
        | none =>
          cases hr : readAddress transactionId a.value false <;>
            simp [Sought.holds, hm, hr, ih, hne.symm]
      · simp [Sought.holds, hx, hm, ih]

theorem mappedAddress_eq (m : StunMessage) :
    m.mappedAddress = (Accessor.mappedAddress.picks m).bind fun a =>
      readAddress m.transactionId a.value (a.type = ATTR_XOR_MAPPED_ADDRESS) := by
  rw [mappedAddress, mappedFrom_eq, Accessor.picks, Accessor.picksFrom]
  cases hx : m.attributes.find? (Sought.xorMapped.holds m.transactionId) with
  | some a =>
    have ha := List.find?_some hx
    simp only [Sought.holds, decide_eq_true_eq] at ha
    simp [ha.1]
  | none =>
    cases hm : m.attributes.find? (Sought.anyMapped.holds m.transactionId) with
    | none => rfl
    | some a =>
      have hno := List.find?_eq_none.1 hx a (List.mem_of_find?_eq_some hm)
      have ha := List.find?_some hm
      simp only [Sought.holds, decide_eq_true_eq] at hno ha
      have hne : ATTR_MAPPED_ADDRESS ≠ ATTR_XOR_MAPPED_ADDRESS := by decide
      obtain ha | ha := ha
      · exact absurd ha hno
      · simp [ha.1, hne]

/-- Messages with one header whose accessors read the same attributes read alike. -/
theorem reading_eq (htype : m.type = m'.type) (htx : m.transactionId = m'.transactionId)
    (h : ∀ x : Accessor, x.sealing = false → x.picks m = x.picks m') : m.reading = m'.reading := by
  have hattr : ∀ t, t ∉ sealTypes → m.attribute_ t = m'.attribute_ t := fun t ht =>
    congrArg (Option.map StunAttribute.value) (h (.ofType t) (by simpa [Accessor.sealing] using ht))
  have huse : m.hasUseCandidate = m'.hasUseCandidate := by
    have := congrArg Option.isSome (h (.ofType ATTR_USE_CANDIDATE) rfl)
    simp only [Accessor.picks, Accessor.picksFrom, List.isSome_find?] at this
    exact this
  have hrole : m.iceRoleClaim = m'.iceRoleClaim := by
    have := h .iceRoleClaim rfl
    exact congrArg (Option.map _) this
  have herror : m.errorCodeValue = m'.errorCodeValue := by
    have hfound : m.attributes.find? statesError = m'.attributes.find? statesError :=
      h .errorCodeValue rfl
    rw [errorCodeValue, errorCodeValue, hfound]
  rw [reading, reading, hattr ATTR_USERNAME (by decide), huse, hrole, herror, uintOf, uintOf,
    hattr ATTR_PRIORITY (by decide), mappedAddress_eq, mappedAddress_eq, h .mappedAddress rfl, htype,
    htx]

/-- The condition, in terms of what stands before the signature and what follows. -/
theorem shadowed_iff {v : Verifier} (hi : v.signedAt m = some i)
    (hm : m.attributes = front ++ tail) (hfront : ∀ a ∈ front, a.start + 4 + a.value.length ≤ i)
    (htail : ∀ a ∈ tail, i ≤ a.start) :
    Shadowed v m ↔ ∀ k : Sought, k.sealing = false → ∀ a ∈ tail, k.holds m.transactionId a →
      ∃ b ∈ front, k.holds m.transactionId b := by
  constructor
  · intro h k hk a ha hh
    obtain ⟨b, hb, hlt, hhb⟩ := h i hi k hk a (hm ▸ List.mem_append_right _ ha) (htail a ha) hh
    rw [hm, List.mem_append] at hb
    obtain hb | hb := hb
    · exact ⟨b, hb, hhb⟩
    · exact absurd hlt (not_lt.2 (htail b hb))
  · intro h j hj k hk a ha hle hh
    obtain rfl : i = j := Option.some.inj (hi.symm.trans hj)
    rw [hm, List.mem_append] at ha
    obtain ha | ha := ha
    · have := hfront a ha
      omega
    · obtain ⟨b, hb, hhb⟩ := h k hk a ha hh
      have := hfront b hb
      exact ⟨b, hm ▸ List.mem_append_left _ hb, by omega, hhb⟩

/-- All that the accessors read of a verified message lies in what its signature covers, if and only
if whatever kind of attribute follows the signature has one of its kind before it.  Two such
messages with the same covered bytes and code read alike. -/
theorem believes_covered_iff (hmac : Hmac) (key : List Byte) (v : Verifier) (raw : List Byte)
    (m : StunMessage) (hdecode : decode raw = some m) (hverify : v.verify hmac key m = true) :
    (BelievesCovered v m ↔ Shadowed v m) ∧
      ∀ raw' m', decode raw' = some m' → v.verify hmac key m' = true →
        v.signature m' = v.signature m → Shadowed v m → Shadowed v m' → m'.reading = m.reading := by
  obtain ⟨i, hi⟩ := signedAt_of_verify hverify
  obtain ⟨h20, hlen, htype, htx, tail, hatt, hfront, htail⟩ := decode_split hdecode hi
  have hshadow := shadowed_iff hi hatt hfront htail
  refine ⟨⟨fun hb => ?_, fun hs j hj x hx a ha => ?_⟩, ?_⟩
  · intro j hj k hk a ha hle hh
    obtain rfl : i = j := Option.some.inj (hi.symm.trans hj)
    obtain ⟨x, hx, b, hb', hpick, hhb⟩ := exists_picks hk ha hh
    have := hb i hi x hx b hpick
    exact ⟨b, hb', by omega, hhb⟩
  · obtain rfl : i = j := Option.some.inj (hi.symm.trans hj)
    have hpick : x.picksFrom m.transactionId m.attributes = some a := ha
    rw [hatt, picksFrom_append hx (hshadow.1 hs)] at hpick
    exact hfront a (mem_of_picksFrom hpick)
  · intro raw' m' hdecode' hverify' hsig hs hs'
    obtain ⟨j, hj⟩ := signedAt_of_verify hverify'
    obtain ⟨-, hlen', htype', htx', tail', hatt', hfront', htail'⟩ := decode_split hdecode' hj
    have hshadow' := shadowed_iff hj hatt' hfront' htail'
    -- the covered bytes say where the signature is, the header, and the attributes before it
    have hcov : v.coveredBytes m' j = v.coveredBytes m i := by
      rw [Verifier.signature, Verifier.signature, hi, hj] at hsig
      exact congrArg Prod.fst (Option.some.inj hsig)
    have hij : j = i := by
      have hl : (v.coveredBytes m' j).length = j := by
        exact length_covered (by rw [(decode_some hdecode').2.1]; exact hlen') _
      have hr : (v.coveredBytes m i).length = i := by
        exact length_covered (by rw [(decode_some hdecode).2.1]; exact hlen) _
      rw [← hl, hcov, hr]
    subst hij
    have htx'' : m'.transactionId = m.transactionId := by rw [htx', htx, hcov]
    refine reading_eq (by rw [htype', htype, hcov]) htx'' fun x hx => ?_
    rw [Accessor.picks, Accessor.picks, hatt', hatt, picksFrom_append hx (hshadow'.1 hs'),
      picksFrom_append hx (hshadow.1 hs), hcov, htx'']

/-! ## What somebody appends -/

/-- A code that does not depend on what it is for, which is enough to run the code with. -/
def blankHmac : Hmac := ⟨fun _ _ => List.replicate 20 0, fun _ _ => List.replicate 32 0⟩

/-- A header: a binding request with `n` bytes of attributes. -/
def requestHeader (n : ℕ) : List Byte :=
  [0, 1, 0, BitVec.ofNat 8 n, 0x21, 0x12, 0xA4, 0x42] ++ List.replicate 12 7

/-- A priority, and the signature of the request up to there. -/
def signedPart : List Byte := [0, 0x24, 0, 4, 0, 0, 0, 1] ++ [0, 8, 0, 20] ++ List.replicate 20 0

def signedCheck : List Byte := requestHeader 32 ++ signedPart

/-- The same with USE-CANDIDATE appended, and the stated length as it is then. -/
def appendedCheck : List Byte := requestHeader 36 ++ signedPart ++ [0, 0x25, 0, 0]

/-- What `decode` makes of the signed check, and of the other with what was appended. -/
def checkMessage (raw : List Byte) (appended : List StunAttribute) : StunMessage where
  type := 1
  transactionId := List.replicate 12 7
  attributes := [⟨20, ATTR_PRIORITY, [0, 0, 0, 1]⟩,
    ⟨28, ATTR_MESSAGE_INTEGRITY, List.replicate 20 0⟩] ++ appended
  raw

/-- Both verify, with the same covered bytes and code, and only one of them nominates: what the
other acts on is not covered. -/
theorem appended_is_believed :
    decode signedCheck = some (checkMessage signedCheck []) ∧
    decode appendedCheck = some (checkMessage appendedCheck [⟨52, ATTR_USE_CANDIDATE, []⟩]) ∧
    Verifier.integrity.verify blankHmac [1] (checkMessage signedCheck []) = true ∧
    Verifier.integrity.verify blankHmac [1]
      (checkMessage appendedCheck [⟨52, ATTR_USE_CANDIDATE, []⟩]) = true ∧
    Verifier.integrity.signature (checkMessage appendedCheck [⟨52, ATTR_USE_CANDIDATE, []⟩]) =
      Verifier.integrity.signature (checkMessage signedCheck []) ∧
    (checkMessage signedCheck []).hasUseCandidate = false ∧
    (checkMessage appendedCheck [⟨52, ATTR_USE_CANDIDATE, []⟩]).hasUseCandidate = true ∧
    ¬ BelievesCovered .integrity (checkMessage appendedCheck [⟨52, ATTR_USE_CANDIDATE, []⟩]) := by
  refine ⟨by decide +kernel, by decide +kernel, by decide +kernel, by decide +kernel,
    by decide +kernel, by decide +kernel, by decide +kernel, fun h => ?_⟩
  have hlie := h 28 (by decide +kernel) (.ofType ATTR_USE_CANDIDATE) rfl
    ⟨52, ATTR_USE_CANDIDATE, []⟩ (by decide +kernel)
  exact absurd hlie (by decide)

/-- The signed check, to which nothing was appended, is believed only as far as it is covered. -/
theorem signedCheck_covered : BelievesCovered .integrity (checkMessage signedCheck []) := by
  refine (believes_covered_iff blankHmac [1] .integrity signedCheck (checkMessage signedCheck [])
    (by decide +kernel) (by decide +kernel)).1.2 ?_
  have hsigned : Verifier.integrity.signedAt (checkMessage signedCheck []) = some 28 := by
    decide +kernel
  intro i hi k hk a ha hle hh
  obtain rfl : 28 = i := Option.some.inj (hsigned.symm.trans hi)
  -- of its two attributes, only the signature does not stand before the signature
  simp only [checkMessage, List.append_nil, List.mem_cons, List.not_mem_nil, or_false] at ha
  obtain rfl | rfl := ha
  · exact absurd hle (by decide)
  · cases k with
    | ofType t =>
      obtain rfl : ATTR_MESSAGE_INTEGRITY = t := by simpa [Sought.holds] using hh
      exact absurd hk (by decide)
    | roleClaim | errorCode | xorMapped | anyMapped => exact absurd hh (by decide +kernel)

end Stun

end CrossByte
