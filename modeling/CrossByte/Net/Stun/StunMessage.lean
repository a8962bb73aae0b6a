import CrossByte.Lib.Bytes

/-!
# StunMessage

The message of `crossbyte/net/_internal/stun/StunMessage.hx` as it is read off a
datagram: `decode`, which walks the attributes once and lists them; the accessors,
which search that list; and the verification of a signature, which walks the bytes a
second time to find the signature and hashes what stands before it.

A signature is an HMAC of the bytes before it, with the header's length field stating
the length up to the end of the signature.  `Hmac` is what computes it, and nothing is
assumed of it.

`StunAttribute.start` is the place in the datagram that an attribute was read from.
The source does not keep it, and no accessor looks at it.
-/

namespace CrossByte

namespace Stun

open Bytes

/-! ## Bytes -/

/-- A big-endian 16-bit number. -/
def u16 (bytes : List Byte) (i : ℕ) : ℕ :=
  (bytes.getD i 0).toNat * 256 + (bytes.getD (i + 1) 0).toNat

/-- A big-endian 32-bit number. -/
def u32 (bytes : List Byte) (i : ℕ) : ℕ := u16 bytes i * 65536 + u16 bytes (i + 2)

/-- `n` bytes from `i` on. -/
def slice (bytes : List Byte) (i n : ℕ) : List Byte := (bytes.drop i).take n

/-- How many bytes follow a value of `n` bytes before the next attribute. -/
def padding (n : ℕ) : ℕ := (4 - n % 4) % 4

/-! ## Decoding -/

def MAGIC_COOKIE : ℕ := 0x2112A442
def HEADER_LENGTH : ℕ := 20
def TRANSACTION_LENGTH : ℕ := 12
def MAX_ATTRIBUTES : ℕ := 32
def INTEGRITY_LENGTH : ℕ := 20
def INTEGRITY_SHA256_LENGTH : ℕ := 32
def ATTR_MAPPED_ADDRESS : ℕ := 0x0001
def ATTR_USERNAME : ℕ := 0x0006
def ATTR_MESSAGE_INTEGRITY : ℕ := 0x0008
def ATTR_ERROR_CODE : ℕ := 0x0009
def ATTR_MESSAGE_INTEGRITY_SHA256 : ℕ := 0x001C
def ATTR_XOR_MAPPED_ADDRESS : ℕ := 0x0020
def ATTR_PRIORITY : ℕ := 0x0024
def ATTR_USE_CANDIDATE : ℕ := 0x0025
def ATTR_FINGERPRINT : ℕ := 0x8028
def ATTR_ICE_CONTROLLED : ℕ := 0x8029
def ATTR_ICE_CONTROLLING : ℕ := 0x802A
def FAMILY_IPV4 : ℕ := 0x01
def FAMILY_IPV6 : ℕ := 0x02

/-- `StunAttribute`, and where it was read. -/
structure StunAttribute where
  start : ℕ
  type : ℕ
  value : List Byte
  deriving DecidableEq

structure StunMessage where
  type : ℕ
  transactionId : List Byte
  attributes : List StunAttribute
  raw : List Byte
  deriving DecidableEq

/-- The loop of `decode`, which has listed `count` attributes in `read` bytes. -/
def attributesFrom (raw : List Byte) (length read count : ℕ) : Option (List StunAttribute) :=
  if read + 4 ≤ length then
    if MAX_ATTRIBUTES ≤ count then none
    else
      let type := u16 raw (HEADER_LENGTH + read)
      let n := u16 raw (HEADER_LENGTH + read + 2)
      if length < read + 4 + n then some []
      else
        let skip := if 0 < padding n ∧ read + 4 + n + padding n ≤ length then padding n else 0
        (attributesFrom raw length (read + 4 + n + skip) (count + 1)).map
          (⟨HEADER_LENGTH + read, type, slice raw (HEADER_LENGTH + read + 4) n⟩ :: ·)
  else some []
termination_by length - read

def decode (bytes : List Byte) : Option StunMessage :=
  if bytes.length < HEADER_LENGTH then none
  else if u32 bytes 4 ≠ MAGIC_COOKIE then none
  else if bytes.length < HEADER_LENGTH + u16 bytes 2 then none
  else (attributesFrom bytes (u16 bytes 2) 0 0).map fun attributes =>
    { type := u16 bytes 0
      transactionId := slice bytes 8 TRANSACTION_LENGTH
      attributes
      raw := bytes }

/-! ## Addresses -/

/-- `ReflexiveAddress`, before it is written out: four octets or eight groups. -/
structure ReflexiveAddress where
  parts : List ℕ
  port : ℕ
  deriving DecidableEq

/-- Byte `i` of the cookie, from the left. -/
def cookieByte (i : ℕ) : ℕ := MAGIC_COOKIE >>> (24 - i * 8) % 256

def xorMask (transactionId : List Byte) (i : ℕ) : ℕ :=
  if i < 4 then cookieByte i else (transactionId.getD (i - 4) 0).toNat

def readIPv6 (transactionId value : List Byte) (xored : Bool) : Option ReflexiveAddress :=
  if value.length < 20 ∨ xored ∧ transactionId.length < TRANSACTION_LENGTH then none
  else
    let byte (i : ℕ) : ℕ := (value.getD (4 + i) 0).toNat ^^^ if xored then xorMask transactionId i else 0
    some {
      parts := (List.range 8).map fun group => byte (group * 2) * 256 + byte (group * 2 + 1)
      port := u16 value 2 ^^^ if xored then MAGIC_COOKIE >>> 16 else 0 }

def readAddress (transactionId value : List Byte) (xored : Bool) : Option ReflexiveAddress :=
  if value.length < 8 then none
  else if (value.getD 1 0).toNat = FAMILY_IPV6 then readIPv6 transactionId value xored
  else if (value.getD 1 0).toNat ≠ FAMILY_IPV4 then none
  else some {
    parts := (List.range 4).map fun i =>
      (value.getD (4 + i) 0).toNat ^^^ if xored then cookieByte i else 0
    port := u16 value 2 ^^^ if xored then MAGIC_COOKIE >>> 16 else 0 }

/-! ## Accessors -/

namespace StunMessage

variable (m : StunMessage)

/-- `attribute`: the value of the first attribute of a type. -/
def attribute_ (type : ℕ) : Option (List Byte) :=
  (m.attributes.find? (·.type = type)).map (·.value)

def hasUseCandidate : Bool := m.attributes.any (·.type = ATTR_USE_CANDIDATE)

def uintOf (type orElse : ℕ) : ℕ :=
  match m.attribute_ type with
  | none => orElse
  | some value =>
    if value.length < 4 then orElse
    else if 2 ^ 31 ≤ u32 value 0 then 0x7FFFFFFF else u32 value 0

def addressOf (type : ℕ) : Option ReflexiveAddress :=
  (m.attribute_ type).bind fun value => readAddress m.transactionId value true

/-- Whether `iceRoleClaim` stops at an attribute. -/
def claimsRole (a : StunAttribute) : Bool :=
  (a.type = ATTR_ICE_CONTROLLING ∨ a.type = ATTR_ICE_CONTROLLED) ∧ 8 ≤ a.value.length

/-- `iceRoleClaim`: the role, and the tiebreaker as a signed number. -/
def iceRoleClaim : Option (Bool × ℤ) :=
  (m.attributes.find? claimsRole).map fun a =>
    (a.type = ATTR_ICE_CONTROLLING,
      (BitVec.ofNat 64 (u32 a.value 0 * 2 ^ 32 + u32 a.value 4)).toInt)

/-- Whether `errorCodeValue` stops at an attribute. -/
def statesError (a : StunAttribute) : Bool := a.type = ATTR_ERROR_CODE ∧ 4 ≤ a.value.length

def errorCodeValue : ℕ :=
  match m.attributes.find? statesError with
  | none => 0
  | some a => (a.value.getD 2 0).toNat % 8 * 100 + (a.value.getD 3 0).toNat

/-- The loop of `mappedAddress`. -/
def mappedFrom (transactionId : List Byte) (fallback : Option ReflexiveAddress) :
    List StunAttribute → Option ReflexiveAddress
  | [] => fallback
  | a :: rest =>
    if a.type = ATTR_XOR_MAPPED_ADDRESS then
      match readAddress transactionId a.value true with
      | some decoded => some decoded
      | none => mappedFrom transactionId fallback rest
    else if a.type = ATTR_MAPPED_ADDRESS ∧ fallback = none then
      mappedFrom transactionId (readAddress transactionId a.value false) rest
    else mappedFrom transactionId fallback rest

def mappedAddress : Option ReflexiveAddress := mappedFrom m.transactionId none m.attributes

end StunMessage

/-! ## Verification -/

/-- `Hmac`: of a key and what it signs. -/
structure Hmac where
  sha1 : List Byte → List Byte → List Byte
  sha256 : List Byte → List Byte → List Byte

/-- The loop of `__attributeOffset`. -/
def attributeOffsetFrom (bytes : List Byte) (type limit offset : ℕ) : Option ℕ :=
  if offset + 4 ≤ limit then
    if u16 bytes offset = type then some offset
    else
      let n := u16 bytes (offset + 2)
      attributeOffsetFrom bytes type limit (offset + (4 + n + padding n))
  else none
termination_by limit - offset

/-- `__attributeOffset`; `-1` is `none`. -/
def attributeOffset (bytes : List Byte) (type : ℕ) : Option ℕ :=
  if bytes.length < HEADER_LENGTH then none
  else attributeOffsetFrom bytes type (min (HEADER_LENGTH + u16 bytes 2) bytes.length) HEADER_LENGTH

def covered (bytes : List Byte) (upTo statedLength : ℕ) : List Byte :=
  ((bytes.take upTo).set 2 (BitVec.ofNat 8 (statedLength / 256))).set 3 (BitVec.ofNat 8 statedLength)

/-- The comparison of the first `n` bytes of a code with those from `i` on. -/
def sameCode (expected bytes : List Byte) (i n : ℕ) : Bool :=
  (List.range n).all fun k => expected.getD k 0 = bytes.getD (i + k) 0

namespace StunMessage

variable (hmac : Hmac) (key : List Byte) (m : StunMessage)

/-- `verifyIntegrityWithKey`, and `verifyIntegrity` with the bytes of the password. -/
def verifyIntegrityWithKey : Bool :=
  match attributeOffset m.raw ATTR_MESSAGE_INTEGRITY with
  | none => false
  | some i =>
    if m.raw.length < i + 4 + INTEGRITY_LENGTH then false
    else sameCode (hmac.sha1 key (covered m.raw i (i - HEADER_LENGTH + 4 + INTEGRITY_LENGTH)))
      m.raw (i + 4) INTEGRITY_LENGTH

def verifyIntegritySha256WithKey : Bool :=
  match attributeOffset m.raw ATTR_MESSAGE_INTEGRITY_SHA256 with
  | none => false
  | some i =>
    let n := u16 m.raw (i + 2)
    if m.raw.length < i + 4 ∨ n < 16 ∨ INTEGRITY_SHA256_LENGTH < n ∨ n % 4 ≠ 0 ∨
        m.raw.length < i + 4 + n then false
    else sameCode (hmac.sha256 key (covered m.raw i (i - HEADER_LENGTH + 4 + n))) m.raw (i + 4) n

def verifyAnyIntegrityWithKey : Bool :=
  if (m.attribute_ ATTR_MESSAGE_INTEGRITY_SHA256).isSome then
    m.verifyIntegritySha256WithKey hmac key
  else m.verifyIntegrityWithKey hmac key

end StunMessage

end Stun

end CrossByte
