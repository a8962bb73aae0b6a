import CrossByte.Lib.Bytes
import CrossByte.Lib.PackedBits
import CrossByte.Lib.Runs
import CrossByte.Lib.Serial

/-!
# The cipher of an encrypted session

`crossbyte.net._internal.reliable.SessionCipher` seals each datagram under a
64-bit packet number of which only the low half is sent, and opens each one it is
given by guessing the other half, checking a replay window of 1024 numbers, and
asking the AEAD.  This module is `seal`, `open` and what they call, as the code
computes them: the number is two halves, compared with an unsigned test made of a
signed one, and the window is 32 words of 32 bits indexed by the low half.

The AEAD itself is a parameter, as is the key schedule: a cipher here has its
keys, or is not `ready`.  High halves are integers: they stay below `2 ^ 30`,
far from where a 32-bit one would wrap.
-/

namespace CrossByte

open Serial Bytes
open PackedBits (Row)

/-- ChaCha20-Poly1305 under one direction's key: the nonce, the header that is
authenticated with it, and the plaintext or the ciphertext with its tag. -/
structure DirectionAead where
  seals : List Byte → List Byte → List Byte → List Byte
  opens : List Byte → List Byte → List Byte → Option (List Byte)
  length_seals : ∀ nonce header plain, (seals nonce header plain).length = plain.length + 16

/-- The fields of `SessionCipher`. -/
structure SessionCipher where
  localRandom : List Byte
  localRandom_length : localRandom.length = 16
  ready : Bool
  send : DirectionAead
  receive : DirectionAead
  sendIv : ℕ → Byte
  receiveIv : ℕ → Byte
  sendHigh : ℤ
  sendLow : Word
  opened : Bool
  highHigh : ℤ
  highLow : Word
  window : Row 32
  forged : ℕ
  replayed : ℕ
  late : ℕ

namespace SessionCipher

/-- Why `open` drops a datagram. -/
inductive Drop where
  | forged
  | replayed
  | late
  deriving DecidableEq, Repr

/-- What `open` answers for a datagram it drops. -/
def Drop.code : Drop → ℤ
  | .forged => -1
  | .replayed => -2
  | .late => -3

/-- `SEALED`. -/
def sealedMark : Byte := 0xCE

/-- `SEALED_HELLO`. -/
def helloMark : Byte := 0xCF

def sealedHeader : ℕ := 5

def helloHeader : ℕ := 1 + 4 + 16 + 4

def tagSize : ℕ := 16

def replayWindow : ℕ := 1024

/-- `__below`: unsigned, by a signed comparison with the top bits flipped. -/
def below (a b : Word) : Bool := (a ^^^ 0x80000000#32).slt (b ^^^ 0x80000000#32)

/-- The word of the window a number's bit is in, and the bit. -/
def windowWord (low : Word) : ℕ := ((low >>> 5) &&& 31#32).toNat

def windowBit (low : Word) : Word := 1#32 <<< (low &&& 31#32).toNat

def windowHas (window : Row 32) (low : Word) : Bool :=
  window (windowWord low) &&& windowBit low != 0

def windowSet (window : Row 32) (low : Word) : Row 32 :=
  Function.update window (windowWord low) (window (windowWord low) ||| windowBit low)

def windowClear (window : Row 32) (low : Word) : Row 32 :=
  Function.update window (windowWord low) (window (windowWord low) &&& ~~~windowBit low)

/-- The loop of `__advance` that clears the bits of `n` numbers from `at` on. -/
def clearRun (window : Row 32) (low : Word) : ℕ → Row 32
  | 0 => window
  | n + 1 => clearRun (windowClear window low) (low + 1) n

def advance (c : SessionCipher) (high : ℤ) (low : Word) : SessionCipher :=
  let window :=
    if !c.opened then PackedBits.allClear 32
    else
      let stepLow := low - c.highLow
      let stepHigh := high - c.highHigh - (if below low c.highLow then 1 else 0)
      if stepHigh ≠ 0 ∨ below (BitVec.ofNat 32 (replayWindow - 1)) stepLow = true then
        PackedBits.allClear 32
      else clearRun c.window (c.highLow + 1) stepLow.toNat
  { c with opened := true, highHigh := high, highLow := low, window := windowSet window low }

/-- `__nonceFor`: the IV, its last eight bytes XOR the number, big-endian. -/
def nonceFor (iv : ℕ → Byte) (high : ℤ) (low : Word) : List Byte :=
  [iv 0, iv 1, iv 2, iv 3,
    iv 4 ^^^ byteOf (BitVec.ofInt 32 high) 3, iv 5 ^^^ byteOf (BitVec.ofInt 32 high) 2,
    iv 6 ^^^ byteOf (BitVec.ofInt 32 high) 1, iv 7 ^^^ byteOf (BitVec.ofInt 32 high) 0,
    iv 8 ^^^ byteOf low 3, iv 9 ^^^ byteOf low 2, iv 10 ^^^ byteOf low 1, iv 11 ^^^ byteOf low 0]

/-- The header of the next datagram `seal` makes. -/
def headerOf (c : SessionCipher) (hello : Bool) (answering : Word) : List Byte :=
  if hello then helloMark :: putInt answering ++ c.localRandom ++ putInt c.sendLow
  else sealedMark :: putInt c.sendLow

/-- `seal`: the datagram, and the cipher after; `none` is the answer -1. -/
def sealDatagram (c : SessionCipher) (plain : List Byte) (hello : Bool) (answering : Word) :
    Option (List Byte × SessionCipher) :=
  if !c.ready ∨ c.sendHigh ≥ 0x40000000 then none
  else
    let header := c.headerOf hello answering
    let body := c.send.seals (nonceFor c.sendIv c.sendHigh c.sendLow) header plain
    let sendLow := c.sendLow + 1
    some (header ++ body,
      { c with
        sendLow := sendLow
        sendHigh := if sendLow = 0 then c.sendHigh + 1 else c.sendHigh })

/-- The length of a datagram's header, by its first byte. -/
def headerLength (data : List Byte) : ℕ :=
  if data.getD 0 0 = helloMark then helloHeader else sealedHeader

/-- The low half of the packet number, the last four bytes of the header. -/
def sentLow (data : List Byte) : Word :=
  let i := headerLength data - 4
  getInt (data.getD i 0) (data.getD (i + 1) 0) (data.getD (i + 2) 0) (data.getD (i + 3) 0)

/-- The next expected number, as two halves. -/
def expected (c : SessionCipher) : ℤ × Word :=
  if c.opened then
    let low := c.highLow + 1
    (if low = 0 then c.highHigh + 1 else c.highHigh, low)
  else (0, 0)

/-- The high half nearest the next expected number, for the low half `sent`. -/
def highFor (c : SessionCipher) (sent : Word) : ℤ :=
  let (expectHigh, expectLow) := c.expected
  if ahead sent expectLow ≥ 0 then
    if below sent expectLow then expectHigh + 1 else expectHigh
  else
    if below expectLow sent then expectHigh - 1 else expectHigh

/-- What a datagram was opened under, and to. -/
structure Opening where
  high : ℤ
  low : Word
  plain : List Byte

/-- `newer`: past the highest number opened. -/
def newer (c : SessionCipher) (high : ℤ) (low : Word) : Bool :=
  !c.opened || decide (high > c.highHigh) || (high == c.highHigh && below c.highLow low)

/-- What is dropped before anything is decrypted, of numbers that are not newer. -/
def refused (c : SessionCipher) (high : ℤ) (low : Word) : Option Drop :=
  if c.newer high low then none
  else
    let gapLow := c.highLow - low
    let gapHigh := c.highHigh - high - (if below c.highLow low then 1 else 0)
    if gapHigh ≠ 0 ∨ below (BitVec.ofNat 32 (replayWindow - 1)) gapLow = true then some .late
    else if windowHas c.window low then some .replayed
    else none

/-- The cipher with a dropped datagram counted. -/
def count (c : SessionCipher) : Drop → SessionCipher
  | .forged => { c with forged := c.forged + 1 }
  | .replayed => { c with replayed := c.replayed + 1 }
  | .late => { c with late := c.late + 1 }

/-- `open`. -/
def openDatagram (c : SessionCipher) (data : List Byte) : Except Drop Opening × SessionCipher :=
  let header := headerLength data
  if !c.ready ∨ (data.length : ℤ) - header - tagSize < 0 then (.error .forged, c.count .forged)
  else
    let sent := sentLow data
    let high := c.highFor sent
    if high < 0 then (.error .late, c.count .late)
    else
      match c.refused high sent with
      | some drop => (.error drop, c.count drop)
      | none =>
        match c.receive.opens (nonceFor c.receiveIv high sent) (data.take header)
            (data.drop header) with
        | none => (.error .forged, c.count .forged)
        | some plain =>
          (.ok ⟨high, sent, plain⟩,
            if c.newer high sent then c.advance high sent
            else { c with window := windowSet c.window sent })

end SessionCipher
end CrossByte
