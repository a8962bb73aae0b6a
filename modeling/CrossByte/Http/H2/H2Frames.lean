import CrossByte.Lib.Bytes

/-!
# The frames and errors of HTTP/2

`H2ErrorCode`, `H2FrameType` and `H2Frame`.  A frame is what the frame decoder hands on: its type,
flags and 31-bit stream identifier, and the bytes of its payload.
-/

namespace CrossByte

open Bytes (Byte)

/-! ## Error codes -/

/-- `H2ErrorCode`, an `Int` of which some values have names. -/
inductive H2ErrorCode where
  | noError
  | protocolError
  | internalError
  | flowControlError
  | settingsTimeout
  | streamClosed
  | frameSizeError
  | refusedStream
  | cancel
  | compressionError
  | connectError
  | enhanceYourCalm
  | inadequateSecurity
  | http11Required
  | unknown (code : ℤ)
  deriving DecidableEq, Repr

structure H2ConnectionError where
  code : H2ErrorCode
  message : String
  deriving DecidableEq, Repr

/-! ## Frames -/

inductive H2FrameType where
  | data
  | headers
  | priority
  | rstStream
  | settings
  | pushPromise
  | ping
  | goAway
  | windowUpdate
  | continuation
  | unknown (code : ℕ)
  deriving DecidableEq, Repr

namespace H2Flags

def endStream : ℕ := 0x1

def padded : ℕ := 0x8

end H2Flags

structure H2Frame where
  type : H2FrameType
  flags : ℕ
  streamId : ℕ
  payload : List Byte
  deriving DecidableEq

namespace H2Frame

def length (f : H2Frame) : ℕ := f.payload.length

def has (f : H2Frame) (flag : ℕ) : Bool := f.flags &&& flag != 0

/-- `__unpaddedLength`, and `stripPadding` of the client: what is left of a padded payload. -/
def unpadded (f : H2Frame) : Except H2ConnectionError (List Byte) :=
  match f.payload with
  | [] => .error ⟨.protocolError, "Padded frame has no pad length octet"⟩
  | pad :: rest =>
    if rest.length < pad.toNat then
      .error ⟨.protocolError, "Pad length " ++ toString pad.toNat ++
        " exceeds the payload of stream " ++ toString f.streamId⟩
    else .ok (rest.take (rest.length - pad.toNat))

/-- What a frame that may be padded carries. -/
def content (f : H2Frame) : Except H2ConnectionError (List Byte) :=
  if f.has H2Flags.padded then f.unpadded else .ok f.payload

end H2Frame

end CrossByte
