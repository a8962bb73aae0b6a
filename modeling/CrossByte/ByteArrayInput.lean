import CrossByte.Errors
import CrossByte.Lib.Varint

/-!
# Reading a byte array

`ByteArrayInput`'s reads that the wire formats use.  A read past the end is an
`EOFError`, and a varint of more than 32 bits a `RangeError`, in every build.
-/

namespace CrossByte

open Bytes (Byte)
open Parse

namespace ByteArrayInput

/-- The error a malformed varint is thrown as. -/
def varUIntError : Varint.Fault → Thrown
  | .short => .eofError "ByteArrayInput underflow"
  | .tooLong => .rangeError "varuint too long"
  | .overflow => .rangeError "varuint overflow"

def readVarUInt : Parser Thrown (BitVec 32) := adapt varUIntError Varint.read

def readVarInt : Parser Thrown (BitVec 32) := do
  let u ← readVarUInt
  pure (Varint.unzigzag u)

def readByte : Parser Thrown Byte := fun bytes =>
  match bytes with
  | [] => .error (.eofError "ByteArrayInput underflow")
  | b :: rest => .ok (b, rest)

theorem reads_varUInt (v : BitVec 32) : Reads readVarUInt (Varint.put v) v :=
  (Varint.reads_put v).adapt varUIntError

theorem reads_varInt (v : BitVec 32) : Reads readVarInt (Varint.put (Varint.zigzag v)) v := by
  have h := (reads_varUInt (Varint.zigzag v)).map Varint.unzigzag
  rwa [Varint.unzigzag_zigzag] at h

end ByteArrayInput

end CrossByte
