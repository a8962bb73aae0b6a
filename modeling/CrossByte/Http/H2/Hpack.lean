import CrossByte.Http.H2.HpackHuffman
import CrossByte.Http.H2.HpackTables
import CrossByte.Lib.Parse

/-!
# The HPACK encoder and decoder

`HpackEncoder` and `HpackDecoder` of `crossbyte._internal.http.h2.hpack`, as the code computes them.

The encoder's buffer is the list of the bytes written since `begin`.  The decoder reads a block with
a parser over the bytes that are left of it; what a call of `decode` keeps between two fields is a
`Pass`.  A call that throws has no other result, since its connection ends there.
-/

namespace CrossByte

open Bytes (Byte)
open Parse
open WrappingInt (wrap)

/-! ## The encoder -/

structure HpackEncoder where
  table : HpackDynamicTable
  pendingCapacity : ℤ := -1
  out : List Byte := []

namespace HpackEncoder

def new (capacity : ℤ) : HpackEncoder := { table := { capacity } }

def setCapacity (e : HpackEncoder) (value : ℤ) : HpackEncoder :=
  if value = e.table.capacity ∧ e.pendingCapacity < 0 then e
  else { e with table := e.table.resize value, pendingCapacity := value }

/-- The loop of `__writeInteger`.  Five bytes are enough for an `Int`. -/
def integerRest : ℕ → ℕ → List Byte
  | 0, remainder => [BitVec.ofNat 8 remainder]
  | fuel + 1, remainder =>
    if remainder ≥ 0x80 then
      BitVec.ofNat 8 ((remainder &&& 0x7f) ||| 0x80) :: integerRest fuel (remainder >>> 7)
    else [BitVec.ofNat 8 remainder]

/-- What `__writeInteger` writes. -/
def integer (value prefixBits pattern : ℕ) : List Byte :=
  let mask := 1 <<< prefixBits - 1
  if value < mask then [BitVec.ofNat 8 (pattern ||| value)]
  else BitVec.ofNat 8 (pattern ||| mask) :: integerRest 4 (value - mask)

def writeBytes (e : HpackEncoder) (bytes : List Byte) : HpackEncoder :=
  { e with out := e.out ++ bytes }

def writeInteger (e : HpackEncoder) (value prefixBits pattern : ℕ) : HpackEncoder :=
  e.writeBytes (integer value prefixBits pattern)

def writeString (e : HpackEncoder) (value : String) : HpackEncoder :=
  let raw := ofString value
  if HpackHuffman.encodedLength raw < raw.length then
    let coded := HpackHuffman.encode raw
    (e.writeInteger coded.length 7 0x80).writeBytes coded
  else (e.writeInteger raw.length 7 0x00).writeBytes raw

/-- The index `__writeLiteral` gives for a name, or 0. -/
def nameIndex (t : HpackDynamicTable) (name : String) : ℕ :=
  match HpackStaticTable.findName name with
  | some i => i
  | none =>
    match t.findName name with
    | some i => i + HpackStaticTable.length + 1
    | none => 0

def writeLiteral (e : HpackEncoder) (name value : String) (prefixBits pattern : ℕ) : HpackEncoder :=
  let nameIndex := nameIndex e.table name
  let e :=
    if nameIndex > 0 then e.writeInteger nameIndex prefixBits pattern
    else (e.writeInteger 0 prefixBits pattern).writeString name
  e.writeString value

/-- The index of a pair in either table. -/
def pairIndex (t : HpackDynamicTable) (name value : String) : Option ℕ :=
  match HpackStaticTable.findPair name value with
  | some i => some i
  | none => (t.findPair name value).map (· + HpackStaticTable.length + 1)

/-- `__indexed`: the encoder after it, if a table has the pair. -/
def indexed (e : HpackEncoder) (name value : String) : Option HpackEncoder :=
  (pairIndex e.table name value).map fun i => e.writeInteger i 7 0x80

def begin (e : HpackEncoder) : HpackEncoder :=
  let e := { e with out := [] }
  if e.pendingCapacity ≥ 0 then
    { e.writeInteger e.pendingCapacity.toNat 5 0x20 with pendingCapacity := -1 }
  else e

def add (e : HpackEncoder) (header : HpackHeader) : HpackEncoder :=
  if header.sensitive then e.writeLiteral header.name header.value 4 0x10
  else
    match e.indexed header.name header.value with
    | some e => e
    | none =>
      let e := e.writeLiteral header.name header.value 6 0x40
      { e with table := e.table.add header }

def field (e : HpackEncoder) (name value : String) (sensitive : Bool) : HpackEncoder :=
  if sensitive then e.writeLiteral name value 4 0x10
  else
    match e.indexed name value with
    | some e => e
    | none =>
      let e := e.writeLiteral name value 6 0x40
      { e with table := e.table.add { name, value } }

/-- `encode`: the block is `out`. -/
def encode (e : HpackEncoder) (headers : List HpackHeader) (first : Option HpackHeader := none) :
    HpackEncoder :=
  let e := e.begin
  let e := match first with
    | some header => e.add header
    | none => e
  headers.foldl add e

/-- `field` adds what `add` adds. -/
theorem field_eq_add (e : HpackEncoder) (name value : String) (sensitive : Bool) :
    e.field name value sensitive = e.add { name, value, sensitive } := by
  cases sensitive <;> simp only [field, add, if_true]

end HpackEncoder

/-! ## The decoder -/

namespace HpackDecoder

/-- `Cursor.peek`. -/
def peek : Parser HpackError Byte
  | [] => .error ⟨"Header block ended mid-field"⟩
  | b :: rest => .ok (b, b :: rest)

/-- `Cursor.read`. -/
def read : Parser HpackError Byte
  | [] => .error ⟨"Header block ended mid-field"⟩
  | b :: rest => .ok (b, rest)

/-- The loop of `__readInteger`. -/
def readIntegerLoop (shift value : ℕ) : Parser HpackError ℕ
  | [] => .error ⟨"Header block ended mid-field"⟩
  | byte :: rest =>
    let chunk := byte.toNat &&& 0x7f
    if shift > 21 ∨ (shift = 21 ∧ chunk > 0x0f) then
      .error ⟨"Prefix-coded integer does not fit in 32 bits"⟩
    else
      let value := value + chunk <<< shift
      -- an `Int` past its largest is negative
      if value ≥ 2 ^ 31 then .error ⟨"Prefix-coded integer overflowed"⟩
      else if byte.toNat &&& 0x80 = 0 then .ok (value, rest)
      else readIntegerLoop (shift + 7) value rest

def readInteger (prefixBits : ℕ) : Parser HpackError ℕ := do
  let mask := 1 <<< prefixBits - 1
  let byte ← read
  let value := byte.toNat &&& mask
  if value < mask then pure value else readIntegerLoop 0 value

/-- The loop of `__text`: the bytes since the last NUL, and those to come. -/
def textLoop : List Byte → List Byte → List Char
  | segment, [] => Utf8.decode segment
  | segment, b :: rest =>
    if b = 0 then Utf8.decode segment ++ Char.ofNat 0 :: textLoop [] rest
    else textLoop (segment ++ [b]) rest

def text (bytes : List Byte) : String := String.ofList (textLoop [] bytes)

/-- `Bytes.sub` at the cursor, and `skip`. -/
def takeBytes (count : ℕ) : Parser HpackError (List Byte) := fun bytes =>
  .ok (bytes.take count, bytes.drop count)

/-- An answer that reads nothing. -/
def lift {α : Type} (x : Except HpackError α) : Parser HpackError α := fun bytes =>
  x.map fun a => (a, bytes)

def readString : Parser HpackError String := do
  let first ← peek
  let length ← readInteger 7
  let left ← remaining
  if left < length then fail ⟨"String literal runs past the end of the header block"⟩
  else
    let raw ← takeBytes length
    let decoded ← lift (if first.toNat &&& 0x80 ≠ 0 then HpackHuffman.decode raw else .ok raw)
    pure (text decoded)

def resolve (t : HpackDynamicTable) (index : ℕ) : Except HpackError HpackHeader :=
  if index = 0 then .error ⟨"Indexed header field with index 0"⟩
  else if index ≤ HpackStaticTable.length then
    .ok (HpackStaticTable.fields.getD (index - 1) { name := "", value := "" })
  else
    match t.entries[index - HpackStaticTable.length - 1]? with
    | some entry => .ok entry
    | none =>
      .error ⟨"Header index " ++ toString index ++ " is past the end of the dynamic table"⟩

def readLiteral (t : HpackDynamicTable) (prefixBits : ℕ) (sensitive : Bool) :
    Parser HpackError HpackHeader := do
  let nameIndex ← readInteger prefixBits
  let name ← if nameIndex = 0 then readString
    else lift ((resolve t nameIndex).map HpackHeader.name)
  let value ← readString
  pure { name, value, sensitive }

/-- What `decode` keeps while it reads a block. -/
structure Pass where
  table : HpackDynamicTable
  out : List HpackHeader := []
  listSize : ℤ := 0
  truncated : Bool := false
  updatesStillAllowed : Bool := true

/-- What `decode` does with a field. -/
def Pass.keep (p : Pass) (maxHeaderListSize : ℤ) (field : HpackHeader) : Pass :=
  let p := { p with updatesStillAllowed := false }
  if p.truncated then p
  else
    let listSize := wrap (p.listSize + field.tableSize)
    if listSize > maxHeaderListSize then { p with listSize, truncated := true }
    else { p with listSize, out := p.out ++ [field] }

end HpackDecoder

structure HpackDecoder where
  maxTableCapacity : ℤ
  maxHeaderListSize : ℤ
  table : HpackDynamicTable
  truncated : Bool := false
  listSize : ℤ := 0

namespace HpackDecoder

def new (maxTableCapacity maxHeaderListSize : ℤ) : HpackDecoder where
  maxTableCapacity := maxTableCapacity
  maxHeaderListSize := maxHeaderListSize
  table := { capacity := maxTableCapacity }

/-- A dynamic table size update. -/
def update (d : HpackDecoder) (p : Pass) (capacity : ℕ) : Except HpackError Pass :=
  if capacity > d.maxTableCapacity then
    .error ⟨"Dynamic table size update of " ++ toString capacity ++
      " exceeds the advertised maximum of " ++ toString d.maxTableCapacity⟩
  else .ok { p with table := p.table.resize capacity }

/-- One turn of the loop of `decode`, at a byte. -/
def turnAt (d : HpackDecoder) (p : Pass) (first : Byte) : Parser HpackError Pass :=
  if first.toNat &&& 0x80 ≠ 0 then do
    let index ← readInteger 7
    let field ← lift (resolve p.table index)
    pure (p.keep d.maxHeaderListSize field)
  else if first.toNat &&& 0x40 ≠ 0 then do
    let field ← readLiteral p.table 6 false
    pure ({ p with table := p.table.add field }.keep d.maxHeaderListSize field)
  else if first.toNat &&& 0x20 ≠ 0 then
    if p.updatesStillAllowed then do
      let capacity ← readInteger 5
      lift (d.update p capacity)
    else fail ⟨"Dynamic table size update must precede the header fields in a block"⟩
  else do
    let field ← readLiteral p.table 4 (first.toNat &&& 0x10 ≠ 0)
    pure (p.keep d.maxHeaderListSize field)

/-- One turn of the loop of `decode`. -/
def turn (d : HpackDecoder) (p : Pass) : Parser HpackError Pass := do
  let first ← peek
  d.turnAt p first

/-- The loop of `decode`.  Every turn reads a byte or more. -/
def decodeLoop (d : HpackDecoder) : ℕ → Pass → List Byte → Except HpackError Pass
  | 0, p, _ => .ok p
  | _ + 1, p, [] => .ok p
  | fuel + 1, p, bytes =>
    match (d.turn p).run bytes with
    | .error e => .error e
    | .ok (p, rest) => decodeLoop d fuel p rest

def decode (d : HpackDecoder) (block : List Byte) :
    Except HpackError (HpackDecoder × List HpackHeader) :=
  (d.decodeLoop block.length { table := d.table } block).map fun p =>
    ({ d with table := p.table, truncated := p.truncated, listSize := p.listSize }, p.out)

end HpackDecoder

end CrossByte
