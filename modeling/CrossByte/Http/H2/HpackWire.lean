import CrossByte.Http.H2.Hpack

/-!
# What an HPACK block says

RFC 7541 6 gives a header field, or a change of the table's size, a few forms on the wire, the
representations.  A block is the bytes of a list of them.  `decode_wire` is that the decoder does
for the bytes of a block what `Pass.apply` does for the representations themselves, so that what is
proved of blocks afterwards is proved without bytes.

The integers of a block have to be below `2 ^ 25` and what their prefix holds: `__readInteger`
refuses a fourth byte with more than four bits.
-/

namespace CrossByte

open Bytes (Byte)
open Parse
open HpackEncoder HpackDecoder

/-! ## Bytes -/

/-- The masks of the decoder, by the number of a byte. -/
theorem and_masks (b : Byte) : (b.toNat &&& 0x80 ≠ 0 ↔ 0x80 ≤ b.toNat) ∧
    (b.toNat &&& 0x40 ≠ 0 ↔ 0x40 ≤ b.toNat % 0x80) ∧
    (b.toNat &&& 0x20 ≠ 0 ↔ 0x20 ≤ b.toNat % 0x40) ∧
    (b.toNat &&& 0x10 ≠ 0 ↔ 0x10 ≤ b.toNat % 0x20) ∧ b.toNat &&& 0x7f = b.toNat % 128 := by
  revert b
  decide +kernel

variable {n k r value a v : ℕ} {bytes rest : List Byte}

theorem toNat_byte (h : n < 256) : (BitVec.ofNat 8 n).toNat = n := Nat.mod_eq_of_lt h

theorem more_toNat (r : ℕ) : (BitVec.ofNat 8 ((r &&& 0x7f) ||| 0x80)).toNat = 128 + r % 128 := by
  have hlow : r &&& 0x7f = r % 2 ^ 7 := Nat.and_two_pow_sub_one_eq_mod r 7
  have hor : 2 ^ 7 * 1 + r % 2 ^ 7 = 2 ^ 7 * 1 ||| r % 2 ^ 7 :=
    Nat.two_pow_add_eq_or_of_lt (Nat.mod_lt _ (by decide)) 1
  rw [hlow, Nat.or_comm, show (0x80 : ℕ) = 2 ^ 7 * 1 from rfl, toNat_byte (by omega)]
  omega

/-! ## Integers -/

/-- The integers `__readInteger` takes. -/
def Readable (value prefixBits : ℕ) : Prop := value < 2 ^ 25 + (2 ^ prefixBits - 1)

instance (value prefixBits : ℕ) : Decidable (Readable value prefixBits) :=
  inferInstanceAs (Decidable (_ < _))

theorem readIntegerLoop_last (hk : k ≤ 3) (hr : r < 128) (h3 : k = 3 → r < 16)
    (hv : value + r * 2 ^ (7 * k) < 2 ^ 31) (rest : List Byte) :
    readIntegerLoop (7 * k) value (BitVec.ofNat 8 r :: rest) =
      .ok (value + r * 2 ^ (7 * k), rest) := by
  have hb : (BitVec.ofNat 8 r).toNat = r := toNat_byte (by omega)
  obtain ⟨htop, -, -, -, hlow⟩ := and_masks (BitVec.ofNat 8 r)
  rw [hb] at htop hlow
  have hchunk : r &&& 0x7f = r := hlow.trans (Nat.mod_eq_of_lt hr)
  rw [readIntegerLoop, hb, hchunk]
  rw [if_neg (by omega), Nat.shiftLeft_eq, if_neg (by omega), if_pos (by omega)]

theorem readIntegerLoop_rest (value : ℕ) (hk : k ≤ 3) (hr : r < 2 ^ (25 - 7 * k))
    (hv : value + r * 2 ^ (7 * k) < 2 ^ 31) (rest : List Byte) :
    readIntegerLoop (7 * k) value (integerRest (4 - k) r ++ rest) =
      .ok (value + r * 2 ^ (7 * k), rest) := by
  -- on the bytes still to come
  induction h : 3 - k generalizing k value r with
  | zero =>
    obtain rfl : k = 3 := by omega
    rw [integerRest, if_neg (by omega)]
    exact readIntegerLoop_last (le_refl 3) (by omega) (fun _ => hr) hv rest
  | succ n ih =>
    rw [show 4 - k = (4 - (k + 1)) + 1 by omega, integerRest]
    split
    · have hb := more_toNat r
      obtain ⟨htop, -, -, -, hlow⟩ := and_masks (BitVec.ofNat 8 ((r &&& 0x7f) ||| 0x80))
      rw [hb] at htop hlow
      have hchunk : 128 + r % 128 &&& 0x7f = r % 128 := by omega
      have hshift : 2 ^ (7 * (k + 1)) = 128 * 2 ^ (7 * k) := by
        rw [show 7 * (k + 1) = 7 + 7 * k by omega, Nat.pow_add]
      have hsum : value + r % 128 * 2 ^ (7 * k) + r / 128 * 2 ^ (7 * (k + 1)) =
          value + r * 2 ^ (7 * k) := by
        rw [hshift, ← Nat.mul_assoc, Nat.add_assoc, ← Nat.add_mul,
          show r % 128 + r / 128 * 128 = r by omega]
      have hnext : r / 128 < 2 ^ (25 - 7 * (k + 1)) := by
        rw [Nat.div_lt_iff_lt_mul (by decide), show (128 : ℕ) = 2 ^ 7 from rfl, ← Nat.pow_add,
          show 25 - 7 * (k + 1) + 7 = 25 - 7 * k by omega]
        exact hr
      rw [List.cons_append, readIntegerLoop, hb, hchunk]
      rw [if_neg (by omega), Nat.shiftLeft_eq, if_neg (by omega), if_neg (by omega),
        show 7 * k + 7 = 7 * (k + 1) by omega, Nat.shiftRight_eq_div_pow,
        ih _ (by omega) hnext (by omega) (by omega), hsum]
    · rename_i hsmall
      exact readIntegerLoop_last hk (by omega) (fun h3 => by omega) hv rest

/-- The first byte of an integer: the pattern, and what of the value the prefix holds. -/
theorem integer_first (value : ℕ) (ha : 2 ^ n * (a + 1) ≤ 256) :
    ∃ m rest, integer value n (2 ^ n * a) = BitVec.ofNat 8 (2 ^ n * a + m) :: rest ∧ m < 2 ^ n ∧
      2 ^ n * a + m < 256 ∧ m = min value (2 ^ n - 1) ∧
      rest = if value < 2 ^ n - 1 then [] else integerRest 4 (value - (2 ^ n - 1)) := by
  have hpow : 0 < 2 ^ n := by positivity
  unfold integer
  rw [Nat.one_shiftLeft]
  dsimp only
  have hmul : 2 ^ n * (a + 1) = 2 ^ n * a + 2 ^ n := by ring
  split
  · refine ⟨value, [], ?_, by omega, by omega, by omega, rfl⟩
    rw [Nat.two_pow_add_eq_or_of_lt (by omega)]
  · refine ⟨2 ^ n - 1, integerRest 4 (value - (2 ^ n - 1)), ?_, by omega, by omega, by omega, rfl⟩
    rw [Nat.two_pow_add_eq_or_of_lt (by omega)]

theorem reads_integer (hn : n ≤ 7) (ha : 2 ^ n * (a + 1) ≤ 256) (hv : Readable value n) :
    Reads (readInteger n) (integer value n (2 ^ n * a)) value := by
  intro rest
  obtain ⟨m, tail, hfirst, hm, hlt, hmin, htail⟩ := integer_first value ha
  have hsmall : 2 ^ n ≤ 2 ^ 7 := Nat.pow_le_pow_right (by decide) hn
  have hmask : (BitVec.ofNat 8 (2 ^ n * a + m)).toNat &&& (1 <<< n - 1) = m := by
    rw [toNat_byte hlt, Nat.one_shiftLeft, Nat.and_two_pow_sub_one_eq_mod, Nat.mul_add_mod,
      Nat.mod_eq_of_lt hm]
  unfold Readable at hv
  have hread : (readInteger n).run (BitVec.ofNat 8 (2 ^ n * a + m) :: (tail ++ rest)) =
      (if m < 1 <<< n - 1 then pure m else readIntegerLoop 0 m : Parser HpackError ℕ).run
        (tail ++ rest) := by
    change ((if (BitVec.ofNat 8 (2 ^ n * a + m)).toNat &&& (1 <<< n - 1) < 1 <<< n - 1 then _
      else _ : Parser HpackError ℕ)).run _ = _
    rw [hmask]
  rw [hfirst, List.cons_append, hread, Nat.one_shiftLeft]
  by_cases hlow : value < 2 ^ n - 1
  · rw [if_pos hlow] at htail
    rw [if_pos (by omega), htail, hmin, min_eq_left hlow.le]
    rfl
  · rw [if_neg hlow] at htail
    rw [if_neg (by omega), htail]
    have hloop := readIntegerLoop_rest m (k := 0) (r := value - (2 ^ n - 1))
      (by decide) (by omega) (by omega) rest
    have hback : m + (value - (2 ^ n - 1)) * 2 ^ (7 * 0) = value := by omega
    rw [hback] at hloop
    exact hloop

/-- RFC 7541 5.1: the bytes after the prefix, seven bits of each, the least first. -/
def groups : List Byte → ℕ
  | [] => 0
  | b :: rest => b.toNat % 128 + 128 * groups rest

/-- Bytes that go on to the first below 128. -/
def Continued (bytes : List Byte) : Prop :=
  ∃ front last, bytes = front ++ [last] ∧ (∀ b ∈ front, 128 ≤ b.toNat) ∧ last.toNat < 128

/-- RFC 7541 5.1: the bytes are one integer with a prefix of `n` bits, and this is its value. -/
def IntegerOf (n : ℕ) : List Byte → ℕ → Prop
  | [], _ => False
  | first :: rest, value =>
    if first.toNat % 2 ^ n < 2 ^ n - 1 then rest = [] ∧ value = first.toNat % 2 ^ n
    else Continued rest ∧ value = 2 ^ n - 1 + groups rest

/-- What the loop takes, it reads as RFC 7541 says; past the prefix it takes 25 bits. -/
theorem groups_of_readIntegerLoop (hk : k ≤ 4)
    (h : readIntegerLoop (7 * k) value bytes = .ok (v, rest)) :
    ∃ used, bytes = used ++ rest ∧ Continued used ∧ v = value + groups used * 2 ^ (7 * k) ∧
      v < 2 ^ 31 ∧ groups used < 2 ^ (25 - 7 * k) := by
  induction bytes generalizing k value with
  | nil => cases h
  | cons b bytes ih =>
    obtain ⟨htop, -, -, -, hlow⟩ := and_masks b
    rw [readIntegerLoop, hlow] at h
    dsimp only at h
    split at h
    · cases h
    rename_i hfits
    split at h
    · cases h
    rename_i hint
    rw [Nat.shiftLeft_eq] at h hint
    have hk3 : k ≤ 3 := by omega
    split at h
    · obtain ⟨rfl, rfl⟩ := Prod.mk.inj (Except.ok.inj h)
      refine ⟨[b], rfl, ⟨[], b, rfl, by simp, by omega⟩, by simp [groups], by omega, ?_⟩
      interval_cases k <;> simp only [groups] <;> norm_num <;> omega
    · rename_i hmore
      obtain ⟨used, rfl, ⟨front, last, rfl, hfront, hlast⟩, rfl, hv, hused⟩ :=
        ih (by omega) (show readIntegerLoop (7 * (k + 1)) _ bytes = _ from h)
      refine ⟨b :: (front ++ [last]), rfl, ⟨b :: front, last, rfl, ?_, hlast⟩, ?_, hv, ?_⟩
      · rw [List.forall_mem_cons]
        exact ⟨by omega, hfront⟩
      · rw [groups, show 7 * (k + 1) = 7 + 7 * k by omega, pow_add]
        ring
      · interval_cases k <;> simp only [groups] <;> norm_num at hused ⊢ <;> omega

/-- **What is read is the integer of RFC 7541.** -/
theorem integerOf_of_readInteger (h : (readInteger n).run bytes = .ok (v, rest)) :
    ∃ used, bytes = used ++ rest ∧ IntegerOf n used v ∧ Readable v n := by
  have hpow : 0 < 2 ^ n := by positivity
  rw [readInteger, run_bind] at h
  cases bytes with
  | nil => cases h
  | cons b bytes =>
    change (if b.toNat &&& (1 <<< n - 1) < 1 <<< n - 1 then pure _ else readIntegerLoop 0 _ :
      Parser HpackError ℕ).run bytes = _ at h
    rw [Nat.one_shiftLeft, Nat.and_two_pow_sub_one_eq_mod] at h
    have hlt : b.toNat % 2 ^ n < 2 ^ n := Nat.mod_lt _ hpow
    split at h
    · rename_i hlow
      obtain ⟨rfl, rfl⟩ := Prod.mk.inj (Except.ok.inj h)
      exact ⟨[b], rfl, by rw [IntegerOf, if_pos hlow]; exact ⟨rfl, rfl⟩, by unfold Readable; omega⟩
    · rename_i hfull
      obtain ⟨used, rfl, hgo, rfl, -, hused⟩ := groups_of_readIntegerLoop (k := 0) (by decide) h
      refine ⟨b :: used, rfl, ?_, ?_⟩
      · rw [IntegerOf, if_neg hfull]
        exact ⟨hgo, by omega⟩
      · unfold Readable
        omega

/-- **Integers round-trip exactly up to 25 bits past the prefix**, and what is read is never anything
but the integer the bytes are, and never wraps. -/
theorem integers_round_trip_iff {n a value : ℕ} (hn : 4 ≤ n ∧ n ≤ 7) (ha : 2 ^ n * (a + 1) ≤ 256) :
    ((∀ rest, (readInteger n).run (integer value n (2 ^ n * a) ++ rest) = .ok (value, rest)) ↔
      value < 2 ^ 25 + (2 ^ n - 1)) ∧
    ∀ bytes v rest, (readInteger n).run bytes = .ok (v, rest) →
      ∃ used, bytes = used ++ rest ∧ IntegerOf n used v ∧ v < 2 ^ 31 := by
  have hsmall : 2 ^ n ≤ 2 ^ 7 := Nat.pow_le_pow_right (by decide) hn.2
  refine ⟨⟨fun h => ?_, fun hv => reads_integer hn.2 ha hv⟩, fun bytes v rest h => ?_⟩
  · obtain ⟨_, -, -, hv⟩ := integerOf_of_readInteger (h [])
    exact hv
  · obtain ⟨used, hbytes, hof, hv⟩ := integerOf_of_readInteger h
    unfold Readable at hv
    exact ⟨used, hbytes, hof, by omega⟩

theorem integer_1337_round_trips : (4 ≤ 5 ∧ 5 ≤ 7) ∧ 2 ^ 5 * (1 + 1) ≤ 256 ∧
    (readInteger 5).run (integer 1337 5 (2 ^ 5 * 1) ++ []) = .ok (1337, []) := by
  have hbits : 4 ≤ 5 ∧ 5 ≤ 7 := by decide
  have hpattern : 2 ^ 5 * (1 + 1) ≤ 256 := by decide
  exact ⟨hbits, hpattern, (integers_round_trip_iff hbits hpattern).1.2 (by decide) []⟩

/-- A number of 26 bits is refused as one that does not fit in 32. -/
theorem wide_integer_is_refused : 2 ^ 25 + 127 < 2 ^ 31 ∧
    (readInteger 7).run (integer (2 ^ 25 + 127) 7 0x80) =
      .error ⟨"Prefix-coded integer does not fit in 32 bits"⟩ :=
  ⟨by norm_num, by rfl⟩

/-! ## Strings -/

theorem textLoop_segment (h : 0#8 ∉ bytes) (segment rest : List Byte) :
    textLoop segment (bytes ++ rest) = textLoop (segment ++ bytes) rest := by
  induction bytes generalizing segment with
  | nil => rw [List.nil_append, List.append_nil]
  | cons b bytes ih =>
    have hb : b ≠ 0 := fun h0 => h (h0 ▸ List.mem_cons_self)
    rw [List.cons_append, textLoop, if_neg hb, ih fun hin => h (List.mem_cons_of_mem b hin),
      List.append_assoc]
    rfl

theorem textLoop_encode (segment s : List Char) :
    textLoop (Utf8.encode segment) (Utf8.encode s) = segment ++ s := by
  induction s generalizing segment with
  | nil => exact (Utf8.decode_encode segment).trans (List.append_nil _).symm
  | cons c s ih =>
    rw [Utf8.encode_cons]
    by_cases hc : c = Char.ofNat 0
    · have hzero : Utf8.encodeChar c = [0#8] := by rw [hc]; decide
      rw [hzero, List.singleton_append, textLoop, Utf8.decode_encode, hc]
      exact congrArg (fun l => segment ++ Char.ofNat 0 :: l) (ih [])
    · rw [textLoop_segment (Utf8.zero_notMem_encodeChar hc)]
      have hsegment : Utf8.encode segment ++ Utf8.encodeChar c = Utf8.encode (segment ++ [c]) := by
        rw [Utf8.encode_append, Utf8.encode_cons, Utf8.encode_nil, List.append_nil]
      rw [hsegment, ih, List.append_assoc]
      rfl

/-- Text that was made of octets from text is that text. -/
theorem text_ofString (s : String) : text (ofString s) = s := by
  have h := textLoop_encode [] s.toList
  exact (congrArg String.ofList h).trans String.ofList_toList

/-- A string literal: its octets, and the bytes they go as. -/
structure HpackLiteral where
  octets : List Byte
  huffman : Bool
  bytes : List Byte
  coded : if huffman then HpackHuffman.CodedAs octets bytes else bytes = octets

def HpackLiteral.wire (s : HpackLiteral) : List Byte :=
  integer s.bytes.length 7 (if s.huffman then 0x80 else 0x00) ++ s.bytes

theorem run_peek (b : Byte) (rest : List Byte) :
    peek.run (b :: rest) = .ok (b, b :: rest) := rfl

theorem HpackLiteral.decoded (s : HpackLiteral) :
    (if s.huffman then HpackHuffman.decode s.bytes else .ok s.bytes) = .ok s.octets := by
  have hcoded := s.coded
  cases hh : s.huffman with
  | false =>
    rw [hh] at hcoded
    rw [if_neg (by simp), show s.bytes = s.octets from hcoded]
  | true =>
    rw [hh] at hcoded
    exact HpackHuffman.decode_of_codedAs hcoded

/-- A string literal reads back as the text of its octets. -/
theorem reads_string (s : HpackLiteral) (h : Readable s.bytes.length 7) :
    Reads readString s.wire (text s.octets) := by
  intro rest
  -- the flag is the top bit, `a` of the pattern
  obtain ⟨a, ha, hpattern, hflag⟩ : ∃ a, 2 ^ 7 * (a + 1) ≤ 256 ∧
      (if s.huffman then 0x80 else 0x00) = 2 ^ 7 * a ∧ (s.huffman = true ↔ a = 1) := by
    cases s.huffman
    · exact ⟨0, by decide, rfl, by simp⟩
    · exact ⟨1, by decide, rfl, by simp⟩
  obtain ⟨m, tail, hfirst, hm, hlt, -⟩ := integer_first s.bytes.length ha
  have hread := reads_integer (le_refl 7) ha h (s.bytes ++ rest)
  have hb := toNat_byte hlt
  obtain ⟨htop, -⟩ := and_masks (BitVec.ofNat 8 (2 ^ 7 * a + m))
  have hhuffman : ((BitVec.ofNat 8 (2 ^ 7 * a + m)).toNat &&& 0x80 ≠ 0) ↔ s.huffman = true := by
    rw [htop, hflag]
    omega
  rw [HpackLiteral.wire, hpattern, List.append_assoc]
  rw [hfirst] at hread ⊢
  rw [readString, run_bind, List.cons_append, run_peek]
  dsimp only
  rw [run_bind, ← List.cons_append, hread]
  dsimp only
  change (if (s.bytes ++ rest).length < s.bytes.length then _ else _ :
    Parser HpackError String).run (s.bytes ++ rest) = _
  rw [if_neg (by simp), run_bind]
  change ((lift (if (BitVec.ofNat 8 (2 ^ 7 * a + m)).toNat &&& 0x80 ≠ 0 then _ else _)) >>= _).run
    ((s.bytes ++ rest).drop s.bytes.length) = _
  rw [List.take_left, List.drop_left]
  have hdecoded := s.decoded
  by_cases hh : s.huffman = true
  · rw [if_pos hh] at hdecoded
    rw [if_pos (hhuffman.2 hh), hdecoded]
    rfl
  · rw [if_neg hh] at hdecoded
    rw [if_neg (fun hno => hh (hhuffman.1 hno)), hdecoded]
    rfl

/-! ## Representations -/

/-- What a literal field asks of the table. -/
inductive HpackIndexing where
  | incremental
  | without
  | never
  deriving DecidableEq

namespace HpackIndexing

/-- The bits of the first byte that hold the index of the name. -/
def prefixBits : HpackIndexing → ℕ
  | incremental => 6
  | without | never => 4

/-- The bits above them. -/
def pattern : HpackIndexing → ℕ
  | incremental => 0x40
  | without => 0x00
  | never => 0x10

theorem pattern_eq (x : HpackIndexing) : ∃ a, x.prefixBits ≤ 7 ∧
    2 ^ x.prefixBits * (a + 1) ≤ 256 ∧ x.pattern = 2 ^ x.prefixBits * a := by
  cases x
  · exact ⟨1, by decide, by decide, rfl⟩
  · exact ⟨0, by decide, by decide, rfl⟩
  · exact ⟨1, by decide, by decide, rfl⟩

end HpackIndexing

inductive HpackName where
  | index (i : ℕ)
  | literal (s : HpackLiteral)

/-- RFC 7541 6: what a block is made of. -/
inductive HpackRepresentation where
  | sizeUpdate (capacity : ℕ)
  | indexed (index : ℕ)
  | literal (indexing : HpackIndexing) (name : HpackName) (value : HpackLiteral)

namespace HpackRepresentation

def wire : HpackRepresentation → List Byte
  | sizeUpdate capacity => integer capacity 5 0x20
  | indexed index => integer index 7 0x80
  | literal x (.index i) value => integer i x.prefixBits x.pattern ++ value.wire
  | literal x (.literal name) value => integer 0 x.prefixBits x.pattern ++ (name.wire ++ value.wire)

/-- Every integer of a representation is one `__readInteger` takes, and a name's index is not the
one that says the name follows. -/
def Readable : HpackRepresentation → Prop
  | sizeUpdate capacity => CrossByte.Readable capacity 5
  | indexed index => CrossByte.Readable index 7
  | literal x (.index i) value =>
    0 < i ∧ CrossByte.Readable i x.prefixBits ∧ CrossByte.Readable value.bytes.length 7
  | literal _ (.literal name) value =>
    CrossByte.Readable name.bytes.length 7 ∧ CrossByte.Readable value.bytes.length 7

instance : ∀ r : HpackRepresentation, Decidable r.Readable
  | sizeUpdate capacity => inferInstanceAs (Decidable (CrossByte.Readable capacity 5))
  | indexed index => inferInstanceAs (Decidable (CrossByte.Readable index 7))
  | literal _ (.index _) _ => inferInstanceAs (Decidable (_ ∧ _ ∧ _))
  | literal _ (.literal _) _ => inferInstanceAs (Decidable (_ ∧ _))

end HpackRepresentation

namespace HpackDecoder

def nameOf (t : HpackDynamicTable) : HpackName → Except HpackError String
  | .index i => (resolve t i).map HpackHeader.name
  | .literal s => .ok (text s.octets)

/-- What `decode` does with a representation. -/
def apply (d : HpackDecoder) (p : Pass) : HpackRepresentation → Except HpackError Pass
  | .sizeUpdate capacity =>
    if p.updatesStillAllowed then d.update p capacity
    else .error ⟨"Dynamic table size update must precede the header fields in a block"⟩
  | .indexed index => (resolve p.table index).map (p.keep d.maxHeaderListSize)
  | .literal indexing name value =>
    (nameOf p.table name).map fun name =>
      let field : HpackHeader := { name, value := text value.octets, sensitive := indexing = .never }
      match indexing with
      | .incremental => { p with table := p.table.add field }.keep d.maxHeaderListSize field
      | .without | .never => p.keep d.maxHeaderListSize field

variable {d : HpackDecoder} {p : Pass}

theorem run_readLiteral (t : HpackDynamicTable) {x : HpackIndexing} {name : HpackName} {value : HpackLiteral}
    (h : (HpackRepresentation.literal x name value).Readable) (sensitive : Bool) (rest : List Byte) :
    (readLiteral t x.prefixBits sensitive).run ((HpackRepresentation.literal x name value).wire ++ rest) =
      (nameOf t name).map fun name =>
        ({ name, value := text value.octets, sensitive : HpackHeader }, rest) := by
  obtain ⟨a, hn, ha, hpattern⟩ := x.pattern_eq
  cases name with
  | index i =>
    obtain ⟨hpos, hi, hvalue⟩ := h
    have hread := reads_integer hn ha hi (value.wire ++ rest)
    rw [HpackRepresentation.wire, hpattern, List.append_assoc, readLiteral, run_bind, hread]
    dsimp only
    rw [if_neg (by omega), run_bind, nameOf]
    cases resolve t i with
    | error e => rfl
    | ok f =>
      change ((readString >>= _).run (value.wire ++ rest)) = _
      rw [run_bind, reads_string value hvalue]
      rfl
  | literal s =>
    obtain ⟨hs, hvalue⟩ := h
    have hzero : CrossByte.Readable 0 x.prefixBits := by unfold CrossByte.Readable; positivity
    have hread := reads_integer hn ha hzero (s.wire ++ (value.wire ++ rest))
    rw [HpackRepresentation.wire, hpattern, List.append_assoc, List.append_assoc, readLiteral, run_bind,
      hread]
    dsimp only
    rw [if_pos rfl, run_bind, reads_string s hs]
    dsimp only
    rw [run_bind, reads_string value hvalue]
    rfl

/-- A turn at an integer, whose first byte says what it is of. -/
theorem run_turn_integer (value : ℕ) (ha : 2 ^ n * (a + 1) ≤ 256) (tail : List Byte) :
    ∃ first : Byte, 2 ^ n * a ≤ first.toNat ∧ first.toNat < 2 ^ n * (a + 1) ∧
      (d.turn p).run (integer value n (2 ^ n * a) ++ tail) =
        (d.turnAt p first).run (integer value n (2 ^ n * a) ++ tail) := by
  obtain ⟨m, rest, hfirst, hm, hlt, -⟩ := integer_first value ha
  refine ⟨BitVec.ofNat 8 (2 ^ n * a + m), ?_, ?_, ?_⟩
  · rw [toNat_byte hlt]
    omega
  · rw [toNat_byte hlt, Nat.mul_add]
    omega
  · rw [hfirst, List.cons_append, turn, run_bind, run_peek]

theorem turnAt_literal {x : HpackIndexing} {first : Byte} (hle : x.pattern ≤ first.toNat)
    (hlt : first.toNat < x.pattern + 2 ^ x.prefixBits) : d.turnAt p first =
      readLiteral p.table x.prefixBits (x = .never) >>= fun field => pure
        (match x with
        | .incremental => { p with table := p.table.add field }.keep d.maxHeaderListSize field
        | .without | .never => p.keep d.maxHeaderListSize field) := by
  obtain ⟨h80, h40, h20, h10, -⟩ := and_masks first
  cases x <;> simp only [HpackIndexing.pattern, HpackIndexing.prefixBits] at hle hlt <;>
    rw [turnAt, if_neg (by omega)]
  · rw [if_pos (by omega)]
    rfl
  · rw [if_neg (by omega), if_neg (by omega), decide_eq_false (by omega)]
    rfl
  · rw [if_neg (by omega), if_neg (by omega), decide_eq_true (by omega)]
    rfl

/-- One turn of `decode` at a representation. -/
theorem run_turn {r : HpackRepresentation} (h : r.Readable) (rest : List Byte) :
    (d.turn p).run (r.wire ++ rest) = (d.apply p r).map fun p => (p, rest) := by
  cases r with
  | sizeUpdate capacity =>
    obtain ⟨first, hle, hlt, hturn⟩ := run_turn_integer (d := d) (p := p) capacity
      (n := 5) (a := 1) (by decide) rest
    obtain ⟨h80, h40, h20, -⟩ := and_masks first
    have hread := reads_integer (a := 1) (by decide) (by decide) h rest
    rw [HpackRepresentation.wire, show (0x20 : ℕ) = 2 ^ 5 * 1 from rfl, hturn, turnAt,
      if_neg (by omega), if_neg (by omega), if_pos (by omega), apply]
    split
    · rw [run_bind, hread]
      rfl
    · rfl
  | indexed index =>
    obtain ⟨first, hle, hlt, hturn⟩ := run_turn_integer (d := d) (p := p) index
      (n := 7) (a := 1) (by decide) rest
    obtain ⟨h80, -⟩ := and_masks first
    have hread := reads_integer (a := 1) (by decide) (by decide) h rest
    rw [HpackRepresentation.wire, show (0x80 : ℕ) = 2 ^ 7 * 1 from rfl, hturn, turnAt,
      if_pos (by omega), run_bind, hread, apply]
    dsimp only
    cases resolve p.table index <;> rfl
  | literal x name value =>
    obtain ⟨i, tail, hwire⟩ : ∃ i tail, (HpackRepresentation.literal x name value).wire ++ rest =
        integer i x.prefixBits x.pattern ++ tail := by
      cases name with
      | index i => exact ⟨i, value.wire ++ rest, List.append_assoc ..⟩
      | literal s => exact ⟨0, s.wire ++ value.wire ++ rest, List.append_assoc ..⟩
    obtain ⟨a, -, ha, hpattern⟩ := x.pattern_eq
    rw [hpattern] at hwire
    obtain ⟨first, hle, hlt, hturn⟩ := run_turn_integer (d := d) (p := p) i ha tail
    rw [hwire, hturn, ← hwire, turnAt_literal (x := x) (by omega) (by rw [hpattern]; exact hlt),
      run_bind, run_readLiteral p.table h, apply]
    cases nameOf p.table name <;> cases x <;> rfl

theorem wire_ne_nil (r : HpackRepresentation) : r.wire ≠ [] := by
  have hinteger : ∀ value n a, integer value n a ≠ [] := fun value n a => by
    unfold integer
    dsimp only
    split <;> exact List.cons_ne_nil _ _
  cases r with
  | sizeUpdate capacity => exact hinteger _ _ _
  | indexed index => exact hinteger _ _ _
  | literal x name value =>
    cases name <;> exact fun h => hinteger _ _ _ (List.append_eq_nil_iff.1 h).1

variable {rs : List HpackRepresentation}

theorem decodeLoop_succ {bytes : List Byte} (hne : bytes ≠ []) {fuel : ℕ} :
    d.decodeLoop (fuel + 1) p bytes =
      match (d.turn p).run bytes with
      | .error e => .error e
      | .ok (p, rest) => d.decodeLoop fuel p rest := by
  obtain ⟨b, l, rfl⟩ := List.exists_cons_of_ne_nil hne
  rfl

/-- The loop of `decode` over the representations of a block. -/
theorem decodeLoop_wire (h : ∀ r ∈ rs, r.Readable) {fuel : ℕ}
    (hfuel : (rs.flatMap HpackRepresentation.wire).length ≤ fuel) :
    d.decodeLoop fuel p (rs.flatMap HpackRepresentation.wire) = rs.foldlM d.apply p := by
  induction rs generalizing fuel p with
  | nil => cases fuel <;> rfl
  | cons r rs ih =>
    have hne := wire_ne_nil r
    have hpos : 0 < r.wire.length := List.length_pos_iff.2 hne
    rw [List.flatMap_cons, List.length_append] at hfuel
    obtain ⟨fuel, rfl⟩ : ∃ n, fuel = n + 1 := ⟨fuel - 1, by omega⟩
    rw [List.flatMap_cons, decodeLoop_succ fun hnil => hne (List.append_eq_nil_iff.1 hnil).1,
      run_turn (h r List.mem_cons_self), List.foldlM_cons]
    cases d.apply p r with
    | error e => rfl
    | ok p' => exact ih (fun s hs => h s (List.mem_cons_of_mem r hs)) (by omega)

/-- What `decode` makes of a pass over a whole block. -/
def finish (d : HpackDecoder) (p : Pass) : HpackDecoder × List HpackHeader :=
  ({ d with table := p.table, truncated := p.truncated, listSize := p.listSize }, p.out)

/-- `decode` does for the bytes of a block what `apply` does for its representations. -/
theorem decode_wire (h : ∀ r ∈ rs, r.Readable) :
    d.decode (rs.flatMap HpackRepresentation.wire) =
      (rs.foldlM d.apply { table := d.table }).map d.finish := by
  rw [decode, decodeLoop_wire h (le_refl _)]
  rfl

end HpackDecoder

end CrossByte
