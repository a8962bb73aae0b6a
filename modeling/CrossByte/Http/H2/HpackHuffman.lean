import CrossByte.Lib.BitStream
import CrossByte.Lib.CodeTree

/-!
# The Huffman code of HPACK

`crossbyte._internal.http.h2.hpack.HpackHuffman`: the code of RFC 7541 Appendix B, the packing of
codes into bytes, and the decoder that walks the tree built from the code.

A node of the tree is known by the bits that lead to it from the root.  The code's `partial` is
their number, the root is the node with none, and the node the padding has to end at is the one
reached by as many ones.

## Main results

* `codedAs_encode`: `encode` writes the codes one after the other and pads them with fewer than
  eight ones, which is what RFC 7541 asks of a Huffman-coded literal (`CodedAs`).
* `decode_of_codedAs`: whatever is coded so is decoded to the octets it was made from.
* `decode_iff_encode`: and nothing else is decoded.  `encodedLength` counts bits in an `Int`, which
  holds those of no string of `2 ^ 31` bits (`length_wraps`).
-/

namespace CrossByte

open Bytes (Byte)
open BitStream

structure HpackError where
  message : String
  deriving DecidableEq

namespace HpackHuffman

def codes : List ℕ :=
  [0x1ff8, 0x7fffd8, 0xfffffe2, 0xfffffe3, 0xfffffe4, 0xfffffe5, 0xfffffe6, 0xfffffe7,
   0xfffffe8, 0xffffea, 0x3ffffffc, 0xfffffe9, 0xfffffea, 0x3ffffffd, 0xfffffeb, 0xfffffec,
   0xfffffed, 0xfffffee, 0xfffffef, 0xffffff0, 0xffffff1, 0xffffff2, 0x3ffffffe, 0xffffff3,
   0xffffff4, 0xffffff5, 0xffffff6, 0xffffff7, 0xffffff8, 0xffffff9, 0xffffffa, 0xffffffb,
   0x14, 0x3f8, 0x3f9, 0xffa, 0x1ff9, 0x15, 0xf8, 0x7fa,
   0x3fa, 0x3fb, 0xf9, 0x7fb, 0xfa, 0x16, 0x17, 0x18,
   0x0, 0x1, 0x2, 0x19, 0x1a, 0x1b, 0x1c, 0x1d,
   0x1e, 0x1f, 0x5c, 0xfb, 0x7ffc, 0x20, 0xffb, 0x3fc,
   0x1ffa, 0x21, 0x5d, 0x5e, 0x5f, 0x60, 0x61, 0x62,
   0x63, 0x64, 0x65, 0x66, 0x67, 0x68, 0x69, 0x6a,
   0x6b, 0x6c, 0x6d, 0x6e, 0x6f, 0x70, 0x71, 0x72,
   0xfc, 0x73, 0xfd, 0x1ffb, 0x7fff0, 0x1ffc, 0x3ffc, 0x22,
   0x7ffd, 0x3, 0x23, 0x4, 0x24, 0x5, 0x25, 0x26,
   0x27, 0x6, 0x74, 0x75, 0x28, 0x29, 0x2a, 0x7,
   0x2b, 0x76, 0x2c, 0x8, 0x9, 0x2d, 0x77, 0x78,
   0x79, 0x7a, 0x7b, 0x7ffe, 0x7fc, 0x3ffd, 0x1ffd, 0xffffffc,
   0xfffe6, 0x3fffd2, 0xfffe7, 0xfffe8, 0x3fffd3, 0x3fffd4, 0x3fffd5, 0x7fffd9,
   0x3fffd6, 0x7fffda, 0x7fffdb, 0x7fffdc, 0x7fffdd, 0x7fffde, 0xffffeb, 0x7fffdf,
   0xffffec, 0xffffed, 0x3fffd7, 0x7fffe0, 0xffffee, 0x7fffe1, 0x7fffe2, 0x7fffe3,
   0x7fffe4, 0x1fffdc, 0x3fffd8, 0x7fffe5, 0x3fffd9, 0x7fffe6, 0x7fffe7, 0xffffef,
   0x3fffda, 0x1fffdd, 0xfffe9, 0x3fffdb, 0x3fffdc, 0x7fffe8, 0x7fffe9, 0x1fffde,
   0x7fffea, 0x3fffdd, 0x3fffde, 0xfffff0, 0x1fffdf, 0x3fffdf, 0x7fffeb, 0x7fffec,
   0x1fffe0, 0x1fffe1, 0x3fffe0, 0x1fffe2, 0x7fffed, 0x3fffe1, 0x7fffee, 0x7fffef,
   0xfffea, 0x3fffe2, 0x3fffe3, 0x3fffe4, 0x7ffff0, 0x3fffe5, 0x3fffe6, 0x7ffff1,
   0x3ffffe0, 0x3ffffe1, 0xfffeb, 0x7fff1, 0x3fffe7, 0x7ffff2, 0x3fffe8, 0x1ffffec,
   0x3ffffe2, 0x3ffffe3, 0x3ffffe4, 0x7ffffde, 0x7ffffdf, 0x3ffffe5, 0xfffff1, 0x1ffffed,
   0x7fff2, 0x1fffe3, 0x3ffffe6, 0x7ffffe0, 0x7ffffe1, 0x3ffffe7, 0x7ffffe2, 0xfffff2,
   0x1fffe4, 0x1fffe5, 0x3ffffe8, 0x3ffffe9, 0xffffffd, 0x7ffffe3, 0x7ffffe4, 0x7ffffe5,
   0xfffec, 0xfffff3, 0xfffed, 0x1fffe6, 0x3fffe9, 0x1fffe7, 0x1fffe8, 0x7ffff3,
   0x3fffea, 0x3fffeb, 0x1ffffee, 0x1ffffef, 0xfffff4, 0xfffff5, 0x3ffffea, 0x7ffff4,
   0x3ffffeb, 0x7ffffe6, 0x3ffffec, 0x3ffffed, 0x7ffffe7, 0x7ffffe8, 0x7ffffe9, 0x7ffffea,
   0x7ffffeb, 0xffffffe, 0x7ffffec, 0x7ffffed, 0x7ffffee, 0x7ffffef, 0x7fffff0, 0x3ffffee,
   0x3fffffff]

def lengths : List ℕ :=
  [13, 23, 28, 28, 28, 28, 28, 28, 28, 24, 30, 28, 28, 30, 28, 28,
   28, 28, 28, 28, 28, 28, 30, 28, 28, 28, 28, 28, 28, 28, 28, 28,
   6, 10, 10, 12, 13, 6, 8, 11, 10, 10, 8, 11, 8, 6, 6, 6,
   5, 5, 5, 6, 6, 6, 6, 6, 6, 6, 7, 8, 15, 6, 12, 10,
   13, 6, 7, 7, 7, 7, 7, 7, 7, 7, 7, 7, 7, 7, 7, 7,
   7, 7, 7, 7, 7, 7, 7, 7, 8, 7, 8, 13, 19, 13, 14, 6,
   15, 5, 6, 5, 6, 5, 6, 6, 6, 5, 7, 7, 6, 6, 6, 5,
   6, 7, 6, 5, 5, 6, 7, 7, 7, 7, 7, 15, 11, 14, 13, 28,
   20, 22, 20, 20, 22, 22, 22, 23, 22, 23, 23, 23, 23, 23, 24, 23,
   24, 24, 22, 23, 24, 23, 23, 23, 23, 21, 22, 23, 22, 23, 23, 24,
   22, 21, 20, 22, 22, 23, 23, 21, 23, 22, 22, 24, 21, 22, 23, 23,
   21, 21, 22, 21, 23, 22, 23, 23, 20, 22, 22, 22, 23, 22, 22, 23,
   26, 26, 20, 19, 22, 23, 22, 25, 26, 26, 26, 27, 27, 26, 24, 25,
   19, 21, 26, 27, 27, 26, 27, 24, 21, 21, 26, 26, 28, 27, 27, 27,
   20, 24, 20, 21, 22, 21, 21, 23, 22, 22, 25, 25, 24, 24, 26, 23,
   26, 27, 26, 26, 27, 27, 27, 27, 27, 28, 27, 27, 27, 27, 27, 26,
   30]

def eos : ℕ := 256

def codeBits (sym : ℕ) : List Bool := bitsOf (lengths.getD sym 0) (codes.getD sym 0)

/-- The codes, each with its length and its symbol. -/
def table : List ((ℕ × ℕ) × ℕ) := (codes.zip lengths).zipIdx

/-- `__buildTree`. -/
def tree : CodeTree ℕ :=
  table.foldl (fun t ((code, length), sym) => t.insert sym (bitsOf length code))
    (.node none .absent .absent)

/-! ## Encoding -/

def bitCount (value : List Byte) : ℕ := (value.map fun b => lengths.getD b.toNat 0).sum

/-- The bits are counted in an `Int`. -/
def encodedLength (value : List Byte) : ℤ :=
  ((value.foldl (fun bits b => bits + BitVec.ofNat 32 (lengths.getD b.toNat 0)) 0 + 7#32).sshiftRight
    3).toInt

/-- What `encode` keeps: the bytes so far, and the bits of the next. -/
structure Packing where
  out : List Byte := []
  current : ℕ := 0
  filled : ℕ := 0

/-- The loop of `encode` over the bits of a code, `remaining` of them still to go. -/
def packLoop (code : ℕ) : ℕ → ℕ → Packing → Packing
  | 0, _, p => p
  | fuel + 1, remaining, p =>
    if 0 < remaining then
      let take := if 8 - p.filled > remaining then remaining else 8 - p.filled
      let chunk := (code >>> (remaining - take)) &&& (1 <<< take - 1)
      let current := (p.current <<< take) ||| chunk
      let filled := p.filled + take
      packLoop code fuel (remaining - take)
        (if filled = 8 then { out := p.out ++ [BitVec.ofNat 8 (current &&& 0xff)] }
        else { p with current, filled })
    else p

/-- The code of one octet packed.  Every turn of the loop takes a bit or more. -/
def pack (p : Packing) (b : Byte) : Packing :=
  packLoop (codes.getD b.toNat 0) (lengths.getD b.toNat 0) (lengths.getD b.toNat 0) p

/-- The last byte padded with ones. -/
def Packing.finish (p : Packing) : List Byte :=
  if 0 < p.filled then
    let current := (p.current <<< (8 - p.filled)) ||| (1 <<< (8 - p.filled) - 1)
    p.out ++ [BitVec.ofNat 8 (current &&& 0xff)]
  else p.out

def encode (value : List Byte) : List Byte := (value.foldl pack {}).finish

/-! ## Decoding -/

/-- Where `decode` is: the node, the bits that lead to it, and the octets so far. -/
structure Walk where
  node : CodeTree ℕ := tree
  path : List Bool := []
  out : List Byte := []

/-- `decode` at one bit. -/
def Walk.step (s : Walk) (bit : Bool) : Except HpackError Walk :=
  match s.node.child bit with
  | .absent => .error ⟨"Huffman code is not in the table"⟩
  | .node none left right => .ok { s with node := .node none left right, path := s.path ++ [bit] }
  | .node (some sym) _ _ =>
    if sym = eos then .error ⟨"Huffman EOS symbol appeared in a literal"⟩
    else .ok { out := s.out ++ [BitVec.ofNat 8 sym] }

/-- What is left over is only legal as padding. -/
def Walk.finish (s : Walk) : Except HpackError (List Byte) :=
  if s.path = [] then .ok s.out
  else if s.path.length > 7 then .error ⟨"Huffman padding is longer than 7 bits"⟩
  else if tree.descend (List.replicate s.path.length true) = .absent then
    .error ⟨"Huffman padding is not the EOS prefix"⟩
  else if s.path ≠ List.replicate s.path.length true then
    .error ⟨"Huffman padding is not the EOS prefix"⟩
  else .ok s.out

def decode (source : List Byte) : Except HpackError (List Byte) :=
  (bits source).foldlM Walk.step {} >>= Walk.finish

/-! ## What is packed -/

/-- RFC 7541 5.2: the codes of the octets one after the other, padded to a byte with the first bits
of the code for EOS, which are ones. -/
def CodedAs (octets coded : List Byte) : Prop :=
  ∃ k < 8, bits coded = octets.flatMap (fun b => codeBits b.toNat) ++ List.replicate k true

namespace Packing

variable {p : Packing}

/-- Every bit packed so far. -/
def packed (p : Packing) : List Bool := bits p.out ++ bitsOf p.filled p.current

/-- One turn of the loop packs some of the code's bits. -/
theorem packLoop_packed (code : ℕ) {fuel remaining : ℕ} (hfuel : remaining ≤ fuel)
    (hp : p.filled < 8) :
    (packLoop code fuel remaining p).packed = p.packed ++ bitsOf remaining code ∧
      (packLoop code fuel remaining p).filled < 8 := by
  induction fuel generalizing remaining p with
  | zero =>
    obtain rfl : remaining = 0 := by omega
    exact ⟨(List.append_nil _).symm, hp⟩
  | succ fuel ih =>
    rw [packLoop]
    split
    · dsimp only
      generalize htake : (if 8 - p.filled > remaining then remaining else 8 - p.filled) = take
      have hle : take ≤ remaining ∧ 0 < take ∧ p.filled + take ≤ 8 := by
        split at htake <;> omega
      have hsplit : bitsOf remaining code =
          bitsOf take (code >>> (remaining - take)) ++ bitsOf (remaining - take) code := by
        rw [← bitsOf_add, show take + (remaining - take) = remaining by omega]
      have hchunk : bitsOf (p.filled + take)
          ((p.current <<< take) ||| ((code >>> (remaining - take)) &&& (1 <<< take - 1))) =
            bitsOf p.filled p.current ++ bitsOf take (code >>> (remaining - take)) := by
        rw [bitsOf_shiftLeft_or (and_mask_lt _ _), bitsOf_and_mask]
      split
      · rename_i hfull
        obtain ⟨hpacked, hfilled⟩ := @ih
          { out := p.out ++ [BitVec.ofNat 8 (((p.current <<< take) |||
            ((code >>> (remaining - take)) &&& (1 <<< take - 1))) &&& 0xff)] } (remaining - take)
          (by omega) (by norm_num)
        refine ⟨?_, hfilled⟩
        rw [hfull] at hchunk
        rw [hpacked, hsplit, packed, packed, bits_append, bits_singleton, byteBits_ofNat, hchunk]
        simp [bitsOf]
      · obtain ⟨hpacked, hfilled⟩ := @ih
          { p with
            current := (p.current <<< take) ||| ((code >>> (remaining - take)) &&& (1 <<< take - 1))
            filled := p.filled + take } (remaining - take) (by omega) (by simp only; omega)
        refine ⟨?_, hfilled⟩
        rw [hpacked, hsplit, packed, packed, hchunk]
        simp only [List.append_assoc]
    · obtain rfl : remaining = 0 := by omega
      exact ⟨(List.append_nil _).symm, hp⟩

theorem foldl_pack_packed (value : List Byte) (hp : p.filled < 8) :
    (value.foldl pack p).packed = p.packed ++ value.flatMap (fun b => codeBits b.toNat) ∧
      (value.foldl pack p).filled < 8 := by
  induction value generalizing p with
  | nil => exact ⟨(List.append_nil _).symm, hp⟩
  | cons b value ih =>
    obtain ⟨hpacked, hfilled⟩ := packLoop_packed (codes.getD b.toNat 0)
      (le_refl (lengths.getD b.toNat 0)) hp
    obtain ⟨ih, hlast⟩ := ih (p := pack p b) hfilled
    refine ⟨?_, hlast⟩
    rw [List.foldl_cons, ih, List.flatMap_cons, ← List.append_assoc]
    exact congrArg (· ++ _) hpacked

theorem bits_finish (hp : p.filled < 8) :
    bits p.finish = p.packed ++ List.replicate ((8 - p.filled) % 8) true := by
  unfold finish packed
  split
  · have hones : 1 <<< (8 - p.filled) - 1 < 2 ^ (8 - p.filled) := by
      rw [Nat.one_shiftLeft]
      exact Nat.sub_lt (by positivity) one_pos
    have hlast := bitsOf_shiftLeft_or (f := p.filled) (c := p.current) hones
    rw [show p.filled + (8 - p.filled) = 8 by omega, bitsOf_ones] at hlast
    rw [bits_append, bits_singleton, byteBits_ofNat, hlast, Nat.mod_eq_of_lt (by omega),
      List.append_assoc]
  · obtain hzero : p.filled = 0 := by omega
    rw [hzero]
    simp [bitsOf]

end Packing

/-- `encode` codes as RFC 7541 says. -/
theorem codedAs_encode (value : List Byte) : CodedAs value (encode value) := by
  obtain ⟨hpacked, hfilled⟩ := Packing.foldl_pack_packed (p := {}) value (by decide)
  refine ⟨_, Nat.mod_lt (8 - (value.foldl pack {}).filled) (by decide), ?_⟩
  rw [encode, Packing.bits_finish hfilled, hpacked]
  rfl

theorem length_encode (value : List Byte) : (encode value).length = (bitCount value + 7) / 8 := by
  obtain ⟨k, hk, hbits⟩ := codedAs_encode value
  have hlen := congrArg List.length hbits
  rw [length_bits, List.length_append, List.length_replicate, List.length_flatMap] at hlen
  have hsum : (value.map fun b => (codeBits b.toNat).length) =
      value.map fun b => lengths.getD b.toNat 0 :=
    List.map_congr_left fun b _ => length_bitsOf ..
  rw [hsum] at hlen
  rw [bitCount]
  omega

/-! ## What is decoded -/

theorem length_codes : codes.length = 257 ∧ lengths.length = 257 := by decide +kernel

variable {sym k : ℕ} {coded octets : List Byte} {read : List Bool} {s s' : Walk}

theorem mem_table (h : sym < 257) : ((codes.getD sym 0, lengths.getD sym 0), sym) ∈ table := by
  obtain ⟨hcodes, hlengths⟩ := length_codes
  rw [table, List.mem_zipIdx_iff_getElem?, List.getElem?_zip_eq_some]
  exact ⟨by simp [hcodes, h], by simp [hlengths, h]⟩

theorem table_leads :
    (table.all fun s => tree.leads (bitsOf s.1.2 s.1.1) s.2) = true := by decide +kernel

theorem tree_leads (h : sym < 257) : tree.leads (codeBits sym) sym = true :=
  List.all_eq_true.1 table_leads _ (mem_table h)

theorem tree_ones : ∀ k < 8, (tree.descend (List.replicate k true)).isOpen = true := by
  decide +kernel

theorem foldlM_leads {t : CodeTree ℕ} {code : List Bool} (h : t.leads code sym = true)
    (hsym : sym ≠ eos) (path : List Bool) (out : List Byte) (rest : List Bool) :
    (code ++ rest).foldlM Walk.step { node := t, path, out } =
      rest.foldlM Walk.step { out := out ++ [BitVec.ofNat 8 sym] } := by
  induction code generalizing t path with
  | nil => cases h
  | cons b code ih =>
    rw [List.cons_append, List.foldlM_cons]
    cases code with
    | nil =>
      have hsymbol : (t.child b).symbol? = some sym := by simpa [CodeTree.leads] using h
      obtain ⟨left, right, hchild⟩ := CodeTree.symbol?_eq_some.1 hsymbol
      simp only [Walk.step, hchild, if_neg hsym]
      rfl
    | cons b' code =>
      rw [CodeTree.leads_cons_cons, Bool.and_eq_true] at h
      obtain ⟨left, right, hchild⟩ := CodeTree.isOpen_iff.1 h.1
      simp only [Walk.step, hchild]
      rw [hchild] at h
      exact ih h.2 _

/-- The codes of some octets read from the root. -/
theorem foldlM_codes (octets : List Byte) (out : List Byte) (rest : List Bool) :
    (octets.flatMap (fun b => codeBits b.toNat) ++ rest).foldlM Walk.step { out } =
      rest.foldlM Walk.step { out := out ++ octets } := by
  induction octets generalizing out with
  | nil => rw [List.append_nil]; rfl
  | cons b octets ih =>
    rw [List.flatMap_cons, List.append_assoc,
      foldlM_leads (tree_leads (by omega)) (by unfold eos; omega), ih,
      BitVec.ofNat_toNat, List.append_assoc]
    rfl

theorem foldlM_ones (hk : k < 8) (out : List Byte) :
    (List.replicate k true).foldlM Walk.step { out } =
      .ok { node := tree.descend (List.replicate k true), path := List.replicate k true, out } := by
  induction k with
  | zero =>
    rw [List.replicate_zero, CodeTree.descend_nil]
    rfl
  | succ k ih =>
    have hopen := tree_ones (k + 1) hk
    have hdescend : tree.descend (List.replicate (k + 1) true) =
        (tree.descend (List.replicate k true)).child true := by
      rw [List.replicate_succ', CodeTree.descend, List.foldl_append]
      rfl
    rw [hdescend] at hopen ⊢
    obtain ⟨left, right, hchild⟩ := CodeTree.isOpen_iff.1 hopen
    rw [List.replicate_succ', List.foldlM_append, ih (by omega)]
    change (Walk.step _ true >>= _) = _
    simp only [Walk.step, hchild]
    rfl

theorem finish_ones (hk : k < 8) (node : CodeTree ℕ) (out : List Byte) :
    Walk.finish { node, path := List.replicate k true, out } = .ok out := by
  have hopen := tree_ones k hk
  have habsent : tree.descend (List.replicate k true) ≠ .absent := fun h => by
    rw [h] at hopen
    cases hopen
  unfold Walk.finish
  split
  · rfl
  · simp only [List.length_replicate]
    rw [if_neg (by omega), if_neg habsent, if_neg (fun h => h rfl)]

/-- What is coded as RFC 7541 says is decoded to what it was made from. -/
theorem decode_of_codedAs (h : CodedAs octets coded) : decode coded = .ok octets := by
  obtain ⟨k, hk, hbits⟩ := h
  rw [decode, hbits, foldlM_codes, foldlM_ones hk]
  exact finish_ones hk _ _

/-- What has been read is the codes of the octets so far, and the path to the node. -/
structure Walk.Read (s : Walk) (read : List Bool) : Prop where
  read : read = s.out.flatMap (fun b => codeBits b.toNat) ++ s.path
  node : s.node = tree.descend s.path

theorem Walk.Read.root {out : List Byte} (h : read = out.flatMap fun b => codeBits b.toNat) :
    Walk.Read { out } read where
  read := by rw [h, List.append_nil]
  node := by rw [CodeTree.descend_nil]

theorem leaves_coded :
    (tree.leaves.all fun l => decide (l.1 = codeBits l.2 ∧ l.2 < 257)) = true := by decide +kernel

theorem Walk.Read.step {bit : Bool} (h : s.Read read) (hstep : s.step bit = .ok s') :
    s'.Read (read ++ [bit]) := by
  have hchild : s.node.child bit = tree.descend (s.path ++ [bit]) := by
    rw [h.node, CodeTree.descend, CodeTree.descend, List.foldl_append]
    rfl
  unfold Walk.step at hstep
  split at hstep
  · cases hstep
  · rename_i left right hopen
    obtain rfl := Except.ok.inj hstep
    exact ⟨by rw [h.read, List.append_assoc], hopen.symm.trans hchild⟩
  · rename_i sym left right hsym
    split at hstep
    · cases hstep
    · rename_i heos
      obtain rfl := Except.ok.inj hstep
      have hleaf := CodeTree.mem_leaves (CodeTree.symbol?_eq_some.2 ⟨_, _, hchild.symm.trans hsym⟩)
      obtain ⟨hcode, hlt⟩ : s.path ++ [bit] = codeBits sym ∧ sym < 257 :=
        of_decide_eq_true (List.all_eq_true.1 leaves_coded _ hleaf)
      refine .root ?_
      have hbyte : (BitVec.ofNat 8 sym).toNat = sym :=
        Nat.mod_eq_of_lt (by unfold eos at heos; omega)
      rw [h.read, List.append_assoc, hcode, List.flatMap_append, List.flatMap_singleton, hbyte]

theorem Walk.Read.foldlM {bits : List Bool} (h : s.Read read)
    (hwalk : bits.foldlM Walk.step s = .ok s') : s'.Read (read ++ bits) := by
  induction bits generalizing s read with
  | nil =>
    obtain rfl := Except.ok.inj hwalk
    rwa [List.append_nil]
  | cons bit bits ih =>
    rw [List.foldlM_cons] at hwalk
    cases hstep : s.step bit with
    | error e => rw [hstep] at hwalk; cases hwalk
    | ok s₁ =>
      rw [hstep] at hwalk
      rw [List.append_cons]
      exact ih (h.step hstep) hwalk

/-- What is decoded is coded as RFC 7541 says. -/
theorem codedAs_of_decode (h : decode coded = .ok octets) : CodedAs octets coded := by
  unfold decode at h
  cases hwalk : (bits coded).foldlM Walk.step {} with
  | error e => rw [hwalk] at h; cases h
  | ok s =>
    rw [hwalk] at h
    have hread := (Walk.Read.foldlM (.root (List.flatMap_nil).symm) hwalk).read
    change s.finish = .ok octets at h
    unfold Walk.finish at h
    split_ifs at h with hroot hlong habsent hones
    · obtain rfl := Except.ok.inj h
      exact ⟨0, by decide, by rw [← List.nil_append (bits coded), hread, hroot]; rfl⟩
    · obtain rfl := Except.ok.inj h
      refine ⟨s.path.length, by omega, ?_⟩
      rw [← not_not.1 hones, ← hread, List.nil_append]

theorem CodedAs.unique {coded' : List Byte} (h : CodedAs octets coded)
    (h' : CodedAs octets coded') : coded = coded' := by
  obtain ⟨k, hk, hbits⟩ := h
  obtain ⟨k', hk', hbits'⟩ := h'
  have hlen := congrArg List.length hbits
  have hlen' := congrArg List.length hbits'
  rw [length_bits, List.length_append, List.length_replicate] at hlen hlen'
  have hkk : k = k' := by omega
  exact bits_injective (by rw [hbits, hbits', hkk])

/-! ## The length on an `Int` -/

theorem foldl_lengths (value : List Byte) (n : ℕ) :
    value.foldl (fun bits b => bits + BitVec.ofNat 32 (lengths.getD b.toNat 0)) (BitVec.ofNat 32 n) =
      BitVec.ofNat 32 (n + bitCount value) := by
  induction value generalizing n with
  | nil => rfl
  | cons b value ih =>
    rw [List.foldl_cons, ← BitVec.ofNat_add, ih, bitCount, bitCount, List.map_cons, List.sum_cons,
      Nat.add_assoc]

theorem encodedLength_eq_iff (value : List Byte) :
    encodedLength value = (encode value).length ↔ bitCount value + 7 < 2 ^ 31 := by
  have hfold := foldl_lengths value 0
  have hlen := length_encode value
  rw [encodedLength, show (0 : BitVec 32) = BitVec.ofNat 32 0 from rfl, hfold,
    BitVec.toInt_sshiftRight, Int.shiftRight_eq_div_pow, BitVec.toInt_eq_toNat_cond,
    BitVec.toNat_add, BitVec.toNat_ofNat, BitVec.toNat_ofNat]
  split <;> omega

theorem bitCount_le (value : List Byte) : bitCount value ≤ 30 * value.length := by
  have hall : ∀ n < 256, lengths.getD n 0 ≤ 30 := by decide +kernel
  induction value with
  | nil => exact le_rfl
  | cons b value ih =>
    have hb := hall b.toNat b.isLt
    rw [bitCount] at ih ⊢
    rw [List.map_cons, List.sum_cons, List.length_cons]
    omega

/-- **The code is a bijection onto what the decoder accepts**, and `encodedLength` is the length of
what is coded exactly up to an `Int` of bits. -/
theorem decode_iff_encode (x y : List Byte) : (decode y = .ok x ↔ encode x = y) ∧
    (encodedLength x = (encode x).length ↔ bitCount x + 7 < 2 ^ 31) := by
  refine ⟨⟨fun h => ?_, ?_⟩, encodedLength_eq_iff x⟩
  · exact (codedAs_encode x).unique (codedAs_of_decode h)
  · rintro rfl
    exact decode_of_codedAs (codedAs_encode x)

theorem bitCount_feeds (n : ℕ) : bitCount (List.replicate n 10) = n * 30 := by
  rw [bitCount, List.map_replicate, List.sum_replicate]
  rfl

/-- 71582789 line feeds, of 30 bits each. -/
theorem length_wraps : encodedLength (List.replicate 71582789 10) ≠
    (encode (List.replicate 71582789 10)).length := fun h =>
  absurd ((encodedLength_eq_iff _).1 h) (by rw [bitCount_feeds]; omega)

end HpackHuffman

end CrossByte
