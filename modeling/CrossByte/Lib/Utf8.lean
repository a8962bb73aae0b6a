import CrossByte.Lib.Bytes

/-!
# UTF-8, with replacement characters

Text as UTF-8 bytes, and bytes as text the way a decoder that never fails reads them: each longest
piece that begins a character and does not go on to be one is read as one U+FFFD.  The decoder is
the state machine such decoders are: what it has of a character, how many bytes that still needs,
and the range the next of them has to be in.

`decode_encode` is that text comes back as it was.
-/

namespace Utf8

open Bytes (Byte)

def encodeChar (c : Char) : List Byte := (String.utf8EncodeChar c).map UInt8.toBitVec

def encode (s : List Char) : List Byte := s.flatMap encodeChar

/-- U+FFFD. -/
def replacement : Char := Char.ofNat 0xFFFD

/-- A character begun. -/
structure Pending where
  point : ℕ
  /-- The bytes that follow. -/
  needed : ℕ
  lower : ℕ
  upper : ℕ
  deriving DecidableEq

/-- A byte where a character begins. -/
def start (b : Byte) : List Char × Option Pending :=
  let n := b.toNat
  if n < 0x80 then ([Char.ofNat n], none)
  else if n < 0xC2 then ([replacement], none)
  else if n < 0xE0 then ([], some ⟨n - 0xC0, 1, 0x80, 0xBF⟩)
  else if n < 0xF0 then
    ([], some ⟨n - 0xE0, 2, if n = 0xE0 then 0xA0 else 0x80, if n = 0xED then 0x9F else 0xBF⟩)
  else if n < 0xF5 then
    ([], some ⟨n - 0xF0, 3, if n = 0xF0 then 0x90 else 0x80, if n = 0xF4 then 0x8F else 0xBF⟩)
  else ([replacement], none)

/-- A byte anywhere: one that cannot go on with the character begun begins another. -/
def step : Option Pending → Byte → List Char × Option Pending
  | none, b => start b
  | some p, b =>
    if p.lower ≤ b.toNat ∧ b.toNat ≤ p.upper then
      let point := p.point * 64 + (b.toNat - 0x80)
      if p.needed = 1 then ([Char.ofNat point], none)
      else ([], some ⟨point, p.needed - 1, 0x80, 0xBF⟩)
    else (replacement :: (start b).1, (start b).2)

/-- The rest of a text. -/
def decodeFrom : Option Pending → List Byte → List Char
  | none, [] => []
  | some _, [] => [replacement]
  | p, b :: l => (step p b).1 ++ decodeFrom (step p b).2 l

def decode (l : List Byte) : List Char := decodeFrom none l

@[simp] theorem encode_nil : encode [] = [] := rfl

@[simp] theorem encode_cons (c : Char) (s : List Char) :
    encode (c :: s) = encodeChar c ++ encode s := rfl

@[simp] theorem encode_append (s t : List Char) : encode (s ++ t) = encode s ++ encode t :=
  List.flatMap_append

theorem decodeFrom_cons (p : Option Pending) (b : Byte) (l : List Byte) :
    decodeFrom p (b :: l) = (step p b).1 ++ decodeFrom (step p b).2 l := by
  cases p <;> rfl

/-! ## One byte -/

theorem toNat_ofNat {n : ℕ} (h : n < 256) : (UInt8.toBitVec (UInt8.ofNat n)).toNat = n :=
  Nat.mod_eq_of_lt h

/-- The next byte of a character begun, its six bits by number. -/
theorem step_next {p : Pending} {n : ℕ} (hn : n < 64) (hl : p.lower ≤ n + 128)
    (hu : n + 128 ≤ p.upper) :
    step (some p) (UInt8.toBitVec (UInt8.ofNat (n + 128))) =
      if p.needed = 1 then ([Char.ofNat (p.point * 64 + n)], none)
      else ([], some ⟨p.point * 64 + n, p.needed - 1, 0x80, 0xBF⟩) := by
  have hb := toNat_ofNat (n := n + 128) (by omega)
  rw [step, if_pos (by rw [hb]; exact ⟨hl, hu⟩), hb, Nat.add_sub_cancel]

theorem char_ofNat (c : Char) : Char.ofNat c.val.toNat = c := Char.ofNat_toNat c

theorem char_lt (c : Char) : c.val.toNat < 0x110000 ∧
    (c.val.toNat < 0xD800 ∨ 0xDFFF < c.val.toNat) := by
  rcases c.valid with h | ⟨h₁, h₂⟩
  · omega
  · exact ⟨h₂, .inr h₁⟩

/-! ## One character -/

theorem decodeFrom_encodeChar (c : Char) (l : List Byte) :
    decodeFrom none (encodeChar c ++ l) = c :: decodeFrom none l := by
  obtain ⟨hmax, hsurrogate⟩ := char_lt c
  have hc := char_ofNat c
  unfold encodeChar String.utf8EncodeChar
  generalize c.val.toNat = v at hc hmax hsurrogate ⊢
  dsimp only
  split
  · have hb := toNat_ofNat (n := v) (by omega)
    rw [List.map_cons, List.map_nil, List.cons_append, List.nil_append, decodeFrom_cons]
    simp only [step, start, hb]
    rw [if_pos (by omega), hc]
    rfl
  · split
    · have hb := toNat_ofNat (n := v / 64 % 32 + 192) (by omega)
      simp only [List.map_cons, List.map_nil, List.cons_append, List.nil_append, decodeFrom_cons]
      rw [step, start, hb, if_neg (by omega), if_neg (by omega), if_pos (by omega)]
      dsimp only
      rw [step_next (by omega) (by simp only; omega) (by simp only; omega), if_pos rfl]
      have hv : (v / 64 % 32 + 192 - 192) * 64 + v % 64 = v := by omega
      rw [hv, hc]
      rfl
    · split
      · have hb := toNat_ofNat (n := v / 4096 % 16 + 224) (by omega)
        simp only [List.map_cons, List.map_nil, List.cons_append, List.nil_append, decodeFrom_cons]
        rw [step, start, hb, if_neg (by omega), if_neg (by omega), if_neg (by omega),
          if_pos (by omega)]
        dsimp only
        rw [step_next (by omega) (by simp only; split <;> omega) (by simp only; split <;> omega),
          if_neg (by simp)]
        dsimp only
        rw [step_next (by omega) (by simp only; omega) (by simp only; omega), if_pos rfl]
        have hv : ((v / 4096 % 16 + 224 - 224) * 64 + v / 64 % 64) * 64 + v % 64 = v := by omega
        rw [hv, hc]
        rfl
      · have hb := toNat_ofNat (n := v / 262144 % 8 + 240) (by omega)
        simp only [List.map_cons, List.map_nil, List.cons_append, List.nil_append, decodeFrom_cons]
        rw [step, start, hb, if_neg (by omega), if_neg (by omega), if_neg (by omega),
          if_neg (by omega), if_pos (by omega)]
        dsimp only
        rw [step_next (by omega) (by simp only; split <;> omega) (by simp only; split <;> omega),
          if_neg (by simp)]
        dsimp only
        rw [step_next (by omega) (by simp only; omega) (by simp only; omega), if_neg (by simp)]
        dsimp only
        rw [step_next (by omega) (by simp only; omega) (by simp only; omega), if_pos rfl]
        have hv : (((v / 262144 % 8 + 240 - 240) * 64 + v / 4096 % 64) * 64 + v / 64 % 64) * 64 +
            v % 64 = v := by omega
        rw [hv, hc]
        rfl

/-- Text comes back as it was. -/
theorem decode_encode (s : List Char) : decode (encode s) = s := by
  unfold decode
  induction s with
  | nil => rfl
  | cons c s ih => rw [encode_cons, decodeFrom_encodeChar, ih]

theorem zero_notMem_encodeChar {c : Char} (hc : c ≠ Char.ofNat 0) : 0#8 ∉ encodeChar c := by
  have hne : c.val.toNat ≠ 0 := fun h => hc (by rw [← char_ofNat c, h])
  obtain ⟨hmax, -⟩ := char_lt c
  have hbyte : ∀ n, 0 < n → n < 256 → 0#8 ≠ UInt8.toBitVec (UInt8.ofNat n) := by
    intro n h0 h1 h
    have hn := congrArg BitVec.toNat h
    rw [toNat_ofNat h1] at hn
    exact absurd hn (Nat.ne_of_lt h0)
  unfold encodeChar String.utf8EncodeChar
  dsimp only
  split
  · simp only [List.map_cons, List.map_nil, List.mem_singleton]
    exact hbyte _ (by omega) (by omega)
  · split
    · simp only [List.map_cons, List.map_nil, List.mem_cons, List.not_mem_nil, or_false, not_or]
      exact ⟨hbyte _ (by omega) (by omega), hbyte _ (by omega) (by omega)⟩
    · split
      · simp only [List.map_cons, List.map_nil, List.mem_cons, List.not_mem_nil, or_false, not_or]
        exact ⟨hbyte _ (by omega) (by omega), hbyte _ (by omega) (by omega),
          hbyte _ (by omega) (by omega)⟩
      · simp only [List.map_cons, List.map_nil, List.mem_cons, List.not_mem_nil, or_false, not_or]
        exact ⟨hbyte _ (by omega) (by omega), hbyte _ (by omega) (by omega),
          hbyte _ (by omega) (by omega), hbyte _ (by omega) (by omega)⟩

end Utf8
