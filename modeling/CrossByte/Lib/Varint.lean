import CrossByte.Lib.Parse

/-!
# Variable-length words

A 32-bit word as a LEB128 varint: seven bits to a byte, least significant first,
the top bit set on every byte but the last.  The reader refuses a fifth byte with
more than the last four bits.  A signed word goes zigzagged.

`reads_put` and `unzigzag_zigzag` are the round trips.
-/

namespace Varint

open Bytes (Byte)
open Parse

/-- Why bytes are not a varint. -/
inductive Fault where
  | short
  | tooLong
  | overflow
  deriving DecidableEq, Repr

/-- The loop of the writer.  Five bytes are enough for 32 bits. -/
def putLoop : ℕ → BitVec 32 → List Byte
  | 0, v => [v.setWidth 8]
  | fuel + 1, v =>
    if v &&& ~~~0x7F#32 ≠ 0 then
      ((v &&& 0x7F#32) ||| 0x80#32).setWidth 8 :: putLoop fuel (v >>> 7)
    else [v.setWidth 8]

def put (v : BitVec 32) : List Byte := putLoop 4 v

/-- The loop of the reader, `shift` bits of `result` read. -/
def readLoop (shift : ℕ) (result : BitVec 32) : List Byte → Except Fault (BitVec 32 × List Byte)
  | [] => .error .short
  | b :: rest =>
    if shift = 28 ∧ b.toNat > 0x0F then
      .error (if b &&& 0x80#8 ≠ 0 then .tooLong else .overflow)
    else
      let result := result ||| ((b &&& 0x7F#8).setWidth 32 <<< shift)
      if b &&& 0x80#8 = 0 then .ok (result, rest) else readLoop (shift + 7) result rest

def read : Parser Fault (BitVec 32) := readLoop 0 0

/-- Zigzag: small magnitudes of either sign become small. -/
def zigzag (v : BitVec 32) : BitVec 32 := (v <<< 1) ^^^ v.sshiftRight 31

def unzigzag (u : BitVec 32) : BitVec 32 := (u >>> 1) ^^^ -(u &&& 1)

/-! ## Words of seven bits -/

theorem and_mask_toNat (v : BitVec 32) : (v &&& 0x7F#32).toNat = v.toNat % 128 := by
  exact Nat.and_two_pow_sub_one_eq_mod v.toNat 7

theorem and_not_mask_eq_zero {v : BitVec 32} : v &&& ~~~0x7F#32 = 0 ↔ v.toNat < 128 := by
  have hsame : v &&& ~~~0x7F#32 = 0 ↔ v = v &&& 0x7F#32 := by
    constructor
    · intro h
      apply BitVec.eq_of_getLsbD_eq
      intro i hi
      have hbit := congrArg (fun x => x.getLsbD i) h
      simp only [BitVec.getLsbD_and, BitVec.getLsbD_not] at hbit ⊢
      cases hx : v.getLsbD i <;> cases hm : (0x7F#32).getLsbD i <;> simp_all
    · intro h
      rw [h, BitVec.and_assoc]
      simp
  rw [hsame, ← BitVec.toNat_inj, and_mask_toNat]
  omega

/-- A word is its low seven bits and the rest, also shifted. -/
theorem split_seven (v : BitVec 32) (n : ℕ) :
    ((v &&& 0x7F#32) <<< n) ||| ((v >>> 7) <<< (n + 7)) = v <<< n := by
  apply BitVec.eq_of_getLsbD_eq
  intro i hi
  have hmask : ∀ j, (0x7F#32).getLsbD j = decide (j < 7) := by
    intro j
    rcases lt_or_ge j 32 with hj | hj
    · interval_cases j <;> rfl
    · rw [BitVec.getLsbD_of_ge _ _ hj, eq_comm, decide_eq_false_iff_not]
      omega
  simp only [BitVec.getLsbD_or, BitVec.getLsbD_shiftLeft, BitVec.getLsbD_and, hmask]
  rcases lt_or_ge i n with h | h
  · simp [h, show i < n + 7 by omega]
  · rcases lt_or_ge i (n + 7) with h' | h'
    · simp [h', show i - n < 7 by omega]
    · simp [show ¬ i < n by omega, show ¬ i < n + 7 by omega, show ¬ i - n < 7 by omega,
        show 7 + (i - (n + 7)) = i - n by omega]

/-- The byte of the low seven bits, with the bit that says more follow. -/
theorem more_byte (v : BitVec 32) :
    (((v &&& 0x7F#32) ||| 0x80#32).setWidth 8 &&& 0x80#8 ≠ 0) ∧
      ((((v &&& 0x7F#32) ||| 0x80#32).setWidth 8 &&& 0x7F#8).setWidth 32 = v &&& 0x7F#32) := by
  have hbyte : ∀ x : BitVec 8, ((x &&& 0x7F#8) ||| 0x80#8) &&& 0x80#8 ≠ 0 ∧
      ((x &&& 0x7F#8) ||| 0x80#8) &&& 0x7F#8 = x &&& 0x7F#8 := by decide
  have hx := hbyte (v.setWidth 8)
  have heq : ((v &&& 0x7F#32) ||| 0x80#32).setWidth 8 =
      ((v.setWidth 8 &&& 0x7F#8) ||| 0x80#8) := by
    rw [BitVec.setWidth_or, BitVec.setWidth_and]
    rfl
  rw [heq, hx.2]
  refine ⟨hx.1, ?_⟩
  apply BitVec.eq_of_toNat_eq
  rw [and_mask_toNat, BitVec.toNat_setWidth]
  change (_ &&& (2 ^ 7 - 1)) % _ = _
  rw [Nat.and_two_pow_sub_one_eq_mod, BitVec.toNat_setWidth]
  omega

theorem last_byte {v : BitVec 32} (hv : v.toNat < 128) :
    v.setWidth 8 &&& 0x80#8 = 0 ∧ (v.setWidth 8 &&& 0x7F#8).setWidth 32 = v ∧
      (v.setWidth 8).toNat = v.toNat := by
  have hbyte : ∀ x : BitVec 8, x.toNat < 128 → x &&& 0x80#8 = 0 ∧ x &&& 0x7F#8 = x := by decide
  have htoNat : (v.setWidth 8).toNat = v.toNat := by
    rw [BitVec.toNat_setWidth]
    omega
  have hx := hbyte (v.setWidth 8) (by omega)
  refine ⟨hx.1, ?_, htoNat⟩
  rw [hx.2]
  apply BitVec.eq_of_toNat_eq
  rw [BitVec.toNat_setWidth]
  omega

/-! ## Round trips -/

theorem readLoop_last {v r : BitVec 32} {n : ℕ} (hv : v.toNat < 128) (h28 : n = 28 → v.toNat < 16)
    (rest : List Byte) : readLoop n r (v.setWidth 8 :: rest) = .ok (r ||| (v <<< n), rest) := by
  obtain ⟨htop, hlow, htoNat⟩ := last_byte hv
  have hcheck : ¬ (n = 28 ∧ (v.setWidth 8).toNat > 0x0F) := by
    rintro ⟨hn, hgt⟩
    omega
  rw [readLoop, if_neg hcheck]
  rw [if_pos htop, hlow]

theorem readLoop_putLoop (fuel k : ℕ) (hk : k + fuel = 4) (v r : BitVec 32)
    (hv : v.toNat < 2 ^ (32 - 7 * k)) (rest : List Byte) :
    readLoop (7 * k) r (putLoop fuel v ++ rest) = .ok (r ||| (v <<< (7 * k)), rest) := by
  induction fuel generalizing k v r with
  | zero =>
    obtain rfl : k = 4 := by omega
    exact readLoop_last (by omega) (fun _ => hv) rest
  | succ fuel ih =>
    unfold putLoop
    by_cases hmore : v &&& ~~~0x7F#32 = 0
    · rw [if_neg (not_not.2 hmore)]
      exact readLoop_last (and_not_mask_eq_zero.1 hmore) (fun h => by omega) rest
    · obtain ⟨htop, hlow⟩ := more_byte v
      have hcheck : ¬ (7 * k = 28 ∧
          (((v &&& 0x7F#32) ||| 0x80#32).setWidth 8).toNat > 0x0F) := fun h => by omega
      have hshift : (v >>> 7).toNat < 2 ^ (32 - 7 * (k + 1)) := by
        rw [BitVec.toNat_ushiftRight, Nat.shiftRight_eq_div_pow,
          Nat.div_lt_iff_lt_mul (by positivity), ← pow_add]
        exact lt_of_lt_of_le hv (Nat.pow_le_pow_right (by decide) (by omega))
      rw [if_pos hmore, List.cons_append, readLoop, if_neg hcheck]
      rw [if_neg htop, hlow, show 7 * k + 7 = 7 * (k + 1) by omega, ih (k + 1) (by omega) _ _ hshift,
        BitVec.or_assoc, show 7 * (k + 1) = 7 * k + 7 by omega, split_seven]

theorem reads_put (v : BitVec 32) : Reads read (put v) v := by
  intro rest
  have h := readLoop_putLoop 4 0 rfl v 0 (by simpa using v.isLt) rest
  simpa [read, put, StateT.run] using h

theorem put_ne_nil (v : BitVec 32) : put v ≠ [] := by
  unfold put putLoop
  split <;> simp

theorem length_put (v : BitVec 32) :
    (put v).length = if v.toNat < 2 ^ 7 then 1 else if v.toNat < 2 ^ 14 then 2
      else if v.toNat < 2 ^ 21 then 3 else if v.toNat < 2 ^ 28 then 4 else 5 := by
  have hshift : ∀ x : BitVec 32, (x >>> 7).toNat = x.toNat / 128 := fun x => by
    rw [BitVec.toNat_ushiftRight, Nat.shiftRight_eq_div_pow]
  simp only [put, putLoop, Ne, and_not_mask_eq_zero, hshift]
  split_ifs <;> first | rfl | omega

theorem sshiftRight_sign (v : BitVec 32) :
    v.sshiftRight 31 = if v.msb then BitVec.allOnes 32 else 0#32 := by
  apply BitVec.eq_of_getLsbD_eq
  intro i hi
  have hmsb : v.msb = v.getLsbD 31 := rfl
  rw [BitVec.getLsbD_sshiftRight]
  rcases Nat.eq_zero_or_pos i with rfl | hpos
  · cases hm : v.msb <;> simp_all [-BitVec.reduceAllOnes]
  · cases hm : v.msb <;> simp_all [-BitVec.reduceAllOnes, show ¬ 31 + i < 32 by omega]

theorem unzigzag_zigzag (v : BitVec 32) : unzigzag (zigzag v) = v := by
  have hmsb : v.msb = v.getLsbD 31 := rfl
  -- the lowest bit is the sign again, in every bit
  have hneg : ∀ u : BitVec 32, -(u &&& 1) = if u.getLsbD 0 then BitVec.allOnes 32 else 0#32 := by
    intro u
    have hone : u &&& 1 = _ := BitVec.and_one_eq_setWidth_ofBool_getLsbD
    rw [hone]
    cases u.getLsbD 0 <;> rfl
  unfold unzigzag zigzag
  rw [sshiftRight_sign, hneg]
  apply BitVec.eq_of_getLsbD_eq
  intro i hi
  rcases Nat.lt_or_ge i 31 with h | h
  · cases hm : v.msb <;> simp [-BitVec.reduceAllOnes, show 1 + i < 32 by omega, hi]
  · obtain rfl : i = 31 := by omega
    cases hm : v.msb <;> simp_all [-BitVec.reduceAllOnes]

end Varint
