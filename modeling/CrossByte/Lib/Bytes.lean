import Mathlib.Data.BitVec
import Mathlib.Tactic

/-!
# Words as bytes

A 32-bit word written as four bytes, most significant first, and read back with
shifts and ors.
-/

namespace Bytes

abbrev Byte := BitVec 8

/-- Byte `k` of a word, counted from the least significant. -/
def byteOf (x : BitVec 32) (k : ℕ) : Byte := (x >>> (8 * k)).setWidth 8

/-- The four bytes of a word, most significant first. -/
def putInt (x : BitVec 32) : List Byte := [byteOf x 3, byteOf x 2, byteOf x 1, byteOf x 0]

/-- The word of four bytes, most significant first. -/
def getInt (a b c d : Byte) : BitVec 32 :=
  (a.setWidth 32 <<< 24) ||| (b.setWidth 32 <<< 16) ||| (c.setWidth 32 <<< 8) ||| d.setWidth 32

@[simp] theorem length_putInt (x : BitVec 32) : (putInt x).length = 4 := rfl

theorem toNat_byteOf (x : BitVec 32) (k : ℕ) : (byteOf x k).toNat = x.toNat / 2 ^ (8 * k) % 256 := by
  simp [byteOf, Nat.shiftRight_eq_div_pow]

theorem eq_of_byteOf {x y : BitVec 32} (h : ∀ k < 4, byteOf x k = byteOf y k) : x = y := by
  apply BitVec.eq_of_toNat_eq
  have hbyte : ∀ k < 4, x.toNat / 2 ^ (8 * k) % 256 = y.toNat / 2 ^ (8 * k) % 256 := fun k hk => by
    rw [← toNat_byteOf, ← toNat_byteOf, h k hk]
  have h0 := hbyte 0 (by decide)
  have h1 := hbyte 1 (by decide)
  have h2 := hbyte 2 (by decide)
  have h3 := hbyte 3 (by decide)
  norm_num at h0 h1 h2 h3
  omega

theorem getInt_byteOf (x : BitVec 32) :
    getInt (byteOf x 3) (byteOf x 2) (byteOf x 1) (byteOf x 0) = x := by
  apply BitVec.eq_of_getLsbD_eq
  intro i hi
  simp only [getInt, byteOf]
  rcases lt_or_ge i 8 with h | h
  · simp [h, hi, show i < 16 by omega, show i < 24 by omega]
  · rcases lt_or_ge i 16 with h' | h'
    · simp [hi, h', show i < 24 by omega, show ¬ i < 8 by omega, show i - 8 < 8 by omega,
        show 8 + (i - 8) = i by omega, show i - 8 < 32 by omega]
    · rcases lt_or_ge i 24 with h'' | h''
      · simp [hi, h'', show ¬ i < 16 by omega, show i - 16 < 8 by omega,
          show ¬ i - 8 < 8 by omega, show 16 + (i - 16) = i by omega,
          show i - 16 < 32 by omega]
      · simp [hi, show ¬ i < 24 by omega, show i - 24 < 8 by omega, show ¬ i - 16 < 8 by omega, show ¬ i - 8 < 8 by omega,
          show 24 + (i - 24) = i by omega, show i - 24 < 32 by omega]

end Bytes
