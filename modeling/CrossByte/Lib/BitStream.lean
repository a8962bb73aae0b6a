import CrossByte.Lib.Bytes

/-!
# Bits, most significant first

The bits of a number and of a list of bytes as a list of `Bool`s, the most significant first, as
codes of several lengths are packed into bytes.
-/

namespace BitStream

open Bytes (Byte)

/-- The low `k` bits of a number, most significant first. -/
def bitsOf : ℕ → ℕ → List Bool
  | 0, _ => []
  | k + 1, n => n.testBit k :: bitsOf k n

def byteBits (b : Byte) : List Bool := bitsOf 8 b.toNat

def bits (l : List Byte) : List Bool := l.flatMap byteBits

variable {k m n t f c : ℕ}

@[simp] theorem length_bitsOf (k n : ℕ) : (bitsOf k n).length = k := by
  induction k with
  | zero => rfl
  | succ k ih => rw [bitsOf, List.length_cons, ih]

@[simp] theorem bits_append (l l' : List Byte) : bits (l ++ l') = bits l ++ bits l' :=
  List.flatMap_append

@[simp] theorem bits_singleton (b : Byte) : bits [b] = byteBits b := by simp [bits]

@[simp] theorem length_bits (l : List Byte) : (bits l).length = 8 * l.length := by
  induction l with
  | nil => rfl
  | cons b l ih =>
    have hb : (byteBits b).length = 8 := length_bitsOf ..
    have hcons : bits (b :: l) = byteBits b ++ bits l := rfl
    rw [hcons, List.length_append, List.length_cons]
    omega

theorem bitsOf_congr (h : ∀ i < k, m.testBit i = n.testBit i) : bitsOf k m = bitsOf k n := by
  induction k with
  | zero => rfl
  | succ k ih => rw [bitsOf, bitsOf, h k (Nat.lt_succ_self k), ih fun i hi => h i (by omega)]

theorem testBit_of_bitsOf (h : bitsOf k m = bitsOf k n) : ∀ i < k, m.testBit i = n.testBit i := by
  induction k with
  | zero => exact fun i hi => absurd hi (Nat.not_lt_zero i)
  | succ k ih =>
    obtain ⟨hk, hrest⟩ := List.cons.inj h
    intro i hi
    rcases Nat.lt_succ_iff_lt_or_eq.1 hi with hlt | rfl
    · exact ih hrest i hlt
    · exact hk

theorem bits_injective : Function.Injective bits := by
  intro l l' h
  induction l generalizing l' with
  | nil =>
    have hlen := congrArg List.length h
    exact (List.length_eq_zero_iff.1 (by simpa using hlen.symm)).symm
  | cons b l ih =>
    cases l' with
    | nil =>
      have hlen := congrArg List.length h
      simp at hlen
    | cons b' l' =>
      have hlen : (byteBits b).length = (byteBits b').length := by simp [byteBits]
      obtain ⟨hb, hl⟩ := List.append_inj (show byteBits b ++ bits l = byteBits b' ++ bits l' from h) hlen
      have hbyte : b = b' := BitVec.eq_of_getLsbD_eq fun i hi => testBit_of_bitsOf hb i hi
      rw [hbyte, ih hl]

theorem bitsOf_add (a b n : ℕ) : bitsOf (a + b) n = bitsOf a (n >>> b) ++ bitsOf b n := by
  induction a with
  | zero => rw [Nat.zero_add]; rfl
  | succ a ih =>
    rw [show a + 1 + b = (a + b) + 1 by omega, bitsOf, bitsOf, ih, List.cons_append,
      Nat.testBit_shiftRight, Nat.add_comm b a]

/-- The bits of a number shifted left, with others in the place made. -/
theorem bitsOf_shiftLeft_or (hm : m < 2 ^ t) :
    bitsOf (f + t) (c <<< t ||| m) = bitsOf f c ++ bitsOf t m := by
  rw [bitsOf_add]
  congr 1
  · refine bitsOf_congr fun i _ => ?_
    have hbit : m.testBit (t + i) = false :=
      Nat.testBit_lt_two_pow (hm.trans_le (Nat.pow_le_pow_right (by decide) (by omega)))
    rw [Nat.testBit_shiftRight, Nat.testBit_or, Nat.testBit_shiftLeft, hbit]
    simp
  · refine bitsOf_congr fun i hi => ?_
    simp [show ¬ t ≤ i by omega]

/-- A number under a mask of `t` ones. -/
theorem bitsOf_and_mask (m t : ℕ) : bitsOf t (m &&& (1 <<< t - 1)) = bitsOf t m := by
  refine bitsOf_congr fun i hi => ?_
  rw [Nat.one_shiftLeft, Nat.testBit_and]
  simp [hi]

theorem and_mask_lt (m t : ℕ) : m &&& (1 <<< t - 1) < 2 ^ t := by
  rw [Nat.one_shiftLeft, Nat.and_two_pow_sub_one_eq_mod]
  exact Nat.mod_lt _ (by positivity)

theorem bitsOf_ones (t : ℕ) : bitsOf t (1 <<< t - 1) = List.replicate t true := by
  have h : ∀ k ≤ t, bitsOf k (1 <<< t - 1) = List.replicate k true := by
    intro k
    induction k with
    | zero => intro _; rfl
    | succ k ih =>
      intro hk
      rw [bitsOf, ih (by omega), Nat.one_shiftLeft, List.replicate_succ]
      simp [show k < t by omega]
  exact h t (le_refl t)

theorem byteBits_ofNat (n : ℕ) : byteBits (BitVec.ofNat 8 (n &&& 0xff)) = bitsOf 8 n := by
  refine bitsOf_congr fun i hi => ?_
  have hmask : n &&& 0xff = n % 2 ^ 8 := Nat.and_two_pow_sub_one_eq_mod n 8
  rw [BitVec.toNat_ofNat, hmask, Nat.mod_mod, Nat.testBit_mod_two_pow]
  simp [hi]

end BitStream
