import Mathlib.Data.BitVec
import Mathlib.Tactic

/-!
# Serial numbers on a 32-bit circle

A serial number is a 32-bit word that wraps.  Two of them are compared by the
difference between them, read in one of two ways:

* `Serial.dist a b`, the number of steps forward from `b` to `a`, from `0` to
  `2 ^ 32 - 1`;
* `Serial.ahead a b`, the same difference read as a signed number, which is how
  a program that writes `(a - b) | 0` sees it.

The two agree while the distance is below `2 ^ 31`.  The other results say when
arithmetic on the circle is arithmetic on the integers: the image of `a` is
`ahead` of the image of `b` by `a - b` as long as that difference fits.
-/

namespace Serial

/-- A number on the 32-bit circle. -/
abbrev Word := BitVec 32

/-- Masking with a power of two less one is the remainder, also where the mask is wider than the
number. -/
theorem toNat_and_mask (s : Word) (k : ℕ) :
    (s &&& BitVec.ofNat 32 (2 ^ k - 1)).toNat = s.toNat % 2 ^ k := by
  rw [BitVec.toNat_and, BitVec.toNat_ofNat]
  rcases Nat.lt_or_ge k 33 with hlt | hge
  · have hle : 2 ^ k ≤ 2 ^ 32 := Nat.pow_le_pow_right (by decide) (by omega)
    rw [Nat.mod_eq_of_lt (by omega), Nat.and_two_pow_sub_one_eq_mod]
  · have hdvd : (2 : ℕ) ^ 32 ∣ 2 ^ k := pow_dvd_pow 2 (by omega)
    have hlarge : 2 ^ 32 ≤ 2 ^ k := Nat.pow_le_pow_right (by decide) (by omega)
    have hmask : (2 ^ k - 1) % 2 ^ 32 = 2 ^ 32 - 1 := by
      obtain ⟨m, hm⟩ := hdvd
      omega
    have hs := s.isLt
    rw [hmask, Nat.and_two_pow_sub_one_eq_mod, Nat.mod_eq_of_lt hs, Nat.mod_eq_of_lt (by omega)]

/-- How far forward from `b` one goes to reach `a`. -/
def dist (a b : Word) : ℕ := (a - b).toNat

/-- The signed difference of `a` and `b`, wrapped to 32 bits. -/
def ahead (a b : Word) : ℤ := (a - b).toInt

theorem dist_lt (a b : Word) : dist a b < 2 ^ 32 := (a - b).isLt

theorem dist_eq (a b : Word) : dist a b = (2 ^ 32 - b.toNat + a.toNat) % 2 ^ 32 :=
  BitVec.toNat_sub a b

theorem ahead_eq_dist (a b : Word) :
    ahead a b = if dist a b < 2 ^ 31 then (dist a b : ℤ) else (dist a b : ℤ) - 2 ^ 32 := by
  unfold ahead dist
  rw [BitVec.toInt_eq_toNat_cond]
  split <;> split <;> push_cast <;> omega

@[simp] theorem dist_self (a : Word) : dist a a = 0 := by simp [dist]

/-- A signed difference lies in the range of a signed word. -/
theorem ahead_bounds (a b : Word) : -2 ^ 31 ≤ ahead a b ∧ ahead a b < 2 ^ 31 := by
  rw [ahead_eq_dist]
  have := dist_lt a b
  split <;> omega

/-- Within `n ≤ 2 ^ 31` steps, the signed reading and the distance agree. -/
theorem ahead_mem_Ico_iff {a b : Word} {n : ℕ} (hn : n ≤ 2 ^ 31) :
    (0 ≤ ahead a b ∧ ahead a b < n) ↔ dist a b < n := by
  rw [ahead_eq_dist]
  have := dist_lt a b
  split <;> omega

theorem dist_mod (a b : Word) : (dist a b + b.toNat) % 2 ^ 32 = a.toNat := by
  rw [dist_eq]
  omega

/-- Two numbers equally far behind a third are the same. -/
theorem dist_left_injective {a b c : Word} (h : dist c a = dist c b) : a = b := by
  apply BitVec.eq_of_toNat_eq
  rw [dist_eq, dist_eq] at h
  omega

/-- Numbers within `2 ^ k` behind a common one are told apart by their remainders
modulo `2 ^ k`. -/
theorem eq_of_mod_two_pow {k : ℕ} (hk : k ≤ 32) {a b c : Word}
    (ha : dist c a < 2 ^ k) (hb : dist c b < 2 ^ k)
    (h : a.toNat % 2 ^ k = b.toNat % 2 ^ k) : a = b := by
  apply dist_left_injective (c := c)
  have hdvd : (2 ^ k : ℕ) ∣ 2 ^ 32 := pow_dvd_pow 2 hk
  -- both distances are congruent to `c - a` modulo the ring's size
  have hca : (dist c a + a.toNat) ≡ c.toNat [MOD 2 ^ k] :=
    (Nat.ModEq.symm (by rw [← dist_mod c a]; exact Nat.mod_modEq _ _)).of_dvd hdvd
  have hcb : (dist c b + b.toNat) ≡ c.toNat [MOD 2 ^ k] :=
    (Nat.ModEq.symm (by rw [← dist_mod c b]; exact Nat.mod_modEq _ _)).of_dvd hdvd
  have hsum : (dist c a + a.toNat) ≡ (dist c b + b.toNat) [MOD 2 ^ k] := hca.trans hcb.symm
  have hd : dist c a ≡ dist c b [MOD 2 ^ k] := Nat.ModEq.add_right_cancel h hsum
  exact Nat.ModEq.eq_of_lt_of_lt hd ha hb

/-- The images of two integers that differ by less than half a turn differ by as much. -/
theorem ahead_ofInt {a b : ℤ} (h₁ : -2 ^ 31 ≤ a - b) (h₂ : a - b < 2 ^ 31) :
    ahead (BitVec.ofInt 32 a) (BitVec.ofInt 32 b) = a - b := by
  have hb : ((a.bmod (2 ^ 32)) - (b.bmod (2 ^ 32))).bmod (2 ^ 32) = (a - b).bmod (2 ^ 32) := by
    rw [Int.bmod_sub_bmod, Int.sub_bmod_bmod]
  rw [ahead, BitVec.toInt_sub, BitVec.toInt_ofInt, BitVec.toInt_ofInt, hb,
    Int.bmod_eq_of_le (by omega) (by omega)]

theorem ahead_ofNat {a b : ℕ} (h₁ : -2 ^ 31 ≤ (a : ℤ) - b) (h₂ : (a : ℤ) - b < 2 ^ 31) :
    ahead (BitVec.ofNat 32 a) (BitVec.ofNat 32 b) = (a : ℤ) - b := by
  rw [← BitVec.ofInt_natCast, ← BitVec.ofInt_natCast]
  exact ahead_ofInt h₁ h₂
/-! ## Unsigned comparison

Flipping the top bit turns the signed order into the unsigned one. -/

theorem xor_top_of_lt {n : ℕ} (hn : n < 2 ^ 31) : n ^^^ 2 ^ 31 = n + 2 ^ 31 := by
  have hor := Nat.two_pow_add_eq_or_of_lt hn 1
  rw [mul_one] at hor
  rw [Nat.add_comm, hor]
  apply Nat.eq_of_testBit_eq
  intro j
  rw [Nat.testBit_xor, Nat.testBit_or, Nat.testBit_two_pow]
  by_cases hj : 31 = j
  · subst hj
    simp [Nat.testBit_lt_two_pow hn]
  · simp [hj]

theorem toNat_xor_top (a : Word) :
    (a ^^^ 0x80000000#32).toNat =
      if a.toNat < 2 ^ 31 then a.toNat + 2 ^ 31 else a.toNat - 2 ^ 31 := by
  change a.toNat ^^^ 2 ^ 31 = _
  split
  · rename_i h
    exact xor_top_of_lt h
  · rename_i h
    have hr := xor_top_of_lt (n := a.toNat - 2 ^ 31) (by omega)
    rw [Nat.sub_add_cancel (not_lt.1 h)] at hr
    rw [← hr, Nat.xor_assoc, Nat.xor_self, Nat.xor_zero]
    omega

/-- The signed order of the words with their top bits flipped is the unsigned order. -/
theorem slt_xor_top {a b : Word} :
    (a ^^^ 0x80000000#32).slt (b ^^^ 0x80000000#32) = true ↔ a.toNat < b.toNat := by
  rw [BitVec.slt_eq_decide, decide_eq_true_iff, BitVec.toInt_eq_toNat_cond,
    BitVec.toInt_eq_toNat_cond, toNat_xor_top, toNat_xor_top]
  split <;> split <;> split <;> split <;> omega

end Serial
