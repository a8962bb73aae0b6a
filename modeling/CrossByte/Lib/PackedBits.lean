import Mathlib.Data.BitVec
import Mathlib.Tactic

/-!
# Flags packed into words

A row of flags kept `w` to a word, as programs keep them: flag `i` is bit
`i % w` of word `i / w`, tested with a shifted one, set with an or, and cleared
with the complement of the mask.  The two lemmas to use are `has_set` and
`has_clear`: an update touches its own flag and no other.
-/

namespace PackedBits

variable {w : ℕ}

/-- The words of a row of flags. -/
abbrev Row (w : ℕ) := ℕ → BitVec w

/-- The word with only the bit of flag `i`. -/
def mask (w i : ℕ) : BitVec w := 1#w <<< (i % w)

/-- Whether flag `i` is set. -/
def has (a : Row w) (i : ℕ) : Bool := a (i / w) &&& mask w i != 0

/-- Set flag `i`. -/
def set (a : Row w) (i : ℕ) : Row w := Function.update a (i / w) (a (i / w) ||| mask w i)

/-- Clear flag `i`. -/
def clear (a : Row w) (i : ℕ) : Row w := Function.update a (i / w) (a (i / w) &&& ~~~mask w i)

def allClear (w : ℕ) : Row w := fun _ => 0

@[simp] theorem has_allClear (i : ℕ) : has (allClear w) i = false := by simp [has, allClear]

theorem getLsbD_mask {i j : ℕ} (hi : i % w < w) :
    (mask w i).getLsbD j = decide (j = i % w) := by
  rw [mask, ← BitVec.twoPow_eq]
  simp [hi, eq_comm]

theorem has_eq_getLsbD (hw : 0 < w) (a : Row w) (i : ℕ) :
    has a i = (a (i / w)).getLsbD (i % w) := by
  have hi : i % w < w := Nat.mod_lt i hw
  have hne : BitVec.twoPow w (i % w) ≠ 0#w := by
    intro h
    have hbit := congrArg (fun y => y.getLsbD (i % w)) h
    simp [hi] at hbit
  rw [has, mask, ← BitVec.twoPow_eq, BitVec.and_twoPow]
  cases hx : (a (i / w)).getLsbD (i % w) <;> simp [hne]

theorem eq_iff_of_div_eq {i j : ℕ} (h : j / w = i / w) : j = i ↔ j % w = i % w := by
  refine ⟨fun hji => hji ▸ rfl, fun hmod => ?_⟩
  rw [← Nat.div_add_mod j w, ← Nat.div_add_mod i w, h, hmod]

theorem has_set (hw : 0 < w) (a : Row w) (i j : ℕ) :
    has (set a i) j = (decide (j = i) || has a j) := by
  have hi : i % w < w := Nat.mod_lt i hw
  simp only [has_eq_getLsbD hw, set]
  by_cases hword : j / w = i / w
  · simp [hword, getLsbD_mask hi, eq_iff_of_div_eq hword, Bool.or_comm]
  · have hne : j ≠ i := by rintro rfl; exact hword rfl
    simp [hword, hne]

theorem has_clear (hw : 0 < w) (a : Row w) (i j : ℕ) :
    has (clear a i) j = (decide (j ≠ i) && has a j) := by
  have hi : i % w < w := Nat.mod_lt i hw
  have hj : j % w < w := Nat.mod_lt j hw
  simp only [has_eq_getLsbD hw, clear, Function.update_apply]
  by_cases hword : j / w = i / w
  · simp only [hword, if_true, BitVec.getLsbD_and, BitVec.getLsbD_not, hj, getLsbD_mask hi]
    by_cases h : j = i
    · simp [h]
    · have hmod : j % w ≠ i % w := fun hmod => h ((eq_iff_of_div_eq hword).2 hmod)
      simp [h, hmod]
  · have hne : j ≠ i := by rintro rfl; exact hword rfl
    simp [hword, hne]

end PackedBits
