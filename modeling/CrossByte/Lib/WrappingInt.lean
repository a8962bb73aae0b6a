import Mathlib.Tactic.Linarith

/-!
# Integers that wrap at 32 bits

`wrap n` is what a 32-bit signed integer holds after an operation whose result is `n`.
-/

namespace WrappingInt

/-- `n` as a 32-bit signed integer holds it. -/
def wrap (n : ℤ) : ℤ := n.bmod (2 ^ 32)

theorem wrap_eq {n : ℤ} (hlo : -2 ^ 31 ≤ n) (hhi : n < 2 ^ 31) : wrap n = n :=
  Int.bmod_eq_of_le (by omega) (by omega)

@[simp] theorem wrap_wrap_add (a b : ℤ) : wrap (wrap a + b) = wrap (a + b) := Int.bmod_add_bmod

@[simp] theorem wrap_wrap_sub (a b : ℤ) : wrap (wrap a - b) = wrap (a - b) := by
  rw [sub_eq_add_neg, wrap_wrap_add, sub_eq_add_neg]

theorem wrap_natCast_eq_iff (n : ℕ) : wrap n = n ↔ n < 2 ^ 31 := by
  constructor
  · intro h
    have hlt : (n : ℤ).bmod (2 ^ 32) < 2 ^ 31 := by
      have := Int.bmod_lt (x := n) (m := 2 ^ 32) (by decide)
      omega
    rw [wrap] at h
    omega
  · intro h
    exact wrap_eq (by omega) (by exact_mod_cast h)

end WrappingInt
