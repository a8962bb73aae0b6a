import Mathlib.Tactic

/-!
# Sums over a finite type

How a sum of integers changes when one of them does.
-/

namespace FinSum

variable {ι : Type*} [Fintype ι]

theorem le_sum {f : ι → ℤ} (h : ∀ x, 0 ≤ f x) (i : ι) : f i ≤ ∑ x, f x :=
  Finset.single_le_sum (fun x _ => h x) (Finset.mem_univ i)

variable [DecidableEq ι]

theorem sum_update (f : ι → ℤ) (i : ι) (a : ℤ) :
    ∑ x, Function.update f i a x = ∑ x, f x + (a - f i) := by
  have hsum := Finset.sum_update_of_mem (Finset.mem_univ i) f a
  have hsplit := Finset.add_sum_erase Finset.univ f (Finset.mem_univ i)
  rw [hsum, Finset.sdiff_singleton_eq_erase]
  omega

theorem sum_eq_of_differ {f g : ι → ℤ} {i : ι} (h : ∀ x, x ≠ i → g x = f x) :
    ∑ x, g x = ∑ x, f x + (g i - f i) := by
  have hg : g = Function.update f i (g i) := by
    ext x
    by_cases hx : x = i
    · subst hx; simp
    · simp [hx, h x hx]
  rw [hg, sum_update, Function.update_self]

end FinSum
