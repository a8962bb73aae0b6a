import Mathlib.Data.List.Lex
import Mathlib.Tactic

/-!
# The wire order of string keys

`RPCMaps` writes the keys of a map in the order of their UTF-16 units.  A target whose strings are
code points compares them with `__byUnits`, by the units of the first code point that differs.
-/

namespace CrossByte.RPCMaps

/-- `byUnitsOf`, of two different code points. -/
def byUnitsOf (x y : ℤ) : ℤ :=
  let xUnit := if x ≥ 0x10000 then 0xD800 + (x - 0x10000) / 2 ^ 10 else x
  let yUnit := if y ≥ 0x10000 then 0xD800 + (y - 0x10000) / 2 ^ 10 else y
  if xUnit ≠ yUnit then xUnit - yUnit else (x - 0x10000) % 2 ^ 10 - (y - 0x10000) % 2 ^ 10

/-- `__byUnits`, of strings that are code points. -/
def byUnits : List Char → List Char → ℤ
  | x :: a, y :: b => if x ≠ y then byUnitsOf x.toNat y.toNat else byUnits a b
  | a, b => a.length - b.length

/-- The UTF-16 units of a code point. -/
def unitsOf (c : Char) : List ℕ :=
  if c.toNat < 0x10000 then [c.toNat]
  else [0xD800 + (c.toNat - 0x10000) / 2 ^ 10, 0xDC00 + (c.toNat - 0x10000) % 2 ^ 10]

/-- The UTF-16 units of a string. -/
def units (a : List Char) : List ℕ := a.flatMap unitsOf

theorem byUnitsOf_spec {x y : Char} (h : x ≠ y) (a b : List ℕ) :
    byUnitsOf x.toNat y.toNat ≠ 0 ∧
      (byUnitsOf x.toNat y.toNat < 0 ↔ unitsOf x ++ a < unitsOf y ++ b) ∧
      (0 < byUnitsOf x.toNat y.toNat ↔ unitsOf y ++ b < unitsOf x ++ a) := by
  have hne : x.toNat ≠ y.toNat := fun he => h (Char.toNat_inj.1 he)
  have hx : x.toNat < 0xD800 ∨ 0xDFFF < x.toNat ∧ x.toNat < 0x110000 := x.valid
  have hy : y.toNat < 0xD800 ∨ 0xDFFF < y.toNat ∧ y.toNat < 0x110000 := y.valid
  unfold byUnitsOf unitsOf
  generalize x.toNat = x at *
  generalize y.toNat = y at *
  -- no code point is a surrogate, so two first units that are the same are both high ones
  split_ifs <;> simp only [List.cons_append, List.nil_append, List.cons_lt_cons_iff] <;> omega

theorem byUnits_spec (a b : List Char) : (byUnits a b = 0 ↔ a = b) ∧
    (byUnits a b < 0 ↔ units a < units b) ∧ (0 < byUnits a b ↔ units b < units a) := by
  have hne : ∀ (c : Char) (l : List Char), [] < units (c :: l) := by
    intro c l
    rw [units, List.flatMap_cons, unitsOf]
    split <;> exact List.nil_lt_cons ..
  fun_induction byUnits a b with
  | case1 x a y b h =>
    have hspec := byUnitsOf_spec h (units a) (units b)
    exact ⟨by simp [hspec.1, h], hspec.2⟩
  | case2 x a y b h ih =>
    obtain rfl := not_not.1 h
    have hcons : ∀ l m : List ℕ, unitsOf x ++ l < unitsOf x ++ m ↔ l < m := by
      unfold unitsOf
      split <;> simp
    rw [ih.1, ih.2.1, ih.2.2, List.cons_inj_right]
    exact ⟨.rfl, (hcons ..).symm, (hcons ..).symm⟩
  | case3 a b h =>
    cases a with
    | nil =>
      cases b with
      | nil => simp
      | cons y b =>
        have hlt : units [] < units (y :: b) := hne y b
        simp only [hlt, hlt.not_gt, List.length_nil, List.length_cons, reduceCtorEq, iff_true,
          iff_false]
        omega
    | cons x a =>
      cases b with
      | nil =>
        have hlt : units [] < units (x :: a) := hne x a
        simp only [hlt, hlt.not_gt, List.length_nil, List.length_cons, reduceCtorEq, iff_true,
          iff_false]
        omega
      | cons y b => exact (h x a y b rfl rfl).elim

/-- **`__byUnits` compares by the units, and is a strict total order.** -/
theorem byUnits_is_unit_order :
    (∀ a b, (byUnits a b = 0 ↔ a = b) ∧ (byUnits a b < 0 ↔ units a < units b) ∧
      (0 < byUnits a b ↔ units b < units a)) ∧
    IsStrictTotalOrder (List Char) fun a b => byUnits a b < 0 := by
  refine ⟨byUnits_spec, ?_⟩
  have hinj : units.Injective := by
    intro a b h
    have hspec := byUnits_spec a b
    rw [h, iff_false_right (lt_irrefl _), iff_false_right (lt_irrefl _)] at hspec
    exact hspec.1.1 (by omega)
  exact (RelEmbedding.mk ⟨units, hinj⟩ (byUnits_spec _ _).2.1.symm :
    (fun a b => byUnits a b < 0) ↪r (· < ·)).isStrictTotalOrder

end CrossByte.RPCMaps
