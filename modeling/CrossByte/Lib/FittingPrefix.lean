import Mathlib.Tactic

/-!
# The longest prefix that fits

A bounded list that keeps its newest entries at the front lets go of the oldest until the rest fits.
What stays is the longest prefix whose sizes sum to at most the bound, `fit size room l`, however
the letting go is written as a loop.
-/

namespace FittingPrefix

variable {α β : Type*} {size size' : α → ℕ} {room room' : ℕ} {l l' : List α} {a : α}

/-- The longest prefix whose sizes sum to at most `room`. -/
def fit (size : α → ℕ) : ℕ → List α → List α
  | _, [] => []
  | room, a :: l => if size a ≤ room then a :: fit size (room - size a) l else []

/-- The sizes of a list together. -/
def total (size : α → ℕ) (l : List α) : ℕ := (l.map size).sum

@[simp] theorem total_nil : total size ([] : List α) = 0 := rfl

@[simp] theorem total_cons : total size (a :: l) = size a + total size l := by simp [total]

@[simp] theorem total_append : total size (l ++ l') = total size l + total size l' := by
  simp [total]

@[simp] theorem fit_nil : fit size room [] = [] := rfl

theorem fit_cons_of_le (h : size a ≤ room) :
    fit size room (a :: l) = a :: fit size (room - size a) l := if_pos h

theorem fit_cons_of_lt (h : room < size a) : fit size room (a :: l) = [] := if_neg (by omega)

theorem prefix_fit (size : α → ℕ) (room : ℕ) (l : List α) : fit size room l <+: l := by
  induction l generalizing room with
  | nil => exact List.prefix_refl []
  | cons a l ih =>
    rcases le_or_gt (size a) room with h | h
    · rw [fit_cons_of_le h]
      exact (List.prefix_cons_inj a).2 (ih _)
    · rw [fit_cons_of_lt h]
      exact List.nil_prefix

theorem total_fit_le (size : α → ℕ) (room : ℕ) (l : List α) :
    total size (fit size room l) ≤ room := by
  induction l generalizing room with
  | nil => exact Nat.zero_le room
  | cons a l ih =>
    rcases le_or_gt (size a) room with h | h
    · rw [fit_cons_of_le h, total_cons]
      have := ih (room - size a)
      omega
    · rw [fit_cons_of_lt h]
      exact Nat.zero_le room

theorem fit_eq_self (h : total size l ≤ room) : fit size room l = l := by
  induction l generalizing room with
  | nil => rfl
  | cons a l ih =>
    rw [total_cons] at h
    rw [fit_cons_of_le (by omega), ih (by omega)]

/-- A list that does not fit may as well lose its last entry first. -/
theorem fit_concat (h : room < total size (l ++ [a])) :
    fit size room (l ++ [a]) = fit size room l := by
  induction l generalizing room with
  | nil =>
    rw [List.nil_append, total_cons, total_nil] at h
    exact fit_cons_of_lt (by omega)
  | cons b l ih =>
    rcases le_or_gt (size b) room with hb | hb
    · rw [List.cons_append, total_cons] at h
      rw [List.cons_append, fit_cons_of_le hb, fit_cons_of_le hb, ih (by omega)]
    · rw [List.cons_append, fit_cons_of_lt hb, fit_cons_of_lt hb]

/-- More room and more entries behind keep what was kept. -/
theorem fit_mono (h : l <+: l') (hroom : room ≤ room') : fit size room l <+: fit size room' l' := by
  induction l generalizing room room' l' with
  | nil => exact List.nil_prefix
  | cons a l ih =>
    obtain ⟨t, rfl⟩ := h
    rcases le_or_gt (size a) room with ha | ha
    · rw [List.cons_append, fit_cons_of_le ha, fit_cons_of_le (ha.trans hroom)]
      exact (List.prefix_cons_inj a).2 (ih (List.prefix_append l t) (by omega))
    · rw [fit_cons_of_lt ha]
      exact List.nil_prefix

theorem fit_map {size : β → ℕ} {f : α → β} (h : ∀ a ∈ l, size (f a) = size' a) :
    fit size room (l.map f) = (fit size' room l).map f := by
  induction l generalizing room with
  | nil => rfl
  | cons a l ih =>
    have ha := h a List.mem_cons_self
    have hl : fit size (room - size' a) (l.map f) = (fit size' (room - size' a) l).map f :=
      ih fun b hb => h b (List.mem_cons_of_mem a hb)
    rw [List.map_cons]
    rcases le_or_gt (size' a) room with hle | hlt
    · rw [fit_cons_of_le (ha ▸ hle), fit_cons_of_le hle, ha, hl, List.map_cons]
    · rw [fit_cons_of_lt (ha ▸ hlt), fit_cons_of_lt hlt, List.map_nil]

end FittingPrefix
