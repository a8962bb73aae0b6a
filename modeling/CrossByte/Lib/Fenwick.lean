import Mathlib.Data.BitVec
import Mathlib.Tactic

/-!
# Fenwick trees

A Fenwick tree over places `0, 1, …` keeps in its cell `i`, counted from 1, how many of the
last `low i` places below `i` are marked, where `low i` is the greatest power of two that
divides `i`.  So the places below `i` are those of cell `i` and those below `i - low i`, and
the cells that count a place are found by adding `low` again and again.

* `Covers.up`, `Covers.next`: the cells that count a place, in order.
* `Cells.insert`: what an update has to do.
* `low_add_pow`: the cell a search by halves looks at.
* `toNat_and_neg`: `low` as programs compute it.
-/

namespace Fenwick

variable {i j r a n e : ℕ}

/-- The greatest power of two that divides `i`. -/
def low (i : ℕ) : ℕ := 2 ^ padicValNat 2 i

theorem low_pos (i : ℕ) : 0 < low i := by
  unfold low
  positivity

theorem low_dvd (i : ℕ) : low i ∣ i := pow_padicValNat_dvd

theorem not_two_mul_low_dvd (h : 0 < i) : ¬ 2 * low i ∣ i := by
  rw [low, ← pow_succ']
  exact pow_succ_padicValNat_not_dvd h.ne'

theorem pow_dvd_low (hi : 0 < i) (h : 2 ^ e ∣ i) : 2 ^ e ∣ low i :=
  pow_dvd_pow 2 ((padicValNat_dvd_iff_le hi.ne').1 h)

theorem low_eq (hi : 0 < i) (h : 2 ^ e ∣ i) (h' : ¬ 2 ^ (e + 1) ∣ i) : low i = 2 ^ e := by
  have hle : e ≤ padicValNat 2 i := (padicValNat_dvd_iff_le hi.ne').1 h
  have hlt : ¬ e + 1 ≤ padicValNat 2 i := fun hle => h' ((padicValNat_dvd_iff_le hi.ne').2 hle)
  rw [low, show padicValNat 2 i = e by omega]

/-- The cell in the middle of a stretch of `2 * 2 ^ e` places counts its first half. -/
theorem low_add_pow (h : 2 ^ (e + 1) ∣ i) : low (i + 2 ^ e) = 2 ^ e := by
  have hpow : 2 ^ e ∣ 2 ^ (e + 1) := pow_dvd_pow 2 (Nat.le_succ e)
  refine low_eq (by positivity) ((hpow.trans h).add (dvd_refl _)) fun hd => ?_
  have hle := Nat.le_of_dvd (by positivity) ((Nat.dvd_add_right h).1 hd)
  omega

theorem exists_eq_low_mul (h : 0 < i) : ∃ q, i = low i * (2 * q + 1) := by
  obtain ⟨q, hq⟩ := low_dvd i
  have hodd : ¬ 2 ∣ q := by
    rintro ⟨t, rfl⟩
    exact not_two_mul_low_dvd h ⟨t, hq.trans (by ring)⟩
  refine ⟨q / 2, ?_⟩
  rwa [show 2 * (q / 2) + 1 = q by omega]

theorem two_mul_low_le (h : 0 < i) : 2 * low i ≤ low (i + low i) := by
  obtain ⟨q, hq⟩ := exists_eq_low_mul h
  have hdvd : 2 ^ (padicValNat 2 i + 1) ∣ i + low i := by
    refine ⟨q + 1, ?_⟩
    calc i + low i = low i * (2 * q + 1) + low i := by rw [← hq]
      _ = 2 ^ (padicValNat 2 i + 1) * (q + 1) := by rw [low]; ring
  have hle := Nat.le_of_dvd (low_pos _) (pow_dvd_low (by omega) hdvd)
  rwa [pow_succ'] at hle

/-- A cell between two of one chain counts no place of the first. -/
theorem le_sub_low (hij : i < j) (hj : j < i + low i) : i ≤ j - low j := by
  have hdvd : low j ∣ j - i := by
    refine Nat.dvd_sub (low_dvd j) ?_
    rcases le_total (padicValNat 2 i) (padicValNat 2 j) with hle | hle
    · -- then `low i` divides a number below it
      have hsub : low i ∣ j - i :=
        Nat.dvd_sub ((pow_dvd_pow 2 hle).trans (low_dvd j)) (low_dvd i)
      have := Nat.le_of_dvd (by omega) hsub
      omega
    · exact (pow_dvd_pow 2 hle).trans (low_dvd i)
  have := Nat.le_of_dvd (by omega) hdvd
  omega

/-- Cell `i` counts place `r`. -/
def Covers (i r : ℕ) : Prop := i - low i ≤ r ∧ r < i

instance (i r : ℕ) : Decidable (Covers i r) := inferInstanceAs (Decidable (_ ∧ _))

theorem covers_succ (r : ℕ) : Covers (r + 1) r := by
  have := low_pos (r + 1)
  exact ⟨by omega, by omega⟩

theorem Covers.up (h : Covers i r) : Covers (i + low i) r := by
  obtain ⟨hle, hlt⟩ := h
  have htwo := two_mul_low_le (i := i) (by omega)
  exact ⟨by omega, by omega⟩

theorem Covers.next (h : Covers i r) (h' : Covers j r) (hij : i < j) : i + low i ≤ j := by
  by_contra hlt
  have := le_sub_low hij (by omega)
  have := h.2
  have := h'.1
  omega

/-! ## Cells -/

variable {p p' : ℕ → Prop} [DecidablePred p] [DecidablePred p']

/-- The cells of `n` places, of which those are marked that `p` holds of. -/
def Cells (p : ℕ → Prop) [DecidablePred p] (n : ℕ) (tree : ℕ → ℕ) : Prop :=
  ∀ i, 0 < i → i ≤ n → Nat.count p (i - low i) + tree i = Nat.count p i

theorem cells_zero (hp : ∀ r, ¬ p r) : Cells p n fun _ => 0 := by
  have hcount : ∀ i, Nat.count p i = 0 := fun i => by
    rw [Nat.count_eq_card_filter_range, Finset.card_eq_zero, Finset.filter_eq_empty_iff]
    exact fun r _ => hp r
  intro i _ _
  rw [hcount, hcount, Nat.zero_add]

theorem count_insert (ha : ¬ p a) (hp' : ∀ r, p' r ↔ r = a ∨ p r) (i : ℕ) :
    Nat.count p' i = Nat.count p i + if a < i then 1 else 0 := by
  induction i with
  | zero => simp
  | succ i ih =>
    rw [Nat.count_succ, Nat.count_succ, ih]
    rcases lt_trichotomy a i with h | rfl | h
    · simp [hp', h, show a < i + 1 by omega, show i ≠ a by omega]
      omega
    · simp [hp', ha]
    · simp [hp', show ¬ a < i by omega, show ¬ a < i + 1 by omega, show i ≠ a by omega]

/-- An update counts one more in the cells that count the place. -/
theorem Cells.insert {tree tree' : ℕ → ℕ} (h : Cells p n tree) (ha : ¬ p a)
    (hp' : ∀ r, p' r ↔ r = a ∨ p r)
    (ht : ∀ i, 0 < i → i ≤ n → tree' i = tree i + if Covers i a then 1 else 0) :
    Cells p' n tree' := by
  intro i hi hin
  have hcell := h i hi hin
  rw [count_insert ha hp', count_insert ha hp', ht i hi hin]
  by_cases hlt : a < i
  · by_cases hge : i - low i ≤ a
    · rw [if_neg (by omega), if_pos hlt, if_pos ⟨hge, hlt⟩]
      omega
    · rw [if_pos (by omega), if_pos hlt, if_neg fun hc => hge hc.1]
      omega
  · rw [if_neg (by omega), if_neg hlt, if_neg fun hc => hlt hc.2]
    omega

/-- The first half of a stretch is the difference of two counts. -/
theorem Cells.half {tree : ℕ → ℕ} (h : Cells p n tree) (hi : 2 ^ (e + 1) ∣ i)
    (hn : i + 2 ^ e ≤ n) : Nat.count p i + tree (i + 2 ^ e) = Nat.count p (i + 2 ^ e) := by
  have hcell := h (i + 2 ^ e) (by positivity) hn
  rwa [low_add_pow hi, Nat.add_sub_cancel] at hcell

/-! ## The lowest bit of a word -/

/-- `i & -i`. -/
theorem toNat_and_neg {w : ℕ} (h : 0 < i) (hw : i < 2 ^ w) :
    (BitVec.ofNat w i &&& -BitVec.ofNat w i).toNat = low i := by
  obtain ⟨q, hq⟩ := exists_eq_low_mul h
  obtain ⟨v, hlow⟩ : ∃ v, low i = 2 ^ v := ⟨_, rfl⟩
  have hi : i = 2 ^ (v + 1) * q + 2 ^ v := by
    rw [hlow] at hq
    rw [pow_succ]
    linarith
  have hvw : v < w := by
    by_contra hge
    have : 2 ^ w ≤ 2 ^ v := Nat.pow_le_pow_right (by decide) (by omega)
    omega
  have hpred : i - 1 = 2 ^ (v + 1) * q + (2 ^ v - 1) := by
    have : 0 < 2 ^ v := by positivity
    omega
  have hlt : 2 ^ v - 1 < 2 ^ (v + 1) := by
    omega
  have hneg : (2 ^ w - i) % 2 ^ w = 2 ^ w - (i - 1 + 1) := by
    rw [Nat.mod_eq_of_lt (by omega), Nat.sub_add_cancel h]
  rw [BitVec.toNat_and, BitVec.toNat_neg, BitVec.toNat_ofNat, Nat.mod_eq_of_lt hw, hneg, hlow]
  apply Nat.eq_of_testBit_eq
  intro k
  rw [Nat.testBit_and, Nat.testBit_two_pow_sub_succ (by omega), hpred]
  nth_rewrite 1 [hi]
  rw [Nat.testBit_two_pow_mul_add _ (Nat.pow_lt_pow_right (by decide) (by omega)),
    Nat.testBit_two_pow_mul_add _ hlt, Nat.testBit_two_pow]
  by_cases hk : k < v + 1
  · by_cases hkv : v = k
    · subst hkv
      simp [hvw]
    · simp [hk, hkv]
  · simp only [hk, show v ≠ k by omega]
    cases q.testBit (k - (v + 1)) <;> simp

end Fenwick
