import CrossByte.Net.SessionCipher

/-!
# The packet numbers and the window of the session cipher

What `open` decides, said about whole packet numbers.  The number it rebuilds is
the one nearest the next expected (`number_highFor`), and the window holds
exactly the numbers opened among the last 1024 (`Window`): `refused_eq_none_iff`
says which numbers are let through to the AEAD, and `Window.accept` that opening
one of them keeps the window right, whether it moves it or not.
-/

namespace CrossByte

open Serial
open PackedBits (Row)

namespace SessionCipher

variable {c : SessionCipher} {high high' : ℤ} {low low' sent : Word}

/-! ## Packet numbers -/

/-- The packet number of two halves. -/
def number (high : ℤ) (low : Word) : ℤ := high * 2 ^ 32 + low.toNat

theorem below_iff : below low low' = true ↔ low.toNat < low'.toNat := slt_xor_top

theorem number_lt_iff :
    number high low < number high' low' ↔ high < high' ∨ high = high' ∧ low.toNat < low'.toNat := by
  unfold number
  omega

theorem number_inj : number high low = number high' low' ↔ high = high' ∧ low = low' := by
  rw [← BitVec.toNat_inj]
  unfold number
  omega

theorem ofInt_number : BitVec.ofInt 32 (number high low) = low := by
  apply BitVec.eq_of_toNat_eq
  rw [BitVec.toNat_ofInt]
  unfold number
  omega

theorem number_succ :
    number (if low + 1 = 0 then high + 1 else high) (low + 1) = number high low + 1 := by
  have hadd : (low + 1).toNat = (low.toNat + 1) % 2 ^ 32 := BitVec.toNat_add low 1
  have hzero : low + 1 = 0 ↔ (low.toNat + 1) % 2 ^ 32 = 0 := by
    rw [← BitVec.toNat_inj]
    rfl
  unfold number
  split <;> rename_i hz <;> rw [hzero] at hz <;> omega

def highest (c : SessionCipher) : ℤ := number c.highHigh c.highLow

def nextExpected (c : SessionCipher) : ℤ := if c.opened then c.highest + 1 else 0

theorem number_expected : number c.expected.1 c.expected.2 = c.nextExpected := by
  unfold expected nextExpected
  split
  · exact number_succ
  · rfl

/-- The number `open` rebuilds from its low half is the one nearest the next expected. -/
theorem number_highFor (c : SessionCipher) (sent : Word) :
    number (c.highFor sent) sent =
      c.nextExpected + ahead sent (BitVec.ofInt 32 c.nextExpected) := by
  have hd := dist_eq sent c.expected.2
  rw [← number_expected, ofInt_number]
  unfold highFor
  simp only [below_iff]
  rw [ahead_eq_dist]
  unfold number
  split <;> split <;> split <;> omega

/-! ## The window's bits -/

/-- Where a number's flag is in the window. -/
def flag (low : Word) : ℕ := low.toNat % 1024

theorem windowWord_eq : windowWord low = flag low / 32 := by
  have h : windowWord low = low.toNat / 32 % 32 := by
    rw [windowWord, BitVec.toNat_and, BitVec.toNat_ushiftRight, Nat.shiftRight_eq_div_pow]
    exact Nat.and_two_pow_sub_one_eq_mod _ 5
  unfold flag
  omega

theorem windowBit_eq : windowBit low = PackedBits.mask 32 (flag low) := by
  have h : (low &&& 31#32).toNat = low.toNat % 32 := by
    exact Nat.and_two_pow_sub_one_eq_mod _ 5
  have hflag : flag low % 32 = low.toNat % 32 := by
    unfold flag
    omega
  rw [windowBit, PackedBits.mask, h, hflag]

theorem windowHas_eq (w : Row 32) (low : Word) : windowHas w low = PackedBits.has w (flag low) := by
  rw [windowHas, PackedBits.has, windowWord_eq, windowBit_eq]

theorem windowHas_windowSet (w : Row 32) (low other : Word) :
    windowHas (windowSet w low) other = (decide (flag other = flag low) || windowHas w other) := by
  rw [windowHas_eq, windowHas_eq, windowSet, windowWord_eq, windowBit_eq]
  exact PackedBits.has_set (by decide) w (flag low) (flag other)

theorem windowHas_windowClear (w : Row 32) (low other : Word) :
    windowHas (windowClear w low) other = (decide (flag other ≠ flag low) && windowHas w other) := by
  rw [windowHas_eq, windowHas_eq, windowClear, windowWord_eq, windowBit_eq]
  exact PackedBits.has_clear (by decide) w (flag low) (flag other)

theorem windowHas_clearRun (w : Row 32) (low other : Word) (n : ℕ) :
    windowHas (clearRun w low n) other = true ↔
      windowHas w other = true ∧ ∀ k < n, flag other ≠ flag (low + BitVec.ofNat 32 k) := by
  induction n generalizing w low with
  | zero => simp [clearRun]
  | succ n ih =>
    rw [clearRun, ih, windowHas_windowClear, Nat.forall_lt_succ_left']
    have hshift : ∀ k, low + 1 + BitVec.ofNat 32 k = low + BitVec.ofNat 32 (k + 1) := fun k => by
      rw [BitVec.ofNat_add, add_assoc, add_comm (1 : Word)]
      rfl
    have hzero : low + BitVec.ofNat 32 0 = low := BitVec.add_zero low
    simp only [hshift, hzero, Bool.and_eq_true, decide_eq_true_eq]
    tauto

theorem flag_ofInt (m : ℤ) : (flag (BitVec.ofInt 32 m) : ℤ) = m % 1024 := by
  unfold flag
  rw [BitVec.toNat_ofInt]
  omega

/-- Numbers less than 1024 apart have flags of their own. -/
theorem flag_ofInt_eq_iff {m n : ℤ} (h₁ : m - n < 1024) (h₂ : n - m < 1024) :
    flag (BitVec.ofInt 32 m) = flag (BitVec.ofInt 32 n) ↔ m = n := by
  have hm := flag_ofInt m
  have hn := flag_ofInt n
  omega

theorem flag_ofInt_eq_flag (high : ℤ) {m : ℤ} (h₁ : m - number high low < 1024)
    (h₂ : number high low - m < 1024) :
    flag (BitVec.ofInt 32 m) = flag low ↔ m = number high low := by
  rw [← flag_ofInt_eq_iff h₁ h₂, ofInt_number]

/-! ## The invariant -/

/-- How far one number is above another, as the code tells it from the halves. -/
theorem far_iff (h : number high' low' ≤ number high low) :
    (high - high' - (if below low low' then 1 else 0) ≠ 0 ∨
      below (BitVec.ofNat 32 (replayWindow - 1)) (low - low') = true) ↔
      1023 < number high low - number high' low' := by
  have hd : (low - low').toNat = (2 ^ 32 - low'.toNat + low.toNat) % 2 ^ 32 := BitVec.toNat_sub ..
  have hbound : (BitVec.ofNat 32 (replayWindow - 1)).toNat = 1023 := rfl
  simp only [below_iff]
  unfold number at h ⊢
  split <;> omega

/-- The window holds the numbers opened, among the 1024 up to the highest. -/
structure Window (c : SessionCipher) (seen : List ℤ) : Prop where
  fresh : c.opened = false → seen = [] ∧ c.highHigh = 0
  highest_mem : c.opened = true → c.highest ∈ seen
  le_highest : ∀ m ∈ seen, m ≤ c.highest
  range : ∀ m ∈ seen, 0 ≤ m ∧ m < 2 ^ 62
  bits : c.opened = true → ∀ m, c.highest - 1024 < m → m ≤ c.highest →
    (windowHas c.window (BitVec.ofInt 32 m) = true ↔ m ∈ seen)

variable {seen : List ℤ}

theorem newer_iff : c.newer high low = true ↔ (c.opened = true → c.highest < number high low) := by
  unfold newer highest
  rw [number_lt_iff]
  cases c.opened with
  | false => simp
  | true =>
    simp only [Bool.not_true, Bool.false_or, Bool.or_eq_true, decide_eq_true_eq,
      Bool.and_eq_true, beq_iff_eq, below_iff, true_implies]
    rw [@eq_comm _ high]

/-- What is let through to the AEAD: a newer number, or one in the window and not seen. -/
theorem Window.refused_eq_none_iff (h : Window c seen) :
    c.refused high low = none ↔
      (c.opened = true → number high low ≤ c.highest →
        c.highest - number high low ≤ 1023 ∧ number high low ∉ seen) := by
  unfold refused
  by_cases hnew : c.newer high low = true
  · rw [if_pos hnew]
    rw [newer_iff] at hnew
    simp only [true_iff]
    intro hopened hle
    exact absurd (hnew hopened) (not_lt.2 hle)
  · rw [if_neg hnew]
    rw [newer_iff, Classical.not_imp, not_lt] at hnew
    obtain ⟨hopened, hle⟩ := hnew
    have hfar := far_iff hle
    have hbits := h.bits hopened (number high low)
    rw [ofInt_number] at hbits
    by_cases hlate : 1023 < c.highest - number high low
    · rw [if_pos (hfar.2 hlate)]
      simp only [reduceCtorEq, false_iff]
      intro hall
      exact absurd (hall hopened hle).1 (not_le.2 hlate)
    · rw [if_neg (fun hf => hlate (hfar.1 hf))]
      have hin := hbits (by omega) hle
      by_cases hseen : number high low ∈ seen
      · rw [if_pos (hin.2 hseen)]
        simp only [reduceCtorEq, false_iff]
        intro hall
        exact (hall hopened hle).2 hseen
      · rw [if_neg (fun hhas => hseen (hin.1 hhas))]
        simp only [true_iff]
        intro _ _
        exact ⟨by omega, hseen⟩

/-- The window once a number has been opened. -/
def accept (c : SessionCipher) (high : ℤ) (low : Word) : SessionCipher :=
  if c.newer high low then c.advance high low else { c with window := windowSet c.window low }

theorem highest_advance : (c.advance high low).highest = number high low := rfl

/-- The flags `advance` leaves, below the one it sets. -/
theorem Window.windowHas_advance (h : Window c seen) (hnew : c.newer high low = true) {m : ℤ}
    (hlo : number high low - 1024 < m) (hhi : m ≤ number high low) :
    windowHas (c.advance high low).window (BitVec.ofInt 32 m) = true ↔
      m ∈ seen ∨ m = number high low := by
  unfold advance
  rw [windowHas_windowSet, Bool.or_eq_true, decide_eq_true_eq,
    flag_ofInt_eq_flag high (by omega) (by omega), or_comm]
  refine or_congr_left ?_
  cases hopened : c.opened with
  | false =>
    have hseen := (h.fresh hopened).1
    simp [windowHas_eq, hseen]
  | true =>
    have hlt := newer_iff.1 hnew hopened
    have hfar := far_iff hlt.le
    simp only [Bool.not_true, Bool.false_eq_true, if_false]
    by_cases hstep : 1023 < number high low - c.highest
    · -- the window has moved past everything it held
      rw [if_pos (hfar.2 hstep)]
      have hnot : m ∉ seen := fun hm => by
        have := h.le_highest m hm
        omega
      simp [windowHas_eq, hnot]
    · rw [if_neg (fun hf => hstep (hfar.1 hf)), windowHas_clearRun]
      have hsteps : ((low - c.highLow).toNat : ℤ) = number high low - c.highest := by
        have hd : (low - c.highLow).toNat = (2 ^ 32 - c.highLow.toNat + low.toNat) % 2 ^ 32 :=
          BitVec.toNat_sub ..
        unfold highest number at hstep hlt ⊢
        omega
      have hword : ∀ k : ℕ, c.highLow + 1 + BitVec.ofNat 32 k =
          BitVec.ofInt 32 (c.highest + 1 + k) := fun k => by
        rw [BitVec.ofInt_add, BitVec.ofInt_add, highest, ofInt_number]
        rfl
      simp only [hword]
      by_cases hm : m ≤ c.highest
      · rw [h.bits hopened m (by omega) hm]
        refine and_iff_left fun k hk heq => ?_
        have := (flag_ofInt_eq_iff (by omega) (by omega)).1 heq
        omega
      · -- a number passed over
        have hnot : m ∉ seen := fun hin => hm (h.le_highest m hin)
        simp only [hnot, iff_false, not_and, not_forall]
        intro _
        refine ⟨(m - c.highest - 1).toNat, by omega, ?_⟩
        rw [not_not]
        congr 2
        omega

/-- Opening a number that was let through keeps the invariant. -/
theorem Window.accept (h : Window c seen) (hrefused : c.refused high low = none)
    (hrange : 0 ≤ number high low ∧ number high low < 2 ^ 62) :
    Window (c.accept high low) (seen ++ [number high low]) := by
  have hrange' : ∀ m ∈ seen ++ [number high low], 0 ≤ m ∧ m < 2 ^ 62 := by
    intro m hm
    rcases List.mem_append.1 hm with hm | hm
    · exact h.range m hm
    · rwa [List.mem_singleton.1 hm]
  unfold SessionCipher.accept
  by_cases hnew : c.newer high low = true
  · rw [if_pos hnew]
    refine ⟨fun hf => by simp [advance] at hf, fun _ => by simp [highest_advance], ?_, hrange', ?_⟩
    · intro m hm
      rcases List.mem_append.1 hm with hm | hm
      · cases hopened : c.opened with
        | false => simp [(h.fresh hopened).1] at hm
        | true => exact (h.le_highest m hm).trans (newer_iff.1 hnew hopened).le
      · exact (List.mem_singleton.1 hm).le
    · intro _ m hlo hhi
      rw [h.windowHas_advance hnew hlo hhi]
      simp
  · rw [if_neg hnew]
    rw [newer_iff, Classical.not_imp, not_lt] at hnew
    obtain ⟨hopened, hle⟩ := hnew
    have hnear := (h.refused_eq_none_iff.1 hrefused hopened hle).1
    refine ⟨fun hf => by simp [hopened] at hf, fun _ => ?_, ?_, hrange', ?_⟩
    · exact List.mem_append_left _ (h.highest_mem hopened)
    · intro m hm
      rcases List.mem_append.1 hm with hm | hm
      · exact h.le_highest m hm
      · rw [List.mem_singleton.1 hm]
        exact hle
    · intro _ m hlo hhi
      change c.highest - 1024 < m at hlo
      change m ≤ c.highest at hhi
      rw [windowHas_windowSet, Bool.or_eq_true, decide_eq_true_eq,
        flag_ofInt_eq_flag high (by omega) (by omega), h.bits hopened m hlo hhi]
      simp [or_comm]

end SessionCipher
end CrossByte
