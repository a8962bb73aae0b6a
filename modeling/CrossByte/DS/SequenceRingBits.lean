import CrossByte.Errors
import CrossByte.Lib.Bytes
import CrossByte.DS.SequenceRing

/-!
# The bits of a sequence ring

`SequenceRing.writeBits` writes, for a run of numbers, a bit each that says whether the ring
holds it.  It does not ask `has` of each.  The bits of the slots are packed eight to a byte,
and the slots of eight consecutive numbers are eight consecutive flags of the ring read
round from the first number's slot, so they are two bytes shifted together.  A ring of
fewer than eight slots has no whole byte to go round in and is read flag by flag.

A flag says that its slot holds some number, which may be one a ring's length away.  The
flags that are set are therefore looked at again, and the code never looks at one that is
not set: a number that is held has its flag set.

## Main results

* `getLsbD_eightSlots`: the flags read together are those of the eight slots.
* `writeBits_spec`: the bits written are the answers of `has`.
-/

namespace CrossByte

open Serial
open Bytes (Byte)

namespace SequenceRing

variable {T : Type*}

/-! ## The code -/

/-- `from + (i << 3) + k`, which wraps. -/
def number (start : Word) (i k : ℕ) : Word :=
  start + (BitVec.ofNat 32 i <<< 3) + BitVec.ofNat 32 k

/-- The flags of the slots of eight numbers, before it is known which numbers lie there. -/
def eightSlots (r : SequenceRing T) (start : Word) (i : ℕ) : Word :=
  let ringBytes := r.capacity >>> 3
  if 0 < ringBytes then
    let first : Word := BitVec.ofNat 32 (r.slot start >>> 3) + BitVec.ofNat 32 i
    let shift := r.slot start % 8
    let low : Word := (r.present (first &&& BitVec.ofNat 32 (ringBytes - 1)).toNat).setWidth 32
    let high : Word :=
      (r.present ((first + 1) &&& BitVec.ofNat 32 (ringBytes - 1)).toNat).setWidth 32
    ((low >>> shift) ||| (high <<< (8 - shift))) &&& 0xFF#32
  else
    (List.range 8).foldl (fun bits k =>
      if PackedBits.has r.present (r.slot (number start i k)) then bits ||| (1#32 <<< k) else bits) 0

/-- The loop that clears the flags of slots where another number lies. -/
def keepHeld (r : SequenceRing T) (start : Word) (i : ℕ) (bits : Word) : Word :=
  (List.range 8).foldl (fun bits k =>
    if bits &&& (1#32 <<< k) ≠ 0 ∧ r.holds (number start i k) = false then
      bits &&& ~~~(1#32 <<< k)
    else bits) bits

/-- The `i`-th byte, as the `Int` the loop computes. -/
def bitsAt (r : SequenceRing T) (start : Word) (i : ℕ) : Word :=
  if r.empty then 0
  else
    let bits := r.eightSlots start i
    if bits ≠ 0 then r.keepHeld start i bits else bits

/-- One turn of the loop over the bytes: how many are used, and the bytes written to. -/
def writeByte (r : SequenceRing T) (start : Word) (at_ : ℕ) (st : ℕ × List Byte) (i : ℕ) :
    ℕ × List Byte :=
  let bits := r.bitsAt start i
  (if bits ≠ 0 then i + 1 else st.1, st.2.set (at_ + i) (bits.setWidth 8))

/-- `writeBits`, of bytes that may be `null`: how many are used, and the bytes after. -/
def writeBits (r : SequenceRing T) (start : Word) (out : Option (List Byte)) (at_ byteCount : ℤ) :
    Except Thrown (ℕ × List Byte) :=
  match out with
  | none => .error (.argumentError "writeBits needs bytes to write into.")
  | some out =>
    if at_ < 0 ∨ byteCount < 0 ∨ at_ > out.length - byteCount then
      .error (.rangeError ("writeBits: " ++ toString byteCount ++ " bytes at " ++ toString at_ ++
        " do not fit in " ++ toString out.length ++ "."))
    else .ok ((List.range byteCount.toNat).foldl (r.writeByte start at_.toNat) (0, out))

/-! ## Eight slots at once -/

variable (r : SequenceRing T) (start : Word)

theorem number_eq (i k : ℕ) : number start i k = start + BitVec.ofNat 32 (8 * i + k) := by
  apply BitVec.eq_of_toNat_eq
  simp only [number, BitVec.toNat_add, BitVec.toNat_shiftLeft, BitVec.toNat_ofNat]
  omega

/-- The ring's size divides that of the circle, so slots are counted on past the wrap. -/
theorem slot_add (n : ℕ) :
    r.slot (start + BitVec.ofNat 32 n) = (r.slot start + n) % r.capacity := by
  obtain ⟨j, hj, hc⟩ := r.capacity_pow
  have hdvd : r.capacity ∣ 2 ^ 32 := by
    rw [hc]
    exact pow_dvd_pow 2 (by omega)
  rw [slot_eq_mod, slot_eq_mod, BitVec.toNat_add, BitVec.toNat_ofNat, Nat.mod_mod_of_dvd _ hdvd,
    Nat.mod_add_mod, Nat.add_mod, Nat.mod_mod_of_dvd _ hdvd, ← Nat.add_mod]

theorem slot_number (i k : ℕ) :
    r.slot (number start i k) = (r.slot start + 8 * i + k) % r.capacity := by
  rw [number_eq, slot_add, Nat.add_assoc]

theorem and_ringBytes {bytes : ℕ} (hb : ∃ j ≤ 27, bytes = 2 ^ j) (w : Word) :
    (w &&& BitVec.ofNat 32 (bytes - 1)).toNat = w.toNat % bytes := by
  obtain ⟨j, -, rfl⟩ := hb
  exact toNat_and_mask w j

theorem ringBytes_pow (h : 0 < r.capacity >>> 3) :
    r.capacity = 8 * (r.capacity >>> 3) ∧ ∃ j ≤ 27, r.capacity >>> 3 = 2 ^ j := by
  obtain ⟨j, hj, hc⟩ := r.capacity_pow
  have h3 : 3 ≤ j := by
    by_contra hlt
    rw [hc] at h
    have hj : j = 0 ∨ j = 1 ∨ j = 2 := by omega
    rcases hj with rfl | rfl | rfl <;> simp at h
  obtain ⟨m, rfl⟩ := Nat.exists_eq_add_of_le h3
  have hdiv : r.capacity >>> 3 = 2 ^ m := by
    rw [hc, Nat.shiftRight_eq_div_pow, pow_add]
    exact Nat.mul_div_cancel_left _ (by norm_num)
  exact ⟨by rw [hdiv, hc, pow_add]; norm_num, m, by omega, hdiv⟩

/-- Of two bytes shifted together, bit `k` is that of the first byte, or of the second past its
end. -/
theorem getLsbD_joined (low high : BitVec 8) {shift k : ℕ} (hs : shift < 8) (hk : k < 8) :
    ((((low.setWidth 32 : Word) >>> shift) ||| ((high.setWidth 32 : Word) <<< (8 - shift))) &&&
      0xFF#32).getLsbD k =
      if shift + k < 8 then low.getLsbD (shift + k) else high.getLsbD (shift + k - 8) := by
  have hmask : (0xFF#32).getLsbD k = true := by interval_cases k <;> rfl
  simp only [BitVec.getLsbD_and, hmask, Bool.and_true, BitVec.getLsbD_or,
    BitVec.getLsbD_ushiftRight, BitVec.getLsbD_shiftLeft, BitVec.getLsbD_setWidth]
  by_cases h : shift + k < 8
  · have hlt : k < 8 - shift := by omega
    simp [h, hlt, show shift + k < 32 by omega]
  · have hge : ¬ k < 8 - shift := by omega
    simp only [h, hge, if_false, show k < 32 by omega, show k - (8 - shift) = shift + k - 8 by omega,
      show shift + k - 8 < 32 by omega, BitVec.getLsbD_of_ge low (shift + k) (by omega),
      decide_true, decide_false, Bool.and_false, Bool.false_or, Bool.true_and, Bool.not_false]

/-- The bits a loop has set, one `or` for each number of which `p` holds. -/
theorem getLsbD_foldl_or (p : ℕ → Bool) {n k : ℕ} (hn : n ≤ 8) :
    ((List.range n).foldl (fun bits j => if p j then bits ||| (1#32 <<< j) else bits) 0).getLsbD k =
      (decide (k < n) && p k) := by
  induction n with
  | zero => simp
  | succ n ih =>
    rw [List.range_succ, List.foldl_append, List.foldl_cons, List.foldl_nil]
    have ih := ih (by omega)
    split
    · next hp =>
      rw [BitVec.getLsbD_or, ih, ← BitVec.twoPow_eq]
      by_cases hkn : k = n
      · simp [hkn, hp, show n < 32 by omega]
      · simp [show n ≠ k by omega, show (k < n + 1) = (k < n) by simp; omega]
    · next hp =>
      rw [ih]
      by_cases hkn : k = n
      · simp [hkn, hp]
      · simp [show (k < n + 1) = (k < n) by simp; omega]

/-- The flags read together are those of the eight slots. -/
theorem getLsbD_eightSlots (i : ℕ) {k : ℕ} (hk : k < 8) :
    (r.eightSlots start i).getLsbD k = PackedBits.has r.present (r.slot (number start i k)) := by
  unfold eightSlots
  dsimp only
  split
  · next hbytes =>
    obtain ⟨hcap, hpow⟩ := r.ringBytes_pow hbytes
    obtain ⟨j, hj, hb⟩ := hpow
    have hdvd : r.capacity >>> 3 ∣ 2 ^ 32 := by
      rw [hb]
      exact pow_dvd_pow 2 (by omega)
    -- the place of the flag in the ring of bytes
    have hword : ∀ n, (r.slot start + n) % r.capacity / 8 =
        ((r.slot start + n) / 8) % (r.capacity >>> 3) := by
      intro n
      nth_rewrite 1 [hcap]
      exact Nat.mod_mul_right_div_self _ _ _
    have hbit : ∀ n, (r.slot start + n) % r.capacity % 8 = (r.slot start + n) % 8 := by
      intro n
      exact Nat.mod_mod_of_dvd _ ⟨_, hcap⟩
    have hindex : ∀ m, (BitVec.ofNat 32 (r.slot start >>> 3) + BitVec.ofNat 32 i +
        BitVec.ofNat 32 m &&& BitVec.ofNat 32 (r.capacity >>> 3 - 1)).toNat =
        (r.slot start / 8 + i + m) % (r.capacity >>> 3) := by
      intro m
      rw [and_ringBytes ⟨j, hj, hb⟩, ← BitVec.ofNat_add, ← BitVec.ofNat_add, BitVec.toNat_ofNat,
        Nat.mod_mod_of_dvd _ hdvd, Nat.shiftRight_eq_div_pow]
    have hlow := hindex 0
    have hhigh := hindex 1
    rw [BitVec.add_zero, Nat.add_zero] at hlow
    rw [getLsbD_joined _ _ (Nat.mod_lt _ (by decide)) hk, slot_number,
      PackedBits.has_eq_getLsbD (by decide), Nat.add_assoc, hword, hbit, hlow]
    split
    · next h =>
      rw [show (r.slot start + (8 * i + k)) / 8 = r.slot start / 8 + i by omega,
        show (r.slot start + (8 * i + k)) % 8 = r.slot start % 8 + k by omega]
    · next h =>
      rw [show (r.slot start + (8 * i + k)) / 8 = r.slot start / 8 + i + 1 by omega,
        show (r.slot start + (8 * i + k)) % 8 = r.slot start % 8 + k - 8 by omega, ← hhigh]
      rfl
  · rw [getLsbD_foldl_or (fun k => PackedBits.has r.present (r.slot (number start i k))) le_rfl]
    simp [hk]

theorem getLsbD_eightSlots_of_ge (i : ℕ) {k : ℕ} (hk : 8 ≤ k) :
    (r.eightSlots start i).getLsbD k = false := by
  rcases lt_or_ge k 32 with h32 | h32
  · unfold eightSlots
    dsimp only
    split
    · have hmask : (0xFF#32).getLsbD k = false := by interval_cases k <;> rfl
      rw [BitVec.getLsbD_and, hmask, Bool.and_false]
    · rw [getLsbD_foldl_or (fun k => PackedBits.has r.present (r.slot (number start i k))) le_rfl]
      simp [show ¬ k < 8 by omega]
  · exact BitVec.getLsbD_of_ge _ _ h32

/-! ## What is written -/

/-- One turn of the second look clears its own flag, if the number is not held. -/
theorem getLsbD_look (b : Word) (held : Bool) {n : ℕ} (hn : n < 8) (k : ℕ) :
    (if b &&& (1#32 <<< n) ≠ 0 ∧ held = false then b &&& ~~~(1#32 <<< n) else b).getLsbD k =
      (b.getLsbD k && (decide (n ≠ k) || held)) := by
  rw [← BitVec.twoPow_eq, BitVec.and_twoPow]
  by_cases hset : b.getLsbD n = true ∧ held = false
  · have hpow : BitVec.twoPow 32 n ≠ 0#32 := by interval_cases n <;> decide
    rw [if_pos (by simpa [hset] using hpow), BitVec.getLsbD_and, BitVec.getLsbD_not,
      BitVec.getLsbD_twoPow]
    rcases lt_or_ge k 32 with h32 | h32
    · simp [h32, hset.2, show n < 32 by omega]
    · simp [BitVec.getLsbD_of_ge b k h32]
  · rw [if_neg fun h => hset ⟨by by_contra hb; simp [hb] at h, h.2⟩]
    by_cases hkn : n = k
    · cases held <;> simp_all
    · simp [hkn]

/-- The second look leaves the flags of the numbers that are held. -/
theorem getLsbD_keepHeld (i : ℕ) (bits : Word) (k : ℕ) :
    (r.keepHeld start i bits).getLsbD k =
      (bits.getLsbD k && (decide (8 ≤ k) || r.holds (number start i k))) := by
  -- after the first `n` flags have been looked at
  have hloop : ∀ n ≤ 8, ((List.range n).foldl (fun bits k =>
      if bits &&& (1#32 <<< k) ≠ 0 ∧ r.holds (number start i k) = false then
        bits &&& ~~~(1#32 <<< k)
      else bits) bits).getLsbD k =
        (bits.getLsbD k && (decide (n ≤ k) || r.holds (number start i k))) := by
    intro n
    induction n with
    | zero => simp
    | succ n ih =>
      intro hn
      have ih := ih (by omega)
      rw [List.range_succ, List.foldl_append, List.foldl_cons, List.foldl_nil]
      generalize (List.range n).foldl _ bits = b at ih ⊢
      rw [getLsbD_look b _ hn, ih]
      by_cases hkn : n = k
      · subst hkn
        simp
      · simp [hkn, show n + 1 ≤ k ↔ n ≤ k by omega]
  exact hloop 8 le_rfl

/-- A number that is held has its flag set. -/
theorem has_of_holds {s : Word} (h : r.holds s = true) :
    r.empty = false ∧ PackedBits.has r.present (r.slot s) = true :=
  ⟨(holds_iff.1 h).1, (holds_iff.1 h).2.2.1⟩

/-- A byte's bits are the answers of `has`, and there are eight. -/
theorem getLsbD_bitsAt (i k : ℕ) :
    (r.bitsAt start i).getLsbD k = (decide (k < 8) && r.has (number start i k)) := by
  unfold bitsAt has
  cases he : r.empty with
  | true =>
    have : r.holds (number start i k) = false := by simp [holds, he]
    simp [this]
  | false =>
    have hkept : (r.keepHeld start i (r.eightSlots start i)).getLsbD k =
        (decide (k < 8) && r.holds (number start i k)) := by
      rw [getLsbD_keepHeld]
      by_cases hk : k < 8
      · rw [getLsbD_eightSlots r start i hk]
        cases hh : r.holds (number start i k) with
        | true => simp [hk, (r.has_of_holds hh).2]
        | false => simp [show ¬ 8 ≤ k by omega]
      · rw [getLsbD_eightSlots_of_ge r start i (by omega)]
        simp [hk]
    simp only [Bool.false_eq_true, if_false]
    split
    · exact hkept
    · next hz =>
      -- no flag is set, and there is nothing to look at again
      have hzero : r.eightSlots start i = 0 := not_not.1 hz
      rw [hzero] at hkept ⊢
      rw [← hkept, getLsbD_keepHeld]
      simp

/-- The byte written is zero exactly if the loop's `bits` are. -/
theorem setWidth_bitsAt_eq_zero (i : ℕ) :
    (r.bitsAt start i).setWidth 8 = 0 ↔ r.bitsAt start i = 0 := by
  refine ⟨fun h => BitVec.eq_of_getLsbD_eq fun k hk => ?_, fun h => by rw [h]; rfl⟩
  by_cases hk8 : k < 8
  · have hbit := congrArg (fun b : BitVec 8 => b.getLsbD k) h
    simpa [BitVec.getLsbD_setWidth, hk8] using hbit
  · rw [getLsbD_bitsAt]
    simp [hk8]

/-- What the loop has done after `n` bytes. -/
structure Written (at_ n : ℕ) (out : List Byte) (st : ℕ × List Byte) : Prop where
  length : st.2.length = out.length
  byte : ∀ i < n, st.2.getD (at_ + i) 0 = (r.bitsAt start i).setWidth 8
  other : ∀ j, (j < at_ ∨ at_ + n ≤ j) → st.2.getD j 0 = out.getD j 0
  used_le : st.1 ≤ n
  last : st.1 ≠ 0 → r.bitsAt start (st.1 - 1) ≠ 0
  zero : ∀ i, st.1 ≤ i → i < n → r.bitsAt start i = 0

theorem written_loop {at_ n : ℕ} {out : List Byte} (h : at_ + n ≤ out.length) :
    r.Written start at_ n out ((List.range n).foldl (r.writeByte start at_) (0, out)) := by
  induction n with
  | zero => exact ⟨rfl, by simp, fun _ _ => rfl, le_rfl, fun hne => absurd rfl hne, by simp⟩
  | succ n ih =>
    have ih := ih (by omega)
    rw [List.range_succ, List.foldl_append, List.foldl_cons, List.foldl_nil]
    generalize (List.range n).foldl (r.writeByte start at_) (0, out) = st at ih ⊢
    have hget : ∀ j, (st.2.set (at_ + n) ((r.bitsAt start n).setWidth 8)).getD j 0 =
        if j = at_ + n then (r.bitsAt start n).setWidth 8 else st.2.getD j 0 := by
      intro j
      have hlt : at_ + n < st.2.length := by
        rw [ih.length]
        omega
      by_cases hj : j = at_ + n
      · simp [hj, hlt]
      · simp [hj, Ne.symm hj]
    refine ⟨?_, fun i hi => ?_, fun j hj => ?_, ?_, fun hne => ?_, fun i hi hin => ?_⟩
    · simp [writeByte, ih.length]
    · rw [writeByte, hget]
      by_cases hin : i = n
      · simp [hin]
      · rw [if_neg (by omega)]
        exact ih.byte i (by omega)
    · rw [writeByte, hget, if_neg (by omega)]
      exact ih.other j (by omega)
    · have := ih.used_le
      simp only [writeByte]
      split <;> omega
    · simp only [writeByte] at hne ⊢
      split at hne
      · next hb =>
        rw [if_pos hb]
        exact hb
      · next hb =>
        rw [if_neg hb]
        exact ih.last hne
    · simp only [writeByte] at hi
      split at hi
      · omega
      · next hb =>
        by_cases hin' : i = n
        · rw [hin']
          exact not_not.1 hb
        · exact ih.zero i hi (by omega)

/-- **The bits written are the answers of `has`.**  Of any ring, bit `k` of byte `i` says whether
the number `8 * i + k` past the first is held; the other bytes are as they were; and what is
answered is one more than the place of the last byte that is not zero, or zero. -/
theorem writeBits_spec (out : List Byte) (at_ byteCount : ℕ) (h : at_ + byteCount ≤ out.length) :
    ∃ used out', r.writeBits start (some out) at_ byteCount = .ok (used, out') ∧
      out'.length = out.length ∧
      (∀ i < byteCount, ∀ k < 8,
        (out'.getD (at_ + i) 0).getLsbD k = r.has (start + BitVec.ofNat 32 (8 * i + k))) ∧
      (∀ j, (j < at_ ∨ at_ + byteCount ≤ j) → out'.getD j 0 = out.getD j 0) ∧
      ((used = 0 ∧ ∀ i < byteCount, out'.getD (at_ + i) 0 = 0) ∨
        ∃ i < byteCount, used = i + 1 ∧ out'.getD (at_ + i) 0 ≠ 0 ∧
          ∀ j, i < j → j < byteCount → out'.getD (at_ + j) 0 = 0) := by
  have hw := r.written_loop start h
  cases hst : (List.range byteCount).foldl (r.writeByte start at_) (0, out) with
  | mk used out' =>
  rw [hst] at hw
  refine ⟨used, out', ?_, hw.length, fun i hi k hk => ?_, hw.other, ?_⟩
  · rw [writeBits, if_neg (by omega), Int.toNat_natCast, Int.toNat_natCast, hst]
  · rw [hw.byte i hi, BitVec.getLsbD_setWidth, getLsbD_bitsAt, number_eq]
    simp [hk]
  · have hzero : ∀ i < byteCount, (out'.getD (at_ + i) 0 = 0 ↔ r.bitsAt start i = 0) := by
      intro i hi
      rw [hw.byte i hi]
      exact r.setWidth_bitsAt_eq_zero start i
    have hle := hw.used_le
    rcases Nat.eq_zero_or_pos used with hu | hu
    · refine .inl ⟨hu, fun i hi => (hzero i hi).2 (hw.zero i ?_ hi)⟩
      simp [hu]
    · refine .inr ⟨used - 1, ?_, ?_, ?_, fun j hj hjn => ?_⟩
      · omega
      · omega
      · rw [Ne, hzero (used - 1) (by omega)]
        exact hw.last (by omega)
      · exact (hzero j hjn).2 (hw.zero j (by omega) hjn)

/-- A ring of two slots that holds 5, asked of the sixteen numbers from 4 on. -/
theorem writeBits_two_slots :
    let r := (((new Unit 2).toOption.map fun r => (r.put 5 ()).2).getD
      ⟨1, ⟨0, by decide, rfl⟩, 0, true, fun _ => 0, fun _ => none, PackedBits.allClear 8⟩)
    0 + 2 ≤ ([1#8, 2#8, 3#8] : List Byte).length ∧
      ∃ used out', r.writeBits 4 (some [1#8, 2#8, 3#8]) (0 : ℕ) (2 : ℕ) = .ok (used, out') ∧
        (out'.getD (0 + 0) 0).getLsbD 1 = r.has (4 + BitVec.ofNat 32 (8 * 0 + 1)) ∧
        out'.getD 2 0 = ([1#8, 2#8, 3#8] : List Byte).getD 2 0 := by
  intro r
  refine ⟨by decide, ?_⟩
  obtain ⟨used, out', hw, -, hbit, hother, -⟩ :=
    r.writeBits_spec 4 [1#8, 2#8, 3#8] 0 2 (by decide)
  exact ⟨used, out', hw, hbit 0 (by decide) 1 (by decide), hother 2 (.inr (by decide))⟩

end SequenceRing

end CrossByte
