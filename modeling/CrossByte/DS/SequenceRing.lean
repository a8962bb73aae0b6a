import CrossByte.Errors
import CrossByte.Lib.PackedBits
import CrossByte.Lib.Runs
import CrossByte.Lib.Serial

/-!
# The sequence ring

`crossbyte.ds.SequenceRing` files values under 32-bit sequence numbers, in a ring
of slots whose size is a power of two, and answers for a window of `capacity`
consecutive numbers ending at the newest one put.  This module is the class as
the code computes it: the slot of a number is its low bits, every slot keeps the
number last filed there, and a packed bit says whether it still holds a value.

A slot is not cleaned when its number falls out of the window.  The number and
the bit stay until the slot is used again, so a slot can hold a *stale* number,
one the window has passed.

## Main results

* `SequenceRing.get_put`, `get_remove`, `get_clear` say what one call does to
  every lookup.
* `SequenceRing.holds_iff` reads the test of the code as a distance on the
  circle, and `WellFiled` is the invariant of the slots that every call keeps.
-/

namespace CrossByte

open Serial
open PackedBits (Row has_set has_clear)

/-- The fields of `SequenceRing<T>`.  The size is a power of two of at most `2 ^ 30`,
which is what the constructor makes it. -/
structure SequenceRing (T : Type*) where
  capacity : ℕ
  /-- `__mask`, `__sequences` and the slots rely on this. -/
  capacity_pow : ∃ k ≤ 30, capacity = 2 ^ k
  newest : Word
  empty : Bool
  sequences : ℕ → Word
  values : ℕ → Option T
  /-- A bit for each slot, that of a slot in byte `slot >> 3` at `slot & 7`. -/
  present : Row 8

namespace SequenceRing

variable {T : Type*}

/-! ## The class -/

/-- The loop of the constructor, which doubles the size until it is large enough. -/
def growSize (capacity : ℕ) : ℕ → ℕ → ℕ
  | 0, size => size
  | fuel + 1, size => if size < capacity then growSize capacity fuel (2 * size) else size

theorem growSize_pow (capacity fuel j : ℕ) :
    ∃ k ≤ j + fuel, growSize capacity fuel (2 ^ j) = 2 ^ k := by
  induction fuel generalizing j with
  | zero => exact ⟨j, le_rfl, rfl⟩
  | succ fuel ih =>
    unfold growSize
    split
    · obtain ⟨k, hk, h⟩ := ih (j + 1)
      exact ⟨k, by omega, by rw [← h, pow_succ']⟩
    · exact ⟨j, by omega, rfl⟩

/-- `new(capacity)`.  Thirty doublings reach the largest size it accepts. -/
def new (T : Type*) (capacity : ℤ) : Except Thrown (SequenceRing T) :=
  if capacity < 1 ∨ capacity > 2 ^ 30 then
    .error (.argumentError "A ring holds from 1 to 2^30 values.")
  else
    .ok
      { capacity := growSize capacity.toNat 30 1
        capacity_pow := by
          obtain ⟨k, hk, h⟩ := growSize_pow capacity.toNat 30 0
          exact ⟨k, by omega, h⟩
        newest := 0
        empty := true
        sequences := fun _ => 0
        values := fun _ => none
        present := PackedBits.allClear 8 }

/-- `sequence & __mask`. -/
def slot (r : SequenceRing T) (sequence : Word) : ℕ :=
  (sequence &&& BitVec.ofNat 32 (r.capacity - 1)).toNat

def holds (r : SequenceRing T) (sequence : Word) : Bool :=
  if r.empty then false
  else
    let behind := ahead r.newest sequence
    if behind < 0 ∨ behind ≥ r.capacity then false
    else PackedBits.has r.present (r.slot sequence) && r.sequences (r.slot sequence) == sequence

/-- `get`: `none` is `null`. -/
def get (r : SequenceRing T) (sequence : Word) : Option T :=
  if r.holds sequence then r.values (r.slot sequence) else none

def has (r : SequenceRing T) (sequence : Word) : Bool := r.holds sequence

/-- What `put` writes once it has decided to file. -/
@[simps capacity newest empty]
def file (r : SequenceRing T) (sequence : Word) (value : T) : SequenceRing T :=
  { r with
    sequences := Function.update r.sequences (r.slot sequence) sequence
    values := Function.update r.values (r.slot sequence) (some value)
    present := PackedBits.set r.present (r.slot sequence) }

/-- `put`: what it answers, and the ring after. -/
def put (r : SequenceRing T) (sequence : Word) (value : T) : Bool × SequenceRing T :=
  if r.empty then
    (true, file { r with newest := sequence, empty := false } sequence value)
  else if ahead sequence r.newest > 0 then
    (true, file { r with newest := sequence } sequence value)
  else if ahead sequence r.newest ≤ -r.capacity then
    (false, r)
  else
    (true, file r sequence value)

/-- What `remove` writes once it has found the number held. -/
@[simps capacity newest empty]
def letGo (r : SequenceRing T) (sequence : Word) : SequenceRing T :=
  { r with
    present := PackedBits.clear r.present (r.slot sequence)
    values := Function.update r.values (r.slot sequence) none }

/-- `remove`: what it answers, and the ring after. -/
def remove (r : SequenceRing T) (sequence : Word) : Bool × SequenceRing T :=
  if !r.holds sequence then (false, r) else (true, r.letGo sequence)

/-- `clear`.  The numbers in the slots stay. -/
def clear (r : SequenceRing T) : SequenceRing T :=
  { r with present := PackedBits.allClear 8, values := fun _ => none, empty := true, newest := 0 }

/-! ## What a call does to the lookups -/

variable {r : SequenceRing T} {sequence s : Word} {value : T}

theorem capacity_le (r : SequenceRing T) : r.capacity ≤ 2 ^ 30 := by
  obtain ⟨k, hk, h⟩ := r.capacity_pow
  rw [h]
  exact Nat.pow_le_pow_right (by decide) hk

theorem capacity_pos (r : SequenceRing T) : 0 < r.capacity := by
  obtain ⟨k, -, h⟩ := r.capacity_pow
  rw [h]
  positivity

theorem slot_eq_mod (r : SequenceRing T) (sequence : Word) :
    r.slot sequence = sequence.toNat % r.capacity := by
  obtain ⟨k, -, h⟩ := r.capacity_pow
  rw [slot, h, toNat_and_mask]

/-- Two numbers of one window share a slot only when they are equal. -/
theorem slot_injOn {c : Word} (ha : dist c sequence < r.capacity) (hb : dist c s < r.capacity)
    (h : r.slot sequence = r.slot s) : sequence = s := by
  rw [slot_eq_mod, slot_eq_mod] at h
  obtain ⟨k, hk, hc⟩ := r.capacity_pow
  rw [hc] at ha hb h
  exact eq_of_mod_two_pow (by omega) ha hb h

/-- A number lies in its slot, whether or not the window still covers it. -/
def Lying (r : SequenceRing T) (sequence : Word) : Prop :=
  PackedBits.has r.present (r.slot sequence) = true ∧ r.sequences (r.slot sequence) = sequence

instance (r : SequenceRing T) (sequence : Word) : Decidable (r.Lying sequence) :=
  inferInstanceAs (Decidable (_ ∧ _))

/-- The test of `__holds`, as a distance: the number lies in its slot and is fewer than
`capacity` behind the newest. -/
theorem holds_iff :
    r.holds sequence = true ↔
      r.empty = false ∧ dist r.newest sequence < r.capacity ∧ r.Lying sequence := by
  have hcap : r.capacity ≤ 2 ^ 31 := le_trans r.capacity_le (by decide)
  have hwin := ahead_mem_Ico_iff (a := r.newest) (b := sequence) hcap
  unfold holds Lying
  cases r.empty with
  | true => simp
  | false =>
    by_cases h : ahead r.newest sequence < 0 ∨ ahead r.newest sequence ≥ r.capacity
    · have : ¬ dist r.newest sequence < r.capacity := by omega
      simp [h, this]
    · have : dist r.newest sequence < r.capacity := by omega
      simp [h, this]

/-- `put` files the number: it is not `capacity` or more behind the newest. -/
def Accepts (r : SequenceRing T) (sequence : Word) : Prop :=
  r.empty = true ∨ -(r.capacity : ℤ) < ahead sequence r.newest

instance (r : SequenceRing T) (sequence : Word) : Decidable (r.Accepts sequence) :=
  inferInstanceAs (Decidable (_ ∨ _))

/-- The newest number after `sequence` is filed. -/
def newestAfter (r : SequenceRing T) (sequence : Word) : Word :=
  if r.empty then sequence else if ahead sequence r.newest > 0 then sequence else r.newest

/-- The ring with its window ending at `newest`. -/
@[simps -fullyApplied capacity newest empty values present]
def moveTo (r : SequenceRing T) (newest : Word) : SequenceRing T :=
  { r with newest := newest, empty := false }

@[simp] theorem moveTo_slot : (r.moveTo s).slot sequence = r.slot sequence := rfl
@[simp] theorem lying_moveTo : (r.moveTo s).Lying sequence ↔ r.Lying sequence := Iff.rfl

/-- One equation for the branches of `put`. -/
theorem put_eq (r : SequenceRing T) (sequence : Word) (value : T) :
    r.put sequence value =
      if r.Accepts sequence then (true, (r.moveTo (r.newestAfter sequence)).file sequence value)
      else (false, r) := by
  obtain ⟨capacity, hcap, newest, empty, sequences, values, present⟩ := r
  unfold put Accepts newestAfter moveTo
  cases empty with
  | true => simp
  | false =>
    by_cases hnew : ahead sequence newest > 0
    · have : -(capacity : ℤ) < ahead sequence newest := by omega
      simp [hnew, this]
    · by_cases hold : ahead sequence newest ≤ -capacity
      · simp [hnew, hold]
      · have : -(capacity : ℤ) < ahead sequence newest := by omega
        simp [hnew, this]

theorem put_answer : (r.put sequence value).1 = true ↔ r.Accepts sequence := by
  rw [put_eq]
  split <;> simp [*]

/-- An accepted number is in the window it leaves behind. -/
theorem dist_newestAfter_lt (h : r.Accepts sequence) :
    dist (r.newestAfter sequence) sequence < r.capacity := by
  have hpos := r.capacity_pos
  unfold newestAfter
  split
  · simpa using hpos
  · rename_i hne
    split
    · simpa using hpos
    · rename_i hle
      have hlt := h.resolve_left hne
      rw [ahead_eq_dist] at hle hlt
      have hd := dist_eq sequence r.newest
      rw [dist_eq]
      split at hlt <;> omega

theorem get_eq (r : SequenceRing T) (sequence : Word) :
    r.get sequence =
      if r.empty = false ∧ dist r.newest sequence < r.capacity ∧ r.Lying sequence then
        r.values (r.slot sequence) else none := by
  simp only [get, holds_iff]

@[simp] theorem file_slot : (r.file s value).slot sequence = r.slot sequence := rfl

@[simp] theorem values_file (i : ℕ) :
    (r.file s value).values i = if i = r.slot s then some value else r.values i :=
  Function.update_apply ..

theorem has_file (i : ℕ) :
    PackedBits.has (r.file s value).present i = (decide (i = r.slot s) || PackedBits.has r.present i) :=
  has_set (by decide) ..

theorem sequences_file (i : ℕ) :
    (r.file s value).sequences i = if i = r.slot s then s else r.sequences i :=
  Function.update_apply ..

theorem lying_file :
    (r.file s value).Lying sequence ↔
      sequence = s ∨ r.slot sequence ≠ r.slot s ∧ r.Lying sequence := by
  simp only [Lying, has_file, sequences_file]
  by_cases h : r.slot sequence = r.slot s
  · simp [h, @eq_comm _ s sequence]
  · have hne : sequence ≠ s := by rintro rfl; exact h rfl
    simp [h, hne]

/-- What the lookups answer after an accepted `put`: the value under its own number, and
under another what lies in the slot, if the moved window covers it. -/
theorem get_put (h : r.Accepts s) :
    (r.put s value).2.get sequence =
      if sequence = s then some value
      else if dist (r.newestAfter s) sequence < r.capacity ∧ r.Lying sequence then
        r.values (r.slot sequence) else none := by
  have hs := dist_newestAfter_lt h
  rw [put_eq, if_pos h, get_eq]
  simp only [lying_file]
  by_cases hk : sequence = s
  · simp [hk, hs]
  · by_cases hd : dist (r.newestAfter s) sequence < r.capacity
    · -- in one window, another number is in another slot
      have hne : r.slot sequence ≠ r.slot s := fun h => hk (slot_injOn hd hs h)
      simp [hk, hne]
    · simp [hk, hd]

@[simp] theorem letGo_slot : (r.letGo s).slot sequence = r.slot sequence := rfl

theorem lying_letGo :
    (r.letGo s).Lying sequence ↔ r.slot sequence ≠ r.slot s ∧ r.Lying sequence := by
  have hbit : PackedBits.has (r.letGo s).present (r.slot sequence) =
      (decide (r.slot sequence ≠ r.slot s) && PackedBits.has r.present (r.slot sequence)) :=
    has_clear (by decide) ..
  simp only [Lying, letGo_slot, hbit, show (r.letGo s).sequences = r.sequences from rfl,
    Bool.and_eq_true, decide_eq_true_eq, and_assoc]

theorem values_letGo (i : ℕ) : (r.letGo s).values i = if i = r.slot s then none else r.values i :=
  Function.update_apply ..

/-- `remove` takes out its own number and no other. -/
theorem get_remove :
    (r.remove s).2.get sequence = if sequence = s then none else r.get sequence := by
  unfold remove
  by_cases hs : r.holds s = true
  · have hin := holds_iff.1 hs
    simp only [hs, Bool.not_true, Bool.false_eq_true, if_false]
    rw [get_eq, get_eq]
    simp only [lying_letGo, values_letGo]
    by_cases hk : sequence = s
    · simp [hk]
    · by_cases hd : dist r.newest sequence < r.capacity
      · have hne : r.slot sequence ≠ r.slot s := fun h => hk (slot_injOn hd hin.2.1 h)
        simp [hk, hne]
      · simp [hd]
  · by_cases hk : sequence = s
    · simp [hs, hk, get]
    · simp [hs, hk]

theorem get_clear : r.clear.get sequence = none := by
  simp [get, holds, clear]

/-- What every call keeps of the slots: a set bit goes with a value, and a ring that
nothing was put in has no bit set. -/
structure WellFiled (r : SequenceRing T) : Prop where
  value_of_bit : ∀ i, PackedBits.has r.present i = true → (r.values i).isSome
  no_bit_of_empty : r.empty = true → ∀ i, PackedBits.has r.present i = false

theorem wellFiled_new {n : ℤ} (h : new T n = .ok r) : r.WellFiled := by
  unfold new at h
  split at h
  · cases h
  · cases h
    constructor <;> simp

theorem WellFiled.put (h : r.WellFiled) : (r.put s value).2.WellFiled := by
  rw [put_eq]
  split
  · refine ⟨fun i hi => ?_, fun he => by simp at he⟩
    rw [has_file] at hi
    by_cases his : i = r.slot s
    · simp [his]
    · simpa [his] using h.value_of_bit i (by simpa [his] using hi)
  · exact h

theorem WellFiled.remove (h : r.WellFiled) : (r.remove s).2.WellFiled := by
  unfold SequenceRing.remove
  split
  · exact h
  · have hbit : ∀ i, PackedBits.has (r.letGo s).present i =
        (decide (i ≠ r.slot s) && PackedBits.has r.present i) := fun i => has_clear (by decide) ..
    refine ⟨fun i hi => ?_, fun he i => ?_⟩
    · rw [hbit] at hi
      rw [values_letGo]
      by_cases his : i = r.slot s
      · simp [his] at hi
      · simpa [his] using h.value_of_bit i (by simpa [his] using hi)
    · rw [hbit, h.no_bit_of_empty he, Bool.and_false]

theorem WellFiled.clear : r.clear.WellFiled := by
  constructor <;> simp [SequenceRing.clear]

end SequenceRing
end CrossByte
