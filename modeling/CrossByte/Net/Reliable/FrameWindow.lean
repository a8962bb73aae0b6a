import CrossByte.Lib.Bytes
import CrossByte.Lib.FinSum
import CrossByte.Lib.Runs
import CrossByte.Lib.Serial
import CrossByte.Lib.Store

/-!
# The frames in flight

`crossbyte.net._internal.reliable.FrameWindow` files frames under their sequence numbers in a ring
of slots, each frame in the slot its number's low bits name.  A frame carries its number, so the
ring does not: `get` looks into the slot and asks the frame.  A number whose slot holds another
frame makes the ring double.

## Main results

* `FrameWindow.Files held` says that a window is the finite map `held`, whatever its size.
* `Files.get`, `Files.set`, `Files.remove` and `Files.clear` are the calls on that map.  Doubling
  leaves the map as it is, and ends, since numbers that differ at all differ in 32 bits.
* `FrameWindow.finite_map`: every run of calls is a run on the map, in a ring of at most `2 ^ 29`
  slots if the numbers held are within as many.  A frame filed under a second number is no longer
  found under the first (`refiled_is_not_found`).
-/

namespace CrossByte

open Function

open Bytes (Byte)
open Serial (Word)

/-- Seconds on a session's clock. -/
abbrev Time := ℚ

/-- `OutstandingFrame`.  `bytes` are the `length` bytes of `payload` from `offset`; a buffer goes
with its frame, so it needs no name of its own. -/
structure OutstandingFrame where
  sequence : Word := 0
  bytes : List Byte := []
  sentAt : Time := 0
  deadline : Time := 0
  attempts : ℕ := 1
  more : Bool := false
  sacked : Bool := false
  fin : Bool := false
  /-- The free list of the frame pool it goes back to; `none` is `-1`. -/
  sizeClass : Option (Fin 8) := none
  deriving DecidableEq

/-- The fields of `FrameWindow`.  `__mask` is one less than the number of slots. -/
structure FrameWindow where
  capacity : ℕ
  capacity_pow : ∃ k, capacity = 2 ^ k
  slots : ℕ → Option Ref
  count : ℤ

namespace FrameWindow

def initialCapacity : ℕ := 16

def new : FrameWindow where
  capacity := initialCapacity
  capacity_pow := ⟨4, rfl⟩
  slots := fun _ => none
  count := 0

/-- `sequence & __mask`. -/
def slot (w : FrameWindow) (sequence : Word) : ℕ :=
  (sequence &&& BitVec.ofNat 32 (w.capacity - 1)).toNat

def get (w : FrameWindow) (frames : Store OutstandingFrame) (sequence : Word) : Option Ref :=
  match w.slots (w.slot sequence) with
  | some id => if (frames.content id).sequence = sequence then some id else none
  | none => none

/-- The ring twice as large, with nothing in it. -/
def doubled (w : FrameWindow) : FrameWindow where
  capacity := 2 * w.capacity
  capacity_pow := by
    obtain ⟨k, hk⟩ := w.capacity_pow
    exact ⟨k + 1, by rw [hk, pow_succ, Nat.mul_comm]⟩
  slots := fun _ => none
  count := w.count

/-- A frame in the slot of the number it carries. -/
def moveIn (w : FrameWindow) (frames : Store OutstandingFrame) (frame : Option Ref) : FrameWindow :=
  match frame with
  | some id =>
    { w with slots := Function.update w.slots (w.slot (frames.content id).sequence) (some id) }
  | none => w

/-- `__grow`: every frame of the old ring moved into one twice its size. -/
def grow (w : FrameWindow) (frames : Store OutstandingFrame) : FrameWindow :=
  ((List.range w.capacity).map w.slots).foldl (fun grown frame => grown.moveIn frames frame)
    w.doubled

/-- The loop of `set`: the ring grown until the slot of `sequence` is its own. -/
def makeRoom (frames : Store OutstandingFrame) (sequence : Word) : ℕ → FrameWindow → FrameWindow
  | 0, w => w
  | fuel + 1, w =>
    match w.slots (w.slot sequence) with
    | some id =>
      if (frames.content id).sequence ≠ sequence then
        makeRoom frames sequence fuel (w.grow frames)
      else w
    | none => w

/-- What `set` does once the slot is the frame's own. -/
def file (w : FrameWindow) (sequence : Word) (id : Ref) : FrameWindow :=
  { w with
    count := if (w.slots (w.slot sequence)).isNone then w.count + 1 else w.count
    slots := Function.update w.slots (w.slot sequence) (some id) }

/-- `set`: the window after, and the frames, one of which takes `sequence` as its own. -/
def set (w : FrameWindow) (frames : Store OutstandingFrame) (sequence : Word) (id : Ref) :
    FrameWindow × Store OutstandingFrame :=
  let frames := frames.set id { frames.content id with sequence }
  ((makeRoom frames sequence 32 w).file sequence id, frames)

/-- `remove`: the frame taken out, and the window after. -/
def remove (w : FrameWindow) (frames : Store OutstandingFrame) (sequence : Word) :
    Option Ref × FrameWindow :=
  match w.slots (w.slot sequence) with
  | some id =>
    if (frames.content id).sequence = sequence then
      (some id,
        { w with slots := Function.update w.slots (w.slot sequence) none, count := w.count - 1 })
    else (none, w)
  | none => (none, w)

def clear (w : FrameWindow) : FrameWindow :=
  if w.count = 0 then w else { w with slots := fun _ => none, count := 0 }

def shrink (w : FrameWindow) : FrameWindow :=
  if w.count = 0 ∧ w.capacity > initialCapacity then { new with count := w.count } else w

/-! ## The map a window is -/

/-- The window is the map `held`: each frame held is in the slot of its number and carries it, and
no slot holds anything else. -/
structure Files (w : FrameWindow) (frames : Store OutstandingFrame) (held : Word → Option Ref) :
    Prop where
  filed : ∀ {s id}, held s = some id →
    w.slots (w.slot s) = some id ∧ (frames.content id).sequence = s
  only : ∀ {j id}, j < w.capacity → w.slots j = some id →
    j = w.slot (frames.content id).sequence ∧ held (frames.content id).sequence = some id
  counted : ∃ keys : Finset Word, (∀ s, s ∈ keys ↔ held s ≠ none) ∧ w.count = keys.card

theorem slot_eq_mod (w : FrameWindow) (s : Word) : w.slot s = s.toNat % w.capacity := by
  obtain ⟨k, hk⟩ := w.capacity_pow
  rw [slot, hk, Serial.toNat_and_mask]

theorem capacity_pos (w : FrameWindow) : 0 < w.capacity := by
  obtain ⟨k, hk⟩ := w.capacity_pow
  rw [hk]
  exact Nat.two_pow_pos k

theorem slot_lt (w : FrameWindow) (s : Word) : w.slot s < w.capacity := by
  rw [slot_eq_mod]
  exact Nat.mod_lt _ w.capacity_pos

section
variable {w : FrameWindow} {frames frames' : Store OutstandingFrame} {held : Word → Option Ref}
  {s : Word} {id : Ref}

theorem files_new (frames : Store OutstandingFrame) : new.Files frames fun _ => none where
  filed h := by cases h
  only _ h := by cases h
  counted := ⟨∅, fun s => by simp, rfl⟩

theorem Files.get (h : w.Files frames held) (s : Word) : w.get frames s = held s := by
  unfold FrameWindow.get
  cases hslot : w.slots (w.slot s) with
  | none =>
    cases hheld : held s with
    | none => rfl
    | some id => rw [(h.filed hheld).1] at hslot; cases hslot
  | some id =>
    obtain ⟨-, hid⟩ := h.only (w.slot_lt s) hslot
    by_cases hs : (frames.content id).sequence = s
    · rw [hs] at hid
      simp only [hs, if_true, hid]
    · cases hheld : held s with
      | none => simp only [hs, if_false]
      | some id' =>
        obtain ⟨hslot', hs'⟩ := h.filed hheld
        rw [hslot] at hslot'
        cases hslot'
        exact absurd hs' hs

/-- The numbers of the frames are all a window reads of them. -/
theorem Files.congr (h : w.Files frames held)
    (hseq : ∀ {s id}, held s = some id →
      (frames'.content id).sequence = (frames.content id).sequence) : w.Files frames' held where
  filed hs := ⟨(h.filed hs).1, (hseq hs).trans (h.filed hs).2⟩
  only hj hid := by
    obtain ⟨hslot, hheld⟩ := h.only hj hid
    rw [hseq hheld]
    exact ⟨hslot, hheld⟩
  counted := h.counted

/-! ### Growing -/

/-- Each number has a slot of its own, and keeps one in a ring twice the size. -/
theorem Files.slot_inj (h : w.Files frames held) {t : Word} {id' : Ref} (hs : held s = some id)
    (ht : held t = some id') (hst : w.doubled.slot s = w.doubled.slot t) : s = t := by
  have hcap : w.doubled.capacity = 2 * w.capacity := rfl
  rw [slot_eq_mod, slot_eq_mod, hcap] at hst
  have hslot : w.slot s = w.slot t := by
    rw [slot_eq_mod, slot_eq_mod, ← Nat.mod_mul_left_mod s.toNat 2, hst, Nat.mod_mul_left_mod]
  have hids := (h.filed hs).1
  rw [hslot, (h.filed ht).1] at hids
  cases hids
  exact (h.filed hs).2.symm.trans (h.filed ht).2

@[simp] theorem moveIn_capacity (frame : Option Ref) :
    (w.moveIn frames frame).capacity = w.capacity := by cases frame <;> rfl

@[simp] theorem moveIn_count (frame : Option Ref) :
    (w.moveIn frames frame).count = w.count := by cases frame <;> rfl

/-- What is in a slot after some frames were moved in, when no two of them share one. -/
theorem foldl_moveIn_slots (frames : Store OutstandingFrame) (l : List (Option Ref))
    (w : FrameWindow)
    (hinj : ∀ id id', some id ∈ l → some id' ∈ l →
      w.slot (frames.content id).sequence = w.slot (frames.content id').sequence → id = id')
    (j : ℕ) (id : Ref) :
    (l.foldl (fun grown frame => grown.moveIn frames frame) w).slots j = some id ↔
      (some id ∈ l ∧ w.slot (frames.content id).sequence = j) ∨
        (w.slots j = some id ∧ ∀ id', some id' ∈ l → w.slot (frames.content id').sequence ≠ j) := by
  induction l generalizing w with
  | nil => simp
  | cons frame l ih =>
    have hslot : ∀ s, (w.moveIn frames frame).slot s = w.slot s := by
      intro s
      rw [slot_eq_mod, slot_eq_mod, moveIn_capacity]
    rw [List.foldl_cons, ih (w.moveIn frames frame)
      fun a b ha hb hab => hinj a b (List.mem_cons_of_mem _ ha) (List.mem_cons_of_mem _ hb)
        (by rwa [hslot, hslot] at hab)]
    cases frame with
    | none => simp [moveIn]
    | some k =>
      have hk := fun a ha => hinj a k ha List.mem_cons_self
      simp only [moveIn, List.mem_cons, Option.some.injEq]
      by_cases hj : j = w.slot (frames.content k).sequence
      · subst hj
        rw [update_self]
        constructor
        · rintro (⟨hin, hs⟩ | ⟨he, hno⟩)
          · exact .inl ⟨.inr hin, hs⟩
          · cases he
            exact .inl ⟨.inl rfl, rfl⟩
        · rintro (⟨rfl | hin, hs⟩ | ⟨-, hno⟩)
          · by_cases hex : some id ∈ l
            · exact .inl ⟨hex, hs⟩
            · refine .inr ⟨rfl, fun a ha hs' => hex ?_⟩
              rw [← hk a (List.mem_cons_of_mem _ ha) hs']
              exact ha
          · exact .inl ⟨hin, hs⟩
          · exact absurd rfl (hno k (.inl rfl))
      · rw [update_of_ne hj]
        constructor
        · rintro (⟨hin, hs⟩ | ⟨he, hno⟩)
          · exact .inl ⟨.inr hin, hs⟩
          · refine .inr ⟨he, fun a ha => ?_⟩
            rcases ha with rfl | ha
            · exact fun hs => hj hs.symm
            · exact hno a ha
        · rintro (⟨rfl | hin, hs⟩ | ⟨he, hno⟩)
          · exact absurd hs.symm hj
          · exact .inl ⟨hin, hs⟩
          · exact .inr ⟨he, fun a ha => hno a (.inr ha)⟩

theorem foldl_moveIn_shape (l : List (Option Ref)) (w : FrameWindow) :
    (l.foldl (fun grown frame => grown.moveIn frames frame) w).capacity = w.capacity ∧
      (l.foldl (fun grown frame => grown.moveIn frames frame) w).count = w.count := by
  induction l generalizing w with
  | nil => exact ⟨rfl, rfl⟩
  | cons frame l ih => simpa using ih (w.moveIn frames frame)

@[simp] theorem grow_capacity : (w.grow frames).capacity = 2 * w.capacity :=
  (foldl_moveIn_shape _ _).1

@[simp] theorem grow_count : (w.grow frames).count = w.count := (foldl_moveIn_shape _ _).2

theorem grow_slot (s : Word) : (w.grow frames).slot s = w.doubled.slot s := by
  rw [slot_eq_mod, slot_eq_mod, grow_capacity]
  rfl

theorem Files.grow (h : w.Files frames held) : (w.grow frames).Files frames held := by
  have hmem : ∀ {id}, some id ∈ (List.range w.capacity).map w.slots ↔
      held (frames.content id).sequence = some id := by
    intro id
    rw [List.mem_map]
    constructor
    · rintro ⟨j, hj, hid⟩
      exact (h.only (List.mem_range.1 hj) hid).2
    · exact fun hid => ⟨_, List.mem_range.2 (w.slot_lt _), (h.filed hid).1⟩
  have hslots := foldl_moveIn_slots frames ((List.range w.capacity).map w.slots)
    w.doubled fun id id' hid hid' hs => by
      have hseq := h.slot_inj (hmem.1 hid) (hmem.1 hid') hs
      have hheld := hmem.1 hid
      rw [hseq, hmem.1 hid'] at hheld
      exact (Option.some.inj hheld).symm
  refine ⟨fun {s id} hs => ?_, fun {j id} _ hid => ?_, ?_⟩
  · have hseq := (h.filed hs).2
    refine ⟨(hslots _ _).2 (.inl ⟨hmem.2 (hseq ▸ hs), ?_⟩), hseq⟩
    rw [grow_slot, hseq]
  · rcases (hslots j id).1 hid with ⟨hin, hs⟩ | ⟨hin, -⟩
    · exact ⟨by rw [grow_slot, hs], hmem.1 hin⟩
    · cases hin
  · rw [grow_count]
    exact h.counted

/-- The loop of `set` leaves the map as it is and ends with a slot for the number: `2 ^ 32` slots
tell every two numbers apart. -/
theorem Files.makeRoom (h : w.Files frames held) (s : Word) (fuel : ℕ)
    (hfuel : 2 ^ 32 ≤ w.capacity * 2 ^ fuel) :
    (FrameWindow.makeRoom frames s fuel w).Files frames held ∧
      ∀ id, (FrameWindow.makeRoom frames s fuel w).slots
        ((FrameWindow.makeRoom frames s fuel w).slot s) = some id →
          (frames.content id).sequence = s := by
  induction fuel generalizing w with
  | zero =>
    refine ⟨h, fun id hid => ?_⟩
    have hslot := (h.only (w.slot_lt s) hid).1
    rw [slot_eq_mod, slot_eq_mod, Nat.mod_eq_of_lt (by omega), Nat.mod_eq_of_lt (by omega)] at hslot
    exact (BitVec.eq_of_toNat_eq hslot).symm
  | succ fuel ih =>
    unfold FrameWindow.makeRoom
    cases hslot : w.slots (w.slot s) with
    | none => exact ⟨h, fun id hid => by simp only [hslot] at hid; cases hid⟩
    | some id =>
      by_cases hseq : (frames.content id).sequence = s
      · simp only [hseq, ne_eq, not_true_eq_false, if_false]
        refine ⟨h, fun id' hid' => ?_⟩
        rw [hslot] at hid'
        cases hid'
        exact hseq
      · simp only [hseq, ne_eq]
        refine ih h.grow ?_
        rw [grow_capacity]
        calc 2 ^ 32 ≤ w.capacity * 2 ^ (fuel + 1) := hfuel
          _ = 2 * w.capacity * 2 ^ fuel := by ring

/-! ### The calls -/

section

variable (h : w.Files frames held)

include h

/-- The frames after `set`: the frame's own entry apart, those of the window carry the numbers they
did. -/
theorem Files.renumber (hid : ∀ {t}, held t = some id → t = s) :
    w.Files (w.set frames s id).2 held := by
  refine h.congr fun {t x} hx => ?_
  by_cases hxid : x = id
  · subst hxid
    rw [(h.filed hx).2, hid hx]
    exact congrArg OutstandingFrame.sequence (Store.set_content_self ..)
  · exact congrArg OutstandingFrame.sequence (Store.set_content_ne _ hxid _)

/-- The slot of a number written, when no other number has it. -/
theorem Files.write (hfree : ∀ x, w.slots (w.slot s) = some x → (frames.content x).sequence = s)
    {value : Option Ref} (hvalue : ∀ x, value = some x → (frames.content x).sequence = s)
    {count : ℤ}
    (hcount : ∃ keys : Finset Word, (∀ t, t ∈ keys ↔ update held s value t ≠ none) ∧
      count = keys.card) :
    ({ w with slots := update w.slots (w.slot s) value, count := count } :
      FrameWindow).Files frames (update held s value) := by
  refine ⟨fun {t x} hx => ?_, fun {j x} hj hx => ?_, hcount⟩
  · change update w.slots (w.slot s) value (w.slot t) = some x ∧ _
    by_cases hts : t = s
    · subst hts
      rw [update_self] at hx ⊢
      exact ⟨hx, hvalue x hx⟩
    · rw [update_of_ne hts] at hx
      obtain ⟨hslot, hseq⟩ := h.filed hx
      have hne : w.slot t ≠ w.slot s := fun he => by
        rw [he] at hslot
        exact hts (hseq.symm.trans (hfree x hslot))
      rw [update_of_ne hne]
      exact ⟨hslot, hseq⟩
  · change update w.slots (w.slot s) value j = some x at hx
    by_cases hjs : j = w.slot s
    · subst hjs
      rw [update_self] at hx
      rw [hvalue x hx]
      exact ⟨rfl, by rw [update_self, hx]⟩
    · rw [update_of_ne hjs] at hx
      obtain ⟨hjx, hheld⟩ := h.only hj hx
      refine ⟨hjx, ?_⟩
      rw [update_of_ne fun he => hjs (hjx.trans (by rw [he]))]
      exact hheld

/-- What `set` does, to a frame not filed under another number. -/
theorem Files.set (hid : ∀ {t}, held t = some id → t = s) :
    (w.set frames s id).1.Files (w.set frames s id).2 (update held s (some id)) := by
  have hfiles := h.renumber hid
  change w.Files (frames.set id { frames.content id with sequence := s }) held at hfiles
  set frames' := frames.set id { frames.content id with sequence := s } with hframes
  have hself : (frames'.content id).sequence = s := by rw [Store.set_content_self]
  obtain ⟨hroom, hfree⟩ := hfiles.makeRoom s 32 (by
    have := w.capacity_pos
    omega)
  change ((FrameWindow.makeRoom frames' s 32 w).file s id).Files frames' _
  set v := FrameWindow.makeRoom frames' s 32 w
  refine hroom.write hfree (fun x hx => Option.some.inj hx ▸ hself) ?_
  obtain ⟨keys, hkeys, hcount⟩ := hroom.counted
  refine ⟨insert s keys, fun t => ?_, ?_⟩
  · rw [Finset.mem_insert, hkeys]
    by_cases hts : t = s
    · subst hts; simp
    · simp [hts]
  · cases hslot : v.slots (v.slot s) with
    | none =>
      have hs : s ∉ keys := fun hin => by
        obtain ⟨x, hx⟩ := Option.ne_none_iff_exists'.1 ((hkeys s).1 hin)
        rw [(hroom.filed hx).1] at hslot
        cases hslot
      rw [Finset.card_insert_of_notMem hs]
      simp [hcount]
    | some x =>
      have hs : s ∈ keys := (hkeys s).2 (by
        have hx := (hroom.only (v.slot_lt s) hslot).2
        rw [hfree x hslot] at hx
        simp [hx])
      rw [Finset.insert_eq_of_mem hs]
      simp [hcount]

theorem Files.remove (s : Word) :
    (w.remove frames s).1 = held s ∧ (w.remove frames s).2.Files frames (update held s none) := by
  have hget := h.get s
  unfold FrameWindow.get at hget
  have hkeep : held s = none → w.Files frames (update held s none) := fun hs => by
    rwa [← hs, update_eq_self]
  unfold FrameWindow.remove
  cases hslot : w.slots (w.slot s) with
  | none =>
    rw [hslot] at hget
    exact ⟨hget, hkeep hget.symm⟩
  | some id =>
    rw [hslot] at hget
    by_cases hseq : (frames.content id).sequence = s
    · simp only [hseq] at hget ⊢
      refine ⟨hget, h.write (fun x hx => ?_) (fun x (hx : none = some x) => nomatch hx) ?_⟩
      · rw [hslot] at hx
        exact Option.some.inj hx ▸ hseq
      · obtain ⟨keys, hkeys, hcount⟩ := h.counted
        have hs : s ∈ keys := (hkeys s).2 (by simp [← hget])
        refine ⟨keys.erase s, fun t => ?_, ?_⟩
        · rw [Finset.mem_erase, hkeys]
          by_cases hts : t = s
          · subst hts; simp
          · simp [hts]
        · have hpos := Finset.card_pos.2 ⟨s, hs⟩
          rw [Finset.card_erase_of_mem hs]
          omega
    · simp only [hseq] at hget ⊢
      exact ⟨hget, hkeep hget.symm⟩

theorem Files.held_eq_none (hzero : w.count = 0) : held = fun _ => none := by
  obtain ⟨keys, hkeys, hcount⟩ := h.counted
  have hempty : keys = ∅ := Finset.card_eq_zero.1 (by omega)
  ext1 s
  by_contra hs
  have := (hkeys s).2 hs
  simp [hempty] at this

theorem Files.clear : w.clear.Files frames fun _ => none := by
  unfold FrameWindow.clear
  split
  · rename_i hzero
    rwa [← h.held_eq_none hzero]
  · exact ⟨fun h => (by cases h), fun _ h => (by cases h), ⟨∅, by simp, rfl⟩⟩

theorem Files.shrink : w.shrink.Files frames held := by
  unfold FrameWindow.shrink
  split
  · rename_i hzero
    rw [h.held_eq_none hzero.1]
    exact ⟨fun h => (by cases h), fun _ h => (by cases h), ⟨∅, by simp, hzero.1⟩⟩
  · exact h

end

/-! ## Runs -/

/-- The numbers held are within a run of `2 ^ 29`. -/
def Within (held : Word → Option Ref) : Prop :=
  ∃ base : Word, ∀ s, held s ≠ none → (s - base).toNat < 2 ^ 29

/-- Two numbers of such a run have slots of their own in a ring as long. -/
theorem Within.slot_inj (h : Within held) {s t : Word} (hs : held s ≠ none) (ht : held t ≠ none)
    (hcap : w.capacity = 2 ^ 29) (hst : w.slot s = w.slot t) : s = t := by
  obtain ⟨base, hbase⟩ := h
  have hs' := hbase s hs
  have ht' := hbase t ht
  rw [slot_eq_mod, slot_eq_mod, hcap] at hst
  rw [BitVec.toNat_sub] at hs' ht'
  apply BitVec.eq_of_toNat_eq
  omega

/-- The loop of `set` stops at `2 ^ 29` slots. -/
theorem Files.capacity_makeRoom (h : w.Files frames held)
    (hwithin : Within (update held s (some id))) (fuel : ℕ) (hcap : w.capacity ≤ 2 ^ 29) :
    (FrameWindow.makeRoom frames s fuel w).capacity ≤ 2 ^ 29 := by
  induction fuel generalizing w with
  | zero => exact hcap
  | succ fuel ih =>
    unfold FrameWindow.makeRoom
    split
    · rename_i id' hslot
      split
      · rename_i hne
        refine ih h.grow ?_
        obtain ⟨hown, hheld⟩ := h.only (w.slot_lt s) hslot
        have hlt : w.capacity ≠ 2 ^ 29 := fun heq => hne
          (hwithin.slot_inj (by simp [hne, hheld]) (by simp) heq hown.symm)
        obtain ⟨k, hk⟩ := w.capacity_pow
        rw [hk] at hcap hlt
        have hk29 : k < 29 := (Nat.pow_le_pow_iff_right (by decide)).1 hcap |>.lt_of_ne
          fun heq => hlt (by rw [heq])
        rw [grow_capacity, hk, ← pow_succ']
        exact Nat.pow_le_pow_right (by decide) hk29
      · exact hcap
    · exact hcap

end

inductive Call where
  | set (sequence : Word) (frame : Ref)
  | get (sequence : Word)
  | remove (sequence : Word)
  | clear
  | shrink

/-- A window and the frames. -/
structure World where
  window : FrameWindow
  frames : Store OutstandingFrame

def World.step (x : World) : Call → World
  | .set sequence frame =>
    ⟨(x.window.set x.frames sequence frame).1, (x.window.set x.frames sequence frame).2⟩
  | .get _ => x
  | .remove sequence => { x with window := (x.window.remove x.frames sequence).2 }
  | .clear => { x with window := x.window.clear }
  | .shrink => { x with window := x.window.shrink }

def mapStep (held : Word → Option Ref) : Call → Word → Option Ref
  | .set sequence frame => Function.update held sequence (some frame)
  | .remove sequence => Function.update held sequence none
  | .clear => fun _ => none
  | .get _ | .shrink => held

/-- A call that leaves the numbers held within a run of `2 ^ 29`, and files no frame that is filed
under another number. -/
def Fits (held : Word → Option Ref) (call : Call) : Prop :=
  Within (mapStep held call) ∧
    ∀ sequence frame, call = .set sequence frame → ∀ t, held t = some frame → t = sequence

/-- The window is the map, in a ring an `Int` can count. -/
def World.Maps (x : World) (held : Word → Option Ref) : Prop :=
  x.window.Files x.frames held ∧ x.window.capacity ≤ 2 ^ 29

theorem World.Maps.step {x : World} {held : Word → Option Ref} (h : x.Maps held) {call : Call}
    (hfits : Fits held call) : (x.step call).Maps (mapStep held call) := by
  obtain ⟨hfiles, hcap⟩ := h
  cases call with
  | set sequence frame =>
    have hown := fun {t} => hfits.2 sequence frame rfl t
    refine ⟨hfiles.set hown, ?_⟩
    exact (hfiles.renumber hown).capacity_makeRoom hfits.1 32 hcap
  | get sequence => exact ⟨hfiles, hcap⟩
  | remove sequence =>
    refine ⟨(hfiles.remove sequence).2, ?_⟩
    change (x.window.remove x.frames sequence).2.capacity ≤ _
    unfold FrameWindow.remove
    split
    · split <;> exact hcap
    · exact hcap
  | clear =>
    refine ⟨hfiles.clear, ?_⟩
    change x.window.clear.capacity ≤ _
    unfold FrameWindow.clear
    split <;> exact hcap
  | shrink =>
    refine ⟨hfiles.shrink, ?_⟩
    change x.window.shrink.capacity ≤ _
    unfold FrameWindow.shrink
    split
    · change initialCapacity ≤ _
      decide
    · exact hcap

/-- **A window is a finite map.**  After every run of calls, `get` and `remove` answer what is held,
`count` is how many are, the ring is of `2 ^ 29` slots at most, and the loop of `set` has come to
its end within 32 turns. -/
theorem finite_map (frames : Store OutstandingFrame) (calls : List Call)
    (hcalls : Runs.Along mapStep Fits (fun _ => none) calls) :
    let x := Runs.run World.step ⟨new, frames⟩ calls
    let held := Runs.run mapStep (fun _ => none) calls
    (∀ s, x.window.get x.frames s = held s ∧ (x.window.remove x.frames s).1 = held s) ∧
    (∃ keys : Finset Word, (∀ s, s ∈ keys ↔ held s ≠ none) ∧ x.window.count = keys.card) ∧
    x.window.capacity ≤ 2 ^ 29 ∧
    ∀ s id, Fits held (.set s id) →
      let frames := (x.window.set x.frames s id).2
      let ring := makeRoom frames s 32 x.window
      ∀ other, ring.slots (ring.slot s) = some other → (frames.content other).sequence = s := by
  intro x held
  have hmaps : x.Maps held := by
    have hstart : (⟨new, frames⟩ : World).Maps fun _ => none :=
      ⟨files_new frames, show initialCapacity ≤ 2 ^ 29 by decide⟩
    exact Runs.run_simulation (R := fun held x => World.Maps x held) hstart
      (fun _ _ _ h hfits => h.step hfits) hcalls
  obtain ⟨hfiles, hcap⟩ := hmaps
  refine ⟨fun s => ⟨hfiles.get s, (hfiles.remove s).1⟩, hfiles.counted, hcap, ?_⟩
  intro s id hfits
  refine ((hfiles.renumber fun {t} => hfits.2 s id rfl t).makeRoom s 32 ?_).2
  have := x.window.capacity_pos
  omega

/-- Two frames of one slot, at which the ring doubles; the first is taken out and filed again. -/
def filedAgain : List Call := [.set 5 0, .set 21 1, .remove 5, .set 37 0]

theorem filedAgain_held : Runs.Along mapStep Fits (fun _ => none) filedAgain ∧
    ∀ frames : Store OutstandingFrame,
      (Runs.run World.step ⟨new, frames⟩ filedAgain).window.get
        (Runs.run World.step ⟨new, frames⟩ filedAgain).frames 37 = some 0 := by
  have hfits : Runs.Along mapStep Fits (fun _ => none) filedAgain := by
    refine ⟨⟨⟨5, ?_⟩, ?_⟩, ⟨⟨5, ?_⟩, ?_⟩, ⟨⟨5, ?_⟩, ?_⟩, ⟨⟨21, ?_⟩, ?_⟩, trivial⟩
    all_goals
      simp only [mapStep, update_apply]
      grind
  exact ⟨hfits, fun frames => ((finite_map frames filedAgain hfits).1 37).1⟩

/-- **A frame takes the number it was filed under last.**  Filed under two, it is not found under
the first. -/
theorem refiled_is_not_found :
    let calls : List Call := [.set 1 0, .set 2 0]
    let x := Runs.run World.step ⟨new, ⟨fun _ => {}, 1⟩⟩ calls
    x.window.get x.frames 1 = none ∧ Runs.run mapStep (fun _ => none) calls 1 = some 0 := by
  decide +kernel

end FrameWindow

end CrossByte
