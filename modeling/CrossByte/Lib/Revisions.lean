import Mathlib.Tactic

/-!
# Cells with revisions

A store of cells by key, in which every write of a cell, a delete included, takes the next
revision.  A delete leaves a tombstone, which keeps the count, and a purge forgets tombstones, so
that a cell written after one starts again at revision 1.

A reader that holds a revision may write on the condition that the cell is still at it.  `Names`
is what makes that sound: the revision held is of the value read, and of no later one.  Every write
and delete keeps it, of any cell; a purge keeps it of the cells whose tombstone it leaves.
-/

namespace Revisions

/-- A cell: its revision, when it was written, and its value; a tombstone has none. -/
structure Slot (V T : Type*) where
  revision : ℕ
  writtenAt : T
  value : Option V

/-- The cells of a store. -/
abbrev Cells (κ V T : Type*) := κ → Option (Slot V T)

section

variable {κ V T : Type*} {m : Cells κ V T} {k k' : κ} {v w : V} {r e : ℕ} {now : T}

/-- The value under a key, and its revision. -/
def live (m : Cells κ V T) (k : κ) : Option (V × ℕ) :=
  (m k).bind fun c => c.value.map fun v => (v, c.revision)

/-- The revision the next write of a key takes. -/
def next (m : Cells κ V T) (k : κ) : ℕ := (m k).elim 1 fun c => c.revision + 1

/-- The revision to expect after a read; 0 expects no value. -/
def expected (read : Option (V × ℕ)) : ℕ := read.elim 0 Prod.snd

theorem live_eq_some_iff :
    live m k = some (v, r) ↔ ∃ c, m k = some c ∧ c.value = some v ∧ c.revision = r := by
  unfold live
  cases m k with
  | none => simp
  | some c => simp

/-- Every revision counts a write. -/
def Counted (m : Cells κ V T) : Prop := ∀ k c, m k = some c → 1 ≤ c.revision

/-- Revision `r` of `k` is of the value `v`, and no later one has it. -/
def Names (m : Cells κ V T) (k : κ) (r : ℕ) (v : V) : Prop :=
  1 ≤ r ∧ ∃ c, m k = some c ∧ r ≤ c.revision ∧ (c.revision = r → c.value = some v)

theorem Counted.names (h : Counted m) (hlive : live m k = some (v, r)) : Names m k r v := by
  obtain ⟨c, hc, hv, rfl⟩ := live_eq_some_iff.1 hlive
  exact ⟨h k c hc, c, hc, le_rfl, fun _ => hv⟩

theorem Counted.expected_eq_zero_iff (h : Counted m) :
    expected (live m k) = 0 ↔ live m k = none := by
  cases hlive : live m k with
  | none => simp [expected]
  | some p =>
    have := (h.names hlive).1
    simp [expected]
    omega

theorem Names.eq_of_live (h : Names m k r v) (hlive : live m k = some (w, r)) : w = v := by
  obtain ⟨-, c, hc, -, hvalue⟩ := h
  obtain ⟨c', hc', hw, hr⟩ := live_eq_some_iff.1 hlive
  obtain rfl : c = c' := Option.some.inj (hc.symm.trans hc')
  exact Option.some.inj (hw.symm.trans (hvalue hr))

/-- A revision that is the one expected is still there, with the value it was read with. -/
theorem Names.live_of_expected (h : Names m k r v) (he : expected (live m k) = r) :
    live m k = some (v, r) := by
  cases hlive : live m k with
  | none =>
    rw [hlive] at he
    exact absurd h.1 (by simp [← he, expected])
  | some p =>
    obtain ⟨w, r'⟩ := p
    rw [hlive] at he
    obtain rfl : r' = r := he
    rw [h.eq_of_live hlive]

/-! ## Writes -/

section Write

variable [DecidableEq κ]

/-- The next revision of a cell, with a value or without. -/
def put (m : Cells κ V T) (k : κ) (value : Option V) (now : T) : Cells κ V T :=
  Function.update m k (some ⟨next m k, now, value⟩)

/-- A write, if the cell is at the revision expected. -/
def compareAndSet (m : Cells κ V T) (k : κ) (v : V) (e : ℕ) (now : T) : Option (Cells κ V T) :=
  if expected (live m k) = e then some (put m k (some v) now) else none

/-- A delete, if there is a value and it is at the revision expected. -/
def compareAndDelete (m : Cells κ V T) (k : κ) (e : ℕ) (now : T) : Option (Cells κ V T) :=
  if (live m k).any (·.2 = e) then some (put m k none now) else none

variable {value : Option V}

@[simp] theorem live_put_self : live (put m k value now) k = value.map (·, next m k) := by
  simp [live, put]

theorem live_put_ne (h : k' ≠ k) : live (put m k value now) k' = live m k' := by
  simp [live, put, h]

theorem Counted.put (h : Counted m) : Counted (put m k value now) := by
  intro k' c hc
  by_cases hk : k' = k
  · subst hk
    obtain rfl : (⟨next m k', now, value⟩ : Slot V T) = c := by simpa [Revisions.put] using hc
    cases hm : m k' <;> simp [next, hm]
  · exact h k' c (by simpa [Revisions.put, hk] using hc)

theorem Names.put (h : Names m k' r w) : Names (put m k value now) k' r w := by
  obtain ⟨hr, c, hc, hle, hvalue⟩ := h
  by_cases hk : k' = k
  · subst hk
    refine ⟨hr, _, Function.update_self .., ?_, fun heq => ?_⟩ <;>
      simp only [next, hc, Option.elim_some] at *
    · omega
    · omega
  · exact ⟨hr, c, by simpa [Revisions.put, hk] using hc, hle, hvalue⟩

theorem compareAndDelete_eq_some {m' : Cells κ V T} (h : compareAndDelete m k e now = some m') :
    (∃ v, live m k = some (v, e)) ∧ m' = put m k none now := by
  unfold compareAndDelete at h
  cases hlive : live m k with
  | none => simp [hlive] at h
  | some p =>
    rw [hlive] at h
    split at h
    · rename_i he
      obtain rfl : p.2 = e := of_decide_eq_true he
      exact ⟨⟨p.1, rfl⟩, (Option.some.inj h).symm⟩
    · cases h

end Write

/-! ## Purges -/

section Purge

variable [LT T] [DecidableLT T] {before : T}

/-- A tombstone written before `before`. -/
def Outdated (before : T) (c : Slot V T) : Prop := c.value = none ∧ c.writtenAt < before

instance (before : T) (c : Slot V T) : Decidable (Outdated before c) :=
  decidable_of_iff (c.value.isNone = true ∧ c.writtenAt < before) (by simp [Outdated])

/-- The outdated tombstones are gone. -/
def purge (m : Cells κ V T) (before : T) : Cells κ V T := fun k =>
  (m k).filter fun c => ¬ Outdated before c

theorem purge_eq_some_iff {c : Slot V T} :
    purge m before k = some c ↔ m k = some c ∧ ¬ Outdated before c := by
  simp [purge]

@[simp] theorem live_purge : live (purge m before) k = live m k := by
  ext ⟨v, r⟩
  rw [live_eq_some_iff, live_eq_some_iff]
  constructor
  · rintro ⟨c, hc, hv⟩
    exact ⟨c, (purge_eq_some_iff.1 hc).1, hv⟩
  · rintro ⟨c, hc, hv⟩
    exact ⟨c, purge_eq_some_iff.2 ⟨hc, fun h => by simp [h.1] at hv⟩, hv⟩

theorem Counted.purge (h : Counted m) : Counted (purge m before) :=
  fun k c hc => h k c (purge_eq_some_iff.1 hc).1

theorem Names.purge (h : Names m k r v) (hkept : ∀ c, m k = some c → ¬ Outdated before c) :
    Names (purge m before) k r v := by
  obtain ⟨hr, c, hc, hrest⟩ := h
  exact ⟨hr, c, purge_eq_some_iff.2 ⟨hc, hkept c hc⟩, hrest⟩

end Purge

end

end Revisions
