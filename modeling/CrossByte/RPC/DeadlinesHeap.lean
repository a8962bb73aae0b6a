import CrossByte.RPC.Deadlines

/-!
# The heap of deadlines keeps its order and its places

What `__up`, `__down` and `__removeAt` do to the arrays and to the places the
calls record.  The order is by due time and then by addition; the code compares
additions by the sign of a 32-bit difference, which is their order while those
due at the same time are fewer than `2 ^ 31` additions apart (`Comparable`).

* `Table.add_spec`: putting an entry in at the end and sifting it up.
* `Table.removeAt_spec`: taking an entry out, whether the last one put in its
  place then goes up or down.

Each says that the arrays are a heap, that every call in them records its place,
and which entries they hold.
-/

namespace CrossByte

open Serial SlotHeap

namespace RPCDeadlines

variable {τ : Type*}

namespace Table

@[simp] theorem store_get (t : Table τ) (i : ℕ) : store.get t i = t.slots i := rfl

/-- Every call in the first `n` places records its place. -/
def Places (t : Table τ) (n : ℕ) : Prop := ∀ i < n, t.deadline (t.slots i).call = deadlineOf i

/-- The entries in the first `n` places. -/
def held (t : Table τ) (n : ℕ) : Multiset (Entry τ) := elements store n t

variable {t t' : Table τ} {n i j k k' : ℕ} {e x : Entry τ}

theorem slots_put (t : Table τ) (i j : ℕ) (e : Entry τ) :
    (t.put i e).slots j = if j = i then e else t.slots j :=
  Function.update_apply ..

theorem mem_held_of_lt (hi : i < n) : t.slots i ∈ t.held n := mem_elements.2 ⟨i, hi, rfl⟩

theorem deadlineOf_inj : deadlineOf i = deadlineOf j ↔ i = j := by
  unfold deadlineOf
  omega

theorem Places.call_inj (h : t.Places n) (hi : i < n) (hj : j < n)
    (hc : (t.slots i).call = (t.slots j).call) : i = j := by
  rw [← deadlineOf_inj, ← h i hi, ← h j hj, hc]

/-- Every call but the one at the hole records its place, and none of them is that of `x`. -/
def PlacedBut (t : Table τ) (n k : ℕ) (x : Entry τ) : Prop :=
  ∀ j < n, j ≠ k → t.deadline (t.slots j).call = deadlineOf j ∧ (t.slots j).call ≠ x.call

theorem records : Records (β := ℕ) (store (τ := τ)) Table.deadline Entry.call deadlineOf :=
  ⟨fun _ _ => deadlineOf_inj.1, fun _ _ _ _ => Function.update_apply ..⟩

theorem PlacedBut.places_of_moves (h : t.PlacedBut n k x) (hm : Moves store n t k t' k') :
    (store.put t' k' x).Places n :=
  records.fill (hm.rule (Q := fun t k => PlacedBut t n k x) h fun _ _ _ => records.move)

/-! ## The order -/

/-- The code can tell the order of these entries: those due at the same time are fewer than
`2 ^ 31` additions apart. -/
structure Comparable (X : Multiset (Entry τ)) : Prop where
  order : ∀ e ∈ X, e.order = BitVec.ofNat 32 e.serial
  spaced : ∀ e ∈ X, ∀ f ∈ X, e.due = f.due → f.serial < e.serial + 2 ^ 31

theorem Comparable.mono {X Y : Multiset (Entry τ)} (h : Comparable Y) (hle : X ≤ Y) :
    Comparable X where
  order e he := h.order e (Multiset.mem_of_le hle he)
  spaced e he f hf := h.spaced e (Multiset.mem_of_le hle he) f (Multiset.mem_of_le hle hf)

variable [LinearOrder τ]

/-- Due time first, then addition. -/
def key (e : Entry τ) : τ ×ₗ ℕ := toLex (e.due, e.serial)

theorem key_lt_iff {f : Entry τ} :
    key e < key f ↔ e.due < f.due ∨ e.due = f.due ∧ e.serial < f.serial :=
  Prod.Lex.toLex_lt_toLex

theorem Comparable.agreesOn {X : Multiset (Entry τ)} (h : Comparable X) :
    AgreesOn sooner key {e | e ∈ X} := by
  intro e he f hf
  rw [key_lt_iff, sooner, decide_eq_true_iff]
  refine or_congr_right (and_congr_right fun hdue => ?_)
  have h₁ := h.spaced e he f hf hdue
  have h₂ := h.spaced f hf e he hdue.symm
  rw [h.order e he, h.order f hf, ahead_ofNat (by omega) (by omega)]
  omega

/-! ## Adding and taking out -/

/-- The table is a heap of `n` entries, and each of their calls records its place. -/
structure Ordered (t : Table τ) (n : ℕ) : Prop where
  heap : IsHeap store key n t
  places : t.Places n

/-- The first entry of a heap is before every entry of it. -/
theorem Ordered.root_le (h : t.Ordered n) (he : e ∈ t.held n) : key (t.slots 0) ≤ key e := by
  obtain ⟨j, hj, rfl⟩ := mem_elements.1 he
  exact h.heap.root_le j hj

theorem add_spec (h : t.Ordered n) (hnew : ∀ f ∈ t.held n, f.call ≠ e.call)
    (hX : Comparable (e ::ₘ t.held n)) :
    ((t.put n e).up n).Ordered (n + 1) ∧ ((t.put n e).up n).held (n + 1) = e ::ₘ t.held n := by
  have hslot : (t.put n e).slots n = e := by rw [slots_put, if_pos rfl]
  obtain ⟨t', k', hm, heq⟩ :=
    siftUp_moves store sooner (t.put n e) e n (Nat.lt_succ_self n)
  have hup : (t.put n e).up n = store.put t' k' e := by rw [up, hslot, heq]
  have hbut : t.PlacedBut (n + 1) n e := fun j hj hne =>
    have hj' : j < n := by omega
    ⟨h.places j hj', hnew _ (mem_held_of_lt hj')⟩
  refine ⟨⟨?_, ?_⟩, ?_⟩
  · rw [up, hslot]
    exact h.heap.push (fun j hj => Multiset.mem_cons_of_mem (mem_held_of_lt hj)) hX.agreesOn
      (by simp)
  · rw [hup]
    exact PlacedBut.places_of_moves (records.over hbut) hm
  · rw [hup, held, elements_of_moves hm (Nat.lt_succ_self n),
      elements_put_self (Nat.lt_succ_self n) hslot, elements_succ, store_get, hslot]
    exact congrArg _ (elements_put_of_le le_rfl)

/-- The call taken out may have let go of its place already. -/
theorem removeAt_spec (h : IsHeap store key (n + 1) t)
    (hplaces : ∀ j < n + 1, j ≠ i → t.deadline (t.slots j).call = deadlineOf j)
    (hi : i < n + 1) (hX : Comparable (t.held (n + 1))) :
    (t.removeAt n i).Ordered n ∧ t.slots i ::ₘ (t.removeAt n i).held n = t.held (n + 1) := by
  have hheap : IsHeap store key n t := fun j hj => h j (by omega)
  unfold removeAt
  by_cases hin : i = n
  · subst hin
    rw [if_neg (by simp)]
    exact ⟨⟨hheap, fun j hj => hplaces j (by omega) hj.ne⟩, elements_succ.symm⟩
  · have hlt : i < n := by omega
    set x := t.slots n
    have hslot : (t.put i x).slots i = x := by rw [slots_put, if_pos rfl]
    have hheld : t.slots i ::ₘ (t.put i x).held n = t.held (n + 1) :=
      (elements_put hlt).trans elements_succ.symm
    have hbut : t.PlacedBut n i x := fun j hj hne =>
      ⟨hplaces j (by omega) hne, fun hc => by
        have hj' := hplaces j (by omega) hne
        rw [hc, hplaces n (Nat.lt_succ_self n) (Ne.symm hin), deadlineOf_inj] at hj'
        omega⟩
    have hholed : Holed store key {f | f ∈ t.held (n + 1)} n (t.put i x) i :=
      (hheap.holed hlt fun j hj => mem_held_of_lt (by omega)).put x
    have hmem : x ∈ t.held (n + 1) := mem_held_of_lt (Nat.lt_succ_self n)
    rw [if_pos hin]
    dsimp only
    rw [hslot]
    -- whichever way the sift goes, it is moves and a write
    have hmoved : ∀ u : Table τ, (∃ t' k', Moves store n (t.put i x) i t' k' ∧
        u = store.put t' k' x) → u.Places n ∧ t.slots i ::ₘ u.held n = t.held (n + 1) := by
      rintro u ⟨t', k', hm, rfl⟩
      refine ⟨PlacedBut.places_of_moves (records.over hbut) hm, ?_⟩
      rw [held, elements_of_moves hm hlt, elements_put_self hlt hslot]
      exact hheld
    split
    · rename_i hup
      have hu := hmoved ((t.put i x).up i) (by
        obtain ⟨t', k', hm, heq⟩ :=
          siftUp_moves store sooner (t.put i x) x i hlt
        exact ⟨t', k', hm, by rw [up, hslot, heq]⟩)
      refine ⟨⟨?_, hu.1⟩, hu.2⟩
      rw [up, hslot]
      refine hholed.isHeap_siftUp hX.agreesOn hmem ?_ le_rfl
      intro j hj hpos hpj
      have hp := parent_lt hup.1
      have hsoon := (hX.agreesOn x hmem _ (hholed.mem _ (hp.trans hlt) hp.ne)).1 hup.2
      exact hsoon.le.trans (hholed.across j hj hpos hpj hup.1)
    · rename_i hup
      have hsinks : Sinks store sooner n x (t.put i x) i ((t.put i x).down n i) := by
        rw [down, hslot]
        exact siftDown_sinks hlt (by omega)
      have hu := hmoved _ hsinks.moves
      refine ⟨⟨hsinks.isHeap hholed hX.agreesOn hmem fun hpos => ?_, hu.1⟩, hu.2⟩
      have hp := parent_lt hpos
      exact not_lt.1 fun hsoon =>
        hup ⟨hpos, (hX.agreesOn x hmem _ (hholed.mem _ (hp.trans hlt) hp.ne)).2 hsoon⟩

end Table

end RPCDeadlines
end CrossByte
