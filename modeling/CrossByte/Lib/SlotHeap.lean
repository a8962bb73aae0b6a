import Mathlib.Tactic

/-!
# Binary heaps in slots

A binary min-heap kept in numbered slots, sifted the way hand-written heaps are:
the element being moved is held aside, the others are shifted over the hole it
left, and it is written once, where the hole ends up.

The slots are abstract.  A `Slots σ α` is any store with a read and a write that
obey the one law reads and writes must: so a store that also records, on every
write, where each element now sits is an instance as it is, and what it records
is proved about with the rules below.

* `siftUp_moves` and `Sinks.moves`: a sift is a chain of `Moves`, each filling
  the hole with another element of the heap, and one last write.
* `Moves.rule`: what every move keeps, the whole sift keeps.
* `Holed.isHeap_siftUp`, `Sinks.isHeap`: the sifted slots are a heap.
* `Records.move`, `Records.fill`: the places recorded stay right while the hole moves.
* `elements_of_moves`: the sifted slots hold what they held.

The order is given twice: by `sooner`, the comparison the program makes, and by a
`key` into a linear order.  They need to agree on the elements at hand only.
-/

namespace SlotHeap

/-- Numbered slots with a read and a write. -/
structure Slots (σ α : Type*) where
  get : σ → ℕ → α
  put : σ → ℕ → α → σ
  get_put : ∀ s i x j, get (put s i x) j = if j = i then x else get s j

variable {σ α K : Type*} (S : Slots σ α) (sooner : α → α → Bool)

/-- The slot above slot `i` in the tree. -/
def parent (i : ℕ) : ℕ := (i - 1) / 2

/-- Sift `x` up from the hole at `i`.  Fuel `i` is enough. -/
def siftUp : ℕ → σ → ℕ → α → σ
  | 0, s, i, x => S.put s i x
  | fuel + 1, s, i, x =>
    if 0 < i ∧ sooner x (S.get s (parent i)) = true then
      siftUp fuel (S.put s i (S.get s (parent i))) (parent i) x
    else S.put s i x

/-- The child of slot `i` that comes first among the `n` slots; slot `i` has one. -/
def firstChild (s : σ) (n i : ℕ) : ℕ :=
  if 2 * i + 2 < n ∧ sooner (S.get s (2 * i + 2)) (S.get s (2 * i + 1)) = true then 2 * i + 2
  else 2 * i + 1

/-- Sift `x` down from the hole at `i`, among `n` slots.  Fuel `n` is enough. -/
def siftDown (n : ℕ) : ℕ → σ → ℕ → α → σ
  | 0, s, i, x => S.put s i x
  | fuel + 1, s, i, x =>
    if i < n / 2 then
      let child := firstChild S sooner s n i
      if sooner x (S.get s child) = true then S.put s i x
      else siftDown n fuel (S.put s i (S.get s child)) child x
    else S.put s i x

/-- Sift `x` down from the hole at `i` while the first child comes before it.  Fuel `n` is
enough. -/
def sink (n : ℕ) : ℕ → σ → ℕ → α → σ
  | 0, s, i, x => S.put s i x
  | fuel + 1, s, i, x =>
    if i < n / 2 then
      let child := firstChild S sooner s n i
      if sooner (S.get s child) x = true then sink n fuel (S.put s i (S.get s child)) child x
      else S.put s i x
    else S.put s i x

/-- Sink the hole at `i` to the bottom, along the first children.  Fuel `n` is enough. -/
def sinkHole (n : ℕ) : ℕ → σ → ℕ → σ × ℕ
  | 0, s, i => (s, i)
  | fuel + 1, s, i =>
    if i < n / 2 then
      let child := firstChild S sooner s n i
      sinkHole n fuel (S.put s i (S.get s child)) child
    else (s, i)

/-! ## Moves -/

/-- From the slots with a hole at `i` to those with a hole elsewhere: each move fills the
hole with one of the `n` elements and leaves a hole where it was. -/
inductive Moves (n : ℕ) : σ → ℕ → σ → ℕ → Prop
  | refl (s : σ) (i : ℕ) : Moves n s i s i
  | move {s : σ} {i : ℕ} {s' : σ} {i' : ℕ} (j : ℕ) (hj : j < n) (hne : j ≠ i)
      (h : Moves n (S.put s i (S.get s j)) j s' i') : Moves n s i s' i'

variable {S sooner} {n : ℕ} {s s' : σ} {i i' : ℕ} {x : α}

/-- What every move keeps holds where the hole ends up. -/
theorem Moves.rule {Q : σ → ℕ → Prop} (h : Moves S n s i s' i') (hQ : Q s i)
    (hmove : ∀ s i j, Q s i → j < n → j ≠ i → Q (S.put s i (S.get s j)) j) : Q s' i' := by
  induction h with
  | refl s i => exact hQ
  | move j hj hne _ ih => exact ih (hmove _ _ j hQ hj hne)

theorem Moves.lt (h : Moves S n s i s' i') (hi : i < n) : i' < n :=
  h.rule (Q := fun _ i => i < n) hi fun _ _ _ _ hj _ => hj

theorem parent_lt (hi : 0 < i) : parent i < i := by
  unfold parent
  omega

theorem siftUp_moves (S : Slots σ α) (sooner : α → α → Bool) (s : σ) (x : α) (fuel : ℕ)
    (hi : i < n) : ∃ s' i', Moves S n s i s' i' ∧ siftUp S sooner fuel s i x = S.put s' i' x := by
  induction fuel generalizing s i with
  | zero => exact ⟨s, i, .refl s i, rfl⟩
  | succ fuel ih =>
    unfold siftUp
    split
    · rename_i h
      have hp := parent_lt h.1
      obtain ⟨s', i', hm, heq⟩ := ih (s := S.put s i (S.get s (parent i))) (hp.trans hi)
      exact ⟨s', i', .move _ (hp.trans hi) hp.ne hm, heq⟩
    · exact ⟨s, i, .refl s i, rfl⟩

theorem firstChild_bounds (S : Slots σ α) (sooner : α → α → Bool) (s : σ) (hi : i < n / 2) :
    firstChild S sooner s n i < n ∧ i < firstChild S sooner s n i ∧
      parent (firstChild S sooner s n i) = i := by
  unfold firstChild parent
  split <;> omega

variable (S sooner) in
/-- What sifting `x` down from the hole at `i` may leave, whichever way ties are broken. -/
inductive Sinks (n : ℕ) (x : α) : σ → ℕ → σ → Prop
  | stop {s : σ} {i : ℕ} (h : i < n / 2 → sooner x (S.get s (firstChild S sooner s n i)) = true ∨
      sooner (S.get s (firstChild S sooner s n i)) x = false) : Sinks n x s i (S.put s i x)
  | down {s u : σ} {i : ℕ} (hi : i < n / 2)
      (h : sooner x (S.get s (firstChild S sooner s n i)) = false ∨
        sooner (S.get s (firstChild S sooner s n i)) x = true)
      (hu : Sinks n x (S.put s i (S.get s (firstChild S sooner s n i)))
        (firstChild S sooner s n i) u) : Sinks n x s i u

theorem siftDown_sinks {fuel : ℕ} (hi : i < n) (hfuel : n ≤ fuel + i) :
    Sinks S sooner n x s i (siftDown S sooner n fuel s i x) := by
  induction fuel generalizing s i with
  | zero => omega
  | succ fuel ih =>
    unfold siftDown
    split
    · rename_i hhalf
      obtain ⟨hlt, hgt, -⟩ := firstChild_bounds S sooner s hhalf
      dsimp only
      split
      · exact .stop fun _ => .inl ‹_›
      · exact .down hhalf (.inl (Bool.eq_false_of_not_eq_true ‹_›)) (ih hlt (by omega))
    · exact .stop fun hhalf => absurd hhalf ‹_›

theorem sink_sinks {fuel : ℕ} (hi : i < n) (hfuel : n ≤ fuel + i) :
    Sinks S sooner n x s i (sink S sooner n fuel s i x) := by
  induction fuel generalizing s i with
  | zero => omega
  | succ fuel ih =>
    unfold sink
    split
    · rename_i hhalf
      obtain ⟨hlt, hgt, -⟩ := firstChild_bounds S sooner s hhalf
      dsimp only
      split
      · exact .down hhalf (.inr ‹_›) (ih hlt (by omega))
      · exact .stop fun _ => .inr (Bool.eq_false_of_not_eq_true ‹_›)
    · exact .stop fun hhalf => absurd hhalf ‹_›

theorem Sinks.moves {u : σ} (h : Sinks S sooner n x s i u) :
    ∃ s' i', Moves S n s i s' i' ∧ u = S.put s' i' x := by
  induction h with
  | stop => exact ⟨_, _, .refl _ _, rfl⟩
  | down hi _ _ ih =>
    obtain ⟨s', i', hm, heq⟩ := ih
    obtain ⟨hlt, hgt, -⟩ := firstChild_bounds S sooner _ hi
    exact ⟨s', i', .move _ hlt hgt.ne' hm, heq⟩

theorem sinkHole_moves (S : Slots σ α) (sooner : α → α → Bool) (n : ℕ) (s : σ) (i : ℕ)
    (fuel : ℕ) :
    Moves S n s i (sinkHole S sooner n fuel s i).1 (sinkHole S sooner n fuel s i).2 := by
  induction fuel generalizing s i with
  | zero => exact .refl s i
  | succ fuel ih =>
    unfold sinkHole
    split
    · rename_i hi
      obtain ⟨hlt, hgt, -⟩ := firstChild_bounds S sooner s hi
      exact .move _ hlt hgt.ne' (ih _ _)
    · exact .refl s i

/-! ## Recorded places -/

section Places

variable {β γ : Type*} [DecidableEq β]

/-- A write records the place written, under the name of what is written there. -/
structure Records (S : Slots σ α) (index : σ → β → γ) (name : α → β) (place : ℕ → γ) : Prop where
  inj : Function.Injective place
  put : ∀ s i x b, index (S.put s i x) b = if b = name x then place i else index s b

/-- All but the hole at `i` have their places recorded, and none goes by the name `b`. -/
def RecordedBut (S : Slots σ α) (index : σ → β → γ) (name : α → β) (place : ℕ → γ) (n : ℕ) (s : σ)
    (i : ℕ) (b : β) : Prop :=
  ∀ j < n, j ≠ i → index s (name (S.get s j)) = place j ∧ name (S.get s j) ≠ b

variable {index : σ → β → γ} {name : α → β} {place : ℕ → γ} {b : β} {j : ℕ}

section

variable (hr : Records S index name place)

include hr

theorem Records.move (h : RecordedBut S index name place n s i b) (hj : j < n) (hne : j ≠ i) :
    RecordedBut S index name place n (S.put s i (S.get s j)) j b := by
  intro k hk hkj
  rw [S.get_put, hr.put]
  by_cases hki : k = i
  · rw [if_pos hki, if_pos rfl, hki]
    exact ⟨rfl, (h j hj hne).2⟩
  · have hname : name (S.get s k) ≠ name (S.get s j) := by
      intro heq
      have hplace := (h k hk hki).1
      rw [heq, (h j hj hne).1] at hplace
      exact hkj (hr.inj hplace).symm
    rw [if_neg hki, if_neg hname]
    exact h k hk hki

theorem Records.fill (h : RecordedBut S index name place n s i (name x)) :
    ∀ j < n, index (S.put s i x) (name (S.get (S.put s i x) j)) = place j := by
  intro j hj
  rw [S.get_put, hr.put]
  by_cases hji : j = i
  · rw [if_pos hji, if_pos rfl, hji]
  · rw [if_neg hji, if_neg (h j hj hji).2]
    exact (h j hj hji).1

theorem Records.over (h : RecordedBut S index name place n s i (name x)) :
    RecordedBut S index name place n (S.put s i x) i (name x) := by
  intro j hj hne
  rw [S.get_put, hr.put, if_neg hne, if_neg (h j hj hne).2]
  exact h j hj hne

end

end Places

/-! ## What the slots hold -/

/-- The elements of the first `n` slots. -/
def elements (S : Slots σ α) (n : ℕ) (s : σ) : Multiset α := (Multiset.range n).map (S.get s)

theorem mem_elements : x ∈ elements S n s ↔ ∃ j < n, S.get s j = x := by
  simp [elements]

theorem elements_succ : elements S (n + 1) s = S.get s n ::ₘ elements S n s := by
  simp [elements]

/-- A write outside the first `n` slots changes none of them. -/
theorem elements_put_of_le (hi : n ≤ i) : elements S n (S.put s i x) = elements S n s := by
  refine Multiset.map_congr rfl fun j hj => ?_
  rw [Multiset.mem_range] at hj
  rw [S.get_put, if_neg (by omega)]

/-- Writing over slot `i` swaps its element for the one written. -/
theorem elements_put (hi : i < n) :
    S.get s i ::ₘ elements S n (S.put s i x) = x ::ₘ elements S n s := by
  have hrange : Multiset.range n = i ::ₘ (Multiset.range n).erase i :=
    (Multiset.cons_erase (Multiset.mem_range.2 hi)).symm
  have hrest : ((Multiset.range n).erase i).map (S.get (S.put s i x)) =
      ((Multiset.range n).erase i).map (S.get s) := by
    refine Multiset.map_congr rfl fun j hj => ?_
    rw [S.get_put, if_neg ((Multiset.nodup_range n).mem_erase_iff.1 hj).1]
  unfold elements
  rw [hrange, Multiset.map_cons, Multiset.map_cons, hrest, S.get_put, if_pos rfl,
    Multiset.cons_swap]

theorem elements_put_self (hi : i < n) (hx : S.get s i = x) :
    elements S n (S.put s i x) = elements S n s := by
  have h := elements_put (S := S) (s := s) (x := x) hi
  rw [hx] at h
  exact (Multiset.cons_inj_right x).1 h

/-- Filling the hole with another element and the new hole with `x` is filling the hole
with `x`. -/
theorem elements_move {j : ℕ} (hi : i < n) (hj : j < n) (hne : j ≠ i) :
    elements S n (S.put (S.put s i (S.get s j)) j x) = elements S n (S.put s i x) := by
  have hget : S.get (S.put s i (S.get s j)) j = S.get s j := by rw [S.get_put, if_neg hne]
  have h₁ := elements_put (S := S) (s := S.put s i (S.get s j)) (x := x) hj
  have h₂ := elements_put (S := S) (s := s) (x := S.get s j) hi
  have h₃ := elements_put (S := S) (s := s) (x := x) hi
  rw [hget] at h₁
  refine Multiset.cons_inj_right (S.get s i) |>.1 ?_
  refine Multiset.cons_inj_right (S.get s j) |>.1 ?_
  calc S.get s j ::ₘ S.get s i ::ₘ elements S n (S.put (S.put s i (S.get s j)) j x)
      = S.get s i ::ₘ x ::ₘ elements S n (S.put s i (S.get s j)) := by
        rw [Multiset.cons_swap, h₁]
    _ = x ::ₘ S.get s j ::ₘ elements S n s := by rw [Multiset.cons_swap, h₂]
    _ = S.get s j ::ₘ S.get s i ::ₘ elements S n (S.put s i x) := by
        rw [h₃, Multiset.cons_swap]

/-- A sift leaves in the slots what a single write of `x` into the hole would. -/
theorem elements_of_moves (h : Moves S n s i s' i') (hi : i < n) :
    elements S n (S.put s' i' x) = elements S n (S.put s i x) := by
  have hkept := h.rule (Q := fun t k => k < n ∧ elements S n (S.put t k x) = elements S n (S.put s i x))
    ⟨hi, rfl⟩ fun t k j hQ hj hne => ⟨hj, (elements_move hQ.1 hj hne).trans hQ.2⟩
  exact hkept.2

/-! ## Heaps -/

section Order

variable [LinearOrder K] (key : α → K)

/-- No slot comes before the one above it. -/
def IsHeap (S : Slots σ α) (key : α → K) (n : ℕ) (s : σ) : Prop :=
  ∀ j < n, 0 < j → key (S.get s (parent j)) ≤ key (S.get s j)

/-- The comparison is the order of the keys, among the elements of `X`. -/
def AgreesOn (sooner : α → α → Bool) (key : α → K) (X : Set α) : Prop :=
  ∀ a ∈ X, ∀ b ∈ X, (sooner a b = true ↔ key a < key b)

/-- A heap of elements of `X` but for the hole at `i`: the slots around the hole are ordered,
also across it. -/
structure Holed (S : Slots σ α) (key : α → K) (X : Set α) (n : ℕ) (s : σ) (i : ℕ) : Prop where
  lt : i < n
  mem : ∀ j < n, j ≠ i → S.get s j ∈ X
  edge : ∀ j < n, 0 < j → j ≠ i → parent j ≠ i → key (S.get s (parent j)) ≤ key (S.get s j)
  across : ∀ j < n, 0 < j → parent j = i → 0 < i → key (S.get s (parent i)) ≤ key (S.get s j)

variable {key}

theorem IsHeap.root_le (h : IsHeap S key n s) : ∀ j < n, key (S.get s 0) ≤ key (S.get s j) := by
  intro j
  induction j using Nat.strong_induction_on with
  | _ j ih =>
    intro hj
    rcases Nat.eq_zero_or_pos j with rfl | hpos
    · exact le_rfl
    · have hp := parent_lt hpos
      exact (ih _ hp (hp.trans hj)).trans (h j hj hpos)

variable {X : Set α}

theorem IsHeap.holed (h : IsHeap S key n s) (hi : i < n) (hX : ∀ j < n, S.get s j ∈ X) :
    Holed S key X n s i where
  lt := hi
  mem := fun j hj _ => hX j hj
  edge := fun j hj hpos _ _ => h j hj hpos
  across := fun j hj hpos hpj hipos => by
    have hedge := h j hj hpos
    rw [hpj] at hedge
    exact (h i hi hipos).trans hedge

/-- The slot after the last of a heap is a hole with nothing below. -/
theorem IsHeap.holed_end (h : IsHeap S key n s) (hX : ∀ j < n, S.get s j ∈ X) :
    Holed S key X (n + 1) s n where
  lt := Nat.lt_succ_self n
  mem := fun j hj hne => hX j (by omega)
  edge := fun j hj hpos hne _ => h j (by omega) hpos
  across := fun j hj hpos hpj _ => by
    have := parent_lt hpos
    omega

section

variable (h : Holed S key X n s i)

include h

theorem Holed.put (y : α) : Holed S key X n (S.put s i y) i where
  lt := h.lt
  mem := fun j hj hne => by
    rw [S.get_put, if_neg hne]
    exact h.mem j hj hne
  edge := fun j hj hpos hne hpne => by
    rw [S.get_put, S.get_put, if_neg hne, if_neg hpne]
    exact h.edge j hj hpos hne hpne
  across := fun j hj hpos hpj hipos => by
    have hj' : j ≠ i := by
      rintro rfl
      exact (parent_lt hpos).ne hpj
    rw [S.get_put, S.get_put, if_neg hj', if_neg (parent_lt hipos).ne]
    exact h.across j hj hpos hpj hipos

/-- A hole where `x` fits between what is above and what is below. -/
theorem Holed.isHeap_put (habove : 0 < i → key (S.get s (parent i)) ≤ key x)
    (hbelow : ∀ j < n, 0 < j → parent j = i → key x ≤ key (S.get s j)) :
    IsHeap S key n (S.put s i x) := by
  intro j hj hpos
  have hp : parent j ≠ j := (parent_lt hpos).ne
  rw [S.get_put, S.get_put]
  by_cases hji : j = i
  · subst hji
    rw [if_neg hp, if_pos rfl]
    exact habove hpos
  · rw [if_neg hji]
    by_cases hpi : parent j = i
    · rw [if_pos hpi]
      exact hbelow j hj hpos hpi
    · rw [if_neg hpi]
      exact h.edge j hj hpos hji hpi

theorem Holed.move_up (hi : 0 < i) :
    Holed S key X n (S.put s i (S.get s (parent i))) (parent i) := by
  have hp := parent_lt hi
  refine ⟨hp.trans h.lt, fun j hj hne => ?_, fun j hj hpos hne hpne => ?_,
    fun j hj hpos hpj hppos => ?_⟩
  · rw [S.get_put]
    split
    · exact h.mem _ (hp.trans h.lt) hp.ne
    · exact h.mem j hj ‹_›
  · rw [S.get_put, S.get_put]
    have hji : j ≠ i := by rintro rfl; exact hpne rfl
    rw [if_neg hji]
    by_cases hpi : parent j = i
    · rw [if_pos hpi]
      exact h.across j hj hpos hpi hi
    · rw [if_neg hpi]
      exact h.edge j hj hpos hji hpi
  · -- the slot two above is before the one above, and so before both its children
    have hpp := parent_lt hppos
    have hup : key (S.get s (parent (parent i))) ≤ key (S.get s (parent i)) :=
      h.edge _ (hp.trans h.lt) hppos hp.ne (by omega)
    rw [S.get_put, S.get_put, if_neg (by omega : parent (parent i) ≠ i)]
    by_cases hji : j = i
    · rw [if_pos hji]
      exact hup
    · rw [if_neg hji]
      have := h.edge j hj hpos hji (by omega)
      rw [hpj] at this
      exact hup.trans this

/-- The first child of the hole is before every child of it. -/
theorem Holed.firstChild_le (hX : AgreesOn sooner key X) (hi : i < n / 2) :
    ∀ j < n, 0 < j → parent j = i →
      key (S.get s (firstChild S sooner s n i)) ≤ key (S.get s j) := by
  intro j hj hpos hpj
  have hleft := h.mem (2 * i + 1) (by omega) (by omega)
  have hchild : j = 2 * i + 1 ∨ j = 2 * i + 2 := by
    unfold parent at hpj
    omega
  unfold firstChild
  split
  · rename_i hright
    have hlt := (hX _ (h.mem _ hright.1 (by omega)) _ hleft).1 hright.2
    rcases hchild with rfl | rfl
    · exact hlt.le
    · exact le_rfl
  · rename_i hright
    rcases hchild with rfl | rfl
    · exact le_rfl
    · have hmem := h.mem _ hj (by omega)
      exact not_lt.1 fun hlt => hright ⟨hj, (hX _ hmem _ hleft).2 hlt⟩

theorem Holed.move_down (hX : AgreesOn sooner key X) (hi : i < n / 2) :
    Holed S key X n (S.put s i (S.get s (firstChild S sooner s n i)))
      (firstChild S sooner s n i) := by
  obtain ⟨hlt, hgt, hpar⟩ := firstChild_bounds S sooner s hi
  have hfirst := h.firstChild_le hX hi
  set c := firstChild S sooner s n i with hc
  refine ⟨hlt, fun j hj hne => ?_, fun j hj hpos hne hpne => ?_, fun j hj hpos hpj _ => ?_⟩
  · rw [S.get_put]
    split
    · exact h.mem c hlt hgt.ne'
    · exact h.mem j hj ‹_›
  · rw [S.get_put, S.get_put]
    by_cases hji : j = i
    · subst hji
      rw [if_pos rfl, if_neg (parent_lt hpos).ne]
      exact h.across c hlt (by omega) hpar hpos
    · rw [if_neg hji]
      by_cases hpi : parent j = i
      · rw [if_pos hpi]
        exact hfirst j hj hpos hpi
      · rw [if_neg hpi]
        exact h.edge j hj hpos hji hpi
  · have hji : j ≠ i := by
      rintro rfl
      have := parent_lt hpos
      omega
    rw [hpar, S.get_put, S.get_put, if_pos rfl, if_neg hji, ← hpj]
    exact h.edge j hj hpos hji (by omega)

/-- **Sifting up** makes a heap of a holed one, if `x` fits above what is below the hole. -/
theorem Holed.isHeap_siftUp (hX : AgreesOn sooner key X) (hx : x ∈ X)
    (hbelow : ∀ j < n, 0 < j → parent j = i → key x ≤ key (S.get s j)) {fuel : ℕ}
    (hfuel : i ≤ fuel) : IsHeap S key n (siftUp S sooner fuel s i x) := by
  induction fuel generalizing s i with
  | zero => exact h.isHeap_put (fun hi => by omega) hbelow
  | succ fuel ih =>
    unfold siftUp
    split
    · rename_i hup
      obtain ⟨hi, hsoon⟩ := hup
      have hp := parent_lt hi
      have hlt : key x < key (S.get s (parent i)) :=
        (hX x hx _ (h.mem _ (hp.trans h.lt) hp.ne)).1 hsoon
      refine ih (h.move_up hi) (fun j hj hpos hpj => ?_) (by omega)
      rw [S.get_put]
      split
      · exact hlt.le
      · have := h.edge j hj hpos ‹_› (by omega)
        rw [hpj] at this
        exact hlt.le.trans this
    · rename_i hup
      refine h.isHeap_put (fun hi => ?_) hbelow
      have hp := parent_lt hi
      have hnot : ¬ key x < key (S.get s (parent i)) := fun hlt =>
        hup ⟨hi, (hX x hx _ (h.mem _ (hp.trans h.lt) hp.ne)).2 hlt⟩
      exact not_lt.1 hnot

end

/-- An element put after the last and sifted up: nothing is below it. -/
theorem IsHeap.push (h : IsHeap S key n s) (hmem : ∀ j < n, S.get s j ∈ X)
    (hX : AgreesOn sooner key X) (hx : x ∈ X) :
    IsHeap S key (n + 1) (siftUp S sooner n (S.put s n x) n x) := by
  refine ((h.holed_end hmem).put x).isHeap_siftUp hX hx (fun j hj hpos hpj => ?_) le_rfl
  have := parent_lt hpos
  omega

/-- **Sifting down** makes a heap of a holed one, if `x` fits below what is above the hole. -/
theorem Sinks.isHeap {u : σ} (hs : Sinks S sooner n x s i u) (h : Holed S key X n s i)
    (hX : AgreesOn sooner key X) (hx : x ∈ X)
    (habove : 0 < i → key (S.get s (parent i)) ≤ key x) : IsHeap S key n u := by
  induction hs with
  | @stop s i hstop =>
    refine h.isHeap_put habove fun j hj hpos hpj => ?_
    have hi : i < n / 2 := by
      unfold parent at hpj
      omega
    obtain ⟨hlt, hgt, -⟩ := firstChild_bounds S sooner s hi
    refine le_trans ?_ (h.firstChild_le hX hi j hj hpos hpj)
    rcases hstop hi with hsoon | hnot
    · exact ((hX x hx _ (h.mem _ hlt hgt.ne')).1 hsoon).le
    · exact not_lt.1 fun hlt' => Bool.false_ne_true
        (hnot.symm.trans ((hX _ (h.mem _ hlt hgt.ne') x hx).2 hlt'))
  | @down s u i hi hdown _ ih =>
    obtain ⟨hlt, hgt, hpar⟩ := firstChild_bounds S sooner s hi
    refine ih (h.move_down hX hi) fun _ => ?_
    rw [hpar, S.get_put, if_pos rfl]
    rcases hdown with hnot | hsoon
    · exact not_lt.1 fun hlt' => Bool.false_ne_true
        (hnot.symm.trans ((hX x hx _ (h.mem _ hlt hgt.ne')).2 hlt'))
    · exact ((hX _ (h.mem _ hlt hgt.ne') x hx).1 hsoon).le

/-- What comes before every slot below the hole stays there. -/
theorem Holed.sink_eq_put (h : Holed S key X n s i) (hX : AgreesOn sooner key X) (hx : x ∈ X)
    (hbelow : ∀ j < n, 0 < j → parent j = i → key x ≤ key (S.get s j)) (fuel : ℕ) :
    sink S sooner n fuel s i x = S.put s i x := by
  cases fuel with
  | zero => rfl
  | succ fuel =>
    unfold sink
    split
    · rename_i hi
      obtain ⟨hlt, hgt, hpar⟩ := firstChild_bounds S sooner s hi
      rw [if_neg]
      intro hsoon
      have hlt' := (hX _ (h.mem _ hlt hgt.ne') x hx).1 hsoon
      exact absurd (hbelow _ hlt (by omega) hpar) (not_le.2 hlt')
    · rfl

/-- What is not before the slot above it stays where it is. -/
theorem siftUp_eq_put (hX : AgreesOn sooner key X) (hx : x ∈ X)
    (hmem : 0 < i → S.get s (parent i) ∈ X) (habove : 0 < i → key (S.get s (parent i)) ≤ key x)
    (fuel : ℕ) : siftUp S sooner fuel s i x = S.put s i x := by
  cases fuel with
  | zero => rfl
  | succ fuel =>
    unfold siftUp
    rw [if_neg]
    rintro ⟨hi, hsoon⟩
    exact absurd (habove hi) (not_le.2 ((hX x hx _ (hmem hi)).1 hsoon))

end Order

end SlotHeap
