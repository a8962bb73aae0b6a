import Mathlib.Tactic

/-!
# Binary search in an ascending list

The search keeps the places `lo ≤ i < top` an element may still be at, and halves
them at each step.  `get_of_search` and `search_eq_none_iff` say what it answers of an
ascending list.

`first` is the other search: the first place where a condition that holds up to some
place, and from there on no more, does not hold.
-/

namespace BinarySearch

variable {α : Type*} [LinearOrder α] {ids : List α} {key : α}

/-- The loop of the search, over the places from `lo` up to and without `top`. -/
def searchLoop (ids : List α) (key : α) : ℕ → ℕ → ℕ → Option ℕ
  | 0, _, _ => none
  | fuel + 1, lo, top =>
    if lo < top then
      let mid := (lo + (top - 1)) / 2
      match ids[mid]? with
      | none => none
      | some x =>
        if x < key then searchLoop ids key fuel (mid + 1) top
        else if key < x then searchLoop ids key fuel lo mid
        else some mid
    else none

/-- Where `key` is in `ids`. -/
def search (ids : List α) (key : α) : Option ℕ := searchLoop ids key (ids.length + 1) 0 ids.length

theorem get_of_searchLoop {fuel lo top i : ℕ} (h : searchLoop ids key fuel lo top = some i) :
    ids[i]? = some key := by
  induction fuel generalizing lo top with
  | zero => simp [searchLoop] at h
  | succ fuel ih =>
    rw [searchLoop] at h
    split at h
    · dsimp only at h
      split at h
      · simp at h
      · rename_i x hx
        split at h
        · exact ih h
        · split at h
          · exact ih h
          · rename_i hge hle
            obtain rfl := Option.some.inj h
            rw [hx, le_antisymm (not_lt.1 hle) (not_lt.1 hge)]
    · simp at h

/-- The search misses nothing that is between its bounds. -/
theorem searchLoop_isSome (hs : ids.Pairwise (· < ·)) {fuel lo top i : ℕ}
    (hi : ids[i]? = some key) (hlo : lo ≤ i) (htop : i < top) (hlen : top ≤ ids.length)
    (hfuel : top - lo < fuel) : (searchLoop ids key fuel lo top).isSome := by
  induction fuel generalizing lo top with
  | zero => omega
  | succ fuel ih =>
    rw [searchLoop, if_pos (by omega)]
    dsimp only
    have hmid : (lo + (top - 1)) / 2 < ids.length := by omega
    rw [List.getElem?_eq_getElem hmid]
    dsimp only
    obtain ⟨hilt, hikey⟩ := List.getElem?_eq_some_iff.1 hi
    have hmono := List.pairwise_iff_getElem.1 hs
    split
    · rename_i hlt
      -- the element in the middle is below `key`, so `key` lies past it
      have hpast : (lo + (top - 1)) / 2 < i := by
        rcases lt_trichotomy ((lo + (top - 1)) / 2) i with h | h | h
        · exact h
        · subst h
          exact absurd hlt (hikey ▸ lt_irrefl _)
        · exact absurd (hmono _ _ hilt hmid h) (by rw [hikey]; exact hlt.not_gt)
      exact ih (by omega) htop hlen (by omega)
    · split
      · rename_i hgt
        have hbefore : i < (lo + (top - 1)) / 2 := by
          rcases lt_trichotomy i ((lo + (top - 1)) / 2) with h | h | h
          · exact h
          · subst h
            exact absurd hgt (hikey ▸ lt_irrefl _)
          · exact absurd (hmono _ _ hmid hilt h) (by rw [hikey]; exact hgt.not_gt)
        exact ih hlo hbefore (by omega) (by omega)
      · rfl

theorem get_of_search {i : ℕ} (h : search ids key = some i) : ids[i]? = some key :=
  get_of_searchLoop h

/-- In an ascending list the search answers nothing only of a key that is not there. -/
theorem search_eq_none_iff (hs : ids.Pairwise (· < ·)) : search ids key = none ↔ key ∉ ids := by
  refine ⟨fun h hmem => ?_, fun h => ?_⟩
  · obtain ⟨i, hi⟩ := List.mem_iff_getElem?.1 hmem
    have hlt : i < ids.length := (List.getElem?_eq_some_iff.1 hi).1
    have hsome : (search ids key).isSome :=
      searchLoop_isSome hs hi (Nat.zero_le i) hlt le_rfl (Nat.lt_succ_self _)
    rw [h] at hsome
    simp at hsome
  · cases hsearch : search ids key with
    | none => rfl
    | some i => exact absurd (List.mem_of_getElem? (get_of_search hsearch)) h

/-! ## The first place where a condition stops -/

section First

variable {p : ℕ → Bool} {n : ℕ}

/-- The loop of the search, over the places from `lo` up to and without `hi`. -/
def firstLoop (p : ℕ → Bool) : ℕ → ℕ → ℕ → ℕ
  | 0, lo, _ => lo
  | fuel + 1, lo, hi =>
    if lo < hi then
      let mid := (lo + hi) / 2
      if p mid then firstLoop p fuel (mid + 1) hi else firstLoop p fuel lo mid
    else lo

/-- The first place below `n` where `p` does not hold; `n` when there is none. -/
def first (p : ℕ → Bool) (n : ℕ) : ℕ := firstLoop p (n + 1) 0 n

theorem firstLoop_spec (hp : ∀ i j, i < j → j < n → p j = true → p i = true) {fuel lo hi : ℕ}
    (hlo : lo ≤ hi) (hhi : hi ≤ n) (hfuel : hi - lo < fuel) (hbelow : ∀ i < lo, p i = true)
    (habove : ∀ i, hi ≤ i → i < n → p i = false) :
    firstLoop p fuel lo hi ≤ n ∧ (∀ i < firstLoop p fuel lo hi, p i = true) ∧
      ∀ i, firstLoop p fuel lo hi ≤ i → i < n → p i = false := by
  induction fuel generalizing lo hi with
  | zero => omega
  | succ fuel ih =>
    rw [firstLoop]
    by_cases hlt : lo < hi
    · rw [if_pos hlt]
      by_cases hmid : p ((lo + hi) / 2) = true
      · rw [if_pos hmid]
        refine ih (by omega) hhi (by omega) (fun i hi' => ?_) habove
        rcases Nat.lt_succ_iff_lt_or_eq.1 hi' with h | rfl
        · exact hp i _ h (by omega) hmid
        · exact hmid
      · rw [if_neg hmid]
        refine ih (by omega) (by omega) (by omega) hbelow fun i hi' hin => ?_
        by_contra hpi
        rcases Nat.eq_or_lt_of_le hi' with rfl | h
        · exact hmid (by simpa using hpi)
        · exact hmid (hp _ i h hin (by simpa using hpi))
    · rw [if_neg hlt]
      obtain rfl : lo = hi := by omega
      exact ⟨hhi, hbelow, habove⟩

theorem first_spec (hp : ∀ i j, i < j → j < n → p j = true → p i = true) :
    first p n ≤ n ∧ (∀ i < first p n, p i = true) ∧ ∀ i, first p n ≤ i → i < n → p i = false :=
  firstLoop_spec hp (Nat.zero_le n) le_rfl (by omega) (by omega) (fun i hi hin => by omega)

end First

end BinarySearch
