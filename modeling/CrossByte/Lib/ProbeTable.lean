import Mathlib.Tactic

/-!
# Tables with open addressing

A table of `c` places holds entries by key: an entry stands at the first free place from its
key's home on, going round.  A key is looked for from its home to the first free place, so every
place between an entry's home and the entry has to be taken; `Probed` says so.  An entry taken
out leaves a hole that the entries after it are moved back over, unless their home lies past it,
so that no marker is left behind.

The hole is what takes care.  Measured in steps from the hole, an entry that stands `g` steps on
and `d` steps from its own home is left where it is exactly if `d < g`, whatever the wrap does to
the numbers (`stays_iff`); and no entry beyond the next free place can have the hole on its way.

* `Probed.find_eq_some_iff`: a lookup finds what is held, and nothing else;
* `Probed.insert`, `Probed.close`: what the operations hold and keep.
-/

namespace ProbeTable

open Function

variable {α β : Type*}

section Search

variable [DecidableEq α] (c : ℕ)

/-- The place of the key from place `i` on. -/
def find (s : ℕ → Option (α × β)) (a : α) : ℕ → ℕ → Option ℕ
  | 0, _ => none
  | fuel + 1, i =>
    match s i with
    | none => none
    | some e => if e.1 = a then some i else find s a fuel ((i + 1) % c)

end Search

/-- The first free place from place `i` on. -/
def free (c : ℕ) (s : ℕ → Option (α × β)) : ℕ → ℕ → ℕ
  | 0, i => i
  | fuel + 1, i =>
    match s i with
    | none => i
    | some _ => free c s fuel ((i + 1) % c)

/-- Whether an entry at `i` with this home is left there, with a hole at `hole`. -/
def stays (hole i home : ℕ) : Bool :=
  if hole ≤ i then hole < home && home ≤ i else hole < home || home ≤ i

/-- The entries after place `i` are moved back over the hole, up to the next free place. -/
def close (home : α → ℕ) (c : ℕ) : ℕ → (ℕ → Option (α × β)) → ℕ → ℕ → ℕ → Option (α × β)
  | 0, s, hole, _ => Function.update s hole none
  | fuel + 1, s, hole, i =>
    match s ((i + 1) % c) with
    | none => Function.update s hole none
    | some e =>
      if stays hole ((i + 1) % c) (home e.1) then close home c fuel s hole ((i + 1) % c)
      else close home c fuel (Function.update s hole (some e)) ((i + 1) % c) ((i + 1) % c)

/-- Every entry is on the way from its home, no key is held twice, and a place is free. -/
structure Probed (home : α → ℕ) (c : ℕ) (s : ℕ → Option (α × β)) : Prop where
  path : ∀ i < c, ∀ e, s i = some e → ∃ d < c, i = (home e.1 + d) % c ∧
    ∀ k < d, s ((home e.1 + k) % c) ≠ none
  unique : ∀ i < c, ∀ j < c, ∀ e f, s i = some e → s j = some f → e.1 = f.1 → i = j
  room : ∃ i < c, s i = none

/-- The entry is held. -/
def Holds (c : ℕ) (s : ℕ → Option (α × β)) (e : α × β) : Prop := ∃ i < c, s i = some e

variable {home : α → ℕ} {c : ℕ} {s : ℕ → Option (α × β)} {e f : α × β}

/-- Two steps from one home to one place are the same. -/
theorem steps_unique {h d d' : ℕ} (hd : d < c) (hd' : d' < c)
    (heq : (h + d) % c = (h + d') % c) : d = d' := by
  have hmod : d % c = d' % c := Nat.ModEq.add_left_cancel' h heq
  rwa [Nat.mod_eq_of_lt hd, Nat.mod_eq_of_lt hd'] at hmod

theorem exists_steps {h i : ℕ} (hh : h < c) (hi : i < c) : ∃ d < c, i = (h + d) % c := by
  by_cases hle : h ≤ i
  · exact ⟨i - h, by omega, by rw [Nat.add_sub_cancel' hle, Nat.mod_eq_of_lt hi]⟩
  · refine ⟨i + c - h, by omega, ?_⟩
    rw [Nat.add_sub_cancel' (by omega), Nat.add_mod_right, Nat.mod_eq_of_lt hi]

/-! ## Lookups -/

section Search

variable [DecidableEq α] {a : α}

theorem key_of_find {fuel i j : ℕ} (hi : i < c) (hfind : find c s a fuel i = some j) :
    j < c ∧ ∃ e, s j = some e ∧ e.1 = a := by
  induction fuel generalizing i with
  | zero => cases hfind
  | succ fuel ih =>
    unfold find at hfind
    split at hfind
    · cases hfind
    · rename_i e he
      split at hfind
      · rename_i hkey
        obtain rfl := Option.some.inj hfind
        exact ⟨hi, e, he, hkey⟩
      · exact ih (Nat.mod_lt _ (by omega)) hfind

theorem find_of_path {fuel h d : ℕ} (hd : d < fuel) (he : s ((h + d) % c) = some e)
    (hkey : e.1 = a) (hpath : ∀ k < d, ∃ f, s ((h + k) % c) = some f ∧ f.1 ≠ a) :
    find c s a fuel (h % c) = some ((h + d) % c) := by
  induction d generalizing h fuel with
  | zero =>
    obtain ⟨fuel, rfl⟩ : ∃ m, fuel = m + 1 := ⟨fuel - 1, by omega⟩
    rw [Nat.add_zero] at he ⊢
    unfold find
    rw [he]
    exact if_pos hkey
  | succ d ih =>
    obtain ⟨fuel, rfl⟩ : ∃ m, fuel = m + 1 := ⟨fuel - 1, by omega⟩
    obtain ⟨f, hf, hne⟩ := hpath 0 (Nat.succ_pos d)
    rw [Nat.add_zero] at hf
    have hnext := ih (h := h + 1) (show d < fuel by omega)
      (by rwa [show h + 1 + d = h + (d + 1) by omega]) fun k hk => by
        rw [show h + 1 + k = h + (k + 1) by omega]
        exact hpath (k + 1) (by omega)
    unfold find
    rw [hf]
    dsimp only
    rw [if_neg hne, Nat.mod_add_mod, hnext, show h + 1 + d = h + (d + 1) by omega]

/-- **A lookup finds what is held**, and nothing else. -/
theorem Probed.find_eq_some_iff (hs : Probed home c s) (hhome : home a < c) {i : ℕ} :
    find c s a c (home a) = some i ↔ i < c ∧ ∃ e, s i = some e ∧ e.1 = a := by
  refine ⟨key_of_find hhome, ?_⟩
  rintro ⟨hi, e, he, rfl⟩
  obtain ⟨d, hd, rfl, hpath⟩ := hs.path i hi e he
  have hfind := find_of_path (c := c) hd he rfl fun k hk => by
    obtain ⟨f, hf⟩ := Option.ne_none_iff_exists'.1 (hpath k hk)
    refine ⟨f, hf, fun hkey => ?_⟩
    have hsame := hs.unique _ (Nat.mod_lt _ (by omega)) _ hi f e hf he hkey
    have := steps_unique (by omega) hd hsame
    omega
  rwa [Nat.mod_eq_of_lt hhome] at hfind

end Search

/-! ## Entering -/

theorem free_spec {fuel h m : ℕ} (hm : m < fuel) (hfree : s ((h + m) % c) = none) :
    ∃ d ≤ m, free c s fuel (h % c) = (h + d) % c ∧ s ((h + d) % c) = none ∧
      ∀ k < d, s ((h + k) % c) ≠ none := by
  induction m generalizing h fuel with
  | zero =>
    obtain ⟨fuel, rfl⟩ : ∃ n, fuel = n + 1 := ⟨fuel - 1, by omega⟩
    refine ⟨0, le_rfl, ?_, hfree, fun k hk => absurd hk (Nat.not_lt_zero k)⟩
    rw [Nat.add_zero] at hfree
    unfold free
    rw [hfree]
    rfl
  | succ m ih =>
    obtain ⟨fuel, rfl⟩ : ∃ n, fuel = n + 1 := ⟨fuel - 1, by omega⟩
    unfold free
    cases hhere : s (h % c) with
    | none =>
      refine ⟨0, Nat.zero_le _, rfl, hhere, fun k hk => absurd hk (Nat.not_lt_zero k)⟩
    | some e =>
      obtain ⟨d, hd, heq, hnone, hpath⟩ := ih (h := h + 1) (show m < fuel by omega)
        (by rwa [show h + 1 + m = h + (m + 1) by omega])
      rw [show h + 1 + d = h + (d + 1) by omega] at heq hnone
      refine ⟨d + 1, by omega, ?_, hnone, fun k hk => ?_⟩
      · rw [Nat.mod_add_mod]
        exact heq
      · rcases k with _ | k
        · rw [Nat.add_zero, hhere]
          exact Option.some_ne_none e
        · have := hpath k (by omega)
          rwa [show h + 1 + k = h + (k + 1) by omega] at this

/-- **An entry is put at the first free place from its home.** -/
theorem Probed.insert (hs : Probed home c s) (hhome : home e.1 < c)
    (hnew : ∀ f, Holds c s f → f.1 ≠ e.1) :
    ∃ i < c, free c s c (home e.1) = i ∧ s i = none ∧
      ((∃ j < c, j ≠ i ∧ s j = none) → Probed home c (update s i (some e))) ∧
      ∀ f, Holds c (update s i (some e)) f ↔ f = e ∨ Holds c s f := by
  obtain ⟨j, hj, hroom⟩ := hs.room
  obtain ⟨m, hm, rfl⟩ := exists_steps hhome hj
  obtain ⟨d, hd, heq, hnone, hpath⟩ := free_spec hm hroom
  rw [Nat.mod_eq_of_lt hhome] at heq
  have hlt : (home e.1 + d) % c < c := Nat.mod_lt _ (by omega)
  refine ⟨_, hlt, heq, hnone, fun hroom' => ?_, fun f => ?_⟩
  · have htaken : ∀ k, s k ≠ none →
        update s ((home e.1 + d) % c) (some e) k ≠ none := by
      intro k hk
      rw [update_apply]
      split
      · exact Option.some_ne_none e
      · exact hk
    refine ⟨fun i hi f hf => ?_, fun i hi j hj f g hf hg hkey => ?_, ?_⟩
    · rw [update_apply] at hf
      split at hf
      · rename_i hi'
        obtain rfl := Option.some.inj hf
        exact ⟨d, by omega, hi', fun k hk => htaken _ (hpath k hk)⟩
      · obtain ⟨d', hd', hi', hpath'⟩ := hs.path i hi f hf
        exact ⟨d', hd', hi', fun k hk => htaken _ (hpath' k hk)⟩
    · rw [update_apply] at hf hg
      split at hf <;> split at hg
      · rw [‹i = _›, ‹j = _›]
      · obtain rfl := Option.some.inj hf
        exact absurd hkey.symm (hnew g ⟨j, hj, hg⟩)
      · obtain rfl := Option.some.inj hg
        exact absurd hkey (hnew f ⟨i, hi, hf⟩)
      · exact hs.unique i hi j hj f g hf hg hkey
    · obtain ⟨j, hj, hne, hfree⟩ := hroom'
      exact ⟨j, hj, by rwa [update_of_ne hne]⟩
  · constructor
    · rintro ⟨i, hi, hf⟩
      rw [update_apply] at hf
      split at hf
      · exact .inl (Option.some.inj hf).symm
      · exact .inr ⟨i, hi, hf⟩
    · rintro (rfl | ⟨i, hi, hf⟩)
      · exact ⟨_, hlt, update_self ..⟩
      · refine ⟨i, hi, ?_⟩
        have hne : i ≠ (home e.1 + d) % c := by
          rintro rfl
          cases hnone.symm.trans hf
        rwa [update_of_ne hne]

/-! ## Taking out -/

theorem stays_iff {hole g h d : ℕ} (hhole : hole < c) (hg : g < c) (hpos : 0 < g) (hh : h < c)
    (hd : d < c) (heq : (hole + g) % c = (h + d) % c) :
    stays hole ((hole + g) % c) h = true ↔ d < g := by
  have hmod : ∀ x y, x < c → y < c → (x + y) % c = x + y ∧ x + y < c ∨
      (x + y) % c + c = x + y ∧ c ≤ x + y := by
    intro x y hx hy
    by_cases hlt : x + y < c
    · exact .inl ⟨Nat.mod_eq_of_lt hlt, hlt⟩
    · refine .inr ⟨?_, not_lt.1 hlt⟩
      rw [Nat.mod_eq_sub_mod (not_lt.1 hlt), Nat.mod_eq_of_lt (by omega)]
      omega
  have h1 := hmod hole g hhole hg
  have h2 := hmod h d hh hd
  unfold stays
  split <;> simp only [Bool.and_eq_true, Bool.or_eq_true, decide_eq_true_eq] <;> omega

/-- The table in the middle of closing a hole: what stands in the hole is no longer held, and
the entries looked at since are past it. -/
structure Closing (home : α → ℕ) (c : ℕ) (s : ℕ → Option (α × β)) (hole g : ℕ) : Prop where
  lt : hole < c
  gap : g < c
  taken : s hole ≠ none
  path : ∀ i < c, i ≠ hole → ∀ e, s i = some e → ∃ d < c, i = (home e.1 + d) % c ∧
    ∀ k < d, s ((home e.1 + k) % c) ≠ none
  unique : ∀ i < c, ∀ j < c, i ≠ hole → j ≠ hole → ∀ e f, s i = some e → s j = some f →
    e.1 = f.1 → i = j
  past : ∀ k, 0 < k → k ≤ g → ∃ e d, s ((hole + k) % c) = some e ∧ d < k ∧
    (hole + k) % c = (home e.1 + d) % c
  room : ∃ i < c, s i = none

variable {hole g : ℕ}

section

variable (hs : Closing home c s hole g)

include hs

theorem Closing.ne_hole {k : ℕ} (hpos : 0 < k) (hk : k < c) : (hole + k) % c ≠ hole := by
  intro heq
  have hzero : (hole + k) % c = (hole + 0) % c := by
    rw [Nat.add_zero, heq, Nat.mod_eq_of_lt hs.lt]
  have := steps_unique hk (by omega) hzero
  omega

theorem Closing.succ_lt : g + 1 < c := by
  by_contra hnot
  obtain ⟨i, hi, hnone⟩ := hs.room
  obtain ⟨k, hk, rfl⟩ := exists_steps hs.lt hi
  rcases Nat.eq_zero_or_pos k with rfl | hpos
  · rw [Nat.add_zero, Nat.mod_eq_of_lt hs.lt] at hnone
    exact hs.taken hnone
  · obtain ⟨e, d, he, -⟩ := hs.past k hpos (by omega)
    cases hnone.symm.trans he

theorem Closing.clear (hnext : s ((hole + (g + 1)) % c) = none) :
    Probed home c (update s hole none) := by
  refine ⟨fun i hi e he => ?_, fun i hi j hj e f he hf hkey => ?_, ⟨hole, hs.lt,
    update_self ..⟩⟩
  · have hne : i ≠ hole := by
      rintro rfl
      cases (update_self ..).symm.trans he
    rw [update_of_ne hne] at he
    obtain ⟨d, hd, hi', hpath⟩ := hs.path i hi hne e he
    refine ⟨d, hd, hi', fun k hk => ?_⟩
    -- an entry with the hole on its way stands within the gap, and so past the hole
    have hoff : (home e.1 + k) % c ≠ hole := by
      intro hmeet
      have hshift : ∀ m, (hole + m) % c = (home e.1 + (k + m)) % c := by
        intro m
        rw [← hmeet, Nat.mod_add_mod, Nat.add_assoc]
      have hplace : i = (hole + (d - k)) % c := by
        rw [hshift, show k + (d - k) = d by omega]
        exact hi'
      have hwithin : d - k ≤ g := by
        by_contra hfar
        rcases Nat.lt_or_ge (g + 1) (d - k) with hlt | hge
        · have := hpath (k + (g + 1)) (by omega)
          rw [← hshift] at this
          exact this hnext
        · have hlast : d - k = g + 1 := by omega
          rw [hplace, hlast] at he
          cases hnext.symm.trans he
      obtain ⟨e', d', he', hd', heq⟩ := hs.past (d - k) (by omega) hwithin
      rw [← hplace] at he' heq
      obtain rfl := Option.some.inj (he.symm.trans he')
      have := steps_unique hd (by omega) (hi'.symm.trans heq)
      omega
    rw [update_of_ne hoff]
    exact hpath k hk
  · have hi' : i ≠ hole := by
      rintro rfl
      cases (update_self ..).symm.trans he
    have hj' : j ≠ hole := by
      rintro rfl
      cases (update_self ..).symm.trans hf
    rw [update_of_ne hi'] at he
    rw [update_of_ne hj'] at hf
    exact hs.unique i hi j hj hi' hj' e f he hf hkey

theorem Closing.leave (hhome : home e.1 < c) (he : s ((hole + (g + 1)) % c) = some e)
    (hstays : stays hole ((hole + (g + 1)) % c) (home e.1) = true) :
    Closing home c s hole (g + 1) := by
  have hlt := hs.succ_lt
  obtain ⟨d, hd, hplace, -⟩ := hs.path _ (Nat.mod_lt _ (by omega))
    (hs.ne_hole (Nat.succ_pos g) hlt) e he
  refine { hs with gap := hlt, past := fun k hpos hk => ?_ }
  rcases Nat.lt_or_ge k (g + 1) with hlt' | hge
  · exact hs.past k hpos (by omega)
  · obtain rfl : k = g + 1 := by omega
    exact ⟨e, d, he, (stays_iff hs.lt hlt hpos hhome hd hplace).1 hstays, hplace⟩

/-- Another is moved back over the hole, and its place is the hole. -/
theorem Closing.move (hhome : home e.1 < c) (he : s ((hole + (g + 1)) % c) = some e)
    (hstays : ¬ stays hole ((hole + (g + 1)) % c) (home e.1) = true) :
    Closing home c (update s hole (some e)) ((hole + (g + 1)) % c) 0 := by
  have hlt := hs.succ_lt
  have hne := hs.ne_hole (Nat.succ_pos g) hlt
  have hnext : (hole + (g + 1)) % c < c := Nat.mod_lt _ (by omega)
  obtain ⟨d, hd, hplace, hpath⟩ := hs.path _ hnext hne e he
  have hback : g + 1 ≤ d := not_lt.1 fun hlt' =>
    hstays ((stays_iff hs.lt hlt (Nat.succ_pos g) hhome hd hplace).2 hlt')
  have htaken : ∀ k, s k ≠ none → update s hole (some e) k ≠ none := by
    intro k hk
    rw [update_apply]
    split
    · exact Option.some_ne_none e
    · exact hk
  have hhole : hole = (home e.1 + (d - (g + 1))) % c := by
    have heq : (hole + (g + 1)) % c = (home e.1 + (d - (g + 1)) + (g + 1)) % c := by
      rw [hplace, Nat.add_assoc, show d - (g + 1) + (g + 1) = d by omega]
    have hmod : hole % c = (home e.1 + (d - (g + 1))) % c := Nat.ModEq.add_right_cancel' _ heq
    rwa [Nat.mod_eq_of_lt hs.lt] at hmod
  refine ⟨hnext, by omega, htaken _ (by rw [he]; exact Option.some_ne_none e),
    fun i hi hi' f hf => ?_, fun i hi j hj hi' hj' f f' hf hf' hkey => ?_,
    fun k hpos hk => by omega, ?_⟩
  · rw [update_apply] at hf
    split at hf
    · rename_i hih
      obtain rfl := Option.some.inj hf
      exact ⟨d - (g + 1), by omega, hih.trans hhole, fun k hk => htaken _ (hpath k (by omega))⟩
    · rename_i hih
      obtain ⟨d', hd', hplace', hpath'⟩ := hs.path i hi hih f hf
      exact ⟨d', hd', hplace', fun k hk => htaken _ (hpath' k hk)⟩
  · rw [update_apply] at hf hf'
    split at hf <;> split at hf'
    · rw [‹i = hole›, ‹j = hole›]
    · obtain rfl := Option.some.inj hf
      exact absurd (hs.unique _ hnext j hj hne ‹_› e f' he hf' hkey).symm hj'
    · obtain rfl := Option.some.inj hf'
      exact absurd (hs.unique i hi _ hnext ‹_› hne f e hf he hkey) hi'
    · exact hs.unique i hi j hj ‹_› ‹_› f f' hf hf' hkey
  · obtain ⟨i, hi, hnone⟩ := hs.room
    have hih : i ≠ hole := by
      rintro rfl
      exact hs.taken hnone
    exact ⟨i, hi, by rwa [update_of_ne hih]⟩

/-- **Closing the hole** leaves every other entry held, and one place free that was not. -/
theorem Closing.close (hhome : ∀ a, home a < c) {fuel m : ℕ} (hm : m < fuel)
    (hfree : s ((hole + g + 1 + m) % c) = none) :
    Probed home c (close home c fuel s hole ((hole + g) % c)) ∧
      (∀ f, Holds c (ProbeTable.close home c fuel s hole ((hole + g) % c)) f ↔
        ∃ i < c, i ≠ hole ∧ s i = some f) ∧
      ∃ i < c, s i ≠ none ∧ ∀ j,
        ProbeTable.close home c fuel s hole ((hole + g) % c) j = none ↔ j = i ∨ s j = none := by
  induction fuel generalizing s hole g m with
  | zero => exact absurd hm (Nat.not_lt_zero m)
  | succ fuel ih =>
    have hlt := hs.succ_lt
    have hstep : ((hole + g) % c + 1) % c = (hole + (g + 1)) % c := by
      rw [Nat.mod_add_mod, Nat.add_assoc]
    unfold ProbeTable.close
    rw [hstep]
    cases he : s ((hole + (g + 1)) % c) with
    | none =>
      dsimp only
      refine ⟨hs.clear he, fun f => ?_, hole, hs.lt, hs.taken, fun j => ?_⟩
      · constructor
        · rintro ⟨i, hi, hf⟩
          have hne : i ≠ hole := by
            rintro rfl
            cases (update_self ..).symm.trans hf
          exact ⟨i, hi, hne, by rwa [update_of_ne hne] at hf⟩
        · rintro ⟨i, hi, hne, hf⟩
          exact ⟨i, hi, by rwa [update_of_ne hne]⟩
      · rw [update_apply]
        split <;> simp [*]
    | some e =>
      have hm' : 0 < m := by
        rcases Nat.eq_zero_or_pos m with rfl | hpos
        · rw [Nat.add_zero, Nat.add_assoc, he] at hfree
          cases hfree
        · exact hpos
      dsimp only
      split
      · rename_i hstays
        refine ih (hs.leave (hhome e.1) he hstays) (m := m - 1) (by omega) ?_
        rwa [show hole + (g + 1) + 1 + (m - 1) = hole + g + 1 + m by omega]
      · rename_i hstays
        have hmove := hs.move (hhome e.1) he hstays
        have hne := hs.ne_hole (Nat.succ_pos g) hlt
        have hnext : (hole + (g + 1)) % c < c := Nat.mod_lt _ (by omega)
        have hfree' : update s hole (some e)
            (((hole + (g + 1)) % c + 0 + 1 + (m - 1)) % c) = none := by
          rw [show (hole + (g + 1)) % c + 0 + 1 + (m - 1) = (hole + (g + 1)) % c + m by omega,
            Nat.mod_add_mod, show hole + (g + 1) + m = hole + g + 1 + m by omega]
          rw [update_of_ne]
          · exact hfree
          · intro heq
            rw [heq] at hfree
            exact hs.taken hfree
        obtain ⟨hprobed, hholds, i, hi, hitaken, hfreed⟩ := ih hmove (m := m - 1) (by omega) hfree'
        have hself : ((hole + (g + 1)) % c + 0) % c = (hole + (g + 1)) % c := by
          rw [Nat.add_zero, Nat.mod_mod]
        rw [hself] at hprobed
        simp only [hself] at hholds hfreed
        refine ⟨hprobed, fun f => (hholds f).trans ?_, i, hi, ?_, fun j => (hfreed j).trans ?_⟩
        · constructor
          · rintro ⟨j, hj, hj', hf⟩
            rw [update_apply] at hf
            split at hf
            · obtain rfl := Option.some.inj hf
              exact ⟨_, hnext, hne, he⟩
            · exact ⟨j, hj, ‹_›, hf⟩
          · rintro ⟨j, hj, hj', hf⟩
            by_cases hjn : j = (hole + (g + 1)) % c
            · subst hjn
              obtain rfl := Option.some.inj (he.symm.trans hf)
              exact ⟨hole, hs.lt, hne.symm, update_self ..⟩
            · exact ⟨j, hj, hjn, by rwa [update_of_ne hj']⟩
        · rw [update_apply] at hitaken
          split at hitaken
          · rw [‹i = hole›]
            exact hs.taken
          · exact hitaken
        · rw [update_apply]
          split
          · rename_i hjh
            rw [hjh]
            simp [hs.taken]
          · exact Iff.rfl

end

/-- **An entry taken out.** -/
theorem Probed.close (hs : Probed home c s) (hhome : ∀ a, home a < c) (hhole : hole < c)
    (he : s hole = some e) :
    Probed home c (ProbeTable.close home c c s hole hole) ∧
      (∀ f, Holds c (ProbeTable.close home c c s hole hole) f ↔ Holds c s f ∧ f ≠ e) ∧
      ∃ i < c, s i ≠ none ∧ ∀ j, ProbeTable.close home c c s hole hole j = none ↔
        j = i ∨ s j = none := by
  have hclosing : Closing home c s hole 0 :=
    { lt := hhole
      gap := by omega
      taken := by rw [he]; exact Option.some_ne_none e
      path := fun i hi _ => hs.path i hi
      unique := fun i hi j hj _ _ => hs.unique i hi j hj
      past := fun k hpos hk => by omega
      room := hs.room }
  obtain ⟨j, hj, hnone⟩ := hs.room
  obtain ⟨m, hm, rfl⟩ := exists_steps hhole hj
  have hmpos : 0 < m := by
    rcases Nat.eq_zero_or_pos m with rfl | hpos
    · rw [Nat.add_zero, Nat.mod_eq_of_lt hhole, he] at hnone
      cases hnone
    · exact hpos
  obtain ⟨hprobed, hholds, hfreed⟩ := hclosing.close hhome (show m - 1 < c by omega)
    (by rwa [show hole + 0 + 1 + (m - 1) = hole + m by omega])
  rw [Nat.add_zero, Nat.mod_eq_of_lt hhole] at hprobed hholds hfreed
  refine ⟨hprobed, fun f => (hholds f).trans ⟨?_, ?_⟩, hfreed⟩
  · rintro ⟨i, hi, hne, hf⟩
    refine ⟨⟨i, hi, hf⟩, ?_⟩
    rintro rfl
    exact hne (hs.unique i hi hole hhole f f hf he rfl)
  · rintro ⟨⟨i, hi, hf⟩, hne⟩
    refine ⟨i, hi, ?_, hf⟩
    rintro rfl
    exact hne (Option.some.inj (hf.symm.trans he))

end ProbeTable
