import CrossByte.Lib.BinarySearch

/-!
# SortedKeys

The ordered keys of `crossbyte/db/kv/_internal/SortedKeys.hx`: a list of sorted runs
of at most `SPLIT` keys, each run's keys all before the next run's.  A key is found by
a binary search over the runs' last keys and one inside a run.

The two searches cut the keys in two, those before `key` and those at or after it
(`cut_lt`, `le_cut`); every operation works at that cut.  What the operations do is
said of `keys`, the runs end to end.

The source compares by `KVKeys.compare`; here the keys are of any linear order.

## Main results

* `WellFormed.insert`, `mem_insert`: a key is added, in its place.
* `WellFormed.remove`, `mem_remove`: a key is removed.
* `from_eq_filter`: the cursor goes through the keys at or after the one given.
-/

namespace CrossByte

/-- The runs, and how many keys they hold. -/
structure SortedKeys (α : Type*) where
  runs : List (List α)
  length : ℕ

namespace SortedKeys

variable {α : Type*} [LinearOrder α]

/-- A run past this many keys is split in two. -/
def SPLIT : ℕ := 1024

def empty : SortedKeys α := ⟨[], 0⟩

def keys (s : SortedKeys α) : List α := s.runs.flatten

/-- `__runFor`: the first run whose last key is at or after `key`. -/
def runFor (s : SortedKeys α) (key : α) : ℕ :=
  BinarySearch.first (fun mid => (s.runs[mid]?.bind List.getLast?).any (· < key)) s.runs.length

/-- `__indexIn`: where in `run` the first key at or after `key` is. -/
def indexIn (run : List α) (key : α) : ℕ :=
  BinarySearch.first (fun mid => run[mid]?.any (· < key)) run.length

/-- `runs` with the run at `r` replaced. -/
def replaceAt (runs : List (List α)) (r : ℕ) (by_ : List (List α)) : List (List α) :=
  runs.take r ++ by_ ++ runs.drop (r + 1)

/-- A run past `SPLIT` keys is split in two. -/
def splitRun (run : List α) : List (List α) :=
  if SPLIT < run.length then [run.take (run.length / 2), run.drop (run.length / 2)] else [run]

/-- The run `insert` adds `key` to: past every key it is the last. -/
def insertRun (s : SortedKeys α) (key : α) : ℕ :=
  if s.runFor key = s.runs.length then s.runFor key - 1 else s.runFor key

/-- `insert`: adds `key`, which it does not hold. -/
def insert (s : SortedKeys α) (key : α) : SortedKeys α :=
  match s.runs[s.insertRun key]? with
  | none => ⟨[[key]], 1⟩
  | some run =>
    let i := indexIn run key
    { runs := replaceAt s.runs (s.insertRun key) (splitRun (run.take i ++ key :: run.drop i))
      length := s.length + 1 }

/-- `remove`: removes `key`; whether it held it. -/
def remove (s : SortedKeys α) (key : α) : SortedKeys α × Bool :=
  match s.runs[s.runFor key]? with
  | none => (s, false)
  | some run =>
    let i := indexIn run key
    if run[i]? = some key then
      let rest := run.take i ++ run.drop (i + 1)
      ({ runs := replaceAt s.runs (s.runFor key) (if rest = [] then [] else [rest])
         length := s.length - 1 }, true)
    else (s, false)

/-- `from`: the keys its cursor goes through, the rest of one run and the runs after it. -/
def fromKey (s : SortedKeys α) (key : α) : List α :=
  match s.runs[s.runFor key]? with
  | none => []
  | some run => run.drop (indexIn run key) ++ (s.runs.drop (s.runFor key + 1)).flatten

/-- Ascending runs, none of them empty, and the number of their keys. -/
structure WellFormed (s : SortedKeys α) : Prop where
  nonempty : ∀ run ∈ s.runs, run ≠ []
  sorted : s.keys.Pairwise (· < ·)
  length : s.length = s.keys.length

theorem wellFormed_empty : WellFormed (empty : SortedKeys α) :=
  ⟨by simp [empty], by simp [empty, keys], rfl⟩

variable {s : SortedKeys α} {key x : α} {run : List α} {r : ℕ}

/-! ## The searches -/

theorem indexIn_spec (hrun : run.Pairwise (· < ·)) (key : α) :
    indexIn run key ≤ run.length ∧ (∀ x ∈ run.take (indexIn run key), x < key) ∧
      ∀ x ∈ run.drop (indexIn run key), key ≤ x := by
  have hmono := List.pairwise_iff_getElem.1 hrun
  obtain ⟨hle, hlt, hge⟩ := BinarySearch.first_spec
    (p := fun mid => run[mid]?.any (· < key)) (n := run.length) (by
      intro i j hij hj h
      have hi : i < run.length := hij.trans hj
      simp only [List.getElem?_eq_getElem hj, List.getElem?_eq_getElem hi, Option.any_some,
        decide_eq_true_eq] at h ⊢
      exact (hmono i j hi hj hij).trans h)
  refine ⟨hle, fun x hx => ?_, fun x hx => ?_⟩
  · obtain ⟨i, hi, rfl⟩ := List.mem_take_iff_getElem.1 hx
    have := hlt i (lt_of_lt_of_le hi (min_le_left _ _))
    simpa [List.getElem?_eq_getElem (lt_of_lt_of_le hi (min_le_right _ _))] using this
  · obtain ⟨i, hi, rfl⟩ := List.mem_drop_iff_getElem.1 hx
    have := hge (indexIn run key + i) (Nat.le_add_right _ _) (by omega)
    simpa [List.getElem?_eq_getElem (show indexIn run key + i < run.length by omega)] using this

theorem WellFormed.runs_sorted (h : WellFormed s) :
    (∀ run ∈ s.runs, run.Pairwise (· < ·)) ∧ s.runs.Pairwise fun a b => ∀ x ∈ a, ∀ y ∈ b, x < y :=
  List.pairwise_flatten.1 h.sorted

theorem le_getLast (hrun : run.Pairwise (· < ·)) (hne : run ≠ []) (hx : x ∈ run) :
    x ≤ run.getLast hne := by
  rw [← List.dropLast_append_getLast hne] at hx hrun
  rcases List.mem_append.1 hx with hx | hx
  · exact ((List.pairwise_append.1 hrun).2.2 x hx _ (List.mem_singleton_self _)).le
  · exact (List.mem_singleton.1 hx).le

theorem runFor_spec (h : WellFormed s) (key : α) :
    s.runFor key ≤ s.runs.length ∧
      (∀ run ∈ s.runs.take (s.runFor key), ∀ x ∈ run, x < key) ∧
      ∀ run, s.runs[s.runFor key]? = some run → ∃ x ∈ run, key ≤ x := by
  obtain ⟨hsorted, hruns⟩ := h.runs_sorted
  have hpair := List.pairwise_iff_getElem.1 hruns
  have hlast : ∀ i (hi : i < s.runs.length),
      (s.runs[i]?.bind List.getLast?) =
        some (s.runs[i].getLast (h.nonempty _ (List.getElem_mem hi))) := by
    intro i hi
    rw [List.getElem?_eq_getElem hi, Option.bind_some, List.getLast?_eq_getLast_of_ne_nil]
  obtain ⟨hle, hlt, hge⟩ := BinarySearch.first_spec
    (p := fun mid => (s.runs[mid]?.bind List.getLast?).any (· < key)) (n := s.runs.length) (by
      intro i j hij hj hp
      have hi : i < s.runs.length := hij.trans hj
      simp only [hlast j hj, hlast i hi, Option.any_some, decide_eq_true_eq] at hp ⊢
      exact (hpair i j hi hj hij _ (List.getLast_mem _) _ (List.getLast_mem _)).trans hp)
  refine ⟨hle, fun run hrun x hx => ?_, fun run hrun => ?_⟩
  · obtain ⟨i, hi, rfl⟩ := List.mem_take_iff_getElem.1 hrun
    have hi' := lt_of_lt_of_le hi (min_le_right _ _)
    have := hlt i (lt_of_lt_of_le hi (min_le_left _ _))
    simp only [hlast i hi', Option.any_some, decide_eq_true_eq] at this
    exact (le_getLast (hsorted _ (List.getElem_mem hi')) _ hx).trans_lt this
  · obtain ⟨hi, rfl⟩ := List.getElem?_eq_some_iff.1 hrun
    have hpast : (s.runs[s.runFor key]?.bind List.getLast?).any (· < key) = false :=
      hge _ le_rfl hi
    rw [hlast _ hi] at hpast
    exact ⟨_, List.getLast_mem _, by simpa using hpast⟩

/-! ## The cut -/

omit [LinearOrder α] in
theorem keys_eq_cut (hr : s.runs[r]? = some run) (i : ℕ) :
    s.keys = ((s.runs.take r).flatten ++ run.take i) ++
      (run.drop i ++ (s.runs.drop (r + 1)).flatten) := by
  obtain ⟨hlt, rfl⟩ := List.getElem?_eq_some_iff.1 hr
  have hsplit : s.runs = s.runs.take r ++ s.runs[r] :: s.runs.drop (r + 1) := by
    rw [List.getElem_cons_drop, List.take_append_drop]
  have hrun : s.runs[r] = s.runs[r].take i ++ s.runs[r].drop i := (List.take_append_drop _ _).symm
  calc s.keys = (s.runs.take r).flatten ++ (s.runs[r] ++ (s.runs.drop (r + 1)).flatten) := by
        rw [keys]
        nth_rewrite 1 [hsplit]
        rw [List.flatten_append, List.flatten_cons]
    _ = _ := by
        nth_rewrite 1 [hrun]
        simp only [List.append_assoc]

/-- Before the cut are the keys below `key`. -/
theorem cut_lt (h : WellFormed s) (hr : s.runs[r]? = some run)
    (hle : r ≤ s.runFor key)
    (hx : x ∈ (s.runs.take r).flatten ++ run.take (indexIn run key)) : x < key := by
  have hrun := h.runs_sorted.1 run (List.mem_of_getElem? hr)
  rcases List.mem_append.1 hx with hx | hx
  · obtain ⟨run', hrun', hx⟩ := List.mem_flatten.1 hx
    exact (runFor_spec h key).2.1 run' (List.take_subset_take_left _ hle hrun') x hx
  · exact (indexIn_spec hrun key).2.1 x hx

/-- After the cut are the keys at or after `key`, in the run `__runFor` finds and in the last run
when it finds none. -/
theorem le_cut (h : WellFormed s) (hr : s.runs[r]? = some run)
    (hcase : r = s.runFor key ∨ r + 1 = s.runs.length)
    (hx : x ∈ run.drop (indexIn run key) ++ (s.runs.drop (r + 1)).flatten) : key ≤ x := by
  have hrun := h.runs_sorted.1 run (List.mem_of_getElem? hr)
  rcases List.mem_append.1 hx with hx | hx
  · exact (indexIn_spec hrun key).2.2 x hx
  · rcases hcase with rfl | hlast
    · obtain ⟨y, hy, hkey⟩ := (runFor_spec h key).2.2 run hr
      obtain ⟨run', hrun', hmem⟩ := List.mem_flatten.1 hx
      obtain ⟨i, hi, rfl⟩ := List.mem_drop_iff_getElem.1 hrun'
      obtain ⟨hlt, rfl⟩ := List.getElem?_eq_some_iff.1 hr
      exact hkey.trans (List.pairwise_iff_getElem.1 h.runs_sorted.2 (s.runFor key)
        (s.runFor key + 1 + i) hlt (by omega) (by omega) y hy x hmem).le
    · rw [List.drop_of_length_le (by omega)] at hx
      simp at hx

omit [LinearOrder α] in
theorem flatten_replaceAt (runs : List (List α)) (r : ℕ) (new : List (List α)) :
    (replaceAt runs r new).flatten =
      (runs.take r).flatten ++ (new.flatten ++ (runs.drop (r + 1)).flatten) := by
  simp [replaceAt]

omit [LinearOrder α] in
theorem mem_replaceAt {runs new : List (List α)} (hrun : run ∈ replaceAt runs r new) :
    run ∈ runs ∨ run ∈ new := by
  simp only [replaceAt, List.mem_append] at hrun
  rcases hrun with (hrun | hrun) | hrun
  · exact .inl (List.mem_of_mem_take hrun)
  · exact .inr hrun
  · exact .inl (List.mem_of_mem_drop hrun)

omit [LinearOrder α] in
theorem flatten_splitRun (run : List α) : (splitRun run).flatten = run := by
  simp only [splitRun]
  split <;> simp

omit [LinearOrder α] in
theorem ne_nil_of_mem_splitRun (hne : run ≠ []) {part : List α} (hp : part ∈ splitRun run) :
    part ≠ [] := by
  simp only [splitRun] at hp
  split at hp
  · next hlong =>
    have : 1024 < run.length := hlong
    rcases List.mem_pair.1 hp with rfl | rfl
    · exact List.ne_nil_of_length_pos (by rw [List.length_take]; omega)
    · exact List.ne_nil_of_length_pos (by rw [List.length_drop]; omega)
  · rw [List.mem_singleton.1 hp]
    exact hne

/-! ## Adding a key -/

/-- The run `insert` works in, and why the cut is right there. -/
theorem insertRun_spec (h : WellFormed s) (key : α) : s.runs = [] ∨
    ∃ run, s.runs[s.insertRun key]? = some run ∧ s.insertRun key ≤ s.runFor key ∧
      (s.insertRun key = s.runFor key ∨ s.insertRun key + 1 = s.runs.length) := by
  have hle := (runFor_spec h key).1
  rcases Nat.eq_zero_or_pos s.runs.length with h0 | hpos
  · exact .inl (List.length_eq_zero_iff.1 h0)
  · have hlt : s.insertRun key < s.runs.length := by
      unfold insertRun
      split <;> omega
    refine .inr ⟨_, List.getElem?_eq_getElem hlt, ?_⟩
    unfold insertRun
    split <;> omega

/-- `insert` puts `key` at the cut. -/
theorem keys_insert (h : WellFormed s) (key : α) :
    ∃ before after, s.keys = before ++ after ∧ (s.insert key).keys = before ++ key :: after ∧
      (∀ x ∈ before, x < key) ∧ (∀ x ∈ after, key ≤ x) ∧ (s.insert key).length = s.length + 1 := by
  rcases insertRun_spec h key with hnil | ⟨run, hr, hle, hcase⟩
  · exact ⟨[], [], by simp [keys, hnil], by simp [insert, hnil, keys], by simp, by simp,
      by simp [insert, hnil, h.length, keys]⟩
  · refine ⟨_, _, keys_eq_cut hr (indexIn run key), ?_, fun x => cut_lt h hr hle,
      fun x => le_cut h hr hcase, by simp [insert, hr]⟩
    simp only [insert, hr, keys, flatten_replaceAt, flatten_splitRun, List.append_assoc,
      List.cons_append]

theorem mem_insert (h : WellFormed s) (key : α) :
    x ∈ (s.insert key).keys ↔ x = key ∨ x ∈ s.keys := by
  obtain ⟨before, after, hs, hi, -⟩ := keys_insert h key
  rw [hs, hi]
  simp only [List.mem_append, List.mem_cons]
  tauto

theorem WellFormed.insert (h : WellFormed s) (hkey : key ∉ s.keys) : WellFormed (s.insert key) := by
  obtain ⟨before, after, hs, hi, hlt, hge, hlength⟩ := keys_insert h key
  have hsorted := h.sorted
  rw [hs, List.pairwise_append] at hsorted
  have hgt : ∀ x ∈ after, key < x := fun x hx =>
    lt_of_le_of_ne (hge x hx) (by rintro rfl; exact hkey (by rw [hs]; simp [hx]))
  refine ⟨fun run hrun => ?_, ?_, ?_⟩
  · simp only [SortedKeys.insert] at hrun
    split at hrun
    · simp_all
    · rcases mem_replaceAt hrun with hrun | hrun
      · exact h.nonempty run hrun
      · exact ne_nil_of_mem_splitRun (by simp) hrun
  · rw [hi, List.pairwise_append, List.pairwise_cons]
    refine ⟨hsorted.1, ⟨hgt, hsorted.2.1⟩, fun x hx y hy => ?_⟩
    rcases List.mem_cons.1 hy with rfl | hy
    · exact hlt x hx
    · exact hsorted.2.2 x hx y hy
  · rw [hlength, h.length, hs, hi]
    simp only [List.length_append, List.length_cons]
    omega

/-! ## Removing a key -/

/-- A key of an ascending list is the first of those at or after it. -/
theorem head?_of_mem {before after : List α} (hsorted : (before ++ after).Pairwise (· < ·))
    (hlt : ∀ x ∈ before, x < key) (hge : ∀ x ∈ after, key ≤ x) (hmem : key ∈ before ++ after) :
    after.head? = some key := by
  rcases List.mem_append.1 hmem with hmem | hmem
  · exact absurd (hlt key hmem) (lt_irrefl _)
  · cases after with
    | nil => cases hmem
    | cons y after =>
      rcases List.mem_cons.1 hmem with rfl | hmem
      · rfl
      · exact absurd ((List.pairwise_cons.1 (List.pairwise_append.1 hsorted).2.1).1 key hmem)
          (not_lt.2 (hge y List.mem_cons_self))

/-- `remove` takes `key` out at the cut, or finds that it is not there. -/
theorem remove_spec (h : WellFormed s) (key : α) :
    (key ∉ s.keys ∧ s.remove key = (s, false)) ∨
      ∃ before after, s.keys = before ++ key :: after ∧
        (s.remove key).1.keys = before ++ after ∧ (s.remove key).1.length = s.length - 1 ∧
        (s.remove key).2 = true := by
  cases hr : s.runs[s.runFor key]? with
  | none =>
    have hout := List.getElem?_eq_none_iff.1 hr
    refine .inl ⟨fun hmem => ?_, by simp [remove, hr]⟩
    obtain ⟨run, hrun, hx⟩ := List.mem_flatten.1 hmem
    have := (runFor_spec h key).2.1 run (by rwa [List.take_of_length_le hout]) key hx
    exact lt_irrefl _ this
  | some run =>
    have hcut := keys_eq_cut hr (indexIn run key)
    by_cases hkey : run[indexIn run key]? = some key
    · obtain ⟨hlt, hget⟩ := List.getElem?_eq_some_iff.1 hkey
      have hdrop : run.drop (indexIn run key) = key :: run.drop (indexIn run key + 1) := by
        rw [List.drop_eq_getElem_cons hlt, hget]
      refine .inr ⟨_, _, by rw [hcut, hdrop, List.cons_append], ?_, ?_, ?_⟩
      · simp only [remove, hr, if_pos hkey, keys, flatten_replaceAt]
        split
        · next hnil =>
          obtain ⟨h₁, h₂⟩ := List.append_eq_nil_iff.1 hnil
          simp [h₁, h₂]
        · simp
      · simp [remove, hr, hkey]
      · simp [remove, hr, hkey]
    · refine .inl ⟨fun hmem => hkey ?_, by simp [remove, hr, hkey]⟩
      have hsorted := h.sorted
      rw [hcut] at hmem hsorted
      have hhead := head?_of_mem hsorted (fun x => cut_lt h hr le_rfl)
        (fun x => le_cut h hr (.inl rfl)) hmem
      -- the run has a key at or after `key`, so the first after the cut is in it
      obtain ⟨y, hy, hle⟩ := (runFor_spec h key).2.2 run hr
      rw [← List.take_append_drop (indexIn run key) run, List.mem_append] at hy
      have hne : run.drop (indexIn run key) ≠ [] := by
        rcases hy with hy | hy
        · exact absurd hle (not_le.2 ((indexIn_spec
            (h.runs_sorted.1 run (List.mem_of_getElem? hr)) key).2.1 y hy))
        · exact List.ne_nil_of_mem hy
      rwa [List.head?_append_of_ne_nil _ hne, List.head?_drop] at hhead

theorem mem_remove (h : WellFormed s) (key : α) :
    x ∈ (s.remove key).1.keys ↔ x ≠ key ∧ x ∈ s.keys := by
  rcases remove_spec h key with ⟨hkey, heq⟩ | ⟨before, after, hs, hr, -⟩
  · rw [heq]
    exact ⟨fun hx => ⟨by rintro rfl; exact hkey hx, hx⟩, fun hx => hx.2⟩
  · have hnodup : (before ++ key :: after).Nodup := hs ▸ h.sorted.nodup
    have hkey := (List.nodup_middle.1 hnodup)
    rw [List.nodup_cons] at hkey
    rw [hs, hr]
    simp only [List.mem_append, List.mem_cons] at hkey ⊢
    constructor
    · intro hx
      exact ⟨by rintro rfl; exact hkey.1 hx, by tauto⟩
    · tauto

theorem WellFormed.remove (h : WellFormed s) (key : α) : WellFormed (s.remove key).1 := by
  refine ⟨fun run hrun => ?_, ?_, ?_⟩
  · simp only [SortedKeys.remove] at hrun
    split at hrun
    · exact h.nonempty run hrun
    · split at hrun
      · rcases mem_replaceAt hrun with hrun | hrun
        · exact h.nonempty run hrun
        · split at hrun
          · simp at hrun
          · next hne => rwa [List.mem_singleton.1 hrun]
      · exact h.nonempty run hrun
  · rcases remove_spec h key with ⟨-, heq⟩ | ⟨before, after, hs, hr, -⟩
    · rw [heq]
      exact h.sorted
    · rw [hr]
      refine h.sorted.sublist ?_
      rw [hs]
      exact (List.Sublist.refl _).append (List.sublist_cons_self _ _)
  · rcases remove_spec h key with ⟨-, heq⟩ | ⟨before, after, hs, hr, hlen, -⟩
    · rw [heq]
      exact h.length
    · rw [hlen, hr, h.length, hs]
      simp only [List.length_append, List.length_cons]
      omega

/-! ## The cursor -/

/-- The cursor goes through the keys at or after the one given, in order. -/
theorem from_eq_filter (h : WellFormed s) (key : α) : s.fromKey key = s.keys.filter (key ≤ ·) := by
  cases hr : s.runs[s.runFor key]? with
  | none =>
    have hout := List.getElem?_eq_none_iff.1 hr
    simp only [fromKey, hr]
    refine (List.filter_eq_nil_iff.2 fun x hx => ?_).symm
    obtain ⟨run, hrun, hx⟩ := List.mem_flatten.1 hx
    simpa using (runFor_spec h key).2.1 run (by rwa [List.take_of_length_le hout]) x hx
  | some run =>
    simp only [fromKey, hr]
    rw [keys_eq_cut hr (indexIn run key), List.filter_append,
      List.filter_eq_nil_iff.2 fun x hx => by simpa using cut_lt h hr le_rfl hx,
      List.filter_eq_self.2 fun x hx => by simpa using le_cut h hr (.inl rfl) hx, List.nil_append]

end SortedKeys

end CrossByte
