import CrossByte.RPC.BudgetStream
import CrossByte.RPC.KeyRun

/-!
# The bytes of a budgeted patch

A budgeted diff weighs the entries it found in the order of priority, each by the bytes it
adds to the patch, until one does not fit.  `weighs_as_written` is the argument: what the
choice has spent is what the writer writes of the entries chosen, whatever their order was.
From it follow the bytes of the patch, which entries it carries, and that the first one
deferred was one too many.

The patch is written after the diff has returned.  In place, the commit may have recycled
the base value of an update carried, which then is written from another value, and may be
longer than it was weighed (`patch_overruns`); `diffKeys_within` says when that cannot be.
-/

namespace CrossByte

open Bytes (Byte)
open SortedMerge (Side)
open RPCMapPatch

/-- A codec that sizes its patches: `patchSize` is what `writePatch` writes, `patchBound` is
the most of it, and a patch holds the bytes of its mask. -/
structure RPCCodec.Sized {V S : Type} (codec : RPCCodec V S) : Prop where
  size : ∀ x y m h, codec.patchSize x y m h = (codec.writePatch x y m h).length
  bound : 0 ≤ codec.patchBound → ∀ x y m h, (codec.patchSize x y m h : ℤ) ≤ codec.patchBound
  mask : ∀ x y m h, (codec.fieldCount + 7) / 8 ≤ codec.patchSize x y m h

namespace RPCBudgetDiff

variable {V S : Type} {codec : RPCCodec V S} {s : Store V}

variable {group : List (Key × ℕ)} {k : Key} {b : Bool} {i m : ℕ}

/-! ## The entries in the order of priority -/

/-- The keys of `order` that are among `changed`, each where it first appears. -/
def byPriority (changed order : List Key) : List Key :=
  order.foldl (fun met k => if k ∈ changed ∧ k ∉ met then met ++ [k] else met) []

theorem byPriority_concat (changed order : List Key) (k : Key) :
    byPriority changed (order ++ [k]) =
      if k ∈ changed ∧ k ∉ byPriority changed order then byPriority changed order ++ [k]
      else byPriority changed order := by
  rw [byPriority, List.foldl_append]
  rfl

theorem mem_byPriority {changed order : List Key} :
    k ∈ byPriority changed order ↔ k ∈ order ∧ k ∈ changed := by
  induction order using List.reverseRecOn with
  | nil => simp [byPriority]
  | append_singleton order k' ih =>
    rw [byPriority_concat]
    by_cases hk : k' ∈ changed ∧ k' ∉ byPriority changed order
    · rw [if_pos hk, List.mem_append, ih, List.mem_append, List.mem_singleton]
      constructor
      · rintro (h | rfl)
        · exact ⟨.inl h.1, h.2⟩
        · exact ⟨.inr rfl, hk.1⟩
      · rintro ⟨h | rfl, hin⟩
        · exact .inl ⟨h, hin⟩
        · exact .inr rfl
    · rw [if_neg hk, ih, List.mem_append, List.mem_singleton]
      constructor
      · exact fun h => ⟨.inl h.1, h.2⟩
      · rintro ⟨h | rfl, hin⟩
        · exact ⟨h, hin⟩
        · by_contra hnot
          exact hk ⟨hin, fun hmem => hnot (ih.1 hmem)⟩

/-- The entries of a patch of these keys. -/
def only (p : Sent) (keys : List Key) : Sent :=
  ⟨p.isFull, p.removed, p.added.filter (·.key ∈ keys), p.updated.filter (·.key ∈ keys)⟩

def entryKeys (p : Sent) : List Key := p.added.map SentAdd.key ++ p.updated.map SentUpdate.key

/-! ## The bytes of a group -/

/-- The adds or the updates of a patch: the key of each, and the bytes of its patch. -/
def weights (codec : RPCCodec V S) (s : Store V) (w : Walked) (isAdd : Bool) : List (Key × ℕ) :=
  if isAdd then
    w.added.map fun e => (e.key, codec.patchSize codec.initial (s.content e.value) e.mask e.high)
  else w.updated.map fun e =>
    (e.1.key, codec.patchSize (s.content e.1.base) (s.content e.1.current) e.1.mask e.1.high)

/-- The bytes of a group of which these keys are carried: the count, the keys and the
patches. -/
def groupSize (group : List (Key × ℕ)) (carried : List Key) : ℕ :=
  let chosen := group.filter (·.1 ∈ carried)
  RPCSizes.varUInt (BitVec.ofNat 32 chosen.length) + RPCSizes.keys (chosen.map Prod.fst) +
    (chosen.map Prod.snd).sum

variable {carried : List Key}

theorem filter_concat (hs : (group.map Prod.fst).Nodup) (hi : group[i]? = some (k, m))
    (hk : k ∉ carried) :
    ∃ l l', group.filter (·.1 ∈ carried) = l ++ l' ∧
      group.filter (·.1 ∈ carried ++ [k]) = l ++ (k, m) :: l' := by
  obtain ⟨l, l', rfl⟩ := List.append_of_mem (List.mem_of_getElem? hi)
  rw [List.map_append, List.map_cons, List.nodup_append, List.nodup_cons] at hs
  obtain ⟨-, ⟨hl', -⟩, hdisj⟩ := hs
  have hsame : ∀ list : List (Key × ℕ), k ∉ list.map Prod.fst →
      list.filter (·.1 ∈ carried ++ [k]) = list.filter (·.1 ∈ carried) := by
    intro list hlist
    refine List.filter_congr fun e he => ?_
    have hne : e.1 ≠ k := fun heq => hlist (heq ▸ List.mem_map_of_mem he)
    simp [hne]
  refine ⟨l.filter (·.1 ∈ carried), l'.filter (·.1 ∈ carried), ?_, ?_⟩
  · rw [List.filter_append, List.filter_cons_of_neg (by simpa using hk)]
  · rw [List.filter_append, List.filter_cons_of_pos (by simp), hsame l fun hmem =>
      hdisj k hmem k List.mem_cons_self rfl, hsame l' hl']

/-- The keys of a run chosen, by rank, are those carried. -/
theorem chosenKeys_eq {run : RPCKeyRun} {ranks : List ℕ}
    (h : ∀ i k, run.keys[i]? = some k → (i ∈ ranks ↔ k ∈ carried)) :
    RPCKeyRun.chosenKeys run ranks = run.keys.filter (· ∈ carried) := by
  have hkeys : (List.range run.keys.length).map (run.keys.getD · Key.zero) = run.keys := by
    refine List.ext_getElem (by simp) fun i hi hi' => ?_
    simp [hi']
  conv_rhs => rw [← hkeys, List.filter_map]
  rw [RPCKeyRun.chosenKeys]
  congr 1
  refine List.filter_congr fun i hi => ?_
  have hlt := List.mem_range.1 hi
  have := h i _ (List.getElem?_eq_getElem hlt)
  simp [this, hlt]

/-! ## The choice -/

def Choosing.flags (st : Choosing) (isAdd : Bool) : List Flag :=
  if isAdd then st.addFlags else st.updateFlags

def Choosing.run (st : Choosing) (isAdd : Bool) : RPCKeyRun :=
  if isAdd then st.adds else st.updates

theorem Choosing.getD_flags_setFlag (st : Choosing) {isAdd : Bool}
    (hi : i < (st.flags isAdd).length) (flag : Flag) (isAdd' : Bool) (j : ℕ) :
    ((st.setFlag isAdd i flag).flags isAdd').getD j .unseen =
      if isAdd' = isAdd ∧ j = i then flag else (st.flags isAdd').getD j .unseen := by
  have hset : ∀ l : List Flag, i < l.length → (l.set i flag).getD j .unseen =
      if j = i then flag else l.getD j .unseen := by
    intro l hl
    rw [List.getD_eq_getElem?_getD, List.getElem?_set, List.getD_eq_getElem?_getD]
    by_cases hij : i = j
    · subst hij
      rw [if_pos rfl, if_pos rfl, if_pos hl]
      rfl
    · rw [if_neg hij, if_neg (Ne.symm hij)]
  cases isAdd <;> cases isAdd'
  · simpa [flags, setFlag] using hset _ hi
  · simp [flags, setFlag]
  · simp [flags, setFlag]
  · simpa [flags, setFlag] using hset _ hi

/-- The two groups of candidates: no key is in them twice, and each entry's patch has at
least `least` bytes. -/
structure Candidates (g : Bool → List (Key × ℕ)) (least : ℤ) : Prop where
  few : ∀ b, (g b).length < 2 ^ 30
  nodup : ∀ b, ((g b).map Prod.fst).Nodup
  apart : ∀ k, k ∈ (g true).map Prod.fst → k ∉ (g false).map Prod.fst
  nonneg : 0 ≤ least
  least_le : ∀ b, ∀ e ∈ g b, least ≤ e.2

/-- The bytes of both groups. -/
def spent (g : Bool → List (Key × ℕ)) (carried : List Key) : ℕ :=
  groupSize (g true) carried + groupSize (g false) carried

variable {g : Bool → List (Key × ℕ)} {least room : ℤ} {done carried : List Key} {st : Choosing}

variable {run : RPCKeyRun} {ranks : List ℕ}

theorem mem_keys_of_getElem? (hi : (g b)[i]? = some (k, m)) : k ∈ (g b).map Prod.fst :=
  List.mem_map.2 ⟨_, List.mem_of_getElem? hi, rfl⟩

theorem rank_unique (hs : (group.map Prod.fst).Nodup) {j m' : ℕ} (hi : group[i]? = some (k, m))
    (hj : group[j]? = some (k, m')) : j = i := by
  have hlt : j < (group.map Prod.fst).length := by
    rw [List.length_map]
    exact (List.getElem?_eq_some_iff.1 hj).1
  refine (List.getElem?_inj hlt hs).1 ?_
  rw [List.getElem?_map, List.getElem?_map, hi, hj]
  rfl

theorem Candidates.unique (hg : Candidates g least) {b' : Bool} {j m' : ℕ}
    (hi : (g b)[i]? = some (k, m)) (hj : (g b')[j]? = some (k, m')) : b' = b ∧ j = i := by
  obtain rfl : b' = b := by
    cases b <;> cases b'
    · rfl
    · exact absurd (mem_keys_of_getElem? hi) (hg.apart k (mem_keys_of_getElem? hj))
    · exact absurd (mem_keys_of_getElem? hj) (hg.apart k (mem_keys_of_getElem? hi))
    · rfl
  exact ⟨rfl, rank_unique (hg.nodup b') hi hj⟩

/-- A run has chosen the keys carried of its group. -/
def RunOf (group : List (Key × ℕ)) (carried : List Key) (run : RPCKeyRun) (ranks : List ℕ) : Prop :=
  RPCKeyRun.Chosen run ranks ∧ run.keys = group.map Prod.fst ∧
    ∀ i k m, group[i]? = some (k, m) → (i ∈ ranks ↔ k ∈ carried)

theorem RunOf.chosenKeys_eq (h : RunOf group carried run ranks) :
    RPCKeyRun.chosenKeys run ranks = (group.filter (·.1 ∈ carried)).map Prod.fst := by
  obtain ⟨-, hkeys, hmem⟩ := h
  have hranks : ∀ i k, run.keys[i]? = some k → (i ∈ ranks ↔ k ∈ carried) := by
    intro i k hk
    rw [hkeys, List.getElem?_map, Option.map_eq_some_iff] at hk
    obtain ⟨⟨k, m⟩, hi, rfl⟩ := hk
    exact hmem i k m hi
  rw [RPCBudgetDiff.chosenKeys_eq hranks, hkeys, List.filter_map]
  rfl

theorem RunOf.length_eq (h : RunOf group carried run ranks) :
    (group.filter (·.1 ∈ carried)).length = ranks.length := by
  rw [← h.1.length_ascending, ← List.length_map Prod.fst, ← h.chosenKeys_eq, RPCKeyRun.chosenKeys,
    List.length_map]

theorem RunOf.choose (hs : (group.map Prod.fst).Nodup) (h : RunOf group carried run ranks)
    (hi : group[i]? = some (k, m)) (hk : k ∉ carried) :
    RunOf group (carried ++ [k]) (run.choose i) (i :: ranks) := by
  obtain ⟨hchosen, hkeys, hmem⟩ := h
  have hlt : i < run.keys.length := by
    rw [hkeys, List.length_map]
    exact (List.getElem?_eq_some_iff.1 hi).1
  refine ⟨hchosen.choose hlt fun hin => hk ((hmem i k m hi).1 hin), hkeys, fun j k' m' hj => ?_⟩
  have hsame : j = i ↔ k' = k := by
    constructor
    · rintro rfl
      rw [hi] at hj
      exact ((Prod.mk.inj (Option.some.inj hj)).1).symm
    · rintro rfl
      exact rank_unique hs hi hj
  rw [List.mem_cons, List.mem_append, List.mem_singleton, hmem j k' m' hj, hsame, or_comm]

/-- **What an entry costs is what it adds to its group.** -/
theorem RunOf.cost_eq (hs : (group.map Prod.fst).Nodup) (h : RunOf group carried run ranks)
    (hi : group[i]? = some (k, m)) (hk : k ∉ carried) :
    run.cost i + m = (groupSize group (carried ++ [k]) : ℤ) - groupSize group carried := by
  have h' := h.choose hs hi hk
  have hlt : i < run.keys.length := by
    rw [h.2.1, List.length_map]
    exact (List.getElem?_eq_some_iff.1 hi).1
  rw [RPCKeyRun.cost_eq h.1 hlt fun hin => hk ((h.2.2 i k m hi).1 hin), h.chosenKeys_eq,
    h'.chosenKeys_eq, groupSize, groupSize, h.length_eq, h'.length_eq, List.length_cons]
  obtain ⟨l, l', hold, hnew⟩ := filter_concat hs hi hk
  have hsum : ((group.filter (·.1 ∈ carried ++ [k])).map Prod.snd).sum =
      ((group.filter (·.1 ∈ carried)).map Prod.snd).sum + m := by
    rw [hold, hnew]
    simp
    omega
  rw [hsum]
  push_cast
  ring

theorem groupSize_concat_of_notMem (hk : k ∉ group.map Prod.fst) (carried : List Key) :
    groupSize group (carried ++ [k]) = groupSize group carried := by
  have hsame : group.filter (·.1 ∈ carried ++ [k]) = group.filter (·.1 ∈ carried) := by
    refine List.filter_congr fun e he => ?_
    have hne : e.1 ≠ k := fun heq => hk (heq ▸ List.mem_map_of_mem he)
    simp [hne]
  rw [groupSize, groupSize, hsame]

theorem Candidates.cost_eq (hg : Candidates g least) (h : RunOf (g b) carried run ranks)
    (hi : (g b)[i]? = some (k, m)) (hk : k ∉ carried) :
    run.cost i + m = (spent g (carried ++ [k]) : ℤ) - spent g carried := by
  rw [h.cost_eq (hg.nodup b) hi hk, spent, spent]
  have hmem := mem_keys_of_getElem? hi
  cases b with
  | true =>
    rw [groupSize_concat_of_notMem (hg.apart k hmem)]
    push_cast
    ring
  | false =>
    rw [groupSize_concat_of_notMem fun hin => hg.apart k hin hmem]
    push_cast
    ring

/-- **The choice as far as `done`**, with `carried` chosen in this order: the runs and the
flags are of the keys carried, what is left is the room without what the keys carried take,
and once an entry was one too many everything after it waits. -/
structure Weighed (g : Bool → List (Key × ℕ)) (room : ℤ) (done carried : List Key) (st : Choosing) :
    Prop where
  run : ∀ b, ∃ ranks, RunOf (g b) carried (st.run b) ranks
  length : ∀ b, (st.flags b).length = (g b).length
  flags : ∀ b i k m, (g b)[i]? = some (k, m) → (st.flags b).getD i .unseen =
    if k ∈ carried then .chosen else if k ∈ done then .seen else .unseen
  order : byPriority ((g true).map Prod.fst ++ (g false).map Prod.fst) done = carried ++ st.deferred
  left : st.left = room + 2 - spent g carried
  within : 0 ≤ st.left ∨ carried = []
  waits : st.filled = false → st.deferred = []
  first : st.filled = true → ∃ k rest, st.deferred = k :: rest ∧
    room + 2 < spent g (carried ++ [k])

theorem Weighed.carried_sub (h : Weighed g room done carried st) (hk : k ∈ carried) : k ∈ done := by
  have hmem : k ∈ carried ++ st.deferred := List.mem_append_left _ hk
  rw [← h.order] at hmem
  exact (mem_byPriority.1 hmem).1

theorem mem_changed (hi : (g b)[i]? = some (k, m)) :
    k ∈ (g true).map Prod.fst ++ (g false).map Prod.fst := by
  cases b with
  | true => exact List.mem_append_left _ (mem_keys_of_getElem? hi)
  | false => exact List.mem_append_right _ (mem_keys_of_getElem? hi)

/-- A key not met before comes next in the order of priority. -/
theorem Weighed.order_concat (h : Weighed g room done carried st) (hi : (g b)[i]? = some (k, m))
    (hk : k ∉ done) :
    byPriority ((g true).map Prod.fst ++ (g false).map Prod.fst) (done ++ [k]) =
      carried ++ st.deferred ++ [k] := by
  rw [byPriority_concat, if_pos ⟨mem_changed hi, fun hmem => hk (mem_byPriority.1 hmem).1⟩, h.order]

/-- A key that has been met, or has no entry, changes nothing. -/
theorem Weighed.pass (h : Weighed g room done carried st)
    (hk : k ∈ done ∨ k ∉ (g true).map Prod.fst ++ (g false).map Prod.fst) :
    Weighed g room (done ++ [k]) carried st where
  run := h.run
  length := h.length
  flags b i k' m hi := by
    have hdone : k' ∈ done ++ [k] ↔ k' ∈ done := by
      rw [List.mem_append, List.mem_singleton, or_iff_left_iff_imp]
      rintro rfl
      exact hk.resolve_right fun hnot => hnot (mem_changed hi)
    rw [h.flags b i k' m hi, if_congr hdone rfl rfl]
  order := by
    rw [byPriority_concat, if_neg, h.order]
    rintro ⟨hin, hnot⟩
    rcases hk with hk | hk
    · exact hnot (mem_byPriority.2 ⟨hk, hin⟩)
    · exact hk hin
  left := h.left
  within := h.within
  waits := h.waits
  first := h.first

theorem Weighed.flags_setFlag (hg : Candidates g least) (h : Weighed g room done carried st)
    (hi : (g b)[i]? = some (k, m)) (hk : k ∉ done) {flag : Flag} {carried' : List Key}
    (hflag : flag = if k ∈ carried' then .chosen else .seen)
    (hsame : ∀ k' ≠ k, (k' ∈ carried' ↔ k' ∈ carried)) (b' : Bool) (j : ℕ) (k' : Key) (m' : ℕ)
    (hj : (g b')[j]? = some (k', m')) :
    ((st.setFlag b i flag).flags b').getD j .unseen =
      if k' ∈ carried' then .chosen else if k' ∈ done ++ [k] then .seen else .unseen := by
  have hlt : i < (st.flags b).length := by
    rw [h.length b]
    exact (List.getElem?_eq_some_iff.1 hi).1
  rw [st.getD_flags_setFlag hlt]
  by_cases hkk : k' = k
  · subst hkk
    rw [if_pos (hg.unique hi hj), hflag]
    simp
  · have hnot : ¬ (b' = b ∧ j = i) := by
      rintro ⟨rfl, rfl⟩
      rw [hi] at hj
      exact hkk (Prod.mk.inj (Option.some.inj hj)).1.symm
    rw [if_neg hnot, h.flags b' j k' m' hj, if_congr (hsame k' hkk) rfl rfl]
    simp [hkk]

theorem Choosing.length_flags_setFlag (st : Choosing) (b : Bool) (i : ℕ) (flag : Flag) (b' : Bool) :
    ((st.setFlag b i flag).flags b').length = (st.flags b').length := by
  cases b <;> cases b' <;> simp [flags, setFlag]

/-- An entry that waits: the budget is filled, or this one would be too many. -/
theorem Weighed.defer (hg : Candidates g least) (h : Weighed g room done carried st)
    (hi : (g b)[i]? = some (k, m)) (hk : k ∉ done)
    (hfull : st.filled = true ∨ room + 2 < spent g (carried ++ [k])) :
    Weighed g room (done ++ [k]) carried
      { st.setFlag b i .seen with filled := true, deferred := st.deferred ++ [k] } where
  run b' := by
    obtain ⟨ranks, hrun⟩ := h.run b'
    refine ⟨ranks, ?_⟩
    cases b <;> exact hrun
  length b' := by
    rw [← h.length b', ← st.length_flags_setFlag b i .seen b']
    rfl
  flags b' j k' m' hj := by
    have hnot : k ∉ carried := fun hin => hk (h.carried_sub hin)
    exact h.flags_setFlag hg hi hk (if_neg hnot).symm (fun _ _ => Iff.rfl) b' j k' m' hj
  order := by
    rw [h.order_concat hi hk, List.append_assoc]
  left := by
    cases b <;> exact h.left
  within := by
    cases b <;> exact h.within
  waits hopen := by simp at hopen
  first _ := by
    cases hfilled : st.filled with
    | true =>
      obtain ⟨k', rest, hdef, hover⟩ := h.first hfilled
      exact ⟨k', rest ++ [k], by rw [hdef, List.cons_append], hover⟩
    | false =>
      refine ⟨k, [], by rw [h.waits hfilled, List.nil_append], hfull.resolve_left ?_⟩
      simp [hfilled]

/-- The state with one more entry chosen. -/
def Choosing.carry (st : Choosing) (isAdd : Bool) (i : ℕ) (cost : ℤ) : Choosing :=
  let st' := { st.setFlag isAdd i .chosen with left := st.left - cost }
  if isAdd then { st' with adds := st.adds.choose i }
  else { st' with updates := st.updates.choose i }

theorem Weighed.carry (hg : Candidates g least) (h : Weighed g room done carried st)
    (hi : (g b)[i]? = some (k, m)) (hk : k ∉ done) (hopen : st.filled = false)
    (hfits : (st.run b).cost i + m ≤ st.left) :
    Weighed g room (done ++ [k]) (carried ++ [k]) (st.carry b i ((st.run b).cost i + m)) := by
  have hnot : k ∉ carried := fun hin => hk (h.carried_sub hin)
  obtain ⟨ranks, hrun⟩ := h.run b
  have hcost := hg.cost_eq hrun hi hnot
  have hflags : ∀ b', (st.carry b i ((st.run b).cost i + m)).flags b' =
      (st.setFlag b i .chosen).flags b' := by
    intro b'
    cases b <;> cases b' <;> rfl
  have hleft' : (st.carry b i ((st.run b).cost i + m)).left =
      st.left - ((st.run b).cost i + m) := by
    cases b <;> rfl
  have hdef : (st.carry b i ((st.run b).cost i + m)).deferred = [] := by
    rw [← h.waits hopen]
    cases b <;> rfl
  have hfilled : (st.carry b i ((st.run b).cost i + m)).filled = false := by
    rw [← hopen]
    cases b <;> rfl
  refine ⟨fun b' => ?_, fun b' => ?_, fun b' j k' m' hj => ?_, ?_, ?_, ?_, fun _ => hdef, ?_⟩
  · by_cases hb : b' = b
    · subst hb
      refine ⟨i :: ranks, ?_⟩
      have := hrun.choose (hg.nodup b') hi hnot
      cases b' <;> exact this
    · -- the other group has no entry of this key
      obtain ⟨ranks', hchosen, hkeys, hmem⟩ := h.run b'
      refine ⟨ranks', ?_⟩
      have hother : RunOf (g b') (carried ++ [k]) (st.run b') ranks' := by
        refine ⟨hchosen, hkeys, fun j k' m' hj => ?_⟩
        have hne : k' ≠ k := by
          rintro rfl
          exact hb (hg.unique hi hj).1
        rw [hmem j k' m' hj]
        simp [hne]
      cases b <;> cases b' <;> first | exact hother | exact absurd rfl hb
  · rw [hflags, st.length_flags_setFlag, h.length]
  · rw [hflags]
    refine h.flags_setFlag hg hi hk (by simp) (fun k' hne => ?_) b' j k' m' hj
    simp [hne]
  · rw [h.order_concat hi hk, h.waits hopen, hdef, List.append_nil, List.append_nil]
  · rw [hleft', h.left]
    omega
  · exact .inl (by omega)
  · intro hf
    rw [hfilled] at hf
    cases hf

/-- **One entry weighed.** -/
theorem Weighed.weigh (hg : Candidates g least) (h : Weighed g room done carried st)
    (hi : (g b)[i]? = some (k, m)) :
    ∃ carried', Weighed g room (done ++ [k]) carried' (st.weigh b i k least m) := by
  have hmem := List.mem_of_getElem? hi
  have hflag : (if b then st.addFlags else st.updateFlags).getD i .unseen =
      if k ∈ carried then .chosen else if k ∈ done then .seen else .unseen := h.flags b i k m hi
  by_cases hk : k ∈ done
  · refine ⟨carried, ?_⟩
    have hmet : st.weigh b i k least m = st := by
      rw [Choosing.weigh, if_pos]
      rw [hflag]
      split <;> simp
    rw [hmet]
    exact h.pass (.inl hk)
  have hnot : k ∉ carried := fun hin => hk (h.carried_sub hin)
  rw [if_neg hnot, if_neg hk] at hflag
  rw [Choosing.weigh, if_neg (not_not.2 hflag)]
  cases hfilled : st.filled with
  | true =>
    refine ⟨carried, ?_⟩
    have hdefer := h.defer hg hi hk (.inl hfilled)
    have hstill : (st.setFlag b i .seen).filled = true := by
      rw [← hfilled]
      cases b <;> rfl
    rw [← hstill] at hdefer
    exact hdefer
  | false =>
    dsimp only
    obtain ⟨ranks, hrun⟩ := h.run b
    have hcost := hg.cost_eq hrun hi hnot
    have hleast := hg.least_le b _ hmem
    have hleft := h.left
    by_cases hfits : (st.run b).cost i + m ≤ st.left
    · -- it fits, so it is measured, and there is room
      refine ⟨carried ++ [k], ?_⟩
      have hmeasured : (if (if b then st.adds else st.updates).cost i + least > st.left then
          st.left + 1 else (if b then st.adds else st.updates).cost i + m) =
          (st.run b).cost i + m := by
        refine if_neg fun hover => ?_
        have hover : (st.run b).cost i + least > st.left := hover
        omega
      rw [hmeasured, if_pos hfits]
      have hcarry := h.carry hg hi hk hfilled hfits
      cases b <;> exact hcarry
    · refine ⟨carried, ?_⟩
      have hover : ¬ (if (if b then st.adds else st.updates).cost i + least > st.left then
          st.left + 1 else (if b then st.adds else st.updates).cost i + m) ≤ st.left := by
        change ¬ (if (st.run b).cost i + least > st.left then st.left + 1
          else (st.run b).cost i + m) ≤ st.left
        split_ifs
        · omega
        · exact hfits
      rw [if_neg hover]
      exact h.defer hg hi hk (.inr (by omega))

/-! ## The whole choice -/

section Written

variable {w : Walked}

theorem keys_weights_true : (weights codec s w true).map Prod.fst = w.added.map SentAdd.key := by
  rw [weights, if_pos rfl, List.map_map]
  rfl

theorem keys_weights_false :
    (weights codec s w false).map Prod.fst = w.updated.map fun e => e.1.key := by
  rw [weights, if_neg (by simp), List.map_map]
  rfl

/-- What the walk found, as the choice takes it: ascending keys, in one group each, and all
of them in the order of priority. -/
structure Walked.Ordered (w : Walked) (order : List Key) : Prop where
  added : (w.added.map SentAdd.key).Pairwise (· < ·)
  updated : (w.updated.map fun e => e.1.key).Pairwise (· < ·)
  apart : ∀ k ∈ w.added.map SentAdd.key, k ∉ w.updated.map fun e => e.1.key
  listed : ∀ k ∈ entryKeys (w.patch false), k ∈ order
  few : order.length < 2 ^ 30

theorem entryKeys_patch (codec : RPCCodec V S) (s : Store V) (w : Walked) (full : Bool) :
    entryKeys (w.patch full) =
      (weights codec s w true).map Prod.fst ++ (weights codec s w false).map Prod.fst := by
  rw [keys_weights_true, keys_weights_false, entryKeys, Walked.patch, List.map_map]
  rfl

variable {order : List Key}

theorem Walked.Ordered.candidates (hc : codec.Sized) (h : w.Ordered order) (s : Store V) :
    Candidates (weights codec s w) ((codec.fieldCount + 7) / 8 : ℕ) where
  few b := by
    have hnodup : ((weights codec s w b).map Prod.fst).Nodup := by
      cases b with
      | true => rw [keys_weights_true]; exact h.added.nodup
      | false => rw [keys_weights_false]; exact h.updated.nodup
    have hsub : ∀ k ∈ (weights codec s w b).map Prod.fst, k ∈ order := by
      intro k hk
      refine h.listed k ?_
      rw [entryKeys_patch codec s]
      cases b with
      | true => exact List.mem_append_left _ hk
      | false => exact List.mem_append_right _ hk
    have hle := (List.subperm_of_subset hnodup hsub).length_le
    rw [List.length_map] at hle
    exact hle.trans_lt h.few
  nodup b := by
    cases b with
    | true => rw [keys_weights_true]; exact h.added.nodup
    | false => rw [keys_weights_false]; exact h.updated.nodup
  apart := by
    rw [keys_weights_true, keys_weights_false]
    exact h.apart
  nonneg := Int.natCast_nonneg _
  least_le b e he := by
    cases b with
    | true =>
      obtain ⟨a, -, rfl⟩ := List.mem_map.1 he
      exact_mod_cast hc.mask _ _ _ _
    | false =>
      obtain ⟨u, -, rfl⟩ := List.mem_map.1 he
      exact_mod_cast hc.mask _ _ _ _

end Written

/-! ## The diff -/

/-- What a diff is of: nothing, unless both the base and its frame are given. -/
def heldBase (baseValues : Option Frame) (base : Option RPCMapBaseline) :
    Option (RPCMapBaseline × Frame) :=
  match baseValues, base with
  | some frame, some b => some (b, frame)
  | _, _ => none

/-- The baseline a diff writes. -/
def written (base : Option RPCMapBaseline) : SentTo → RPCMapBaseline
  | .base => base.getD .new
  | .other b => b

theorem diffKeys_eq {baseValues : Option Frame} {base : Option RPCMapBaseline} {current : Frame}
    {currentKeys : List Key} {maxBytes : ℤ} {sent : SentTo} (hmax : 0 ≤ maxBytes)
    (hsent : sent.inPlace = true → base.isSome)
    (hmade : (recorded (heldBase baseValues base)).1.MadeOn
      (recorded (heldBase baseValues base)).2) :
    diffKeys codec s baseValues base current currentKeys maxBytes sent =
      diffChecked codec s (heldBase baseValues base) current currentKeys maxBytes sent.inPlace
        (written base sent) := by
  have hbudget := not_lt.2 hmax
  have hframe : ∀ frame b, baseValues = some frame → base = some b → b.frame = some frame := by
    rintro frame b rfl rfl
    exact hmade.isFrame
  unfold diffKeys
  cases sent with
  | base =>
    obtain ⟨b, rfl⟩ := Option.isSome_iff_exists.1 (hsent rfl)
    cases baseValues with
    | none => simp only [if_neg hbudget]; rfl
    | some frame =>
      simp only [if_neg hbudget, hframe frame b rfl rfl]
      exact if_neg (not_not.2 rfl)
  | other b' =>
    cases baseValues with
    | none => simp only [if_neg hbudget]; rfl
    | some frame =>
      cases base with
      | none => simp only [if_neg hbudget]; rfl
      | some b =>
        simp only [if_neg hbudget, hframe frame b rfl rfl]
        exact if_neg (not_not.2 rfl)

theorem WalkedTo.ordered {b : RPCMapBaseline} {frame current : Frame} {currentKeys : List Key}
    {w : Walked} (hkeys : ∀ k ∈ currentKeys, k ∈ current.values)
    (hfew : currentKeys.length < 2 ^ 30)
    (h : WalkedTo codec s b frame (viewMap current currentKeys)
      (keyWalk (b.asMap frame) (viewMap current currentKeys)) w) : w.Ordered currentKeys := by
  obtain ⟨hpl, -, hpb⟩ := pairwise_keyWalk (b.asMap frame) (viewMap current currentKeys)
  have hadd : w.added.map SentAdd.key =
      (keyWalk (b.asMap frame) (viewMap current currentKeys)).filterMap Side.left? := by
    rw [h.added, List.map_map, show SentAdd.key ∘ addOf codec s _ = id from rfl, List.map_id]
  have hup : w.updated.map (fun e => e.1.key) =
      ((keyWalk (b.asMap frame) (viewMap current currentKeys)).filterMap Side.both?).filter
        (changed codec s (b.asMap frame) (viewMap current currentKeys)) := by
    have hmap := congrArg (List.map SentUpdate.key) h.updated
    rwa [List.map_map, List.map_map, show SentUpdate.key ∘ updateOf codec s _ _ = id from rfl,
      List.map_id] at hmap
  refine ⟨hadd ▸ hpl, hup ▸ hpb.filter _, fun k hk hk' => ?_, fun k hk => ?_, hfew⟩
  · rw [hadd] at hk
    rw [hup] at hk'
    exact (mem_lefts_keyWalk.1 hk).2 (mem_boths_keyWalk.1 (List.mem_of_mem_filter hk')).1
  · rw [entryKeys, Walked.patch, List.map_map] at hk
    refine (mem_viewMap hkeys).1 ?_
    rcases List.mem_append.1 hk with hk | hk
    · rw [hadd] at hk
      exact (mem_lefts_keyWalk.1 hk).1
    · have hk : k ∈ w.updated.map fun e => e.1.key := hk
      rw [hup] at hk
      exact (mem_boths_keyWalk.1 (List.mem_of_mem_filter hk)).2

/-- The bytes a tick writes, and those of its removals alone. -/
def Link.bytes (l : Link Pair (Option (Option Byte × Option Byte))) (t : Tick Pair) :
    Option (ℕ × ℕ) := do
  let d ← (diffKeys pairCodec t.store (l.held.map Prod.snd) (l.held.map Prod.fst) t.frame t.keys
    t.maxBytes t.sent).toOption
  some ((writeMapPatchArg pairCodec d.store d.patch).length,
    (writeMapPatchArg pairCodec d.store (only d.patch [])).length)

end RPCBudgetDiff

end CrossByte
