import CrossByte.Lib.SlotHeap

/-!
# The list of revoked tokens

`JWTRevocationList` keeps the `jti` of each token revoked until a time, in a map and in a binary
heap by that time, each entry recording its place in the heap.  Past `maxEntries` the entry whose
time is soonest makes room, and raises the floor: a token whose `exp` plus `leeway` is no later is
then refused, listed or not, until that time has passed.

Times are rationals, and the floor is one, or nothing (`⊥`, for negative infinity).  An entry is
known by its `jti`, as an object the map holds under it.

## Main results

* `Sound`: the map and the heap hold the same entries, each at its recorded place, the heap is
  ordered, and the floor has not been swept past.
* `Sound.sweep`, `Sound.remove`, `Sound.revoke`: every operation keeps it.
-/

namespace CrossByte

open SlotHeap Function

namespace JWTRevocationList

/-- The entries and the heap: the entry at each place, and each entry's `until` and `index`. -/
structure Table (ι : Type*) where
  slots : ℕ → ι
  til : ι → ℚ
  index : ι → ℕ

namespace Table

variable {ι : Type*} [DecidableEq ι]

/-- `__heap[place] = entry; entry.index = place`. -/
def put (t : Table ι) (place : ℕ) (e : ι) : Table ι :=
  { t with slots := Function.update t.slots place e, index := Function.update t.index e place }

/-- The heap as slots; a write records the place in the entry. -/
def store : Slots (Table ι) ι where
  get t i := t.slots i
  put := put
  get_put _ _ _ _ := Function.update_apply ..

/-- `a.until < b.until`. -/
def sooner (t : Table ι) (a b : ι) : Bool := t.til a < t.til b

def up (t : Table ι) (place : ℕ) : Table ι := siftUp store t.sooner place t place (t.slots place)

/-- `__down`, among `count` places. -/
def down (t : Table ι) (count place : ℕ) : Table ι :=
  sink store t.sooner count count t place (t.slots place)

/-- `__removeAt`, with `last` the count it leaves. -/
def removeAt (t : Table ι) (last place : ℕ) : Table ι :=
  if place < last then
    let e := t.slots last
    let t := (t.put place e).down last place
    t.up (t.index e)
  else t

/-! ## The heap keeps its order and its places -/

/-- The heap is ordered, and every entry in it records its place. -/
structure Ordered (t : Table ι) (n : ℕ) : Prop where
  heap : IsHeap store t.til n t
  places : ∀ i < n, t.index (t.slots i) = i

/-- The entries in the first `n` places. -/
def held (t : Table ι) (n : ℕ) : Multiset ι := elements store n t

variable {t t' : Table ι} {n i k k' : ℕ} {e x : ι}

theorem slots_put (t : Table ι) (i j : ℕ) (e : ι) :
    (t.put i e).slots j = if j = i then e else t.slots j := update_apply ..

theorem index_put (t : Table ι) (i : ℕ) (c e : ι) :
    (t.put i e).index c = if c = e then i else t.index c := update_apply ..

omit [DecidableEq ι] in
theorem agreesOn (t : Table ι) (X : Set ι) : AgreesOn t.sooner t.til X := by
  intro a _ b _
  rw [sooner, decide_eq_true_iff]

theorem mem_held_of_lt (hi : i < n) : t.slots i ∈ t.held n := mem_elements.2 ⟨i, hi, rfl⟩

theorem Ordered.slots_index (h : t.Ordered n) (he : e ∈ t.held n) :
    t.index e < n ∧ t.slots (t.index e) = e := by
  obtain ⟨i, hi, rfl⟩ := mem_elements.1 he
  change t.index (t.slots i) < n ∧ t.slots (t.index (t.slots i)) = t.slots i
  rw [h.places i hi]
  exact ⟨hi, rfl⟩

theorem Ordered.slots_inj (h : t.Ordered n) {j : ℕ} (hi : i < n) (hj : j < n)
    (heq : t.slots i = t.slots j) : i = j := by
  rw [← h.places i hi, ← h.places j hj, heq]

theorem Ordered.nodup (h : t.Ordered n) : (t.held n).Nodup := by
  refine (Multiset.nodup_map_iff_of_inj_on fun i hi j hj heq => ?_).2 (Multiset.nodup_range n)
  exact h.slots_inj (Multiset.mem_range.1 hi) (Multiset.mem_range.1 hj) heq

/-- Every entry but the one at the hole records its place, and none of them is `x`. -/
def PlacedBut (t : Table ι) (n k : ℕ) (x : ι) : Prop :=
  ∀ j < n, j ≠ k → t.index (t.slots j) = j ∧ t.slots j ≠ x

theorem records : Records (store (ι := ι)) Table.index id id :=
  ⟨Function.injective_id, fun _ _ _ _ => update_apply ..⟩

theorem PlacedBut.put (h : t.PlacedBut n k x) : (t.put k x).PlacedBut n k x := records.over h

/-- What moves and a write leave: the places, the times, and the entries. -/
theorem PlacedBut.moved (h : t.PlacedBut n k x) (hk : k < n) (hslot : t.slots k = x)
    (hm : Moves store n t k t' k') :
    (∀ i < n, (store.put t' k' x).index ((store.put t' k' x).slots i) = i) ∧
      (store.put t' k' x).til = t.til ∧ (store.put t' k' x).held n = t.held n ∧
      (store.put t' k' x).index x = k' ∧ k' < n := by
  have hbut := hm.rule (Q := fun (u : Table ι) k => u.PlacedBut n k x ∧ u.til = t.til) ⟨h, rfl⟩
    fun u k j hQ hj hne => ⟨records.move hQ.1 hj hne, hQ.2⟩
  refine ⟨records.fill hbut.1, hbut.2, ?_, ?_, hm.lt hk⟩
  · rw [held, elements_of_moves hm hk, elements_put_self hk hslot]
    rfl
  · change (t'.put k' x).index x = k'
    rw [index_put, if_pos rfl]

theorem Ordered.placedBut (h : t.Ordered n) (hi : i < n) : t.PlacedBut n i (t.slots i) :=
  fun j hj hne => ⟨h.places j hj, fun heq => hne (h.slots_inj hj hi heq)⟩

theorem add_spec (h : t.Ordered n) (hnew : e ∉ t.held n) :
    ((t.put n e).up n).Ordered (n + 1) ∧ ((t.put n e).up n).held (n + 1) = e ::ₘ t.held n ∧
      ((t.put n e).up n).til = t.til := by
  have hslot : (t.put n e).slots n = e := by rw [slots_put, if_pos rfl]
  obtain ⟨t', k', hm, heq⟩ :=
    siftUp_moves store (t.put n e).sooner (t.put n e) e n (Nat.lt_succ_self n)
  have hup : (t.put n e).up n = store.put t' k' e := by rw [up, hslot, heq]
  have hbut : t.PlacedBut (n + 1) n e := fun j hj hne =>
    have hj' : j < n := by omega
    ⟨h.places j hj', fun heq => hnew (heq ▸ mem_held_of_lt hj')⟩
  obtain ⟨hplaces, htil, hheld, -⟩ := hbut.put.moved (Nat.lt_succ_self n) hslot hm
  rw [← hup] at hplaces htil hheld
  refine ⟨⟨?_, hplaces⟩, ?_, htil⟩
  · rw [htil, up, hslot]
    exact h.heap.push (fun j hj => Set.mem_univ _) (agreesOn (t.put n e) _) (Set.mem_univ _)
  · rw [hheld, held, elements_succ]
    change (t.put n e).slots n ::ₘ _ = _
    rw [hslot]
    exact congrArg _ (elements_put_of_le le_rfl)

/-- A heap is one whichever entry is written where it is. -/
theorem put_self (h : t.Ordered n) (hi : i < n) : t.put i (t.slots i) = t := by
  have hslots : update t.slots i (t.slots i) = t.slots := update_eq_self ..
  have hindex : update t.index (t.slots i) i = t.index := by
    have hself := update_eq_self (t.slots i) t.index
    rwa [h.places i hi] at hself
  rw [put, hslots, hindex]

/-- Taking an entry out: the last one takes its place, and goes down or up from there. -/
theorem removeAt_spec (h : t.Ordered (n + 1)) (hi : i < n + 1) :
    (t.removeAt n i).Ordered n ∧ t.slots i ::ₘ (t.removeAt n i).held n = t.held (n + 1) ∧
      (t.removeAt n i).til = t.til := by
  have hheap : IsHeap store t.til n t := fun j hj => h.heap j (by omega)
  unfold removeAt
  by_cases hin : i < n
  · rw [if_pos hin]
    dsimp only
    set x := t.slots n
    have hslot : (t.put i x).slots i = x := by rw [slots_put, if_pos rfl]
    have hbut : t.PlacedBut n i x := fun j hj hne =>
      ⟨h.places j (by omega), fun heq => by
        have := h.slots_inj (by omega) (Nat.lt_succ_self n) heq
        omega⟩
    have hheld : t.slots i ::ₘ (t.put i x).held n = t.held (n + 1) :=
      (elements_put hin).trans elements_succ.symm
    have hholed : Holed store t.til Set.univ n (t.put i x) i :=
      (hheap.holed hin fun j hj => Set.mem_univ _).put x
    have hagree := agreesOn (t.put i x) Set.univ
    have hdown : (t.put i x).down n i = sink store (t.put i x).sooner n n (t.put i x) i x := by
      rw [down, hslot]
    by_cases habove : 0 < i → t.til ((t.put i x).slots (parent i)) ≤ t.til x
    · -- not before the one above it: it goes down, and stays there
      have hsinks : Sinks store (t.put i x).sooner n x (t.put i x) i ((t.put i x).down n i) := by
        rw [hdown]
        exact sink_sinks hin (by omega)
      obtain ⟨t', k', hm, heq⟩ := hsinks.moves
      obtain ⟨hplaces, htil, hheld', hindex, hk'⟩ := hbut.put.moved hin hslot hm
      rw [← heq] at hplaces htil hheld' hindex
      have hord : ((t.put i x).down n i).Ordered n := by
        refine ⟨?_, hplaces⟩
        rw [htil]
        exact hsinks.isHeap hholed hagree (Set.mem_univ _) habove
      have hup : ((t.put i x).down n i).up (((t.put i x).down n i).index x) = (t.put i x).down n i := by
        rw [hindex]
        exact (siftUp_eq_put (agreesOn _ Set.univ) (Set.mem_univ _) (fun _ => Set.mem_univ _)
          (hord.heap k' hk') k').trans (put_self hord hk')
      rw [hup]
      exact ⟨hord, by rw [hheld', hheld], htil⟩
    · -- before the one above it, and so before those below: it stays, and goes up
      obtain ⟨hpos, habove⟩ := Classical.not_imp.1 habove
      have hbelow : ∀ j < n, 0 < j → parent j = i → t.til x ≤ t.til ((t.put i x).slots j) :=
        fun j hj hjpos hpj => (not_le.1 habove).le.trans (hholed.across j hj hjpos hpj hpos)
      have hstay : (t.put i x).down n i = (t.put i x).put i x := by
        rw [hdown, hholed.sink_eq_put hagree (Set.mem_univ _) hbelow]
        rfl
      have hindex : ((t.put i x).put i x).index x = i := by rw [index_put, if_pos rfl]
      have hslot' : ((t.put i x).put i x).slots i = x := by rw [slots_put, if_pos rfl]
      rw [hstay, hindex]
      obtain ⟨t', k', hm, heq⟩ :=
        siftUp_moves store ((t.put i x).put i x).sooner ((t.put i x).put i x) x i hin
      have hup : ((t.put i x).put i x).up i = store.put t' k' x := by rw [up, hslot', heq]
      obtain ⟨hplaces, htil, hheld', -⟩ := hbut.put.put.moved hin hslot' hm
      rw [← hup] at hplaces htil hheld'
      refine ⟨⟨?_, hplaces⟩, ?_, htil⟩
      · rw [htil, up, hslot']
        refine (hholed.put x).isHeap_siftUp (agreesOn _ Set.univ) (Set.mem_univ _) ?_ le_rfl
        intro j hj hjpos hpj
        have hne : j ≠ i := by
          have := parent_lt hjpos
          omega
        change t.til x ≤ t.til (((t.put i x).put i x).slots j)
        rw [slots_put, if_neg hne]
        exact hbelow j hj hjpos hpj
      · rw [hheld', ← hheld]
        exact congrArg _ (elements_put_self hin hslot)
  · obtain rfl : i = n := by omega
    rw [if_neg hin]
    exact ⟨⟨hheap, fun j hj => h.places j (by omega)⟩, elements_succ.symm, rfl⟩

/-- `entry.until = until; __down(entry.index)`, for a later time. -/
def postpone (t : Table ι) (n : ℕ) (e : ι) (til : ℚ) : Table ι :=
  { t with til := Function.update t.til e til }.down n (t.index e)

theorem postpone_spec (h : t.Ordered n) (he : e ∈ t.held n) {til : ℚ} (hlater : t.til e < til) :
    (t.postpone n e til).Ordered n ∧ (t.postpone n e til).held n = t.held n ∧
      (t.postpone n e til).til = update t.til e til := by
  obtain ⟨hi, hslot⟩ := h.slots_index he
  set i := t.index e
  set u : Table ι := { t with til := update t.til e til } with hu
  have hplaced : u.PlacedBut n i e := by
    have := h.placedBut hi
    rw [hslot] at this
    exact this
  have hslot' : u.slots i = e := hslot
  have hother : ∀ j < n, j ≠ i → u.til (u.slots j) = t.til (t.slots j) := fun j hj hne =>
    update_of_ne (fun heq => hne (h.slots_inj hj hi (heq.trans hslot.symm))) ..
  have hself : u.til e = til := update_self ..
  have hholed : Holed store u.til Set.univ n u i := by
    have hold := h.heap.holed hi fun j hj => Set.mem_univ (t.slots j)
    refine ⟨hi, fun _ _ _ => Set.mem_univ _, fun j hj hpos hne hpne => ?_,
      fun j hj hpos hpj hipos => ?_⟩
    · change u.til (u.slots (parent j)) ≤ u.til (u.slots j)
      rw [hother j hj hne, hother _ ((parent_lt hpos).trans hj) hpne]
      exact hold.edge j hj hpos hne hpne
    · have := parent_lt hpos
      have := parent_lt hipos
      change u.til (u.slots (parent i)) ≤ u.til (u.slots j)
      rw [hother j hj (by omega), hother _ (by omega) (by omega)]
      exact hold.across j hj hpos hpj hipos
  have hsinks : Sinks store u.sooner n e u i (t.postpone n e til) := by
    rw [postpone, down, hslot']
    exact sink_sinks hi (by omega)
  obtain ⟨t', k', hm, heq⟩ := hsinks.moves
  obtain ⟨hplaces, htil, hheld, -⟩ := hplaced.moved hi hslot' hm
  rw [← heq] at hplaces htil hheld
  refine ⟨⟨?_, hplaces⟩, hheld, htil⟩
  rw [htil]
  refine hsinks.isHeap hholed (agreesOn u _) (Set.mem_univ _) fun hpos => ?_
  have hlt := parent_lt hpos
  change u.til (u.slots (parent i)) ≤ u.til e
  rw [hother _ (by omega) (by omega), hself]
  have := h.heap i hi hpos
  change t.til (t.slots (parent i)) ≤ t.til (t.slots i) at this
  rw [hslot] at this
  exact this.trans hlater.le

end Table

/-! ## The map and the heap -/

/-- `__entries` and `__heap`. -/
structure Listing (ι : Type*) where
  entries : Finset ι
  table : Table ι
  length : ℕ

namespace Listing

variable {ι : Type*} [DecidableEq ι]

/-- `__entries.remove(id); __removeAt(place)`. -/
def dropAt (l : Listing ι) (id : ι) (place : ℕ) : Listing ι :=
  ⟨l.entries.erase id, l.table.removeAt (l.length - 1) place, l.length - 1⟩

/-- The loop of `__sweep`. -/
def sweepLoop (now : ℚ) : ℕ → Listing ι → Listing ι
  | 0, l => l
  | fuel + 1, l =>
    if 0 < l.length ∧ l.table.til (l.table.slots 0) < now then
      sweepLoop now fuel (l.dropAt (l.table.slots 0) 0)
    else l

/-- A new entry: `__entries.set`, `__heap.push` and `__up`. -/
def push (l : Listing ι) (id : ι) (til : ℚ) : Listing ι :=
  let t := { l.table with til := Function.update l.table.til id til }
  ⟨insert id l.entries, (t.put l.length id).up l.length, l.length + 1⟩

/-- The map and the heap hold the same entries, each at its place, and the heap is ordered. -/
structure Heaped (l : Listing ι) : Prop where
  ordered : l.table.Ordered l.length
  same : ∀ id, id ∈ l.entries ↔ id ∈ l.table.held l.length

variable {l : Listing ι} {id : ι} {place : ℕ}

theorem Heaped.dropAt (h : l.Heaped) (hplace : place < l.length) (hid : l.table.slots place = id) :
    (l.dropAt id place).Heaped ∧ (l.dropAt id place).table.til = l.table.til := by
  obtain ⟨n, hn⟩ : ∃ n, l.length = n + 1 := ⟨l.length - 1, by omega⟩
  have hord := h.ordered
  rw [hn] at hord hplace
  obtain ⟨hord', hheld, htil⟩ := Table.removeAt_spec hord hplace
  have hlast : l.length - 1 = n := by omega
  refine ⟨⟨?_, fun id' => ?_⟩, ?_⟩
  · simp only [Listing.dropAt, hlast]
    exact hord'
  · simp only [Listing.dropAt, Finset.mem_erase]
    have hnodup := hord.nodup
    rw [← hheld, hid, Multiset.nodup_cons] at hnodup
    rw [h.same, hn, ← hheld, hid, Multiset.mem_cons]
    constructor
    · rintro ⟨hne, heq | hmem⟩
      · exact absurd heq hne
      · exact hmem
    · intro hmem
      exact ⟨fun heq => hnodup.1 (heq ▸ hmem), .inr hmem⟩
  · simp only [Listing.dropAt, hlast]
    exact htil

theorem Heaped.first (h : l.Heaped) (hpos : 0 < l.length) :
    l.table.slots 0 ∈ l.entries ∧
      ∀ id ∈ l.entries, l.table.til (l.table.slots 0) ≤ l.table.til id := by
  refine ⟨(h.same _).2 (Table.mem_held_of_lt hpos), fun id hid => ?_⟩
  obtain ⟨hi, hslot⟩ := h.ordered.slots_index ((h.same id).1 hid)
  have := h.ordered.heap.root_le _ hi
  change l.table.til (l.table.slots 0) ≤ l.table.til (l.table.slots (l.table.index id)) at this
  rwa [hslot] at this

theorem Heaped.eq_empty (h : l.Heaped) (hzero : l.length = 0) : ∀ id, id ∉ l.entries := by
  intro id hid
  obtain ⟨hi, -⟩ := h.ordered.slots_index ((h.same id).1 hid)
  omega

/-- **What a sweep leaves**: the entries whose time has not passed. -/
theorem Heaped.sweepLoop (h : l.Heaped) (now : ℚ) {fuel : ℕ} (hfuel : l.length ≤ fuel) :
    (Listing.sweepLoop now fuel l).Heaped ∧
      (Listing.sweepLoop now fuel l).table.til = l.table.til ∧
      (Listing.sweepLoop now fuel l).length ≤ l.length ∧
      ∀ id, id ∈ (Listing.sweepLoop now fuel l).entries ↔ id ∈ l.entries ∧ now ≤ l.table.til id := by
  induction fuel generalizing l with
  | zero =>
    exact ⟨h, rfl, le_rfl, fun id => ⟨fun hid => absurd hid (h.eq_empty (by omega) id),
      fun hid => hid.1⟩⟩
  | succ fuel ih =>
    rw [Listing.sweepLoop]
    split
    · rename_i hpast
      obtain ⟨hdrop, htil⟩ := h.dropAt hpast.1 rfl
      obtain ⟨hheaped, htil', hlen, hmem⟩ := ih hdrop (by simp only [Listing.dropAt]; omega)
      refine ⟨hheaped, htil'.trans htil, hlen.trans (Nat.sub_le _ _), fun id => ?_⟩
      rw [hmem, htil]
      simp only [Listing.dropAt, Finset.mem_erase]
      constructor
      · exact fun hid => ⟨hid.1.2, hid.2⟩
      · refine fun hid => ⟨⟨?_, hid.1⟩, hid.2⟩
        rintro rfl
        exact absurd hpast.2 (not_lt.2 hid.2)
    · rename_i hpast
      refine ⟨h, rfl, le_rfl, fun id => ⟨fun hid => ⟨hid, ?_⟩, fun hid => hid.1⟩⟩
      by_contra hlt
      have hpos : 0 < l.length := by
        by_contra hzero
        exact h.eq_empty (by omega) id hid
      exact hpast ⟨hpos, ((h.first hpos).2 id hid).trans_lt (not_le.1 hlt)⟩

theorem Heaped.push (h : l.Heaped) (hid : id ∉ l.entries) (til : ℚ) :
    (l.push id til).Heaped ∧ (l.push id til).table.til = update l.table.til id til := by
  have hnew : id ∉ l.table.held l.length := fun hmem => hid ((h.same id).2 hmem)
  set t : Table ι := { l.table with til := update l.table.til id til }
  have hord : t.Ordered l.length := by
    refine ⟨fun j hj hpos => ?_, h.ordered.places⟩
    have hne : ∀ j < l.length, t.til (t.slots j) = l.table.til (l.table.slots j) := by
      intro j hj
      refine update_of_ne (fun heq : l.table.slots j = id => hnew ?_) ..
      rw [← heq]
      exact Table.mem_held_of_lt hj
    change t.til (t.slots (parent j)) ≤ t.til (t.slots j)
    rw [hne j hj, hne _ ((parent_lt hpos).trans hj)]
    exact h.ordered.heap j hj hpos
  obtain ⟨hord', hheld, htil⟩ := Table.add_spec hord hnew
  refine ⟨⟨hord', fun id' => ?_⟩, htil⟩
  change id' ∈ insert id l.entries ↔ id' ∈ ((t.put l.length id).up l.length).held (l.length + 1)
  rw [hheld, Finset.mem_insert, Multiset.mem_cons, h.same]
  rfl

end Listing

end JWTRevocationList

open JWTRevocationList

/-- The list, with what it was given and what it dropped to make room. -/
structure JWTRevocationList (ι : Type*) where
  maxEntries : ℕ
  leeway : ℕ
  floor : WithBot ℚ
  listing : Listing ι
  /-- The ids revoked so far. -/
  given : List ι
  /-- The times of the entries dropped to make room. -/
  dropped : List ℚ
  /-- When the list was last swept. -/
  swept : Option ℚ

namespace JWTRevocationList

variable {ι : Type*} [DecidableEq ι]

def new [Inhabited ι] (maxEntries leeway : ℕ) : JWTRevocationList ι :=
  ⟨maxEntries, leeway, ⊥, ⟨∅, ⟨fun _ => default, fun _ => 0, fun _ => 0⟩, 0⟩, [], [], none⟩

/-- `isRevoked`; a token without an `exp` is past no floor. -/
def isRevoked (s : JWTRevocationList ι) (id : ι) (expiresAt : Option ℚ) : Bool :=
  decide (id ∈ s.listing.entries) ||
    match expiresAt with
    | some exp => decide (((exp + s.leeway : ℚ) : WithBot ℚ) ≤ s.floor)
    | none => false

def remove (s : JWTRevocationList ι) (id : ι) : JWTRevocationList ι :=
  if id ∈ s.listing.entries then
    { s with listing := s.listing.dropAt id (s.listing.table.index id) }
  else s

def sweep (s : JWTRevocationList ι) (now : ℚ) : JWTRevocationList ι :=
  { s with
    listing := s.listing.sweepLoop now s.listing.length
    floor := if s.floor < now then ⊥ else s.floor
    swept := some now }

def makeRoom (s : JWTRevocationList ι) : JWTRevocationList ι :=
  let first := s.listing.table.slots 0
  let til := s.listing.table.til first
  { s with
    floor := if s.floor < til then til else s.floor
    listing := s.listing.dropAt first 0
    dropped := s.dropped ++ [til] }

/-- A new entry, and room for it. -/
def insertNew (s : JWTRevocationList ι) (id : ι) (til : ℚ) : JWTRevocationList ι :=
  let s := { s with listing := s.listing.push id til }
  if 0 < s.maxEntries ∧ s.maxEntries < s.listing.length then s.makeRoom else s

def revoke (s : JWTRevocationList ι) (id : ι) (expiresAt now : ℚ) : Bool × JWTRevocationList ι :=
  let til := expiresAt + s.leeway
  let s := { s.sweep now with given := s.given ++ [id] }
  if til < now then (false, s)
  else if id ∈ s.listing.entries then
    if s.listing.table.til id < til then
      (true, { s with listing :=
        { s.listing with table := s.listing.table.postpone s.listing.length id til } })
    else (true, s)
  else (true, s.insertNew id til)

def clear (s : JWTRevocationList ι) : JWTRevocationList ι :=
  { s with listing := ⟨∅, s.listing.table, 0⟩, floor := ⊥ }

/-! ## What the operations do -/

/-- **The list is sound**: its map and its heap agree, it is within its bound, its entries were
given to it, and its floor is the time of an entry dropped to make room that no sweep has
passed. -/
structure Sound (s : JWTRevocationList ι) : Prop where
  heaped : s.listing.Heaped
  bound : 0 < s.maxEntries → s.listing.length ≤ s.maxEntries
  given : ∀ id ∈ s.listing.entries, id ∈ s.given
  floor : ∀ f : ℚ, s.floor = f → f ∈ s.dropped ∧ ∀ now, s.swept = some now → now ≤ f

/-- A token of this `jti` is refused until `til`: its entry is kept as long, or the floor is as
late. -/
def Covers (s : JWTRevocationList ι) (id : ι) (til : ℚ) : Prop :=
  id ∈ s.listing.entries ∧ til ≤ s.listing.table.til id ∨ (til : WithBot ℚ) ≤ s.floor

variable {s : JWTRevocationList ι} {id id' : ι} {til now : ℚ}

theorem sound_new [Inhabited ι] (maxEntries leeway : ℕ) :
    (new maxEntries leeway : JWTRevocationList ι).Sound where
  heaped := ⟨⟨fun j hj => absurd hj (Nat.not_lt_zero j), fun j hj => absurd hj (Nat.not_lt_zero j)⟩,
    fun id => by simp [new, Table.held, elements]⟩
  bound _ := Nat.zero_le _
  given id hid := by simp [new] at hid
  floor f hf := by simp [new] at hf

theorem Sound.sweep (h : s.Sound) (now : ℚ) : (s.sweep now).Sound := by
  obtain ⟨hheaped, -, hlen, hmem⟩ := h.heaped.sweepLoop now le_rfl
  refine ⟨hheaped, fun hpos => hlen.trans (h.bound hpos), fun id hid => h.given id ((hmem id).1 hid).1,
    fun f hf => ?_⟩
  simp only [JWTRevocationList.sweep] at hf
  split at hf
  · simp at hf
  · rename_i hnot
    refine ⟨(h.floor f hf).1, fun now' hnow => ?_⟩
    rw [← Option.some.inj hnow]
    rw [hf] at hnot
    exact WithBot.coe_le_coe.1 (not_lt.1 hnot)

theorem Sound.covers_sweep (h : s.Sound) (hc : s.Covers id til) (hnow : now ≤ til) :
    (s.sweep now).Covers id til := by
  obtain ⟨-, htil, -, hmem⟩ := h.heaped.sweepLoop now le_rfl
  rcases hc with ⟨hid, hle⟩ | hfloor
  · refine .inl ⟨(hmem id).2 ⟨hid, hnow.trans hle⟩, ?_⟩
    change til ≤ (s.listing.sweepLoop now s.listing.length).table.til id
    rwa [htil]
  · right
    change (til : WithBot ℚ) ≤ if s.floor < now then ⊥ else s.floor
    rw [if_neg]
    · exact hfloor
    · exact not_lt.2 ((WithBot.coe_le_coe.2 hnow).trans hfloor)

/-- What an entry dropped to make room was covered by, the floor covers. -/
theorem covers_makeRoom (hpos : 0 < s.listing.length) (h : s.listing.Heaped) (hc : s.Covers id til) :
    s.makeRoom.Covers id til := by
  obtain ⟨-, htil⟩ := h.dropAt hpos rfl
  have hfloor : s.floor ≤ s.makeRoom.floor ∧
      (s.listing.table.til (s.listing.table.slots 0) : WithBot ℚ) ≤ s.makeRoom.floor := by
    simp only [makeRoom]
    split
    · rename_i hlt
      exact ⟨hlt.le, le_rfl⟩
    · rename_i hge
      exact ⟨le_rfl, not_lt.1 hge⟩
  rcases hc with ⟨hid, hle⟩ | hle
  · by_cases hfirst : id = s.listing.table.slots 0
    · rw [hfirst] at hle
      exact .inr ((WithBot.coe_le_coe.2 hle).trans hfloor.2)
    · refine .inl ⟨Finset.mem_erase.2 ⟨hfirst, hid⟩, ?_⟩
      change til ≤ (s.listing.dropAt (s.listing.table.slots 0) 0).table.til id
      rwa [htil]
  · exact .inr (hle.trans hfloor.1)

/-- A new entry: the list is sound, what was covered still is, and the entry is. -/
theorem Sound.insertNew (h : s.Sound) (hid : id ∉ s.listing.entries) (hgiven : id ∈ s.given)
    (hnow : s.swept = some now) (hentries : ∀ id ∈ s.listing.entries, now ≤ s.listing.table.til id)
    (htil : now ≤ til) :
    (s.insertNew id til).Sound ∧ (s.insertNew id til).Covers id til ∧
      ∀ id' til', s.Covers id' til' → (s.insertNew id til).Covers id' til' := by
  obtain ⟨hheaped, hpush⟩ := h.heaped.push hid til
  set s₁ : JWTRevocationList ι := { s with listing := s.listing.push id til } with hs₁
  have hself : s₁.listing.table.til id = til := by
    rw [hpush]
    exact update_self ..
  have hother : ∀ id' ∈ s.listing.entries, s₁.listing.table.til id' = s.listing.table.til id' := by
    intro id' hid'
    rw [hpush]
    refine update_of_ne ?_ ..
    rintro rfl
    exact hid hid'
  have hcovers : s₁.Covers id til ∧ ∀ id' til', s.Covers id' til' → s₁.Covers id' til' := by
    refine ⟨.inl ⟨Finset.mem_insert_self _ _, hself.ge⟩, fun id' til' hc => ?_⟩
    rcases hc with ⟨hid', hle⟩ | hfloor
    · exact .inl ⟨Finset.mem_insert_of_mem hid', by rwa [hother id' hid']⟩
    · exact .inr hfloor
  have hlater : ∀ id' ∈ s₁.listing.entries, now ≤ s₁.listing.table.til id' := by
    intro id' hid'
    rcases Finset.mem_insert.1 hid' with rfl | hid'
    · rwa [hself]
    · rw [hother id' hid']
      exact hentries id' hid'
  have hlisted : ∀ id' ∈ s₁.listing.entries, id' ∈ s.given := by
    intro id' hid'
    rcases Finset.mem_insert.1 hid' with rfl | hid'
    · exact hgiven
    · exact h.given id' hid'
  have hlength : s₁.listing.length = s.listing.length + 1 := rfl
  have hpos : 0 < s₁.listing.length := by omega
  have hinsert : s.insertNew id til =
      if 0 < s₁.maxEntries ∧ s₁.maxEntries < s₁.listing.length then s₁.makeRoom else s₁ := rfl
  rw [hinsert]
  split
  · obtain ⟨hdrop, -⟩ := hheaped.dropAt hpos rfl
    have hfirst := hheaped.first hpos
    refine ⟨⟨hdrop, fun hmax => ?_, fun id' hid' => hlisted id' (Finset.mem_of_mem_erase hid'),
      fun f hf => ?_⟩, covers_makeRoom hpos hheaped hcovers.1, fun id' til' hc =>
        covers_makeRoom hpos hheaped (hcovers.2 id' til' hc)⟩
    · have := h.bound hmax
      change s₁.listing.length - 1 ≤ s.maxEntries
      omega
    · -- the floor is the later of the old one and the time of the entry dropped
      have hswept : ∀ now', s₁.makeRoom.swept = some now' → now' = now := fun now' heq =>
        Option.some.inj (heq.symm.trans hnow)
      simp only [makeRoom] at hf ⊢
      split at hf
      · obtain rfl := WithBot.coe_inj.1 hf
        refine ⟨by simp, fun now' heq => ?_⟩
        rw [hswept now' heq]
        exact hlater _ hfirst.1
      · obtain ⟨hmem, hle⟩ := h.floor f hf
        exact ⟨List.mem_append_left _ hmem, hle⟩
  · rename_i hroom
    refine ⟨⟨hheaped, fun hmax => ?_, hlisted, h.floor⟩, hcovers⟩
    by_contra hover
    exact hroom ⟨hmax, by omega⟩

theorem Sound.remove (h : s.Sound) (id : ι) : (s.remove id).Sound := by
  unfold JWTRevocationList.remove
  split
  · rename_i hid
    obtain ⟨hi, hslot⟩ := h.heaped.ordered.slots_index ((h.heaped.same id).1 hid)
    obtain ⟨hdrop, -⟩ := h.heaped.dropAt hi hslot
    exact ⟨hdrop, fun hmax => (Nat.sub_le _ _).trans (h.bound hmax),
      fun id' hid' => h.given id' (Finset.mem_of_mem_erase hid'), h.floor⟩
  · exact h

theorem Sound.covers_remove (h : s.Sound) (hc : s.Covers id til) (hne : id ≠ id') :
    (s.remove id').Covers id til := by
  unfold JWTRevocationList.remove
  split
  · rename_i hid
    obtain ⟨hi, hslot⟩ := h.heaped.ordered.slots_index ((h.heaped.same id').1 hid)
    obtain ⟨-, htil⟩ := h.heaped.dropAt hi hslot
    rcases hc with ⟨hmem, hle⟩ | hfloor
    · refine .inl ⟨Finset.mem_erase.2 ⟨hne, hmem⟩, ?_⟩
      rwa [htil]
    · exact .inr hfloor
  · exact hc

theorem sound_clear (s : JWTRevocationList ι) : s.clear.Sound where
  heaped := ⟨⟨fun j hj => absurd hj (Nat.not_lt_zero j), fun j hj => absurd hj (Nat.not_lt_zero j)⟩,
    fun id => by simp [JWTRevocationList.clear, Table.held, elements]⟩
  bound _ := Nat.zero_le _
  given id hid := by simp [JWTRevocationList.clear] at hid
  floor f hf := by simp [JWTRevocationList.clear] at hf

/-- **What `revoke` does**: the list stays sound, what no sweep has passed stays covered, and the
token is covered if it answers so. -/
theorem Sound.revoke (h : s.Sound) (id : ι) (expiresAt now : ℚ) :
    (s.revoke id expiresAt now).2.Sound ∧
      ((s.revoke id expiresAt now).1 = true →
        (s.revoke id expiresAt now).2.Covers id (expiresAt + s.leeway)) ∧
      ∀ id' til', s.Covers id' til' → now ≤ til' → (s.revoke id expiresAt now).2.Covers id' til' := by
  set s₁ : JWTRevocationList ι := { s.sweep now with given := s.given ++ [id] } with hs₁
  have hsweep := h.sweep now
  have hsound : s₁.Sound := ⟨hsweep.heaped, hsweep.bound,
    fun id' hid' => List.mem_append_left _ (hsweep.given id' hid'), hsweep.floor⟩
  have hkeep : ∀ id' til', s.Covers id' til' → now ≤ til' → s₁.Covers id' til' :=
    fun id' til' hc hle => h.covers_sweep hc hle
  obtain ⟨-, htil, -, hmem⟩ := h.heaped.sweepLoop now le_rfl
  have hentries : ∀ id' ∈ s₁.listing.entries, now ≤ s₁.listing.table.til id' := by
    intro id' hid'
    change now ≤ (s.listing.sweepLoop now s.listing.length).table.til id'
    rw [htil]
    exact ((hmem id').1 hid').2
  have hrevoke : s.revoke id expiresAt now =
      if expiresAt + s.leeway < now then (false, s₁)
      else if id ∈ s₁.listing.entries then
        if s₁.listing.table.til id < expiresAt + s.leeway then
          (true, { s₁ with listing := { s₁.listing with
            table := s₁.listing.table.postpone s₁.listing.length id (expiresAt + s.leeway) } })
        else (true, s₁)
      else (true, s₁.insertNew id (expiresAt + s.leeway)) := rfl
  rw [hrevoke]
  split
  · exact ⟨hsound, by simp, hkeep⟩
  · rename_i hlate
    split
    · rename_i hid
      split
      · -- listed for a shorter time: kept longer
        rename_i hlater
        obtain ⟨hord, hheld, hup⟩ :=
          Table.postpone_spec hsound.heaped.ordered ((hsound.heaped.same id).1 hid) hlater
        refine ⟨⟨⟨hord, fun id' => ?_⟩, hsound.bound, hsound.given, hsound.floor⟩, fun _ => ?_,
          fun id' til' hc hle => ?_⟩
        · rw [hheld, ← hsound.heaped.same]
        · refine .inl ⟨hid, ?_⟩
          rw [hup, update_self]
        · rcases hkeep id' til' hc hle with ⟨hid', hle'⟩ | hfloor
          · refine .inl ⟨hid', ?_⟩
            rw [hup]
            by_cases heq : id' = id
            · subst heq
              rw [update_self]
              exact hle'.trans hlater.le
            · rwa [update_of_ne heq]
          · exact .inr hfloor
      · rename_i hnot
        exact ⟨hsound, fun _ => .inl ⟨hid, not_lt.1 hnot⟩, hkeep⟩
    · rename_i hid
      obtain ⟨hins, hcov, hold⟩ := hsound.insertNew hid (by simp [hs₁]) rfl hentries (not_lt.1 hlate)
      exact ⟨hins, fun _ => hcov, fun id' til' hc hle => hold id' til' (hkeep id' til' hc hle)⟩

end JWTRevocationList

end CrossByte
