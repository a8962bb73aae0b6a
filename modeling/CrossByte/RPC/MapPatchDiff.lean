import CrossByte.RPC.MapPatchWire

/-!
# What a diff finds

A patch is from one map of contents to another.  `Sent.From` says so of a patch being
sent, with the values it refers to as they are in the store, and `Received.Describes` of
one that arrived; `IsSent.describes` carries the first over the wire to the second.

`diff_spec` is the diff: of any base and any current map it makes a patch from the base's
contents to the current ones.
-/

namespace CrossByte

open SortedMerge (Side walk lefts_walk rights_walk boths_walk)

namespace RPCMapPatch

variable {V S : Type} {codec : RPCCodec V S} {s : Store V} {p : Sent} {was now : Key → Option V}

/-- A patch being sent takes `was` to `now`. -/
structure Sent.From (codec : RPCCodec V S) (s : Store V) (p : Sent) (was now : Key → Option V) :
    Prop extends p.Ready codec s where
  was_none : p.isFull → ∀ k, was k = none
  mem_removed : ∀ k, k ∈ p.removed ↔ (was k).isSome ∧ now k = none
  mem_added : ∀ k, k ∈ p.added.map SentAdd.key ↔ was k = none ∧ (now k).isSome
  added_value : ∀ e ∈ p.added, now e.key = some (s.content e.value)
  updated_value : ∀ e ∈ p.updated, was e.key = some (s.content e.base) ∧
    now e.key = some (s.content e.current)
  unchanged : ∀ k x y, was k = some x → now k = some y → k ∉ p.updated.map SentUpdate.key → x = y

/-- A patch that arrived takes `was` to `now`. -/
structure Received.Describes (codec : RPCCodec V S) (r : Received V S) (was now : Key → Option V) :
    Prop where
  removed : r.removed.Pairwise (· < ·)
  added : (r.added.map Prod.fst).Pairwise (· < ·)
  updated : (r.updated.map Prod.fst).Pairwise (· < ·)
  was_none : r.isFull → ∀ k, was k = none
  mem_removed : ∀ k, k ∈ r.removed ↔ (was k).isSome ∧ now k = none
  mem_added : ∀ k, k ∈ r.added.map Prod.fst ↔ was k = none ∧ (now k).isSome
  added_value : ∀ e ∈ r.added, now e.1 = some e.2
  updated_value : ∀ e ∈ r.updated, ∃ x y, was e.1 = some x ∧ now e.1 = some y ∧
    codec.Patches e.2 (some x) y
  unchanged : ∀ k x y, was k = some x → now k = some y → k ∉ r.updated.map Prod.fst → x = y

variable {k : Key} {m : IntMap}

/-- A key a patch neither adds nor updates has what it had, or is removed. -/
theorem Received.Describes.eq_of_unlisted {r : Received V S} (h : r.Describes codec was now)
    (hadd : k ∉ r.added.map Prod.fst) (hup : k ∉ r.updated.map Prod.fst) :
    (if k ∈ r.removed then none else was k) = now k := by
  have hrem := h.mem_removed k
  rw [h.mem_added] at hadd
  cases hwas : was k with
  | none =>
    cases hnow : now k with
    | none => simp
    | some y => simp [hwas, hnow] at hadd
  | some x =>
    cases hnow : now k with
    | none => simp [hrem, hwas, hnow]
    | some y => simp [hrem, hnow, h.unchanged k x y hwas hnow hup]

/-- What arrived of a patch takes the receiver where the patch takes the sender. -/
theorem Received.IsSent.describes {r : Received V S} (h : r.IsSent codec s p)
    (hp : p.From codec s was now) : r.Describes codec was now where
  removed := h.removed ▸ hp.removed
  added := h.added.keys ▸ hp.added
  updated := h.updated.keys ▸ hp.updated
  was_none := fun hfull => hp.was_none (h.isFull ▸ hfull)
  mem_removed := fun k => h.removed ▸ hp.mem_removed k
  mem_added := fun k => h.added.keys ▸ hp.mem_added k
  added_value := by
    intro r hr
    obtain ⟨e, he, hkey, hval⟩ := h.added.exists_of_mem hr
    rw [hkey, hval]
    exact hp.added_value e he
  updated_value := by
    intro r hr
    obtain ⟨e, he, hkey, hpatch⟩ := h.updated.exists_of_mem hr
    obtain ⟨hwas, hnow⟩ := hp.updated_value e he
    rw [hkey]
    exact ⟨_, _, hwas, hnow, hpatch⟩
  unchanged := fun k x y hx hy hk => hp.unchanged k x y hx hy (h.updated.keys ▸ hk)

/-! ## The walk -/

section Diff

variable (codec s) (base current : IntMap)

/-- The added entry of a key of the current map. -/
def addOf (c : Key) : SentAdd :=
  let value := (current.lookup c).getD 0
  ⟨c, value, codec.mask codec.initial (s.content value), codec.high codec.initial (s.content value)⟩

/-- The updated entry of a key of both maps. -/
def updateOf (c : Key) : SentUpdate :=
  let was := (base.lookup c).getD 0
  let value := (current.lookup c).getD 0
  ⟨c, was, value, maskOf codec s was value, highOf codec s was value⟩

/-- Whether the values of a key of both maps differ. -/
def changed (c : Key) : Bool :=
  (updateOf codec s base current c).mask ≠ 0 ∨ (updateOf codec s base current c).high ≠ 0

/-- What a walk finds of keys the maps have. -/
def found (full : Bool) (l : List (Side Key)) : Sent where
  isFull := full
  removed := l.filterMap Side.right?
  added := (l.filterMap Side.left?).map (addOf codec s current)
  updated := ((l.filterMap Side.both?).filter (changed codec s base current)).map
    (updateOf codec s base current)

variable {codec s base current}

theorem diffStep_found {full : Bool} {l : List (Side Key)} {e : Side Key}
    (hl : ∀ c, e = .left c → c ∈ current)
    (hb : ∀ c, e = .both c → c ∈ base ∧ c ∈ current) :
    diffStep codec s base current (found codec s base current full l) e =
      .ok (found codec s base current full (l ++ [e])) := by
  cases e with
  | left c =>
    obtain ⟨value, hvalue⟩ := Option.isSome_iff_exists.1 (AList.lookup_isSome.2 (hl c rfl))
    simp [diffStep, found, hvalue, addOf, Side.left?, Side.right?, Side.both?]
  | right o => simp [diffStep, found, Side.left?, Side.right?, Side.both?]
  | both c =>
    obtain ⟨hcb, hcc⟩ := hb c rfl
    obtain ⟨was, hwas⟩ := Option.isSome_iff_exists.1 (AList.lookup_isSome.2 hcb)
    obtain ⟨value, hvalue⟩ := Option.isSome_iff_exists.1 (AList.lookup_isSome.2 hcc)
    have hup : updateOf codec s base current c =
        ⟨c, was, value, maskOf codec s was value, highOf codec s was value⟩ := by
      simp [updateOf, hwas, hvalue]
    simp only [diffStep, hwas, hvalue]
    split
    · rename_i hch
      have hchanged : changed codec s base current c = true := by
        rw [changed, hup]
        simpa using hch
      simp [found, Side.left?, Side.right?, Side.both?, hchanged, hup]
    · rename_i hch
      have hchanged : changed codec s base current c = false := by
        rw [changed, hup]
        simpa using hch
      simp [found, Side.left?, Side.right?, Side.both?, hchanged]

theorem foldlM_diffStep {full : Bool} {done l : List (Side Key)}
    (hl : ∀ c, .left c ∈ l → c ∈ current) (hb : ∀ c, .both c ∈ l → c ∈ base ∧ c ∈ current) :
    l.foldlM (diffStep codec s base current) (found codec s base current full done) =
      .ok (found codec s base current full (done ++ l)) := by
  induction l generalizing done with
  | nil =>
    rw [List.append_nil]
    rfl
  | cons e l ih =>
    rw [List.foldlM_cons, diffStep_found (fun c he => hl c (he ▸ List.mem_cons_self))
      (fun c he => hb c (he ▸ List.mem_cons_self))]
    change List.foldlM _ (found codec s base current full (done ++ [e])) l = _
    rw [ih (fun c hc => hl c (List.mem_cons_of_mem _ hc))
      (fun c hc => hb c (List.mem_cons_of_mem _ hc)), List.append_assoc]
    rfl

/-- The walk of a diff: the keys of the current map with those of the base. -/
def keyWalk (base current : IntMap) : List (Side Key) :=
  walk (RPCKeys.sortUnique current.keys) (RPCKeys.sortUnique base.keys)

theorem mem_lefts_keyWalk :
    k ∈ (keyWalk base current).filterMap Side.left? ↔ k ∈ current ∧ k ∉ base := by
  rw [keyWalk, lefts_walk (RPCKeys.pairwise_sortUnique _) (RPCKeys.pairwise_sortUnique _)]
  simp [AList.mem_keys]

theorem mem_rights_keyWalk :
    k ∈ (keyWalk base current).filterMap Side.right? ↔ k ∈ base ∧ k ∉ current := by
  rw [keyWalk, rights_walk (RPCKeys.pairwise_sortUnique _) (RPCKeys.pairwise_sortUnique _)]
  simp [AList.mem_keys]

theorem mem_boths_keyWalk :
    k ∈ (keyWalk base current).filterMap Side.both? ↔ k ∈ base ∧ k ∈ current := by
  rw [keyWalk, boths_walk (RPCKeys.pairwise_sortUnique _) (RPCKeys.pairwise_sortUnique _)]
  simp [AList.mem_keys, and_comm]

theorem pairwise_keyWalk (base current : IntMap) :
    ((keyWalk base current).filterMap Side.left?).Pairwise (· < ·) ∧
      ((keyWalk base current).filterMap Side.right?).Pairwise (· < ·) ∧
      ((keyWalk base current).filterMap Side.both?).Pairwise (· < ·) := by
  have hc := RPCKeys.pairwise_sortUnique current.keys
  have hb := RPCKeys.pairwise_sortUnique base.keys
  rw [keyWalk, lefts_walk hc hb, rights_walk hc hb, boths_walk hc hb]
  exact ⟨hc.filter _, hb.filter _, hc.filter _⟩

theorem diff_eq (base : Option IntMap) (current : IntMap) :
    diff codec s base current =
      .ok (found codec s (base.getD ∅) current base.isNone (keyWalk (base.getD ∅) current)) := by
  have hdiff : diff codec s base current =
      (keyWalk (base.getD ∅) current).foldlM (diffStep codec s (base.getD ∅) current)
        (found codec s (base.getD ∅) current base.isNone []) := by
    cases base <;> rfl
  rw [hdiff, foldlM_diffStep, List.nil_append]
  · intro c hc
    exact (mem_lefts_keyWalk.1 (List.mem_filterMap.2 ⟨_, hc, rfl⟩)).1
  · intro c hc
    exact mem_boths_keyWalk.1 (List.mem_filterMap.2 ⟨_, hc, rfl⟩)

end Diff

/-- The keys whose values differ between two maps. -/
def Changed (codec : RPCCodec V S) (s : Store V) (base current : IntMap) (k : Key) : Prop :=
  ∃ was value, base.lookup k = some was ∧ current.lookup k = some value ∧
    (maskOf codec s was value ≠ 0 ∨ highOf codec s was value ≠ 0)

theorem maskOf_ne {was value : Ref} (h : maskOf codec s was value ≠ 0 ∨ highOf codec s was value ≠ 0) :
    maskOf codec s was value = codec.mask (s.content was) (s.content value) ∧
      highOf codec s was value = codec.high (s.content was) (s.content value) := by
  unfold maskOf highOf at h ⊢
  split at h
  · simp at h
  · simp_all

theorem content_eq_of_maskOf (hc : codec.RoundTrips) {was value : Ref}
    (h : ¬ (maskOf codec s was value ≠ 0 ∨ highOf codec s was value ≠ 0)) :
    s.content was = s.content value := by
  unfold maskOf highOf at h
  split at h
  · rename_i heq
    rw [heq]
  · refine hc.eq_of_same _ _ ?_
    simpa [RPCCodec.same, not_or] using h

theorem view_eq_none : view s m k = none ↔ k ∉ m := by
  rw [view, Option.map_eq_none_iff, AList.lookup_eq_none]

theorem view_of_lookup {r : Ref} (h : m.lookup k = some r) :
    view s m k = some (s.content r) := by rw [view, h]; rfl

theorem exists_lookup (h : k ∈ m) : ∃ r, m.lookup k = some r :=
  Option.isSome_iff_exists.1 (AList.lookup_isSome.2 h)

theorem mem_of_lookup {r : Ref} (h : m.lookup k = some r) : k ∈ m :=
  AList.lookup_isSome.1 (by rw [h]; rfl)

section Found

variable {b current : IntMap} {full : Bool}

/-- The updated keys of a diff are those whose values differ. -/
theorem mem_updated_found :
    k ∈ (found codec s b current full (keyWalk b current)).updated.map SentUpdate.key ↔
      Changed codec s b current k := by
  rw [found, List.map_map, show SentUpdate.key ∘ updateOf codec s b current = id from rfl,
    List.map_id, List.mem_filter, mem_boths_keyWalk]
  constructor
  · rintro ⟨⟨hb, hcur⟩, hch⟩
    obtain ⟨was, hwas⟩ := exists_lookup hb
    obtain ⟨value, hvalue⟩ := exists_lookup hcur
    refine ⟨was, value, hwas, hvalue, ?_⟩
    simpa [changed, updateOf, hwas, hvalue] using hch
  · rintro ⟨was, value, hwas, hvalue, hch⟩
    refine ⟨⟨mem_of_lookup hwas, mem_of_lookup hvalue⟩, ?_⟩
    simpa [changed, updateOf, hwas, hvalue] using hch

theorem added_found {e : SentAdd}
    (he : e ∈ (found codec s b current full (keyWalk b current)).added) :
    current.lookup e.key = some e.value ∧
      e.mask = codec.mask codec.initial (s.content e.value) ∧
      e.high = codec.high codec.initial (s.content e.value) := by
  obtain ⟨c, hc, rfl⟩ := List.mem_map.1 he
  obtain ⟨value, hvalue⟩ := exists_lookup (mem_lefts_keyWalk.1 hc).1
  simp [addOf, hvalue]

theorem updated_found {e : SentUpdate}
    (he : e ∈ (found codec s b current full (keyWalk b current)).updated) :
    b.lookup e.key = some e.base ∧ current.lookup e.key = some e.current ∧
      e.mask = codec.mask (s.content e.base) (s.content e.current) ∧
      e.high = codec.high (s.content e.base) (s.content e.current) := by
  obtain ⟨was, value, hwas, hvalue, hch⟩ := mem_updated_found.1 (List.mem_map_of_mem he)
  obtain ⟨c, hc, rfl⟩ := List.mem_map.1 he
  obtain ⟨hmask, hhigh⟩ := maskOf_ne hch
  simp_all [updateOf]

/-- What a diff finds is a patch from the base to the current map. -/
theorem found_from (hc : codec.RoundTrips) (hfull : full → b = ∅) :
    (found codec s b current full (keyWalk b current)).From codec s (view s b) (view s current) := by
  obtain ⟨hpl, hpr, hpb⟩ := pairwise_keyWalk b current
  refine ⟨⟨hpr, ?_, ?_, fun e he => (added_found he).2, fun e he => (updated_found he).2.2, ?_⟩,
    ?_, fun k => ?_, fun k => ?_, fun e he => view_of_lookup (added_found he).1,
    fun e he => ⟨view_of_lookup (updated_found he).1, view_of_lookup (updated_found he).2.1⟩, ?_⟩
  · rw [found, List.map_map, show SentAdd.key ∘ addOf codec s current = id from rfl, List.map_id]
    exact hpl
  · rw [found, List.map_map, show SentUpdate.key ∘ updateOf codec s b current = id from rfl,
      List.map_id]
    exact hpb.filter _
  · intro hf
    have hnone : ∀ k, k ∉ b := fun k => by simp [hfull hf]
    refine ⟨List.eq_nil_iff_forall_not_mem.2 fun k hk => hnone k (mem_rights_keyWalk.1 hk).1,
      List.eq_nil_iff_forall_not_mem.2 fun e he => ?_⟩
    exact hnone e.key (mem_of_lookup (updated_found he).1)
  · intro hf k
    rw [hfull hf]
    rfl
  · rw [found, mem_rights_keyWalk, view_isSome, view_eq_none]
  · rw [found, List.map_map, show SentAdd.key ∘ addOf codec s current = id from rfl, List.map_id,
      mem_lefts_keyWalk, view_isSome, view_eq_none, and_comm]
  · intro k x y hx hy hk
    obtain ⟨was, hwas, rfl⟩ := Option.map_eq_some_iff.1 hx
    obtain ⟨value, hvalue, rfl⟩ := Option.map_eq_some_iff.1 hy
    refine content_eq_of_maskOf hc fun hch => hk (mem_updated_found.2 ⟨was, value, hwas, hvalue, hch⟩)

end Found

/-- **A diff makes a patch from the base to the current map.** -/
theorem diff_spec (hc : codec.RoundTrips) (base : Option IntMap) (current : IntMap) :
    ∃ p, diff codec s base current = .ok p ∧
      p.From codec s (view s (base.getD ∅)) (view s current) ∧ p.isFull = base.isNone ∧
      ∀ k, k ∈ p.updated.map SentUpdate.key ↔ Changed codec s (base.getD ∅) current k := by
  refine ⟨_, diff_eq base current, found_from hc fun h => ?_, rfl, fun k => mem_updated_found⟩
  cases base with
  | none => rfl
  | some m => simp at h

end RPCMapPatch

end CrossByte
