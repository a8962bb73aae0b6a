import CrossByte.RPC.BudgetPlan

/-!
# A budgeted diff as a whole

What `diffKeysWithin` leaves, of what the observer holds and of the view: a patch from the
one to the other without the entries left out, and a baseline that records exactly what the
observer holds once the patch has arrived (`diffChecked_spec`).

The patch is written after the diff has returned, when the commit has already written the
baseline's objects.  A base value the patch still points at may be among them: the stale
value of an update carried, in place.  `Planned.write_eq` says when the bytes are those
the diff meant.
-/

namespace CrossByte

open Bytes (Byte)
open RPCMapPatch

namespace RPCBudgetDiff

variable {V S : Type} {codec : RPCCodec V S} {s : Store V}

/-- What an observer holds: nothing, before its first patch and for a full one. -/
def recorded (base : Option (RPCMapBaseline × Frame)) : RPCMapBaseline × Frame :=
  base.getD (⟨[], [], [], some ⟨0, ∅⟩⟩, ⟨0, ∅⟩)

theorem nothing_madeOn : (recorded none).1.MadeOn (recorded none).2 where
  keys := .nil
  stale := .nil
  sub := fun _ hk => absurd hk List.not_mem_nil
  inFrame := fun _ hk => absurd hk List.not_mem_nil
  isFrame := rfl

/-- The keys of both maps whose values differ. -/
def changedKeys (codec : RPCCodec V S) (s : Store V) (base current : IntMap) : List Key :=
  (found codec s base current false (keyWalk base current)).updated.map SentUpdate.key

/-! ## The parts of a diff -/

section Parts

variable {b : RPCMapBaseline} {frame current : Frame} {currentKeys : List Key} {w : Walked}
  {full : Bool} {plan : Plan} {sent : RPCMapBaseline} {inPlace : Bool}

variable {cur : IntMap} {u : SentUpdate × Option ℕ}

theorem WalkedTo.patch_eq {base cur : IntMap}
    (h : WalkedTo codec s b frame cur (keyWalk base cur) w) (hbase : b.asMap frame = base) :
    w.patch full = found codec s base cur full (keyWalk base cur) := by
  subst hbase
  rw [Walked.patch, found, h.removed, h.added, h.updated]

/-- What the walk found is a patch from what the observer holds to the view. -/
theorem WalkedTo.from_view (full : Bool) (hc : codec.RoundTrips)
    (h : WalkedTo codec s b frame cur (keyWalk (b.asMap frame) cur) w)
    (hfull : full → b.asMap frame = ∅) :
    (w.patch full).From codec s (view s (b.asMap frame)) (view s cur) := by
  rw [h.patch_eq rfl]
  exact found_from hc hfull

/-- What a diff is of: a baseline made on its frame, keys of the current frame, and a
baseline to write whose own objects are apart from all others, but for the base's stale
values when it is the base itself. -/
structure Ground (s : Store V) (b : RPCMapBaseline) (frame current : Frame) (currentKeys : List Key)
    (inPlace : Bool) (sent : RPCMapBaseline) : Prop where
  made : b.MadeOn frame
  keys : ∀ k ∈ currentKeys, k ∈ current.values
  owns : Owns s sent
  ofView : ∀ k r, current.values.lookup k = some r → r < s.next ∧ r ∉ owned sent
  ofFrame : ∀ k r, frame.values.lookup k = some r → r < s.next ∧ r ∉ owned sent
  stale : ∀ r ∈ b.stale.map Prod.snd, r < s.next ∧ (inPlace = false → r ∉ owned sent)
  place : inPlace = true → ∀ (i : ℕ) e, b.stale[i]? = some e → sent.stale[i]? = some e

/-- An updated entry the walk found: its base value is the one the observer holds, from
where its origin says. -/
theorem WalkedTo.updated_base (hb : b.MadeOn frame)
    (h : WalkedTo codec s b frame cur (keyWalk (b.asMap frame) cur) w) (hu : u ∈ w.updated) :
    u.1.key ∈ changedKeys codec s (b.asMap frame) cur ∧
      match u.2 with
      | some i => b.stale[i]? = some (u.1.key, u.1.base)
      | none => u.1.key ∉ b.stale.map Prod.fst ∧ frame.values.lookup u.1.key = some u.1.base := by
  have hmem : u.1 ∈
      (found codec s (b.asMap frame) cur false (keyWalk (b.asMap frame) cur)).updated := by
    rw [← h.patch_eq rfl]
    exact List.mem_map_of_mem hu
  have horigin := h.origin u hu
  have hlookup := (updated_found hmem).1
  refine ⟨List.mem_map_of_mem hmem, ?_⟩
  unfold Origin at horigin
  split
  · rename_i i hi
    rw [hi] at horigin
    exact horigin
  · rename_i hi
    rw [hi] at horigin
    refine ⟨horigin, ?_⟩
    rwa [RPCMapBaseline.lookup_asMap (hb.mem_asMap.1 (mem_of_lookup hlookup)),
      RPCMapBaseline.refOf, RPCMapBaseline.staleOf_eq_none.2 horigin] at hlookup

/-- The base values of the updates are where a commit asks them to be. -/
theorem Ground.hasBase (g : Ground s b frame current currentKeys inPlace sent)
    (h : WalkedTo codec s b frame cur (keyWalk (b.asMap frame) cur) w) (hu : u ∈ w.updated) :
    HasBase s inPlace sent u := by
  obtain ⟨-, horigin⟩ := h.updated_base g.made hu
  split at horigin
  · rename_i i hi
    have hstale := g.stale u.1.base (List.mem_map.2 ⟨_, List.mem_of_getElem? horigin, rfl⟩)
    refine ⟨hstale.1, ?_⟩
    cases inPlace with
    | false => exact hstale.2 rfl
    | true =>
      rw [hi]
      exact g.place rfl i _ horigin
  · rename_i hi
    obtain ⟨hlt, hnot⟩ := g.ofFrame _ _ horigin.2
    refine ⟨hlt, ?_⟩
    rw [hi]
    cases inPlace <;> exact hnot

/-! ## The baseline written -/

/-- The keys of the walk's entries: an add left out is the view's and not the base's, an
update left out both have. -/
theorem Plan.Splits.left_keys (hc : codec.RoundTrips) (hp : plan.Splits w)
    (h : WalkedTo codec s b frame cur (keyWalk (b.asMap frame) cur) w) :
    (∀ k ∈ plan.leftAdds, k ∈ cur ∧ k ∉ b.asMap frame) ∧
      ∀ k ∈ plan.leftKeys, k ∈ cur ∧ k ∈ b.asMap frame := by
  have hfrom := h.from_view false hc nofun
  constructor
  · intro k hk
    have := (hfrom.mem_added k).1 (hp.leftAdds.subset hk)
    exact ⟨view_isSome.1 this.2, view_eq_none.1 this.1⟩
  · intro k hk
    obtain ⟨e, he, rfl⟩ := List.mem_map.1 hk
    obtain ⟨hx, hy⟩ := hfrom.updated_value e ((hp.leftUpdates.map _).subset he)
    exact ⟨view_isSome.1 (by rw [hy]; rfl), view_isSome.1 (by rw [hx]; rfl)⟩

/-- What a diff is of, with what its walk found and a plan for it. -/
structure Planned (codec : RPCCodec V S) (s : Store V) (b : RPCMapBaseline) (frame current : Frame)
    (currentKeys : List Key) (inPlace : Bool) (sent : RPCMapBaseline) (w : Walked) (plan : Plan) :
    Prop extends Ground s b frame current currentKeys inPlace sent where
  walked : WalkedTo codec s b frame (viewMap current currentKeys)
    (keyWalk (b.asMap frame) (viewMap current currentKeys)) w
  splits : plan.Splits w

variable (hc : codec.RoundTrips)
    (h : Planned codec s b frame current currentKeys inPlace sent w plan)

include hc h

theorem Planned.committed :
    Committed s sent (plan.leftUpdates.map Prod.fst)
      (commit codec s inPlace sent (RPCKeys.sortUnique currentKeys) plan current).1
      (commit codec s inPlace sent (RPCKeys.sortUnique currentKeys) plan current).2 := by
  have hfrom := h.walked.from_view false hc nofun
  refine commit_spec hc h.owns ?_
    (fun u hu => h.hasBase h.walked (h.splits.leftUpdates.subset hu)) _ _
  exact (hfrom.updated.sublist ((h.splits.leftUpdates.map _).map _)).nodup

theorem Planned.keysSent_filter : keysSent (RPCKeys.sortUnique currentKeys) plan.leftAdds =
    (RPCKeys.sortUnique currentKeys).filter (· ∉ plan.leftAdds) := by
  have hfrom := h.walked.from_view false hc nofun
  refine keysSent_eq (RPCKeys.pairwise_sortUnique _)
    (hfrom.added.sublist h.splits.leftAdds) fun k hk => RPCKeys.mem_sortUnique.2 ?_
  exact (mem_viewMap h.keys).1 ((h.splits.left_keys hc h.walked).1 k hk).1

theorem Planned.mem_keysSent {k : Key} :
    k ∈ keysSent (RPCKeys.sortUnique currentKeys) plan.leftAdds ↔
      k ∈ currentKeys ∧ k ∉ plan.leftAdds := by
  simp [h.keysSent_filter hc]

/-- The baseline a commit writes is made on the current frame. -/
theorem Planned.madeOn :
    (commit codec s inPlace sent (RPCKeys.sortUnique currentKeys) plan current).2.MadeOn
      current := by
  have hfrom := h.walked.from_view false hc nofun
  obtain ⟨hadds, hups⟩ := h.splits.left_keys hc h.walked
  have hkeys : ∀ k, k ∈ (commit codec s inPlace sent (RPCKeys.sortUnique currentKeys) plan
      current).2.keys ↔ k ∈ currentKeys ∧ k ∉ plan.leftAdds := fun k => h.mem_keysSent hc
  refine ⟨?_, ?_, fun k hk => ?_, fun k hk => h.keys k ((hkeys k).1 hk).1, rfl⟩
  · change (keysSent _ _).Pairwise _
    rw [h.keysSent_filter hc]
    exact (RPCKeys.pairwise_sortUnique _).filter _
  · rw [(h.committed hc).keys]
    exact hfrom.updated.sublist ((h.splits.leftUpdates.map _).map _)
  · rw [(h.committed hc).keys] at hk
    have hboth := hups k hk
    exact (hkeys k).2 ⟨(mem_viewMap h.keys).1 hboth.1, fun hleft => (hadds k hleft).2 hboth.2⟩

/-- **The baseline a commit writes records what the observer holds once the patch arrives.** -/
theorem Planned.records (k : Key) :
    view (commit codec s inPlace sent (RPCKeys.sortUnique currentKeys) plan current).1
      ((commit codec s inPlace sent (RPCKeys.sortUnique currentKeys) plan current).2.asMap
        current) k =
    plan.after (view s (b.asMap frame)) (view s (viewMap current currentKeys)) k := by
  have hfrom := h.walked.from_view false hc nofun
  obtain ⟨hadds, hups⟩ := h.splits.left_keys hc h.walked
  have hcom := h.committed hc
  have hmade := h.madeOn hc
  set s' := (commit codec s inPlace sent (RPCKeys.sortUnique currentKeys) plan current).1
  set b' := (commit codec s inPlace sent (RPCKeys.sortUnique currentKeys) plan current).2
  have hkeys : k ∈ b'.keys ↔ k ∈ currentKeys ∧ k ∉ plan.leftAdds := h.mem_keysSent hc
  have hin : k ∈ viewMap current currentKeys ↔ k ∈ currentKeys := mem_viewMap h.keys
  unfold Plan.after
  split_ifs with hadd hup
  · exact view_eq_none.2 fun hk => (hkeys.1 (hmade.mem_asMap.1 hk)).2 hadd
  · -- an update left out: its stale value is a copy of the base's
    obtain ⟨e, he, rfl⟩ := List.mem_map.1 hup
    have hentry : (e.key, s.content e.base) ∈ b'.stale.map fun x => (x.1, s'.content x.2) := by
      rw [hcom.entries]
      exact List.mem_map.2 ⟨e, he, rfl⟩
    obtain ⟨⟨key, r⟩, hr, heq⟩ := List.mem_map.1 hentry
    obtain ⟨rfl, hcontent⟩ := Prod.mk.inj heq
    have hlookup : (b'.asMap current).lookup e.key = some r := by
      rw [RPCMapBaseline.lookup_asMap (hkeys.2 ⟨hin.1 (hups _ hup).1, hadd⟩),
        RPCMapBaseline.refOf, hmade.staleOf_eq_some.2 hr]
    rw [view_of_lookup hlookup, hcontent]
    exact (hfrom.updated_value e ((h.splits.leftUpdates.map _).subset he)).1.symm
  · -- any other key: the frame's value
    by_cases hk : k ∈ currentKeys
    · have hfresh : k ∉ b'.stale.map Prod.fst := by
        rw [hcom.keys]
        exact hup
      obtain ⟨r, hr⟩ := exists_lookup (h.keys k hk)
      have hlookup : (b'.asMap current).lookup k = some r := by
        rw [RPCMapBaseline.lookup_asMap (hkeys.2 ⟨hk, hadd⟩), RPCMapBaseline.refOf,
          RPCMapBaseline.staleOf_eq_none.2 hfresh, hr]
      have hview : (viewMap current currentKeys).lookup k = some r := by
        rw [viewMap, lookup_listed, if_pos (RPCKeys.mem_sortUnique.2 hk), hr]
      rw [view_of_lookup hlookup, view_of_lookup hview, hcom.frame r (h.ofView k r hr).1
        (h.ofView k r hr).2]
    · rw [view_eq_none.2 fun hmem => hk (hkeys.1 (hmade.mem_asMap.1 hmem)).1,
        view_eq_none.2 fun hmem => hk (hin.1 hmem)]

end Parts

/-! ## Writing after the commit -/

/-- A codec of a class without nested structures: what it writes of a patch depends on the
base only through the masks. -/
def Flat (codec : RPCCodec V S) : Prop :=
  ∀ x x' y m h, codec.writePatch x y m h = codec.writePatch x' y m h

/-- Of the keys whose values changed, some are held stale and some are not. -/
def Mixed (codec : RPCCodec V S) (s : Store V) (b : RPCMapBaseline) (frame : Frame) (cur : IntMap) :
    Prop :=
  (∃ k ∈ changedKeys codec s (b.asMap frame) cur, k ∈ b.stale.map Prod.fst) ∧
    ∃ k ∈ changedKeys codec s (b.asMap frame) cur, k ∉ b.stale.map Prod.fst

instance {b : RPCMapBaseline} {frame : Frame} {cur : IntMap} :
    Decidable (Mixed codec s b frame cur) :=
  inferInstanceAs (Decidable (_ ∧ _))

theorem putGroup_congr {ι : Type} {key : ι → Key} {payload payload' : ι → List Byte} {es : List ι}
    (h : ∀ e ∈ es, payload e = payload' e) (first : Bool) (previous : Key) :
    RPCKeys.putGroup key payload first previous es =
      RPCKeys.putGroup key payload' first previous es := by
  induction es generalizing first previous with
  | nil => rfl
  | cons e es ih =>
    rw [RPCKeys.putGroup, RPCKeys.putGroup, h e List.mem_cons_self,
      ih fun e he => h e (List.mem_cons_of_mem _ he)]

theorem writeMapPatchArg_congr {s' : Store V} {p : Sent}
    (hadded : ∀ e ∈ p.added, s'.content e.value = s.content e.value)
    (hupdated : ∀ e ∈ p.updated, updatedPatch codec s' e = updatedPatch codec s e) :
    writeMapPatchArg codec s' p = writeMapPatchArg codec s p := by
  have ha : ∀ e ∈ p.added, addedPatch codec s' e = addedPatch codec s e := by
    intro e he
    rw [addedPatch, addedPatch, hadded e he]
  rw [writeMapPatchArg, writeMapPatchArg, putGroup_congr ha, putGroup_congr hupdated]

section Write

variable {b : RPCMapBaseline} {frame current : Frame} {currentKeys : List Key} {w : Walked}
  {plan : Plan} {sent : RPCMapBaseline} {inPlace : Bool}

/-- An update carried is held stale, and one left out is not: the commit may take the stale
value of the first for the second. -/
def Plan.Recycles (p : Plan) (b : RPCMapBaseline) : Prop :=
  (∃ u ∈ p.updated, u.1.key ∈ b.stale.map Prod.fst) ∧
    ∃ u ∈ p.leftUpdates, u.1.key ∉ b.stale.map Prod.fst

theorem Planned.not_recycles (h : Planned codec s b frame current currentKeys inPlace sent w plan)
    (hmixed : ¬ Mixed codec s b frame (viewMap current currentKeys)) : ¬ plan.Recycles b := by
  rintro ⟨⟨u, hu, hstale⟩, u', hu', hnew⟩
  refine hmixed ⟨⟨_, ?_, hstale⟩, _, ?_, hnew⟩
  · exact (h.walked.updated_base h.made (h.splits.updated.subset hu)).1
  · exact (h.walked.updated_base h.made (h.splits.leftUpdates.subset hu')).1

/-- **The bytes written after the commit are those of the diff**, unless the class has
nested structures, the baseline is written in place, and of the updates one carried is held
stale and one left out is not. -/
theorem Planned.write_eq
    (h : Planned codec s b frame current currentKeys inPlace sent w plan)
    (hsafe : Flat codec ∨ inPlace = false ∨ ¬ plan.Recycles b) (full : Bool) :
    writeMapPatchArg codec
      (commit codec s inPlace sent (RPCKeys.sortUnique currentKeys) plan current).1
      (plan.patch full w.removed) = writeMapPatchArg codec s (plan.patch full w.removed) := by
  have hframe := fun r => commit_frame (r := r) codec inPlace h.owns plan
    (RPCKeys.sortUnique currentKeys) current
  have hview : ∀ k r, (viewMap current currentKeys).lookup k = some r →
      (commit codec s inPlace sent (RPCKeys.sortUnique currentKeys) plan current).1.content r =
        s.content r := by
    intro k r hr
    rw [viewMap, lookup_listed] at hr
    split at hr
    · exact hframe r (h.ofView k r hr).1 (h.ofView k r hr).2
    · cases hr
  have hfound : w.patch full = _ := h.walked.patch_eq rfl
  have hadd : ∀ e ∈ plan.added, e ∈ (w.patch full).added := fun e he => h.splits.added.subset he
  have hup : ∀ e ∈ plan.updated.map Prod.fst, e ∈ (w.patch full).updated := fun e he =>
    (h.splits.updated.map _).subset he
  rw [hfound] at hadd hup
  by_cases hstore :
      (commit codec s inPlace sent (RPCKeys.sortUnique currentKeys) plan current).1 = s
  · rw [hstore]
  refine writeMapPatchArg_congr (fun e he => hview e.key _ (added_found (hadd e he)).1)
    fun e he => ?_
  have hcur := hview e.key _ (updated_found (hup e he)).2.1
  rw [updatedPatch, updatedPatch, hcur]
  rcases hsafe with hflat | hsafe
  · exact hflat _ _ _ _ _
  -- the base value is no object of the baseline being written
  obtain ⟨u, hcarried, rfl⟩ := List.mem_map.1 he
  have hu := h.splits.updated.subset hcarried
  have hkept : keptRef inPlace u = none := by
    rcases hsafe with rfl | hrecycles
    · rfl
    · by_contra hkept
      obtain ⟨hin, hstale⟩ : inPlace = true ∧ u.2.isSome := by
        cases inPlace <;> cases hu2 : u.2 <;> simp [keptRef, hu2] at hkept ⊢
      obtain ⟨i, hi⟩ := Option.isSome_iff_exists.1 hstale
      obtain ⟨-, horigin⟩ := h.walked.updated_base h.made hu
      rw [hi] at horigin
      refine hstore (commit_store (fun u' hu' => ?_) _ _)
      -- an update carried is held stale, so each one left out is
      obtain ⟨-, horigin'⟩ := h.walked.updated_base h.made (h.splits.leftUpdates.subset hu')
      cases hu2 : u'.2 with
      | some i' => simp [keptRef, hin, hu2]
      | none =>
        rw [hu2] at horigin'
        exact absurd ⟨⟨u, hcarried, List.mem_map.2 ⟨_, List.mem_of_getElem? horigin, rfl⟩⟩,
          u', hu', horigin'.1⟩ hrecycles
  have hbase := h.hasBase h.walked hu
  rw [hframe u.1.base hbase.1 (hbase.notMem_owned hkept)]

end Write

variable {base : Option (RPCMapBaseline × Frame)}

/-- The parts of a budgeted diff: what the walk found, and `plan` of it. -/
theorem diffChecked_plans {current : Frame} {currentKeys : List Key} {inPlace : Bool}
    {sent : RPCMapBaseline}
    (g : Ground s (recorded base).1 (recorded base).2 current currentKeys inPlace sent)
    (codec : RPCCodec V S) (maxBytes : ℤ) :
    ∃ w, Planned codec s (recorded base).1 (recorded base).2 current currentKeys inPlace sent w
        (plan codec s base.isNone w currentKeys maxBytes) ∧
      diffChecked codec s base current currentKeys maxBytes inPlace sent =
        .ok ⟨(plan codec s base.isNone w currentKeys maxBytes).patch base.isNone w.removed,
          (plan codec s base.isNone w currentKeys maxBytes).deferred,
          (commit codec s inPlace sent (RPCKeys.sortUnique currentKeys)
            (plan codec s base.isNone w currentKeys maxBytes) current).1,
          (commit codec s inPlace sent (RPCKeys.sortUnique currentKeys)
            (plan codec s base.isNone w currentKeys maxBytes) current).2⟩ := by
  obtain ⟨w, hwalk, hw⟩ := walkAll_spec codec s g.made g.keys
  refine ⟨w, ⟨g, hw, plan_splits ..⟩, ?_⟩
  cases base with
  | none =>
    have hwalk : walkAll codec s [] ∅ [] current.values currentKeys = .ok w := hwalk
    unfold diffChecked
    rw [hwalk]
    rfl
  | some p =>
    have hwalk : walkAll codec s p.1.keys p.2.values p.1.stale current.values currentKeys = .ok w :=
      hwalk
    unfold diffChecked
    dsimp only
    rw [hwalk]
    rfl

/-- **A budgeted diff**, of what the observer holds and a view of the current frame, plans
what is carried, and commits. -/
theorem diffChecked_spec {current : Frame} {currentKeys : List Key} {inPlace : Bool}
    {sent : RPCMapBaseline}
    (g : Ground s (recorded base).1 (recorded base).2 current currentKeys inPlace sent)
    (codec : RPCCodec V S) (maxBytes : ℤ) :
    ∃ w plan, Planned codec s (recorded base).1 (recorded base).2 current currentKeys inPlace sent
        w plan ∧
      diffChecked codec s base current currentKeys maxBytes inPlace sent =
        .ok ⟨plan.patch base.isNone w.removed, plan.deferred,
          (commit codec s inPlace sent (RPCKeys.sortUnique currentKeys) plan current).1,
          (commit codec s inPlace sent (RPCKeys.sortUnique currentKeys) plan current).2⟩ := by
  obtain ⟨w, hplanned, hdiff⟩ := diffChecked_plans g codec maxBytes
  exact ⟨w, _, hplanned, hdiff⟩

end RPCBudgetDiff

end CrossByte
