import CrossByte.RPC.MapPatchDiff

/-!
# Applying a map patch

Applying a patch patches value objects where they are, takes others from the spare ones
or makes them, and may hand dropped ones to the spare list, so what it does to one key's
value must not show under another.  `Apart` is what keeps them apart: no object is held
under two keys, and none that is held is spare.  Beside the map being set, `held` is what
else the apply reads: the base, when it is another map.

Every step sets one key and leaves the others alone (`Sets`), and `foldlM_sets` carries
that through the loops.  `apply_spec` is the whole: a patch from one map of contents to
another, applied to the first, onto itself or onto any other map, with or without
recycling, makes the second.
-/

namespace CrossByte

namespace RPCMapPatch

variable {V S : Type} {codec : RPCCodec V S}

namespace Applying

variable {held held' : Key → Option Ref} {st st' : Applying V} {k : Key} {r : Ref} {v : V}

/-- The object is under the key, in the map being set or in what else is read. -/
def Holds (held : Key → Option Ref) (st : Applying V) (k : Key) (r : Ref) : Prop :=
  held k = some r ∨ st.into.lookup k = some r

/-- No object is held under two keys, and none held is spare. -/
structure Apart (held : Key → Option Ref) (st : Applying V) : Prop where
  keys : ∀ k k' r, Holds held st k r → Holds held st k' r → k = k'
  nodup : st.spare.Nodup
  spare : ∀ r ∈ st.spare, ∀ k, ¬ Holds held st k r
  made : ∀ k r, Holds held st k r → r < st.store.next
  spareMade : ∀ r ∈ st.spare, r < st.store.next

/-- An object no one holds. -/
structure Free (held : Key → Option Ref) (st : Applying V) (r : Ref) : Prop where
  notHeld : ∀ k, ¬ Holds held st k r
  notSpare : r ∉ st.spare
  made : r < st.store.next

/-- The contents of the map being set. -/
def views (st : Applying V) (k : Key) : Option V := view st.store st.into k

/-- The contents of what else is read. -/
def reads (held : Key → Option Ref) (st : Applying V) (k : Key) : Option V :=
  (held k).map st.store.content

/-- The step set `k`, to what `now` has there, and left every other key alone. -/
structure Sets (held : Key → Option Ref) (now : Key → Option V) (st : Applying V) (k : Key)
    (st' : Applying V) : Prop where
  apart : Apart held st'
  here : st'.views k = now k
  views : ∀ k' ≠ k, st'.views k' = st.views k'
  reads : ∀ k' ≠ k, st'.reads held k' = st.reads held k'

/-! ## Objects -/

theorem Apart.mono (h : Apart held st) (hle : ∀ k r, held' k = some r → held k = some r) :
    Apart held' st := by
  have hholds : ∀ k r, Holds held' st k r → Holds held st k r := fun k r hr =>
    hr.imp_left (hle k r)
  exact ⟨fun k k' r hr hr' => h.keys k k' r (hholds k r hr) (hholds k' r hr'), h.nodup,
    fun r hr k hk => h.spare r hr k (hholds k r hk), fun k r hr => h.made k r (hholds k r hr),
    h.spareMade⟩

theorem Apart.write (h : Apart held st) (r : Ref) (v : V) :
    Apart held { st with store := st.store.set r v } :=
  ⟨h.keys, h.nodup, h.spare, h.made, h.spareMade⟩

variable {now : Key → Option V}

theorem Apart.sets_write (h : Apart held st)
    (hr : st.into.lookup k = some r) (hv : now k = some v) :
    Sets held now st k { st with store := st.store.set r v } := by
  have hother : ∀ k' ≠ k, ∀ r', Holds held st k' r' →
      (st.store.set r v).content r' = st.store.content r' := by
    intro k' hne r' hr'
    refine st.store.set_content_ne (fun heq => hne ?_) v
    exact h.keys k' k r (heq ▸ hr') (.inr hr)
  refine ⟨h.write r v, ?_, fun k' hne => ?_, fun k' hne => ?_⟩
  · change (st.into.lookup k).map _ = _
    rw [hr, hv]
    exact congrArg some (st.store.set_content_self r v)
  · exact Option.map_congr fun r' hr' => hother k' hne r' (.inr hr')
  · exact Option.map_congr fun r' hr' => hother k' hne r' (.inl hr')

/-- What `__take` takes, no one holds. -/
theorem Apart.take (codec : RPCCodec V S) (h : Apart held st) :
    Apart held (st.take codec).2 ∧ Free held (st.take codec).2 (st.take codec).1 ∧
      (st.take codec).2.into = st.into ∧
      ∀ r < st.store.next, (st.take codec).2.store.content r = st.store.content r := by
  unfold Applying.take
  split
  · rename_i r spare hspare
    have hnodup := h.nodup
    have hfree := h.spare
    have hmade := h.spareMade
    rw [hspare] at hnodup hfree hmade
    obtain ⟨hnot, hnodup⟩ := List.nodup_cons.1 hnodup
    exact ⟨⟨h.keys, hnodup, fun r' hr' => hfree r' (List.mem_cons_of_mem _ hr'), h.made,
      fun r' hr' => hmade r' (List.mem_cons_of_mem _ hr')⟩,
      ⟨hfree r List.mem_cons_self, hnot, hmade r List.mem_cons_self⟩, rfl, fun _ _ => rfl⟩
  · rename_i hspare
    have hnew : ∀ k, ¬ Holds held st k st.store.next := fun k hk => lt_irrefl _ (h.made k _ hk)
    refine ⟨⟨h.keys, h.nodup, h.spare, fun k r hr => ?_, fun r hr => ?_⟩,
      ⟨hnew, ?_, Nat.lt_succ_self _⟩, rfl, fun r hr => st.store.make_content_lt hr _⟩
    · exact (h.made k r hr).trans (Nat.lt_succ_self _)
    · exact (h.spareMade r hr).trans (Nat.lt_succ_self _)
    · rw [hspare]
      exact List.not_mem_nil

/-- Writing a free object and putting it under a key sets that key. -/
theorem Apart.sets_insert (h : Apart held st) (hfree : Free held st r)
    (hv : now k = some v) : Sets held now st k (st.put k r v) := by
  have hlookup : ∀ k' r', (st.into.insert k r).lookup k' = some r' →
      (k' = k ∧ r' = r) ∨ st.into.lookup k' = some r' := by
    intro k' r' hr'
    by_cases hk : k' = k
    · subst hk
      rw [AList.lookup_insert] at hr'
      exact .inl ⟨rfl, (Option.some.inj hr').symm⟩
    · rw [AList.lookup_insert_ne hk] at hr'
      exact .inr hr'
  have hother : ∀ k' r', Holds held st k' r' →
      (st.store.set r v).content r' = st.store.content r' := fun k' r' hr' =>
    st.store.set_content_ne (fun heq : r' = r => hfree.notHeld k' (heq ▸ hr')) v
  refine ⟨⟨?_, h.nodup, ?_, ?_, h.spareMade⟩, ?_, fun k' hne => ?_, fun k' hne => ?_⟩
  · rintro k₁ k₂ r' h₁ h₂
    have hcase : ∀ k', Holds held (st.put k r v) k' r' →
        (k' = k ∧ r' = r) ∨ Holds held st k' r' := by
      rintro k' (hheld | hin)
      · exact .inr (.inl hheld)
      · exact (hlookup k' r' hin).imp_right .inr
    rcases hcase k₁ h₁ with ⟨rfl, rfl⟩ | old₁
    · rcases hcase k₂ h₂ with ⟨rfl, -⟩ | old₂
      · rfl
      · exact absurd old₂ (hfree.notHeld k₂)
    · rcases hcase k₂ h₂ with ⟨rfl, rfl⟩ | old₂
      · exact absurd old₁ (hfree.notHeld k₁)
      · exact h.keys k₁ k₂ r' old₁ old₂
  · rintro r' hr' k' (hheld | hin)
    · exact h.spare r' hr' k' (.inl hheld)
    · rcases hlookup k' r' hin with ⟨rfl, rfl⟩ | hin
      · exact hfree.notSpare hr'
      · exact h.spare r' hr' k' (.inr hin)
  · rintro k' r' (hheld | hin)
    · exact h.made k' r' (.inl hheld)
    · rcases hlookup k' r' hin with ⟨rfl, rfl⟩ | hin
      · exact hfree.made
      · exact h.made k' r' (.inr hin)
  · change ((st.into.insert k r).lookup k).map _ = _
    rw [AList.lookup_insert, hv]
    exact congrArg some (st.store.set_content_self r v)
  · change ((st.into.insert k r).lookup k').map _ = _
    rw [AList.lookup_insert_ne hne]
    exact Option.map_congr fun r' hr' => hother k' r' (.inr hr')
  · exact Option.map_congr fun r' hr' => hother k' r' (.inl hr')

theorem Apart.sets_drop (now : Key → Option V) (h : Apart held st)
    (hr : st.into.lookup k = some r) (hheld : ∀ k', held k' ≠ some r) (hv : now k = none)
    (recycle : Bool) : Sets held now st k (st.drop k r recycle) := by
  have hinto : (st.drop k r recycle).into = st.into.erase k := by
    unfold drop keep
    split <;> rfl
  have hstore : (st.drop k r recycle).store = st.store := by
    unfold drop keep
    split <;> rfl
  have hspare : ∀ r' ∈ (st.drop k r recycle).spare, r' = r ∨ r' ∈ st.spare := by
    unfold drop keep
    split
    · exact fun r' hr' => List.mem_cons.1 hr'
    · exact fun r' hr' => .inr hr'
  have hne : ∀ k' r', (st.drop k r recycle).into.lookup k' = some r' →
      k' ≠ k ∧ st.into.lookup k' = some r' := by
    intro k' r' hr'
    rw [hinto] at hr'
    have hk : k' ≠ k := by
      rintro rfl
      exact absurd hr' (by simp)
    exact ⟨hk, by rwa [AList.lookup_erase_ne hk] at hr'⟩
  have hold : ∀ k' r', Holds held (st.drop k r recycle) k' r' → Holds held st k' r' := fun k' r' =>
    Or.imp_right fun hin => (hne k' r' hin).2
  have hfree : ∀ k', ¬ Holds held (st.drop k r recycle) k' r := by
    rintro k' (hin | hin)
    · exact hheld k' hin
    · obtain ⟨hk, hin⟩ := hne k' r hin
      exact hk (h.keys k' k r (.inr hin) (.inr hr))
  refine ⟨⟨fun k₁ k₂ r' h₁ h₂ => h.keys k₁ k₂ r' (hold k₁ r' h₁) (hold k₂ r' h₂), ?_, ?_, ?_, ?_⟩,
    ?_, fun k' hk => ?_, fun k' _ => ?_⟩
  · unfold drop keep
    split
    · exact List.nodup_cons.2 ⟨fun hin => h.spare r hin k (.inr hr), h.nodup⟩
    · exact h.nodup
  · intro r' hr' k' hk'
    rcases hspare r' hr' with rfl | hin
    · exact hfree k' hk'
    · exact h.spare r' hin k' (hold k' r' hk')
  · intro k' r' hk'
    rw [hstore]
    exact h.made k' r' (hold k' r' hk')
  · intro r' hr'
    rw [hstore]
    rcases hspare r' hr' with rfl | hin
    · exact h.made k r' (.inr hr)
    · exact h.spareMade r' hin
  · rw [Applying.views, view, hinto, AList.lookup_erase, hv]
    rfl
  · rw [Applying.views, view, hinto, AList.lookup_erase_ne hk, hstore]
    rfl
  · rw [Applying.reads, hstore]
    rfl

/-- Setting a key whose value comes out the same whatever object it is set in. -/
theorem Apart.sets_setAt (h : Apart held st)
    {value : Store V → Ref → Except Thrown V} (hv : now k = some v)
    (hvalue : ∀ (s : Store V) target, (held k).map s.content = st.reads held k →
      value s target = .ok v) :
    ∃ st', st.setAt codec k value = .ok st' ∧ Sets held now st k st' := by
  unfold setAt
  split
  · rename_i target hlookup
    rw [hvalue st.store target rfl]
    exact ⟨_, rfl, h.sets_write hlookup hv⟩
  · obtain ⟨hapart, hfree, hinto, hsame⟩ := h.take codec
    have hkept : ∀ k' r', Holds held st k' r' →
        (st.take codec).2.store.content r' = st.store.content r' := fun k' r' hr' =>
      hsame r' (h.made k' r' hr')
    have hreads : ∀ k', (st.take codec).2.reads held k' = st.reads held k' := fun k' =>
      Option.map_congr fun r' hr' => hkept k' r' (.inl hr')
    have hviews : ∀ k', (st.take codec).2.views k' = st.views k' := by
      intro k'
      rw [Applying.views, hinto]
      exact Option.map_congr fun r' hr' => hkept k' r' (.inr hr')
    have hsets := hapart.sets_insert hfree hv
    refine ⟨_, ?_, hsets.apart, hsets.here, fun k' hne => (hsets.views k' hne).trans (hviews k'),
      fun k' hne => (hsets.reads k' hne).trans (hreads k')⟩
    dsimp only
    rw [hvalue _ _ (hreads k)]
    rfl

/-! ## Loops -/

/-- A loop over entries of different keys, each of which sets its key, given what is under
it, sets all of them. -/
theorem foldlM_sets {ι : Type} (key : ι → Key) (step : Applying V → ι → Except Thrown (Applying V))
    (now : Key → Option V) {es : List ι} (hnodup : (es.map key).Nodup) (h : Apart held st)
    (hstep : ∀ e ∈ es, ∀ st₁, Apart held st₁ → st₁.views (key e) = st.views (key e) →
      st₁.reads held (key e) = st.reads held (key e) →
        ∃ st₂, step st₁ e = .ok st₂ ∧ Sets held now st₁ (key e) st₂) :
    ∃ st', es.foldlM step st = .ok st' ∧ Apart held st' ∧
      (∀ k, st'.views k = if k ∈ es.map key then now k else st.views k) ∧
      ∀ k ∉ es.map key, st'.reads held k = st.reads held k := by
  induction es generalizing st with
  | nil => exact ⟨st, rfl, h, fun k => by simp, fun k _ => rfl⟩
  | cons e es ih =>
    rw [List.map_cons, List.nodup_cons] at hnodup
    obtain ⟨st₁, hrun, hsets⟩ := hstep e List.mem_cons_self st h rfl rfl
    have hne : ∀ e' ∈ es, key e' ≠ key e := fun e' he' heq =>
      hnodup.1 (heq ▸ List.mem_map_of_mem he')
    obtain ⟨st', hfold, hapart, hviews, hreads⟩ := ih hnodup.2 hsets.apart
      fun e' he' st₂ h₂ hv₂ hr₂ => hstep e' (List.mem_cons_of_mem _ he') st₂ h₂
        (hv₂.trans (hsets.views _ (hne e' he'))) (hr₂.trans (hsets.reads _ (hne e' he')))
    refine ⟨st', ?_, hapart, fun k => ?_, fun k hk => ?_⟩
    · rw [List.foldlM_cons, hrun]
      exact hfold
    · rw [hviews k, List.map_cons]
      by_cases hk : k = key e
      · subst hk
        rw [if_neg hnodup.1, if_pos List.mem_cons_self, hsets.here]
      · rw [hsets.views k hk]
        simp [hk]
    · rw [List.map_cons, List.mem_cons, not_or] at hk
      rw [hreads k hk.2, hsets.reads k hk.1]

variable {patch : Received V S} {was now : Key → Option V}

theorem removeKeys_spec {keys : List Key} (hnodup : keys.Nodup) (h : Apart (fun _ => none) st)
    (hin : ∀ k ∈ keys, (st.views k).isSome) (recycle : Bool) :
    ∃ st', keys.foldlM (removeKey recycle) st = .ok st' ∧ Apart (fun _ => none) st' ∧
      ∀ k, st'.views k = if k ∈ keys then none else st.views k := by
  obtain ⟨st', hrun, h', hviews, -⟩ := foldlM_sets (fun k => k) (removeKey recycle) (fun _ => none)
    (by simpa using hnodup) h (by
      intro k hk st₁ h₁ hview _
      obtain ⟨r, hr, -⟩ := Option.map_eq_some_iff.1
        (hview.trans (Option.eq_some_of_isSome (hin k hk)))
      refine ⟨_, ?_, h₁.sets_drop _ hr (fun k' => by simp) rfl recycle⟩
      rw [removeKey, hr])
  exact ⟨st', hrun, h', by simpa using hviews⟩

theorem updateKeys_spec {entries : List (Key × S)} (hnodup : (entries.map Prod.fst).Nodup)
    (h : Apart (fun _ => none) st)
    (hin : ∀ e ∈ entries, ∃ x y, st.views e.1 = some x ∧ now e.1 = some y ∧
      codec.Patches e.2 (some x) y) :
    ∃ st', entries.foldlM (updateKey codec) st = .ok st' ∧ Apart (fun _ => none) st' ∧
      ∀ k, st'.views k = if k ∈ entries.map Prod.fst then now k else st.views k := by
  obtain ⟨st', hrun, h', hviews, -⟩ := foldlM_sets Prod.fst (updateKey codec) now hnodup h (by
    intro e he st₁ h₁ hview _
    obtain ⟨x, y, hx, hy, hpatch⟩ := hin e he
    obtain ⟨r, hr, hcontent⟩ := Option.map_eq_some_iff.1 (hview.trans hx)
    refine ⟨_, ?_, h₁.sets_write hr hy⟩
    rw [updateKey, hr]
    dsimp only
    rw [hcontent, hpatch])
  exact ⟨st', hrun, h', hviews⟩

theorem addKeys_spec (hc : codec.RoundTrips) {entries : List (Key × V)}
    (hnodup : (entries.map Prod.fst).Nodup) (h : Apart (fun _ => none) st)
    (hin : ∀ e ∈ entries, now e.1 = some e.2) :
    ∃ st', entries.foldlM (addKey codec) st = .ok st' ∧ Apart (fun _ => none) st' ∧
      ∀ k, st'.views k = if k ∈ entries.map Prod.fst then now k else st.views k := by
  obtain ⟨st', hrun, h', hviews, -⟩ := foldlM_sets Prod.fst (addKey codec) now hnodup h (by
    intro e he st₁ h₁ _ _
    refine h₁.sets_setAt (hin e he) fun s target _ => ?_
    rw [hc.copy])
  exact ⟨st', hrun, h', hviews⟩

/-- **Onto the base itself.**  The map becomes what the patch takes it to, its values
still apart. -/
theorem applyInPlace_spec (hc : codec.RoundTrips) (hd : patch.Describes codec was now)
    (h : Apart (fun _ => none) st) (hwas : ∀ k, st.views k = was k) (recycle : Bool) :
    ∃ st', st.applyInPlace codec patch recycle = .ok st' ∧ Apart (fun _ => none) st' ∧
      ∀ k, st'.views k = now k := by
  obtain ⟨st₁, hrun₁, h₁, hviews₁⟩ := removeKeys_spec hd.removed.nodup h
    (fun k hk => (hwas k).symm ▸ ((hd.mem_removed k).1 hk).1) recycle
  have hupdated : ∀ e ∈ patch.updated, ∃ x y, st₁.views e.1 = some x ∧ now e.1 = some y ∧
      codec.Patches e.2 (some x) y := by
    intro e he
    obtain ⟨x, y, hx, hy, hpatch⟩ := hd.updated_value e he
    refine ⟨x, y, ?_, hy, hpatch⟩
    rw [hviews₁, if_neg, hwas, hx]
    intro hin
    rw [((hd.mem_removed e.1).1 hin).2] at hy
    exact absurd hy (by simp)
  obtain ⟨st₂, hrun₂, h₂, hviews₂⟩ := updateKeys_spec hd.updated.nodup h₁ hupdated
  obtain ⟨st₃, hrun₃, h₃, hviews₃⟩ := addKeys_spec hc hd.added.nodup h₂ hd.added_value
  refine ⟨st₃, ?_, h₃, fun k => ?_⟩
  · rw [applyInPlace, hrun₁]
    change (List.foldlM (updateKey codec) st₁ patch.updated >>= _) = _
    rw [hrun₂]
    exact hrun₃
  · rw [hviews₃, hviews₂, hviews₁, hwas]
    split
    · rfl
    · rename_i hadd
      split
      · rfl
      · rename_i hup
        exact hd.eq_of_unlisted hadd hup

end Applying

/-! ## Onto another map -/

/-- Of ascending keys that include the removed ones, the others are kept. -/
theorem keptKeys_spec {keys removed : List Key} (hk : keys.Pairwise (· < ·))
    (hr : removed.Pairwise (· < ·)) (hin : ∀ k ∈ removed, k ∈ keys) :
    keptKeys keys removed = .ok (keys.filter (· ∉ removed)) := by
  induction keys generalizing removed with
  | nil =>
    cases removed with
    | nil => rfl
    | cons r removed => exact absurd (hin r List.mem_cons_self) List.not_mem_nil
  | cons key keys ih =>
    obtain ⟨hkey, htail⟩ := List.pairwise_cons.1 hk
    cases removed with
    | nil =>
      rw [keptKeys, ih htail .nil (fun k hk => absurd hk List.not_mem_nil)]
      rfl
    | cons r removed =>
      obtain ⟨hrem, hr'⟩ := List.pairwise_cons.1 hr
      have hge : key ≤ r := by
        rcases List.mem_cons.1 (hin r List.mem_cons_self) with rfl | hmem
        · exact le_rfl
        · exact (hkey r hmem).le
      rw [keptKeys, if_neg (not_lt.2 hge)]
      split
      · rename_i heq
        subst heq
        have hin' : ∀ k ∈ removed, k ∈ keys := by
          intro k hmem
          rcases List.mem_cons.1 (hin k (List.mem_cons_of_mem _ hmem)) with rfl | hmem'
          · exact absurd (hrem _ hmem) (lt_irrefl _)
          · exact hmem'
        rw [ih htail hr' hin', List.filter_cons_of_neg (by simp),
          SortedMerge.filter_notMem_cons (SortedMerge.notMem_of_forall_lt hkey)]
      · rename_i hne
        have hlt : key < r := lt_of_le_of_ne hge (Ne.symm hne)
        have hnot := SortedMerge.notMem_of_forall_lt (SortedMerge.forall_lt hr hlt)
        have hin' : ∀ k ∈ r :: removed, k ∈ keys := by
          intro k hmem
          rcases List.mem_cons.1 (hin k hmem) with rfl | hmem'
          · exact absurd hmem hnot
          · exact hmem'
        rw [ih htail hr hin', List.filter_cons_of_pos (by simpa using hnot)]
        rfl

theorem requireUpdated_spec {kept : List Key} {updated : List (Key × S)}
    (hk : kept.Pairwise (· < ·)) (hin : ∀ e ∈ updated, e.1 ∈ kept) :
    requireUpdated kept updated = .ok () := by
  induction updated with
  | nil => rfl
  | cons e updated ih =>
    have hfound : RPCKeys.indexOf kept e.1 ≠ none := fun h =>
      (RPCKeys.indexOf_eq_none_iff hk).1 h (hin e List.mem_cons_self)
    rw [requireUpdated, if_neg hfound]
    exact ih fun e' he' => hin e' (List.mem_cons_of_mem _ he')

section Onto

variable {patch : Received V S} {was now : Key → Option V} {base : Option IntMap}
  {baseKeys : List Key}

/-- The keys of the map the patch makes are those it takes the base's to. -/
theorem resultKeys_spec (hd : patch.Describes codec was now)
    (hb : ∀ k, (was k).isSome ↔ ∃ m, base = some m ∧ k ∈ baseKeys)
    (hsorted : baseKeys.Pairwise (· < ·)) :
    ∃ result, resultKeys patch (base.map fun _ => baseKeys) = .ok result ∧
      result.Pairwise (· < ·) ∧ ∀ k, k ∈ result ↔ (now k).isSome := by
  -- what is kept of the base's keys
  have hkept : ∃ kept : List Key, kept.Pairwise (· < ·) ∧
      (∀ k, k ∈ kept ↔ (was k).isSome ∧ (now k).isSome) ∧
      resultKeys patch (base.map fun _ => baseKeys) =
        .ok ((SortedMerge.walk kept (patch.added.map Prod.fst)).map SortedMerge.Side.element) := by
    cases base with
    | none =>
      refine ⟨[], .nil, fun k => ?_, rfl⟩
      have hnone : ¬ (was k).isSome := by simp [hb]
      simp [hnone]
    | some m =>
      have hwas : ∀ k, (was k).isSome ↔ k ∈ baseKeys := fun k => by simp [hb]
      have hmem : ∀ k, k ∈ baseKeys.filter (· ∉ patch.removed) ↔
          (was k).isSome ∧ (now k).isSome := by
        intro k
        rw [List.mem_filter, ← hwas, decide_eq_true_iff, hd.mem_removed]
        cases was k <;> cases now k <;> simp
      have hpair : (baseKeys.filter (· ∉ patch.removed)).Pairwise (· < ·) := hsorted.filter _
      have hkeep := keptKeys_spec hsorted hd.removed fun k hk =>
        (hwas k).1 ((hd.mem_removed k).1 hk).1
      have hupdated : ∀ e ∈ patch.updated, e.1 ∈ baseKeys.filter (· ∉ patch.removed) := by
        intro e he
        obtain ⟨x, y, hx, hy, -⟩ := hd.updated_value e he
        rw [hmem, hx, hy]
        exact ⟨rfl, rfl⟩
      refine ⟨_, hpair, hmem, ?_⟩
      unfold resultKeys
      dsimp only [Option.map]
      rw [hkeep]
      dsimp only [bind, Except.bind]
      rw [requireUpdated_spec hpair hupdated]
      rfl
  obtain ⟨kept, hpair, hmem, hrun⟩ := hkept
  refine ⟨_, hrun, SortedMerge.pairwise_elements_walk hpair hd.added, fun k => ?_⟩
  rw [SortedMerge.mem_elements_walk hpair hd.added, hmem, hd.mem_added]
  cases was k <;> cases now k <;> simp

/-- The value the patch makes for a key of the new map, whatever object it is made in. -/
theorem valueFor_spec (hc : codec.RoundTrips) (hd : patch.Describes codec was now) {k : Key} {y : V}
    (hy : now k = some y) {s : Store V} (hread : (base.bind (·.lookup k)).map s.content = was k)
    (target : Ref) : Applying.valueFor codec patch base k s target = .ok y := by
  unfold Applying.valueFor
  rcases RPCKeys.entry_spec (k := k) hd.updated with ⟨hup, hnone⟩ | ⟨state, hmem, hsome⟩
  · rw [hnone]
    rcases RPCKeys.entry_spec (k := k) hd.added with ⟨hadd, hnone'⟩ | ⟨value, hmem, hsome⟩
    · rw [hnone']
      have hsome : (was k).isSome := by
        rw [hd.mem_added, hy] at hadd
        simpa [Option.isSome_iff_ne_none] using hadd
      obtain ⟨x, hx⟩ := Option.isSome_iff_exists.1 hsome
      obtain ⟨r, hr, hcontent⟩ := Option.map_eq_some_iff.1 (hread.trans hx)
      rw [hr]
      dsimp only
      have heq := hd.unchanged k x y hx hy hup
      split
      · rw [hc.copy, hcontent, heq]
      · rename_i hsame
        rw [← not_not.1 hsame, hcontent, heq]
    · rw [hsome]
      dsimp only
      have hvalue := hd.added_value _ hmem
      rw [hy] at hvalue
      rw [hc.copy, Option.some.inj hvalue]
  · rw [hsome]
    obtain ⟨x, y', hx, hy', hpatch⟩ := hd.updated_value _ hmem
    obtain ⟨r, hr, hcontent⟩ := Option.map_eq_some_iff.1 (hread.trans hx)
    obtain ⟨m, rfl, hlookup⟩ := Option.bind_eq_some_iff.1 hr
    dsimp only
    rw [hlookup]
    change Except.ok (codec.apply state (some (s.content r)) _) = _
    rw [hcontent, hpatch]
    rw [hy] at hy'
    rw [Option.some.inj hy']

namespace Applying

variable {held : Key → Option Ref} {st : Applying V}

theorem dropUnlisted_spec {result : List Key} (hresult : result.Pairwise (· < ·))
    (hheld : ∀ k ∉ result, held k = none) (h : Apart held st) (recycle : Bool) (keys : List Key) :
    Apart held (keys.foldl (dropUnlisted result recycle) st) ∧
      (∀ k, (keys.foldl (dropUnlisted result recycle) st).views k =
        if k ∈ keys ∧ k ∉ result then none else st.views k) ∧
      ∀ k, (keys.foldl (dropUnlisted result recycle) st).reads held k = st.reads held k := by
  induction keys generalizing st with
  | nil => exact ⟨h, fun k => by simp, fun k => rfl⟩
  | cons key keys ih =>
    have hstep : Apart held (dropUnlisted result recycle st key) ∧
        (∀ k, (dropUnlisted result recycle st key).views k =
          if k = key ∧ k ∉ result then none else st.views k) ∧
        ∀ k, (dropUnlisted result recycle st key).reads held k = st.reads held k := by
      unfold dropUnlisted
      split
      · rename_i hnone
        have hnot := (RPCKeys.indexOf_eq_none_iff hresult).1 hnone
        split
        · rename_i hlookup
          refine ⟨h, fun k => ?_, fun k => rfl⟩
          split
          · rename_i hk
            rw [hk.1, Applying.views, view, hlookup]
            rfl
          · rfl
        · rename_i r hlookup
          have hfree : ∀ k', held k' ≠ some r := fun k' hk' => by
            have hk := h.keys k' key r (.inl hk') (.inr hlookup)
            rw [hk, hheld key hnot] at hk'
            exact absurd hk' (by simp)
          have hsets := h.sets_drop (fun _ => none) hlookup hfree rfl recycle
          refine ⟨hsets.apart, fun k => ?_, fun k => ?_⟩
          · by_cases hk : k = key
            · rw [if_pos ⟨hk, hk ▸ hnot⟩, hk, hsets.here]
            · rw [if_neg (fun hkk => hk hkk.1), hsets.views k hk]
          · by_cases hk : k = key
            · rw [Applying.reads, Applying.reads, hk, hheld key hnot]
              rfl
            · exact hsets.reads k hk
      · rename_i hsome
        have hin : key ∈ result := by
          by_contra hnot
          exact hsome ((RPCKeys.indexOf_eq_none_iff hresult).2 hnot)
        refine ⟨h, fun k => ?_, fun k => rfl⟩
        rw [if_neg fun hk => hk.2 (hk.1 ▸ hin)]
    obtain ⟨hapart, hviews, hreads⟩ := ih hstep.1
    refine ⟨hapart, fun k => ?_, fun k => (hreads k).trans (hstep.2.2 k)⟩
    simp only [List.foldl_cons, hviews, hstep.2.1, List.mem_cons]
    split_ifs <;> first | rfl | (exfalso; tauto)

/-- **Onto another map.**  It becomes what the patch takes the base to, its values still
apart. -/
theorem applyKeys_spec (hc : codec.RoundTrips) (hd : patch.Describes codec was now)
    (h : Apart (fun k => base.bind (·.lookup k)) st)
    (hwas : ∀ k, st.reads (fun k => base.bind (·.lookup k)) k = was k)
    (hbase : ∀ m, base = some m → ∀ k, k ∈ baseKeys ↔ k ∈ m)
    (hsorted : baseKeys.Pairwise (· < ·)) {intoKeys : List Key}
    (hinto : ∀ k ∈ st.into, k ∈ intoKeys) (recycle : Bool) :
    ∃ st', st.applyKeys codec patch base baseKeys intoKeys recycle = .ok st' ∧
      Apart (fun _ => none) st' ∧ ∀ k, st'.views k = now k := by
  have hsome : ∀ k, (was k).isSome ↔ ∃ m, base = some m ∧ k ∈ baseKeys := by
    intro k
    rw [← hwas, Applying.reads]
    cases base with
    | none => simp
    | some m => simp [hbase m rfl, AList.lookup_isSome]
  obtain ⟨result, hrun, hpair, hmem⟩ := resultKeys_spec hd hsome hsorted
  -- only what the new map has is still read of the base
  obtain ⟨held, hin, hout⟩ : ∃ held : Key → Option Ref,
      (∀ k ∈ result, held k = base.bind (·.lookup k)) ∧ ∀ k ∉ result, held k = none :=
    ⟨fun k => if k ∈ result then base.bind (·.lookup k) else none, fun k hk => if_pos hk,
      fun k hk => if_neg hk⟩
  have hapart : Apart held st := h.mono fun k r hr => by
    by_cases hk : k ∈ result
    · rw [← hin k hk, hr]
    · rw [hout k hk] at hr
      exact absurd hr (by simp)
  obtain ⟨h₁, hviews₁, hreads₁⟩ := dropUnlisted_spec hpair hout hapart recycle intoKeys
  obtain ⟨st', hfold, h', hviews', -⟩ := foldlM_sets (fun k => k)
    (fun st key => st.setAt codec key (valueFor codec patch base key)) now
    (by simpa using hpair.nodup) h₁ (by
      intro k hk st₁ hap _ hread
      obtain ⟨y, hy⟩ := Option.isSome_iff_exists.1 ((hmem k).1 hk)
      refine hap.sets_setAt hy fun s target hs => valueFor_spec hc hd hy ?_ target
      rw [← hin k hk, hs, hread, hreads₁, Applying.reads, hin k hk]
      exact hwas k)
  refine ⟨st', ?_, h'.mono fun k r hr => by simp at hr, fun k => ?_⟩
  · rw [applyKeys, hrun]
    exact hfold
  · rw [hviews', List.map_id']
    split
    · rfl
    · rename_i hk
      have hnow : now k = none := by
        rw [hmem] at hk
        simpa using hk
      rw [hviews₁, hnow]
      split
      · rfl
      · rename_i hnot
        have hnin : k ∉ st.into := fun hin => hnot ⟨hinto k hin, hk⟩
        rw [Applying.views, view, AList.lookup_eq_none.2 hnin]
        rfl

end Applying

end Onto

end RPCMapPatch

end CrossByte
