import CrossByte.RPC.BudgetDiffSpec

/-!
# What a budgeted patch carries and what the baseline records

The plan of a budgeted diff parts what the walk found into the entries carried and those
left out, whatever the order of priority and the budget (`plan_splits`).  What is carried
is a patch from what the observer holds to the view without the entries left out
(`From.carried`), and `commit` writes a baseline that records exactly that.

The baseline's values are its own objects.  `makeStale_spec` says which of them a commit
writes: only those no longer held, or made.
-/

namespace CrossByte

open RPCMapPatch

namespace RPCBudgetDiff

variable {V S : Type} {codec : RPCCodec V S} {s : Store V}

/-! ## The plan -/

variable {α : Type} {value r : Ref} {entries : List (SentUpdate × Option ℕ)}

theorem flagged_sublist (carried : Bool) (l : List α) (flags : List Flag) :
    (flagged carried l flags).Sublist l := by
  induction l generalizing flags with
  | nil => exact .slnil
  | cons a l ih =>
    unfold flagged
    split
    · exact (ih _).cons_cons a
    · exact (ih _).cons a

theorem flagged_perm (l : List α) (flags : List Flag) :
    (flagged true l flags ++ flagged false l flags).Perm l := by
  induction l generalizing flags with
  | nil => exact .refl []
  | cons a l ih =>
    unfold flagged
    by_cases hflag : flags.headD .unseen = .chosen
    · simp only [hflag]
      exact (ih flags.tail).cons a
    · simp only [hflag]
      exact List.perm_middle.trans ((ih flags.tail).cons a)

/-- A plan parts what the walk found into what is carried and what is left out. -/
structure Plan.Splits (p : Plan) (w : Walked) : Prop where
  added : p.added.Sublist w.added
  leftAdds : p.leftAdds.Sublist (w.added.map SentAdd.key)
  adds : (p.added.map SentAdd.key ++ p.leftAdds).Perm (w.added.map SentAdd.key)
  updated : p.updated.Sublist w.updated
  leftUpdates : p.leftUpdates.Sublist w.updated
  updates : (p.updated ++ p.leftUpdates).Perm w.updated

theorem carryAll_splits (w : Walked) : (carryAll w).Splits w where
  added := .refl _
  leftAdds := List.nil_sublist _
  adds := by simp [carryAll]
  updated := .refl _
  leftUpdates := List.nil_sublist _
  updates := by simp [carryAll]

/-- **Whatever the priorities and the budget, each entry is carried or left out.** -/
theorem plan_splits (codec : RPCCodec V S) (s : Store V) (full : Bool) (w : Walked)
    (order : List Key) (maxBytes : ℤ) : (plan codec s full w order maxBytes).Splits w := by
  unfold plan
  split
  · exact carryAll_splits w
  · refine ⟨flagged_sublist _ _ _, (flagged_sublist _ _ _).map _, ?_, flagged_sublist _ _ _,
      flagged_sublist _ _ _, flagged_perm _ _⟩
    have hperm := fun flags => (flagged_perm w.added flags).map SentAdd.key
    simp only [List.map_append] at hperm
    exact hperm _

/-! ## What is carried -/

def Plan.patch (p : Plan) (full : Bool) (removed : List Key) : Sent :=
  ⟨full, removed, p.added, p.updated.map Prod.fst⟩

/-- All the walk found, as a patch. -/
def Walked.patch (w : Walked) (full : Bool) : Sent :=
  ⟨full, w.removed, w.added, w.updated.map Prod.fst⟩

def Plan.leftKeys (p : Plan) : List Key := (p.leftUpdates.map Prod.fst).map SentUpdate.key

/-- What the observer holds once the patch of a plan arrives: none of the adds left out,
what it had of the updates left out, and the view's else. -/
def Plan.after (p : Plan) (was now : Key → Option V) (k : Key) : Option V :=
  if k ∈ p.leftAdds then none else if k ∈ p.leftKeys then was k else now k

section Carried

variable {p : Plan} {w : Walked} {full : Bool} {was now : Key → Option V}

theorem mem_part {l l' m : List α} (h : (l ++ l').Perm m) (hm : m.Nodup) (a : α) :
    a ∈ l ↔ a ∈ m ∧ a ∉ l' := by
  have hmem := h.mem_iff (a := a)
  rw [List.mem_append] at hmem
  have hdisj := List.disjoint_of_nodup_append (h.nodup_iff.2 hm)
  constructor
  · intro ha
    exact ⟨hmem.1 (.inl ha), fun ha' => hdisj ha ha'⟩
  · rintro ⟨ha, hnot⟩
    exact (hmem.2 ha).resolve_right hnot

theorem Plan.Splits.mem_updated (h : p.Splits w)
    (hupdated : ((w.updated.map Prod.fst).map SentUpdate.key).Nodup) (k : Key) :
    k ∈ (p.updated.map Prod.fst).map SentUpdate.key ↔
      k ∈ (w.updated.map Prod.fst).map SentUpdate.key ∧ k ∉ p.leftKeys := by
  refine mem_part ?_ hupdated k
  have hperm := (h.updates.map Prod.fst).map SentUpdate.key
  rwa [List.map_append, List.map_append] at hperm

/-- **What is carried is a patch to the view without what is left out.** -/
theorem Plan.Splits.carried (h : p.Splits w) (hw : (w.patch full).From codec s was now) :
    (p.patch full w.removed).From codec s was (p.after was now) := by
  have hadd : ∀ k, k ∈ p.added.map SentAdd.key ↔ k ∈ w.added.map SentAdd.key ∧ k ∉ p.leftAdds :=
    mem_part h.adds hw.added.nodup
  have hup := h.mem_updated hw.updated.nodup
  -- an add left out is in neither map the updates are of, and a key of either is kept
  have hleft : ∀ k ∈ p.leftAdds, was k = none ∧ (now k).isSome := fun k hk =>
    (hw.mem_added k).1 (h.leftAdds.subset hk)
  have hkept : ∀ k ∈ p.leftKeys, (was k).isSome ∧ (now k).isSome := by
    intro k hk
    obtain ⟨e, he, rfl⟩ := List.mem_map.1 hk
    obtain ⟨hx, hy⟩ := hw.updated_value e ((h.leftUpdates.map _).subset he)
    rw [hx, hy]
    exact ⟨rfl, rfl⟩
  have hsubUp : ∀ e ∈ p.updated.map Prod.fst, e ∈ w.updated.map Prod.fst := fun e he =>
    (h.updated.map Prod.fst).subset he
  refine ⟨⟨hw.removed, ?_, ?_, fun e he => hw.addedMask e (h.added.subset he),
    fun e he => hw.updatedMask e (hsubUp e he), ?_⟩, hw.was_none, fun k => ?_, fun k => ?_, ?_, ?_,
    ?_⟩
  · exact hw.added.sublist (h.added.map _)
  · exact hw.updated.sublist ((h.updated.map _).map _)
  · intro hfull
    obtain ⟨hremoved, hupdated⟩ := hw.full hfull
    refine ⟨hremoved, List.eq_nil_iff_forall_not_mem.2 fun e he => ?_⟩
    have hnil : w.updated.map Prod.fst = [] := hupdated
    exact absurd (hsubUp e he) (hnil ▸ List.not_mem_nil)
  · change k ∈ w.removed ↔ _
    rw [show k ∈ w.removed ↔ _ from hw.mem_removed k, Plan.after]
    split_ifs with h₁ h₂
    · simp [(hleft k h₁).1]
    · have := hkept k h₂
      cases hk : was k <;> cases hk' : now k <;> simp_all
    · rfl
  · change k ∈ p.added.map SentAdd.key ↔ _
    rw [hadd k, show k ∈ w.added.map SentAdd.key ↔ _ from hw.mem_added k, Plan.after]
    split_ifs with h₁ h₂
    · simp [h₁]
    · have := hkept k h₂
      cases hk : was k <;> simp_all
    · simp [h₁]
  · intro e he
    have hkey := (hadd e.key).1 (List.mem_map_of_mem he)
    have hnot : e.key ∉ p.leftKeys := fun hk => by
      have hnone := ((hw.mem_added e.key).1 hkey.1).1
      simpa [hnone] using (hkept _ hk).1
    rw [Plan.after, if_neg hkey.2, if_neg hnot]
    exact hw.added_value e (h.added.subset he)
  · intro e he
    have hkey := (hup e.key).1 (List.mem_map_of_mem he)
    obtain ⟨hx, hy⟩ := hw.updated_value e (hsubUp e he)
    have hnot : e.key ∉ p.leftAdds := fun hk => by simpa [hx] using (hleft _ hk).1
    refine ⟨hx, ?_⟩
    rw [Plan.after, if_neg hnot, if_neg hkey.2]
    exact hy
  · intro k x y hx hy hk
    unfold Plan.after at hy
    split_ifs at hy with h₁ h₂
    · exact Option.some.inj (hx.symm.trans hy)
    · refine hw.unchanged k x y hx hy fun hmem => hk ?_
      exact (hup k).2 ⟨hmem, h₂⟩

end Carried

/-! ## The baseline's objects -/

theorem keysSent_eq {cur leftAdds : List Key} (hcur : cur.Pairwise (· < ·))
    (hleft : leftAdds.Pairwise (· < ·)) (hsub : ∀ k ∈ leftAdds, k ∈ cur) :
    keysSent cur leftAdds = cur.filter (· ∉ leftAdds) := by
  induction cur generalizing leftAdds with
  | nil => rfl
  | cons key cur ih =>
    cases leftAdds with
    | nil => simp [keysSent]
    | cons l leftAdds =>
      obtain ⟨hkey, hcur'⟩ := List.pairwise_cons.1 hcur
      obtain ⟨hl, hleft'⟩ := List.pairwise_cons.1 hleft
      unfold keysSent
      split
      · rename_i heq
        subst heq
        rw [List.filter_cons_of_neg (by simp), ih hcur' hleft' fun k hk => ?_]
        · refine List.filter_congr fun k hk => ?_
          simp [(hkey k hk).ne']
        · exact (List.mem_cons.1 (hsub k (List.mem_cons_of_mem _ hk))).resolve_left (hl k hk).ne'
      · rename_i hne
        have hlt : key < l := hkey l ((List.mem_cons.1 (hsub l List.mem_cons_self)).resolve_left hne)
        have hnot : key ∉ l :: leftAdds := by
          intro hk
          rcases List.mem_cons.1 hk with rfl | hk
          · exact lt_irrefl _ hlt
          · exact lt_asymm hlt (hl key hk)
        rw [List.filter_cons_of_pos (by simpa using hnot), ih hcur' hleft fun k hk => ?_]
        refine (List.mem_cons.1 (hsub k hk)).resolve_left fun heq => ?_
        exact hnot (heq ▸ hk)

variable {spare : List Ref}

/-- What `__take` takes is spare or made, and no other object changes. -/
theorem takeValue_spec (codec : RPCCodec V S) (hnodup : spare.Nodup)
    (hmade : ∀ r ∈ spare, r < s.next) {s' : Store V} {spare' : List Ref}
    (h : takeValue codec s spare = (value, s', spare')) :
    (value ∈ spare ∨ value = s.next) ∧ value < s'.next ∧ s.next ≤ s'.next ∧
      (value :: spare').Nodup ∧ (∀ r ∈ spare', r ∈ spare) ∧
      ∀ r < s.next, s'.content r = s.content r := by
  cases spare with
  | cons r spare =>
    obtain ⟨rfl, rfl, rfl⟩ : r = value ∧ s = s' ∧ spare = spare' := by simpa [takeValue] using h
    exact ⟨.inl List.mem_cons_self, hmade r List.mem_cons_self, le_rfl, hnodup,
      fun r' hr' => List.mem_cons_of_mem _ hr', fun _ _ => rfl⟩
  | nil =>
    obtain ⟨rfl, rfl, rfl⟩ : s.next = value ∧ (s.make codec.initial).2 = s' ∧ [] = spare' := by
      simpa [takeValue, Store.make] using h
    exact ⟨.inr rfl, Nat.lt_succ_self _, Nat.le_succ _, by simp, fun r hr => hr,
      fun r hr => s.make_content_lt hr _⟩

/-- The object an update left out stays stale in, in place. -/
def keptRef (inPlace : Bool) (u : SentUpdate × Option ℕ) : Option Ref :=
  if inPlace then u.2.map fun _ => u.1.base else none

/-- Stale values made of the updates left out, from a store and spare objects. -/
structure Made (s : Store V) (spare kept : List Ref) (left : List SentUpdate)
    (stale : List (Key × Ref)) (s' : Store V) (spare' : List Ref) : Prop where
  entries : stale.map (fun e => (e.1, s'.content e.2)) = left.map fun e => (e.key, s.content e.base)
  nodup : (stale.map Prod.snd ++ spare').Nodup
  made : ∀ r ∈ stale.map Prod.snd ++ spare', r < s'.next
  origin : ∀ r ∈ stale.map Prod.snd ++ spare', r ∈ kept ∨ r ∈ spare ∨ s.next ≤ r
  next : s.next ≤ s'.next
  frame : ∀ r < s.next, r ∉ spare → s'.content r = s.content r

section Made

variable {spare spare' kept : List Ref} {left : List SentUpdate} {stale : List (Key × Ref)}
  {s' : Store V} {e : SentUpdate}

theorem Made.keep (h : Made s spare kept left stale s' spare') (hlt : e.base < s.next)
    (hspare : e.base ∉ spare) (hkept : e.base ∉ kept) :
    Made s spare (e.base :: kept) (e :: left) ((e.key, e.base) :: stale) s' spare' where
  entries := by rw [List.map_cons, List.map_cons, h.entries, h.frame _ hlt hspare]
  nodup := by
    refine List.nodup_cons.2 ⟨fun hmem => ?_, h.nodup⟩
    rcases h.origin _ hmem with hin | hin | hin
    · exact hkept hin
    · exact hspare hin
    · exact absurd hlt (not_lt.2 hin)
  made := by
    intro r hr
    rcases List.mem_cons.1 hr with rfl | hr
    · exact hlt.trans_le h.next
    · exact h.made r hr
  origin := by
    intro r hr
    rcases List.mem_cons.1 hr with rfl | hr
    · exact .inl List.mem_cons_self
    · exact (h.origin r hr).imp_left (List.mem_cons_of_mem _)
  next := h.next
  frame := h.frame

variable {spare₁ : List Ref} {s₁ : Store V} {held : List (Key × Ref)} {origin : Option ℕ}

theorem Made.copy {v : V} (hfrom : value ∈ spare ∨ value = s.next) (hvalue : value < s₁.next)
    (hnext : s.next ≤ s₁.next) (hnodup : (value :: spare₁).Nodup) (hsub : ∀ r ∈ spare₁, r ∈ spare)
    (hsame : ∀ r < s.next, s₁.content r = s.content r) (hv : v = s.content e.base)
    (hkept : ∀ r ∈ kept, r < s.next ∧ r ∉ spare)
    (hleft : ∀ u ∈ left, u.base < s.next ∧ u.base ∉ spare)
    (h : Made (s₁.set value v) spare₁ kept left stale s' spare') :
    Made s spare kept (e :: left) ((e.key, value) :: stale) s' spare' := by
  have hne : ∀ r < s.next, r ∉ spare → r ≠ value := by
    rintro r hr hnot rfl
    rcases hfrom with hin | heq
    · exact hnot hin
    · exact absurd hr (not_lt.2 heq.ge)
  have hset : ∀ r < s.next, r ∉ spare → (s₁.set value v).content r = s.content r := fun r hr hnot =>
    (s₁.set_content_ne (hne r hr hnot) v).trans (hsame r hr)
  refine ⟨?_, ?_, ?_, ?_, hnext.trans h.next, fun r hr hnot => ?_⟩
  · have hmap : (left.map fun u => (u.key, (s₁.set value v).content u.base)) =
        left.map fun u => (u.key, s.content u.base) :=
      List.map_congr_left fun u hu => by rw [hset _ (hleft u hu).1 (hleft u hu).2]
    rw [List.map_cons, List.map_cons, h.entries, hmap,
      h.frame value hvalue (List.nodup_cons.1 hnodup).1, s₁.set_content_self, hv]
  · refine List.nodup_cons.2 ⟨fun hmem => ?_, h.nodup⟩
    rcases h.origin _ hmem with hin | hin | hin
    · exact hne value (hkept value hin).1 (hkept value hin).2 rfl
    · exact (List.nodup_cons.1 hnodup).1 hin
    · exact absurd hvalue (not_lt.2 hin)
  · intro r hr
    rcases List.mem_cons.1 hr with rfl | hr
    · exact hvalue.trans_le h.next
    · exact h.made r hr
  · intro r hr
    rcases List.mem_cons.1 hr with rfl | hr
    · exact hfrom.elim (fun hin => .inr (.inl hin)) fun heq => .inr (.inr heq.ge)
    · rcases h.origin r hr with hin | hin | hin
      · exact .inl hin
      · exact .inr (.inl (hsub r hin))
      · exact .inr (.inr (hnext.trans hin))
  · rw [h.frame r (hr.trans_le hnext) fun hin => hnot (hsub r hin), hset r hr hnot]

theorem makeStale_cons_keep (codec : RPCCodec V S) {inPlace : Bool}
    (hkept : keptRef inPlace (e, origin) = some r)
    (hheld : ∀ h, origin = some h → (held.getD h (e.key, e.base)).2 = e.base)
    (entries : List (SentUpdate × Option ℕ)) (s : Store V) (spare : List Ref) :
    r = e.base ∧ makeStale codec inPlace held ((e, origin) :: entries) s spare =
      ((e.key, e.base) :: (makeStale codec inPlace held entries s spare).1,
        (makeStale codec inPlace held entries s spare).2) := by
  cases inPlace with
  | false => simp [keptRef] at hkept
  | true =>
    cases origin with
    | none => simp [keptRef] at hkept
    | some h =>
      refine ⟨by simpa [keptRef] using hkept.symm, ?_⟩
      simp only [makeStale, hheld h rfl]

theorem makeStale_cons_copy {inPlace : Bool} (hkept : keptRef inPlace (e, origin) = none)
    (entries : List (SentUpdate × Option ℕ))
    (htake : takeValue codec s spare = (value, s₁, spare₁)) :
    makeStale codec inPlace held ((e, origin) :: entries) s spare =
      ((e.key, value) :: (makeStale codec inPlace held entries (s₁.set value
          (codec.copy (s₁.content e.base) (s₁.content value))) spare₁).1,
        (makeStale codec inPlace held entries (s₁.set value
          (codec.copy (s₁.content e.base) (s₁.content value))) spare₁).2) := by
  have hcases : inPlace = false ∨ origin = none := by
    cases inPlace <;> cases origin <;> simp [keptRef] at hkept ⊢
  rcases hcases with rfl | rfl
  · simp only [makeStale, htake]
  · cases inPlace <;> simp only [makeStale, htake]

/-- **The stale values of a commit** are in objects of the baseline's own, no longer held or
made; no other object is written. -/
theorem makeStale_spec (hc : codec.RoundTrips) (inPlace : Bool) (held : List (Key × Ref))
    (hnodup : spare.Nodup) (hmade : ∀ r ∈ spare, r < s.next)
    (hkept : (entries.filterMap (keptRef inPlace)).Nodup)
    (hbase : ∀ u ∈ entries, u.1.base < s.next ∧ u.1.base ∉ spare)
    (hheld : ∀ u ∈ entries, ∀ h, u.2 = some h → inPlace = true →
      (held.getD h (u.1.key, u.1.base)).2 = u.1.base) :
    Made s spare (entries.filterMap (keptRef inPlace)) (entries.map Prod.fst)
      (makeStale codec inPlace held entries s spare).1
      (makeStale codec inPlace held entries s spare).2.1
      (makeStale codec inPlace held entries s spare).2.2 := by
  induction entries generalizing s spare with
  | nil =>
    exact ⟨rfl, hnodup, hmade, fun r hr => .inr (.inl hr), le_rfl, fun _ _ _ => rfl⟩
  | cons u entries ih =>
    obtain ⟨e, origin⟩ := u
    obtain ⟨hlt, hnot⟩ := hbase (e, origin) List.mem_cons_self
    have hbase' : ∀ u ∈ entries, u.1.base < s.next ∧ u.1.base ∉ spare := fun u hu =>
      hbase u (List.mem_cons_of_mem _ hu)
    have hheld' := fun u hu => hheld u (List.mem_cons_of_mem (e, origin) hu)
    cases hk : keptRef inPlace (e, origin) with
    | some r =>
      have hin : inPlace = true := by
        cases inPlace with
        | false => simp [keptRef] at hk
        | true => rfl
      obtain ⟨rfl, hmake⟩ := makeStale_cons_keep codec hk
        (fun h horigin => hheld (e, origin) List.mem_cons_self h horigin hin) entries s spare
      rw [List.filterMap_cons_some hk] at hkept ⊢
      obtain ⟨hnotin, hkept⟩ := List.nodup_cons.1 hkept
      rw [hmake]
      exact (ih hnodup hmade hkept hbase' hheld').keep hlt hnot hnotin
    | none =>
      rcases htake : takeValue codec s spare with ⟨value, s₁, spare₁⟩
      obtain ⟨hfrom, hvalue, hnext, hnodup₁, hsub, hsame⟩ := takeValue_spec codec hnodup hmade htake
      rw [List.filterMap_cons_none hk] at hkept ⊢
      rw [makeStale_cons_copy hk entries htake]
      refine Made.copy hfrom hvalue hnext hnodup₁ hsub hsame ((hc.copy _ _).trans (hsame _ hlt))
        (fun r hr => ?_) (fun u hu => ?_) (ih (List.nodup_cons.1 hnodup₁).2
          (fun r hr => (hmade r (hsub r hr)).trans_le hnext) hkept
          (fun u hu => ⟨(hbase' u hu).1.trans_le hnext, fun hin => (hbase' u hu).2 (hsub _ hin)⟩)
          hheld')
      · obtain ⟨u, hu, hur⟩ := List.mem_filterMap.1 hr
        obtain rfl : r = u.1.base := by
          unfold keptRef at hur
          split at hur
          · obtain ⟨-, -, rfl⟩ := Option.map_eq_some_iff.1 hur
            rfl
          · cases hur
        exact hbase' u hu
      · obtain ⟨v, hv, rfl⟩ := List.mem_map.1 hu
        exact hbase' v hv

end Made

/-! ## The commit -/

/-- A baseline's own objects. -/
def owned (b : RPCMapBaseline) : List Ref := b.stale.map Prod.snd ++ b.spare

/-- A baseline's own objects are apart from one another. -/
structure Owns (s : Store V) (b : RPCMapBaseline) : Prop where
  nodup : (owned b).Nodup
  made : ∀ r ∈ owned b, r < s.next

/-- What a commit makes of the store and of the baseline it writes. -/
structure Committed (s : Store V) (sent : RPCMapBaseline) (left : List SentUpdate) (s' : Store V)
    (sent' : RPCMapBaseline) : Prop where
  owns : Owns s' sent'
  entries : sent'.stale.map (fun e => (e.1, s'.content e.2)) =
    left.map fun e => (e.key, s.content e.base)
  origin : ∀ r ∈ owned sent', r ∈ owned sent ∨ s.next ≤ r
  next : s.next ≤ s'.next
  frame : ∀ r < s.next, r ∉ owned sent → s'.content r = s.content r

theorem Committed.keys {sent sent' : RPCMapBaseline} {left : List SentUpdate} {s' : Store V}
    (h : Committed s sent left s' sent') : sent'.stale.map Prod.fst = left.map SentUpdate.key := by
  have hkeys := congrArg (List.map Prod.fst) h.entries
  rwa [List.map_map, List.map_map] at hkeys

section Commit

variable {sent : RPCMapBaseline} {plan : Plan} {inPlace : Bool}

theorem loose_sublist (inPlace : Bool) (held : List (Key × Ref))
    (left : List (SentUpdate × Option ℕ)) : (loose inPlace held left).Sublist (held.map Prod.snd) := by
  have hmap : held.map Prod.snd = held.zipIdx.map fun h => h.1.2 := by
    conv_lhs => rw [← held.zipIdx_map_fst 0]
    rw [List.map_map]
    rfl
  rw [hmap]
  exact List.filter_sublist.map _

/-- The values a commit may take are the baseline's own. -/
theorem spare_sub (inPlace : Bool) (hsent : Owns s sent) (left : List (SentUpdate × Option ℕ)) :
    ((loose inPlace sent.stale left).reverse ++ sent.spare).Nodup ∧
      ∀ r ∈ (loose inPlace sent.stale left).reverse ++ sent.spare, r ∈ owned sent := by
  have hsub : (loose inPlace sent.stale left ++ sent.spare).Sublist (owned sent) :=
    (loose_sublist inPlace sent.stale left).append (.refl _)
  have hperm : ((loose inPlace sent.stale left).reverse ++ sent.spare).Perm
      (loose inPlace sent.stale left ++ sent.spare) := (List.reverse_perm _).append_right _
  exact ⟨hperm.nodup_iff.2 (hsent.nodup.sublist hsub), fun r hr => hsub.subset (hperm.mem_iff.1 hr)⟩

variable {u : SentUpdate × Option ℕ}

/-- A value kept stale in place is not one the commit may take. -/
theorem kept_notMem_spare (hsent : Owns s sent) {left : List (SentUpdate × Option ℕ)}
    (hu : u ∈ left) {h : ℕ} (horigin : u.2 = some h)
    (hget : sent.stale[h]? = some (u.1.key, u.1.base)) :
    u.1.base ∉ (loose true sent.stale left).reverse ++ sent.spare := by
  have hin : u.1.base ∈ sent.stale.map Prod.snd :=
    List.mem_map.2 ⟨_, List.mem_of_getElem? hget, rfl⟩
  have hdisj := List.disjoint_of_nodup_append hsent.nodup
  have hheld : (sent.stale.map Prod.snd).Nodup := hsent.nodup.of_append_left
  rw [List.mem_append, List.mem_reverse, not_or]
  refine ⟨fun hloose => ?_, fun hspare => hdisj hin hspare⟩
  obtain ⟨⟨⟨key, r⟩, i⟩, hi, rfl⟩ := List.mem_map.1 hloose
  obtain ⟨hmem, hnot⟩ := List.mem_filter.1 hi
  have hgeti : sent.stale[i]? = some (key, u.1.base) := by
    simpa using List.mk_mem_zipIdx_iff_getElem?.1 hmem
  have hi : i < (sent.stale.map Prod.snd).length := by
    rw [List.length_map]
    exact (List.getElem?_eq_some_iff.1 hgeti).1
  obtain rfl : i = h := (List.getElem?_inj hi hheld).1 (by
    rw [List.getElem?_map, List.getElem?_map, hgeti, hget]
    rfl)
  have hkept : i ∈ left.filterMap Prod.snd := List.mem_filterMap.2 ⟨u, hu, horigin⟩
  simp [hkept] at hnot

/-- Where an update's base value is, of the baseline being written: in place, a stale value
of its own, and else no object of its own. -/
def HasBase (s : Store V) (inPlace : Bool) (sent : RPCMapBaseline) (u : SentUpdate × Option ℕ) :
    Prop :=
  u.1.base < s.next ∧ match inPlace, u.2 with
    | true, some h => sent.stale[h]? = some (u.1.key, u.1.base)
    | _, _ => u.1.base ∉ owned sent

theorem HasBase.of_keptRef (h : HasBase s inPlace sent u) (hr : keptRef inPlace u = some r) :
    inPlace = true ∧ r = u.1.base ∧ ∃ i, u.2 = some i ∧ sent.stale[i]? = some (u.1.key, r) := by
  obtain ⟨-, h⟩ := h
  cases inPlace with
  | false => simp [keptRef] at hr
  | true =>
    cases hu : u.2 with
    | none => simp [keptRef, hu] at hr
    | some i =>
      obtain rfl : r = u.1.base := by simpa [keptRef, hu] using hr.symm
      rw [hu] at h
      exact ⟨rfl, rfl, i, rfl, h⟩

theorem HasBase.notMem_owned (h : HasBase s inPlace sent u) (hr : keptRef inPlace u = none) :
    u.1.base ∉ owned sent := by
  obtain ⟨-, h⟩ := h
  cases inPlace with
  | false => exact h
  | true =>
    cases hu : u.2 with
    | none =>
      rw [hu] at h
      exact h
    | some i => simp [keptRef, hu] at hr

/-- **A commit** writes only the baseline's own objects, and objects it makes, and the
stale values it leaves are the base values of the updates left out. -/
theorem commit_spec (hc : codec.RoundTrips) (hsent : Owns s sent) (hkeys : plan.leftKeys.Nodup)
    (hbase : ∀ u ∈ plan.leftUpdates, HasBase s inPlace sent u) (cur : List Key) (frame : Frame) :
    Committed s sent (plan.leftUpdates.map Prod.fst)
      (commit codec s inPlace sent cur plan frame).1
      (commit codec s inPlace sent cur plan frame).2 := by
  obtain ⟨hnodup, hsub⟩ := spare_sub inPlace hsent plan.leftUpdates
  have hkept : (plan.leftUpdates.filterMap (keptRef inPlace)).Nodup := by
    have hleft : (plan.leftUpdates.map fun u => u.1.key).Nodup := by
      simpa [Plan.leftKeys, Function.comp_def] using hkeys
    refine List.pairwise_filterMap.2 ((List.pairwise_map.1 hleft).imp_of_mem ?_)
    rintro u u' hu hu' hne r hr r' hr' rfl
    obtain ⟨-, -, i, -, hi⟩ := (hbase u hu).of_keptRef hr
    obtain ⟨-, -, i', -, hi'⟩ := (hbase u' hu').of_keptRef hr'
    have hheld : (sent.stale.map Prod.snd).Nodup := hsent.nodup.of_append_left
    refine hne (congrArg Prod.fst (List.inj_on_of_nodup_map hheld (List.mem_of_getElem? hi)
      (List.mem_of_getElem? hi') rfl))
  have hmade := makeStale_spec hc inPlace sent.stale hnodup
    (fun r hr => hsent.made r (hsub r hr)) hkept ?_ ?_
  · refine ⟨⟨hmade.nodup, hmade.made⟩, hmade.entries, fun r hr => ?_, hmade.next,
      fun r hr hnot => hmade.frame r hr fun hin => hnot (hsub r hin)⟩
    rcases hmade.origin r hr with hin | hin | hin
    · obtain ⟨u, hu, hur⟩ := List.mem_filterMap.1 hin
      obtain ⟨-, rfl, i, -, hi⟩ := (hbase u hu).of_keptRef hur
      exact .inl (List.mem_append_left _ (List.mem_map.2 ⟨_, List.mem_of_getElem? hi, rfl⟩))
    · exact .inl (hsub r hin)
    · exact .inr hin
  · intro u hu
    refine ⟨(hbase u hu).1, ?_⟩
    cases hr : keptRef inPlace u with
    | none => exact fun hin => (hbase u hu).notMem_owned hr (hsub _ hin)
    | some r =>
      obtain ⟨rfl, rfl, i, horigin, hi⟩ := (hbase u hu).of_keptRef hr
      exact kept_notMem_spare hsent hu horigin hi
  · intro u hu i horigin hin
    obtain ⟨-, -, i', hi', hget⟩ := (hbase u hu).of_keptRef (r := u.1.base) (by
      simp [keptRef, hin, horigin])
    obtain rfl := Option.some.inj (horigin.symm.trans hi')
    rw [List.getD_eq_getElem?_getD, hget]
    rfl

theorem makeStale_frame (codec : RPCCodec V S) (inPlace : Bool) (held : List (Key × Ref))
    (hnodup : spare.Nodup) (hmade : ∀ r ∈ spare, r < s.next)
    (hlt : r < s.next) (hr : r ∉ spare) :
    (makeStale codec inPlace held entries s spare).2.1.content r = s.content r := by
  induction entries generalizing s spare with
  | nil => rfl
  | cons u entries ih =>
    obtain ⟨e, origin⟩ := u
    have hcopy : ∀ value s₁ spare₁, takeValue codec s spare = (value, s₁, spare₁) →
        (makeStale codec inPlace held entries (s₁.set value
          (codec.copy (s₁.content e.base) (s₁.content value))) spare₁).2.1.content r =
          s.content r := by
      intro value s₁ spare₁ htake
      obtain ⟨hfrom, -, hnext, hnodup₁, hsub, hsame⟩ := takeValue_spec codec hnodup hmade htake
      have hne : r ≠ value := by
        rintro rfl
        exact hfrom.elim hr fun h => absurd hlt (h ▸ lt_irrefl _)
      have hkept : (s₁.set value (codec.copy (s₁.content e.base) (s₁.content value))).content r =
          s.content r := (Store.set_content_ne _ hne _).trans (hsame r hlt)
      rw [← hkept]
      exact ih (List.nodup_cons.1 hnodup₁).2 (fun x hx => (hmade x (hsub x hx)).trans_le hnext)
        (hlt.trans_le hnext) fun hx => hr (hsub r hx)
    cases htake : takeValue codec s spare with
    | mk value rest =>
      obtain ⟨s₁, spare₁⟩ := rest
      cases inPlace with
      | false => simpa [makeStale, htake] using hcopy value s₁ spare₁ htake
      | true =>
        cases origin with
        | none => simpa [makeStale, htake] using hcopy value s₁ spare₁ htake
        | some h => exact ih hnodup hmade hlt hr

/-- A commit writes only objects of the baseline it writes. -/
theorem commit_frame (codec : RPCCodec V S) (inPlace : Bool) (hsent : Owns s sent) (plan : Plan)
    (cur : List Key) (frame : Frame) (hlt : r < s.next) (hr : r ∉ owned sent) :
    (commit codec s inPlace sent cur plan frame).1.content r = s.content r := by
  obtain ⟨hnodup, hsub⟩ := spare_sub inPlace hsent plan.leftUpdates
  exact makeStale_frame codec inPlace sent.stale hnodup (fun x hx => hsent.made x (hsub x hx)) hlt
    fun hx => hr (hsub r hx)

/-- A commit that keeps every stale value where it is writes no object. -/
theorem commit_store (h : ∀ u ∈ plan.leftUpdates, (keptRef inPlace u).isSome) (cur : List Key)
    (frame : Frame) : (commit codec s inPlace sent cur plan frame).1 = s := by
  have hmake : ∀ (entries : List (SentUpdate × Option ℕ)) (spare : List Ref),
      (∀ u ∈ entries, (keptRef inPlace u).isSome) →
      (makeStale codec inPlace sent.stale entries s spare).2.1 = s := by
    intro entries
    induction entries with
    | nil => exact fun _ _ => rfl
    | cons u entries ih =>
      intro spare hall
      obtain ⟨e, origin⟩ := u
      have hrest := ih spare fun u hu => hall u (List.mem_cons_of_mem _ hu)
      have hhead := hall (e, origin) List.mem_cons_self
      cases inPlace with
      | false => simp [keptRef] at hhead
      | true =>
        cases origin with
        | none => simp [keptRef] at hhead
        | some i => exact hrest
  exact hmake _ _ h

end Commit

end RPCBudgetDiff

end CrossByte
