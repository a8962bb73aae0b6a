import CrossByte.RPC.BudgetDiff
import CrossByte.RPC.MapPatchDiff

/-!
# What a budgeted diff carries and records

A baseline stands for the map of objects it says the observer holds (`asMap`), and a
budgeted diff is an unbudgeted one of that map against the view, some of whose entries are
left out (`walkAll_spec`, `Plan.Splits`).  What is carried is a patch from what the baseline
recorded to what the view would be without the entries left out.
-/

namespace CrossByte

open SortedMerge (Side walk)
open RPCMapPatch

/-! ## Maps of listed keys -/

/-- The map of the listed keys. -/
def listed (keys : List Key) (f : Key → Option Ref) : IntMap :=
  keys.foldr (fun k m => match f k with
    | some r => m.insert k r
    | none => m) ∅

theorem lookup_listed (keys : List Key) (f : Key → Option Ref) (k : Key) :
    (listed keys f).lookup k = if k ∈ keys then f k else none := by
  induction keys with
  | nil => rfl
  | cons k' keys ih =>
    change AList.lookup k (match f k' with
      | some r => (listed keys f).insert k' r
      | none => listed keys f) = _
    by_cases hk : k = k'
    · subst hk
      cases hf : f k with
      | none => simp [ih, hf]
      | some r => simp
    · have hmem : k ∈ k' :: keys ↔ k ∈ keys := by simp [hk]
      rw [if_congr hmem rfl rfl, ← ih]
      cases f k' with
      | none => rfl
      | some r => exact AList.lookup_insert_ne hk

theorem mem_listed {keys : List Key} {f : Key → Option Ref} {k : Key} :
    k ∈ listed keys f ↔ k ∈ keys ∧ (f k).isSome := by
  rw [← AList.lookup_isSome, lookup_listed]
  split <;> simp [*]

/-- An ascending list is the sorted list of the keys of its map. -/
theorem sortUnique_listed {keys : List Key} {f : Key → Option Ref} (hs : keys.Pairwise (· < ·))
    (hf : ∀ k ∈ keys, (f k).isSome) : RPCKeys.sortUnique (listed keys f).keys = keys := by
  refine RPCKeys.eq_of_pairwise (RPCKeys.pairwise_sortUnique _) hs fun k => ?_
  rw [RPCKeys.mem_sortUnique, ← AList.mem_keys, mem_listed]
  exact ⟨fun h => h.1, fun h => ⟨h, hf k h⟩⟩

namespace RPCMapBaseline

/-- The stale value of a key. -/
def staleOf (b : RPCMapBaseline) (k : Key) : Option Ref :=
  (b.stale.find? fun e => e.1 = k).map Prod.snd

/-- The object the observer's value of a held key is recorded in. -/
def refOf (b : RPCMapBaseline) (frame : Frame) (k : Key) : Option Ref :=
  match b.staleOf k with
  | some r => some r
  | none => frame.values.lookup k

/-- The map of objects the baseline records. -/
def asMap (b : RPCMapBaseline) (frame : Frame) : IntMap := listed b.keys (b.refOf frame)

/-- A baseline made against a frame: its keys and its stale ones ascending, all of them in
the frame. -/
structure MadeOn (b : RPCMapBaseline) (frame : Frame) : Prop where
  keys : b.keys.Pairwise (· < ·)
  stale : (b.stale.map Prod.fst).Pairwise (· < ·)
  sub : ∀ k ∈ b.stale.map Prod.fst, k ∈ b.keys
  inFrame : ∀ k ∈ b.keys, k ∈ frame.values
  isFrame : b.frame = some frame

variable {b : RPCMapBaseline} {frame : Frame} {k : Key} {r : Ref}

theorem staleOf_eq_none : b.staleOf k = none ↔ k ∉ b.stale.map Prod.fst := by
  rw [staleOf, Option.map_eq_none_iff, List.find?_eq_none]
  constructor
  · intro h hmem
    obtain ⟨e, he, rfl⟩ := List.mem_map.1 hmem
    exact h e he (by simp)
  · intro h e he heq
    exact h (List.mem_map.2 ⟨e, he, by simpa using heq⟩)

theorem MadeOn.staleOf_eq_some (h : b.MadeOn frame) : b.staleOf k = some r ↔ (k, r) ∈ b.stale := by
  rw [staleOf, Option.map_eq_some_iff]
  constructor
  · rintro ⟨e, he, rfl⟩
    have hk : e.1 = k := by simpa using List.find?_some he
    exact hk ▸ List.mem_of_find?_eq_some he
  · intro hmem
    cases hfind : b.stale.find? fun e => e.1 = k with
    | none =>
      have := List.find?_eq_none.1 hfind (k, r) hmem
      simp at this
    | some e =>
      have hk : e.1 = k := by simpa using List.find?_some hfind
      refine ⟨e, rfl, ?_⟩
      exact congrArg Prod.snd (List.inj_on_of_nodup_map h.stale.nodup
        (List.mem_of_find?_eq_some hfind) hmem hk)

theorem MadeOn.refOf_isSome (h : b.MadeOn frame) (hk : k ∈ b.keys) : (b.refOf frame k).isSome := by
  unfold refOf
  split
  · rfl
  · exact AList.lookup_isSome.2 (h.inFrame k hk)

theorem lookup_asMap (hk : k ∈ b.keys) : (b.asMap frame).lookup k = b.refOf frame k := by
  rw [asMap, lookup_listed, if_pos hk]

theorem MadeOn.mem_asMap (h : b.MadeOn frame) : k ∈ b.asMap frame ↔ k ∈ b.keys := by
  rw [asMap, mem_listed]
  exact ⟨fun hk => hk.1, fun hk => ⟨hk, h.refOf_isSome hk⟩⟩

/-- `valueIn` answers what the baseline records. -/
theorem MadeOn.valueIn_eq (h : b.MadeOn frame) (k : Key) :
    b.valueIn k frame = .ok ((b.asMap frame).lookup k) := by
  unfold valueIn
  rw [h.isFrame, if_neg (by simp), asMap, lookup_listed]
  by_cases hk : k ∈ b.keys
  · rw [if_neg fun hnone => (RPCKeys.indexOf_eq_none_iff h.keys).1 hnone hk, if_pos hk]
    rcases RPCKeys.entry_spec (k := k) h.stale with ⟨hnot, hnone⟩ | ⟨r, hmem, hsome⟩
    · rw [hnone, refOf, staleOf_eq_none.2 hnot]
    · rw [hsome, refOf, h.staleOf_eq_some.2 hmem]
  · rw [if_pos ((RPCKeys.indexOf_eq_none_iff h.keys).2 hk), if_neg hk]

/-- `has` answers of the keys the baseline records. -/
theorem MadeOn.has_iff (h : b.MadeOn frame) : b.has k = true ↔ k ∈ b.asMap frame := by
  rw [h.mem_asMap, has, Option.isSome_iff_ne_none, Ne,
    RPCKeys.indexOf_eq_none_iff h.keys, not_not]

end RPCMapBaseline

namespace RPCBudgetDiff

variable {V S : Type} {codec : RPCCodec V S} {s : Store V} {b : RPCMapBaseline} {frame : Frame}

/-! ## The walk -/

/-- Where an updated entry's base value came from: a stale entry of the baseline, or the
frame. -/
def Origin (b : RPCMapBaseline) (u : SentUpdate × Option ℕ) : Prop :=
  match u.2 with
  | some h => b.stale[h]? = some (u.1.key, u.1.base)
  | none => u.1.key ∉ b.stale.map Prod.fst

/-- The walk as far as `done`: what an unbudgeted diff of the baseline's map finds, with
where each base value came from. -/
structure WalkedTo (codec : RPCCodec V S) (s : Store V) (b : RPCMapBaseline) (frame : Frame)
    (current : IntMap) (done : List (Side Key)) (w : Walked) : Prop where
  removed : w.removed = done.filterMap Side.right?
  added : w.added = (done.filterMap Side.left?).map (addOf codec s current)
  updated : w.updated.map Prod.fst =
    ((done.filterMap Side.both?).filter (changed codec s (b.asMap frame) current)).map
      (updateOf codec s (b.asMap frame) current)
  origin : ∀ u ∈ w.updated, Origin b u
  stale : w.stale =
    ((done.filterMap Side.inRight?).filter (· ∈ b.stale.map Prod.fst)).length

/-- The stale entry the walk has come to is that of the key it has come to, if that one is
stale. -/
theorem stale_at {done rest : List (Side Key)} {k : Key}
    (hstale : b.stale.map Prod.fst = ((done.filterMap Side.inRight? ++ k ::
      rest.filterMap Side.inRight?).filter (· ∈ b.stale.map Prod.fst))) :
    ((b.stale[((done.filterMap Side.inRight?).filter (· ∈ b.stale.map Prod.fst)).length]?).map
      Prod.fst = some k ↔ k ∈ b.stale.map Prod.fst) := by
  set isStale : Key → Bool := fun x => decide (x ∈ b.stale.map Prod.fst) with hdef
  rw [← List.getElem?_map]
  have hget : (b.stale.map Prod.fst)[((done.filterMap Side.inRight?).filter isStale).length]? =
      ((k :: rest.filterMap Side.inRight?).filter isStale).head? := by
    conv_lhs => rw [hstale]
    rw [List.filter_append, List.getElem?_append_right le_rfl, Nat.sub_self, List.head?_eq_getElem?]
  rw [hget]
  constructor
  · intro h
    have hmem := List.mem_of_mem_head? h
    simpa [hdef] using (List.mem_filter.1 hmem).2
  · intro h
    rw [List.filter_cons_of_pos (by simpa [hdef] using h)]
    rfl

section Walk

variable {values current : IntMap} {done rest : List (Side Key)} {w : Walked}

theorem WalkedTo.stale_at (h : WalkedTo codec s b frame current done w) {k : Key} {e : Side Key}
    (he : e.inRight? = some k)
    (hstale : b.stale.map Prod.fst = ((done ++ e :: rest).filterMap Side.inRight?).filter
      (· ∈ b.stale.map Prod.fst)) :
    (b.stale[w.stale]?).map Prod.fst = some k ↔ k ∈ b.stale.map Prod.fst := by
  rw [List.filterMap_append, List.filterMap_cons_some he] at hstale
  rw [h.stale]
  exact RPCBudgetDiff.stale_at hstale

/-- How many stale entries the walk passes with a key of the base. -/
theorem count_passed (stale : List Key) {k : Key} {e : Side Key} (he : e.inRight? = some k) :
    (((done ++ [e]).filterMap Side.inRight?).filter (· ∈ stale)).length =
      if k ∈ stale then ((done.filterMap Side.inRight?).filter (· ∈ stale)).length + 1
      else ((done.filterMap Side.inRight?).filter (· ∈ stale)).length := by
  rw [List.filterMap_append, List.filterMap_cons_some he, List.filter_append, List.length_append]
  split
  · rename_i hin
    rw [List.filter_cons_of_pos (by simpa using hin)]
    rfl
  · rename_i hin
    rw [List.filter_cons_of_neg (by simpa using hin)]
    rfl

theorem WalkedTo.step_right (h : WalkedTo codec s b frame current done w) {o : Key}
    (hstale : b.stale.map Prod.fst = ((done ++ .right o :: rest).filterMap Side.inRight?).filter
      (· ∈ b.stale.map Prod.fst)) :
    ∃ w', walkStep codec s frame.values b.stale values w (.right o) = .ok w' ∧
      WalkedTo codec s b frame current (done ++ [.right o]) w' := by
  refine ⟨_, rfl, ?_, ?_, ?_, h.origin, ?_⟩
  · simp [h.removed, Side.right?]
  · simp [h.added, Side.left?]
  · simp [h.updated, Side.both?]
  · have hat := h.stale_at rfl hstale
    rw [if_congr hat rfl rfl, h.stale, count_passed _ rfl]

theorem WalkedTo.step_left (h : WalkedTo codec s b frame current done w) {c : Key}
    (hc : c ∈ current) (hvalues : values.lookup c = current.lookup c) :
    ∃ w', walkStep codec s frame.values b.stale values w (.left c) = .ok w' ∧
      WalkedTo codec s b frame current (done ++ [.left c]) w' := by
  obtain ⟨value, hvalue⟩ := exists_lookup hc
  refine ⟨{ w with added := w.added ++ [addOf codec s current c] }, ?_, ?_, ?_, ?_, h.origin, ?_⟩
  · simp [walkStep, hvalues, hvalue, addOf]
  · simp [h.removed, Side.right?]
  · simp [h.added, Side.left?]
  · simp [h.updated, Side.both?]
  · simp [h.stale, Side.inRight?]

theorem WalkedTo.step_both (hb : b.MadeOn frame) (h : WalkedTo codec s b frame current done w)
    {c : Key} (hc : c ∈ current) (hk : c ∈ b.keys) (hvalues : values.lookup c = current.lookup c)
    (hstale : b.stale.map Prod.fst = ((done ++ .both c :: rest).filterMap Side.inRight?).filter
      (· ∈ b.stale.map Prod.fst)) :
    ∃ w', walkStep codec s frame.values b.stale values w (.both c) = .ok w' ∧
      WalkedTo codec s b frame current (done ++ [.both c]) w' := by
  have hat := h.stale_at rfl hstale
  obtain ⟨value, hvalue⟩ := exists_lookup hc
  -- where the base value is found
  obtain ⟨origin, was, hfound, horigin, hwas, hpassed⟩ : ∃ origin was,
      baseValue frame.values b.stale w.stale c = some (origin, was) ∧
      (∀ e : SentUpdate, e.key = c → e.base = was → Origin b (e, origin)) ∧
      b.refOf frame c = some was ∧ (origin.isSome ↔ c ∈ b.stale.map Prod.fst) := by
    by_cases hin : c ∈ b.stale.map Prod.fst
    · obtain ⟨⟨key, r⟩, hget, hkey⟩ := Option.map_eq_some_iff.1 (hat.2 hin)
      obtain rfl : key = c := hkey
      refine ⟨some w.stale, r, by simp [baseValue, hget], ?_, ?_, by simp [hin]⟩
      · rintro e rfl rfl
        exact hget
      · rw [RPCMapBaseline.refOf, hb.staleOf_eq_some.2 (List.mem_of_getElem? hget)]
    · have hnot : ∀ key r, b.stale[w.stale]? = some (key, r) → key ≠ c := by
        rintro key r hget rfl
        exact hin (hat.1 (by rw [hget]; rfl))
      obtain ⟨was, hwas⟩ := exists_lookup (hb.inFrame c hk)
      refine ⟨none, was, ?_, ?_, ?_, by simp [hin]⟩
      · unfold baseValue
        split
        · rename_i key r hget
          rw [if_neg (hnot key r hget), hwas]
          rfl
        · rw [hwas]
          rfl
      · rintro e rfl -
        exact hin
      · rw [RPCMapBaseline.refOf, RPCMapBaseline.staleOf_eq_none.2 hin, hwas]
  have hup : updateOf codec s (b.asMap frame) current c =
      ⟨c, was, value, maskOf codec s was value, highOf codec s was value⟩ := by
    simp [updateOf, RPCMapBaseline.lookup_asMap hk, hwas, hvalue]
  have hcount : (if origin.isSome then w.stale + 1 else w.stale) =
      (((done ++ [Side.both c]).filterMap Side.inRight?).filter
        (· ∈ b.stale.map Prod.fst)).length := by
    rw [if_congr hpassed rfl rfl, h.stale, count_passed _ rfl]
  by_cases hch : maskOf codec s was value ≠ 0 ∨ highOf codec s was value ≠ 0
  · have hchanged : changed codec s (b.asMap frame) current c = true := by
      rw [changed, hup]
      simpa using hch
    refine ⟨{ w with updated := w.updated ++ [(updateOf codec s (b.asMap frame) current c, origin)],
                     stale := if origin.isSome then w.stale + 1 else w.stale }, ?_, ?_, ?_, ?_, ?_,
      hcount⟩
    · simp only [walkStep, hfound, hvalues, hvalue]
      rw [if_pos hch, hup]
    · simp [h.removed, Side.right?]
    · simp [h.added, Side.left?]
    · simp [h.updated, Side.both?, hchanged]
    · intro u hu
      rcases List.mem_append.1 hu with hu | hu
      · exact h.origin u hu
      · obtain rfl := List.mem_singleton.1 hu
        exact horigin _ rfl (by rw [hup])
  · have hchanged : changed codec s (b.asMap frame) current c = false := by
      rw [changed, hup]
      simpa using hch
    refine ⟨{ w with stale := if origin.isSome then w.stale + 1 else w.stale }, ?_, ?_, ?_, ?_,
      h.origin, hcount⟩
    · simp only [walkStep, hfound, hvalues, hvalue]
      rw [if_neg hch]
    · simp [h.removed, Side.right?]
    · simp [h.added, Side.left?]
    · simp [h.updated, Side.both?, hchanged]

/-- The walk finds what the maps have, as far as it goes. -/
theorem WalkedTo.foldlM (hb : b.MadeOn frame)
    (hl : ∀ c, .left c ∈ rest → c ∈ current) (hboth : ∀ c, .both c ∈ rest → c ∈ b.keys ∧ c ∈ current)
    (hvalues : ∀ c ∈ current, values.lookup c = current.lookup c)
    (hstale : b.stale.map Prod.fst = ((done ++ rest).filterMap Side.inRight?).filter
      (· ∈ b.stale.map Prod.fst))
    (h : WalkedTo codec s b frame current done w) :
    ∃ w', rest.foldlM (walkStep codec s frame.values b.stale values) w = .ok w' ∧
      WalkedTo codec s b frame current (done ++ rest) w' := by
  induction rest generalizing done w with
  | nil => exact ⟨w, rfl, by rwa [List.append_nil]⟩
  | cons e rest ih =>
    obtain ⟨w₁, hstep, h₁⟩ : ∃ w₁, walkStep codec s frame.values b.stale values w e = .ok w₁ ∧
        WalkedTo codec s b frame current (done ++ [e]) w₁ := by
      cases e with
      | left c =>
        have hc := hl c List.mem_cons_self
        exact h.step_left hc (hvalues c hc)
      | right o => exact h.step_right hstale
      | both c =>
        obtain ⟨hk, hc⟩ := hboth c List.mem_cons_self
        exact h.step_both hb hc hk (hvalues c hc) hstale
    rw [List.append_cons] at hstale ⊢
    obtain ⟨w', hrest, h'⟩ := ih (fun c hc => hl c (List.mem_cons_of_mem _ hc))
      (fun c hc => hboth c (List.mem_cons_of_mem _ hc)) hstale h₁
    refine ⟨w', ?_, h'⟩
    rw [List.foldlM_cons, hstep]
    exact hrest

end Walk

/-- The view's map: the listed keys of the frame. -/
def viewMap (current : Frame) (currentKeys : List Key) : IntMap :=
  listed (RPCKeys.sortUnique currentKeys) current.values.lookup

theorem mem_viewMap {current : Frame} {currentKeys : List Key}
    (hkeys : ∀ k ∈ currentKeys, k ∈ current.values) {k : Key} :
    k ∈ viewMap current currentKeys ↔ k ∈ currentKeys := by
  rw [viewMap, mem_listed, RPCKeys.mem_sortUnique, AList.lookup_isSome]
  exact ⟨fun h => h.1, fun h => ⟨h, hkeys k h⟩⟩

/-- The walk of a budgeted diff finds what an unbudgeted one does, of the map the baseline
records. -/
theorem walkAll_spec (codec : RPCCodec V S) (s : Store V) (hb : b.MadeOn frame) {current : Frame} {currentKeys : List Key}
    (hkeys : ∀ k ∈ currentKeys, k ∈ current.values) :
    ∃ w, walkAll codec s b.keys frame.values b.stale current.values currentKeys = .ok w ∧
      WalkedTo codec s b frame (viewMap current currentKeys)
        (keyWalk (b.asMap frame) (viewMap current currentKeys)) w := by
  have hwalk : keyWalk (b.asMap frame) (viewMap current currentKeys) =
      walk (RPCKeys.sortUnique currentKeys) b.keys := by
    rw [keyWalk, viewMap, sortUnique_listed (RPCKeys.pairwise_sortUnique _)
      fun k hk => AList.lookup_isSome.2 (hkeys k (RPCKeys.mem_sortUnique.1 hk)),
      RPCMapBaseline.asMap, sortUnique_listed hb.keys fun k hk => hb.refOf_isSome hk]
  have hstart : WalkedTo codec s b frame (viewMap current currentKeys) [] ⟨[], [], [], 0⟩ :=
    ⟨rfl, rfl, rfl, fun u hu => absurd hu List.not_mem_nil, rfl⟩
  have hstale : b.stale.map Prod.fst =
      (([] ++ walk (RPCKeys.sortUnique currentKeys) b.keys).filterMap Side.inRight?).filter
        (· ∈ b.stale.map Prod.fst) := by
    rw [List.nil_append, SortedMerge.inRights_walk (RPCKeys.pairwise_sortUnique _) hb.keys]
    refine RPCKeys.eq_of_pairwise hb.stale (hb.keys.filter _) fun k => ?_
    rw [List.mem_filter, decide_eq_true_iff]
    exact ⟨fun hk => ⟨hb.sub k hk, hk⟩, fun hk => hk.2⟩
  rw [hwalk]
  refine hstart.foldlM hb (fun c hc => ?_) (fun c hc => ?_) (fun c hc => ?_) hstale
  · rw [← hwalk] at hc
    exact (mem_lefts_keyWalk.1 (List.mem_filterMap.2 ⟨_, hc, rfl⟩)).1
  · rw [← hwalk] at hc
    have hmem := mem_boths_keyWalk.1 (List.mem_filterMap.2 ⟨_, hc, rfl⟩)
    exact ⟨hb.mem_asMap.1 hmem.1, hmem.2⟩
  · rw [viewMap, lookup_listed, if_pos (RPCKeys.mem_sortUnique.2 ((mem_viewMap hkeys).1 hc))]

end RPCBudgetDiff

end CrossByte
