import CrossByte.Lib.Runs
import CrossByte.RPC.BudgetDiffed
import CrossByte.RPC.MapPatchReplication

/-!
# A budgeted replication stream

One observer over a connection in order.  Each tick the sender diffs a view of the tick's
frame against the baseline it has of the observer, within a budget, writes the patch once
the diff has returned, and the observer reads it and applies it to the map it holds.

`stream_agrees` is the stream: in every run whose ticks meet `Sound`, every tick goes
through, and after it the observer's map is what the baseline records, its keys and the
value of each.

`Sound` has two conditions of the code's.  The keys a tick carries have to be in reach of
one another, as for any map patch.  And a tick of a class with nested structures that
writes the base in place may not find both a change of a key held stale and a change of one
that is not: the commit then recycles the first one's stale value for the second, while the
patch, not written yet, still has it as a base, and what is written of the nested structure
is a difference from the wrong value (`stream_diverges`).
-/

namespace CrossByte

open Bytes (Byte)
open Parse
open RPCMapPatch

namespace RPCBudgetDiff

variable {V S : Type}

/-- An observer: its objects, its map, the values it keeps, and the patch it reads into. -/
structure Observer (V S : Type) where
  store : Store V
  map : IntMap
  spare : List Ref
  patch : Received V S

/-- The two ends: the sender's objects, the baseline it has of the observer, with the frame
that was made against, and the observer. -/
structure Link (V S : Type) where
  store : Store V
  held : Option (RPCMapBaseline × Frame)
  observer : Observer V S

/-- A tick: the sender's objects as the tick finds them, and the arguments of its diff and
of the observer's apply. -/
structure Tick (V : Type) where
  store : Store V
  full : Bool
  frame : Frame
  keys : List Key
  maxBytes : ℤ
  sent : SentTo
  recycle : Bool

variable (codec : RPCCodec V S)

def Link.tick (l : Link V S) (t : Tick V) : Except Thrown (Link V S) := do
  let d ← diffKeys codec t.store (if t.full then none else l.held.map Prod.snd)
    (l.held.map Prod.fst) t.frame t.keys t.maxBytes t.sent
  let (patch, _) ← read codec l.observer.patch (writeMapPatchArg codec d.store d.patch)
  let st ← apply codec patch l.observer.store l.observer.spare (some l.observer.map) .base t.recycle
  pure ⟨d.store, some (d.sent, t.frame), ⟨st.store, st.into, st.spare, patch⟩⟩

/-- A tick of a stream that has come through so far. -/
def step (l : Except Thrown (Link V S)) (t : Tick V) : Except Thrown (Link V S) := do
  let l ← l
  l.tick codec t

/-- A stream before its first tick: nothing is sent, and the observer holds nothing. -/
def Link.start (store observed : Store V) : Link V S :=
  ⟨store, none, ⟨observed, ∅, [], ⟨false, [], [], [], codec.newState, [], []⟩⟩⟩

/-- **The two ends agree**: the observer's map has the keys the baseline lists and answers
for, and under each the value `valueIn` gives. -/
def Agrees (l : Link V S) : Prop :=
  match l.held with
  | none => ∀ k, k ∉ l.observer.map
  | some (b, frame) =>
    b.keys = RPCKeys.sortUnique l.observer.map.keys ∧
      ∀ k, (b.has k = true ↔ k ∈ l.observer.map) ∧
        ∃ value, b.valueIn k frame = .ok value ∧
          view l.observer.store l.observer.map k = value.map l.store.content

/-! ## The conditions of a tick -/

/-- Whether a diff writes the base in place. -/
def SentTo.inPlace : SentTo → Bool
  | .base => true
  | .other _ => false

def Frame.refs (frame : Frame) : List Ref := frame.values.entries.map Sigma.snd

theorem Frame.mem_refs {frame : Frame} {k : Key} {r : Ref} (h : frame.values.lookup k = some r) :
    r ∈ Frame.refs frame :=
  List.mem_map.2 ⟨⟨k, r⟩, AList.mem_lookup_iff.1 h, rfl⟩

/-- The objects a baseline records values in: those of its frame, and the stale ones. -/
def refs (p : RPCMapBaseline × Frame) : List Ref := p.1.stale.map Prod.snd ++ Frame.refs p.2

/-- The baseline a tick writes. -/
def target (held : Option (RPCMapBaseline × Frame)) : SentTo → RPCMapBaseline
  | .base => (recorded held).1
  | .other b => b

/-- A baseline to write has objects of its own: those of the base it is, or others. -/
def SentTo.Fits (held : Option (RPCMapBaseline × Frame)) (s : Store V) : SentTo → Prop
  | .base => held.isSome
  | .other b => (owned b).Nodup ∧ ∀ r ∈ owned b,
      r < s.next ∧ r ∉ owned (recorded held).1 ∧ r ∉ refs (recorded held)

/-- A tick as a sender makes it.  What the baseline records is as it was; the view's keys
are in the frame; the frame's objects are not a baseline's own; and the baseline to write
has objects of its own. -/
structure Fits (l : Link V S) (t : Tick V) : Prop where
  next : l.store.next ≤ t.store.next
  kept : ∀ r ∈ refs (recorded l.held), t.store.content r = l.store.content r
  keys : ∀ k ∈ t.keys, k ∈ t.frame.values
  frame : ∀ r ∈ Frame.refs t.frame,
    r < t.store.next ∧ r ∉ owned (recorded l.held).1 ∧ r ∉ owned (target l.held t.sent)
  budget : 0 ≤ t.maxBytes
  sent : t.sent.Fits l.held t.store

/-- What the tick's diff is of. -/
def diffBase (l : Link V S) (t : Tick V) : Option (RPCMapBaseline × Frame) :=
  if t.full then none else l.held

/-- The keys of the view whose values are not those the observer holds. -/
def tickChanges (l : Link V S) (t : Tick V) : List Key :=
  changedKeys codec t.store ((recorded (diffBase l t)).1.asMap (recorded (diffBase l t)).2)
    (viewMap t.frame t.keys)

/-- Any two of the keys are within `2 ^ 31`. -/
def Within (keys : List Key) : Prop := ∀ k ∈ keys, ∀ k' ∈ keys, k'.val - k.val ≤ 2 ^ 31

/-- The keys a tick may carry are in reach of one another: neighbours of those removed, and
any two of those added or updated. -/
structure Reach (l : Link V S) (t : Tick V) : Prop where
  removed : RPCKeys.Near ((recorded (diffBase l t)).1.keys.filter (· ∉ t.keys))
  added : Within (t.keys.filter (· ∉ (recorded (diffBase l t)).1.keys))
  updated : Within (tickChanges codec l t)

/-- The tick's patch, where its diff makes one, is as long as an `Int` counts. -/
def Short (l : Link V S) (t : Tick V) : Prop :=
  match diffKeys codec t.store (if t.full then none else l.held.map Prod.snd)
    (l.held.map Prod.fst) t.frame t.keys t.maxBytes t.sent with
  | .ok d => (writeMapPatchArg codec d.store d.patch).length < 2 ^ 31
  | .error _ => True

/-- **A tick that goes through**: it fits; the keys it may carry are in reach of one another;
its patch is as long as an `Int` counts; and the class has no nested structures, or the
base is not written in place, or the keys that changed are all held stale or none is. -/
structure Sound (l : Link V S) (t : Tick V) : Prop where
  fits : Fits l t
  reach : Reach codec l t
  short : Short codec l t
  unmixed : Flat codec ∨ t.sent.inPlace = false ∨
    ¬ Mixed codec t.store (recorded (diffBase l t)).1 (recorded (diffBase l t)).2
      (viewMap t.frame t.keys)

/-- A condition of the ticks of a stream, in the states they find it in. -/
def Meets (P : Link V S → Tick V → Prop) : Except Thrown (Link V S) → Tick V → Prop
  | .ok l, t => P l t
  | .error _, _ => True

section Decidable

variable {l : Link V S} {t : Tick V}

instance : ∀ {held : Option (RPCMapBaseline × Frame)} {s : Store V} {sent : SentTo},
    Decidable (sent.Fits held s)
  | held, _, .base => inferInstanceAs (Decidable (held.isSome = true))
  | _, _, .other _ => inferInstanceAs (Decidable (_ ∧ _))

instance [DecidableEq V] : Decidable (Fits l t) :=
  decidable_of_iff (l.store.next ≤ t.store.next ∧
      (∀ r ∈ refs (recorded l.held), t.store.content r = l.store.content r) ∧
      (∀ k ∈ t.keys, k ∈ t.frame.values) ∧
      (∀ r ∈ Frame.refs t.frame, r < t.store.next ∧ r ∉ owned (recorded l.held).1 ∧
        r ∉ owned (target l.held t.sent)) ∧ 0 ≤ t.maxBytes ∧ t.sent.Fits l.held t.store)
    ⟨fun ⟨h₁, h₂, h₃, h₄, h₅, h₆⟩ => ⟨h₁, h₂, h₃, h₄, h₅, h₆⟩,
      fun ⟨h₁, h₂, h₃, h₄, h₅, h₆⟩ => ⟨h₁, h₂, h₃, h₄, h₅, h₆⟩⟩

instance {keys : List Key} : Decidable (Within keys) :=
  inferInstanceAs (Decidable (∀ k ∈ keys, ∀ k' ∈ keys, k'.val - k.val ≤ 2 ^ 31))

instance {keys : List Key} : Decidable (RPCKeys.Near keys) :=
  inferInstanceAs (Decidable (keys.IsChain _))

instance : Decidable (Reach codec l t) :=
  decidable_of_iff (RPCKeys.Near ((recorded (diffBase l t)).1.keys.filter (· ∉ t.keys)) ∧
      Within (t.keys.filter (· ∉ (recorded (diffBase l t)).1.keys)) ∧
      Within (tickChanges codec l t))
    ⟨fun ⟨h₁, h₂, h₃⟩ => ⟨h₁, h₂, h₃⟩, fun ⟨h₁, h₂, h₃⟩ => ⟨h₁, h₂, h₃⟩⟩

instance : Decidable (Short codec l t) := by
  unfold Short
  split <;> infer_instance

instance {P : Link V S → Tick V → Prop} [∀ l t, Decidable (P l t)] :
    ∀ {l : Except Thrown (Link V S)} {t : Tick V}, Decidable (Meets P l t)
  | .ok l, t => inferInstanceAs (Decidable (P l t))
  | .error _, _ => isTrue trivial

end Decidable

/-! ## A tick -/

variable {codec} {l : Link V S} {t : Tick V}

/-- What holds between ticks: the observer's objects are apart, the baseline is made on its
frame, its own objects are apart from the frame's, and what it records is what the observer
holds. -/
structure Link.Inv (l : Link V S) : Prop where
  apart : Applying.Apart (fun _ => none) ⟨l.observer.store, l.observer.map, l.observer.spare⟩
  made : (recorded l.held).1.MadeOn (recorded l.held).2
  owns : Owns l.store (recorded l.held).1
  frame : ∀ k r, (recorded l.held).2.values.lookup k = some r →
    r < l.store.next ∧ r ∉ owned (recorded l.held).1
  same : ∀ k, view l.observer.store l.observer.map k =
    view l.store ((recorded l.held).1.asMap (recorded l.held).2) k

theorem Link.Inv.start (codec : RPCCodec V S) (store observed : Store V) :
    (Link.start codec store observed).Inv where
  apart := ⟨fun k k' r hr => absurd hr (by simp [Applying.Holds, Link.start]), .nil,
    nofun, fun k r hr => absurd hr (by
      simp [Applying.Holds, Link.start]), nofun⟩
  made := nothing_madeOn
  owns := ⟨.nil, nofun⟩
  frame := fun k r hr => absurd hr (by simp [recorded, Link.start])
  same := fun k => rfl

/-- The two ends agree between ticks. -/
theorem Link.Inv.agrees (h : l.Inv) : Agrees l := by
  unfold Agrees
  split
  · rename_i hheld
    have hsame := h.same
    rw [hheld] at hsame
    exact fun k => view_eq_none.1 (hsame k)
  · rename_i b frame hheld
    obtain ⟨-, hmade, -, -, hsame⟩ := h
    rw [hheld] at hmade hsame
    have hmade : b.MadeOn frame := hmade
    have hmem : ∀ k, k ∈ b.keys ↔ k ∈ l.observer.map := by
      intro k
      rw [← hmade.mem_asMap, ← view_isSome (s := l.store), ← view_isSome (s := l.observer.store),
        hsame]
      rfl
    refine ⟨RPCKeys.eq_of_pairwise hmade.keys (RPCKeys.pairwise_sortUnique _) fun k => ?_,
      fun k => ⟨?_, _, hmade.valueIn_eq k, hsame k⟩⟩
    · rw [RPCKeys.mem_sortUnique, hmem, AList.mem_keys]
    · rw [hmade.has_iff, hmade.mem_asMap, hmem]

/-- The diff of a tick that fits has its arguments checked. -/
theorem Fits.diffKeys_eq (hl : l.Inv) (h : Fits l t) :
    diffKeys codec t.store (if t.full then none else l.held.map Prod.snd) (l.held.map Prod.fst)
      t.frame t.keys t.maxBytes t.sent =
    diffChecked codec t.store (diffBase l t) t.frame t.keys t.maxBytes t.sent.inPlace
      (target l.held t.sent) := by
  have hbudget := not_lt.2 h.budget
  have hsent := h.sent
  have hmade := hl.made.isFrame
  unfold diffKeys diffBase
  cases hs : t.sent with
  | base =>
    cases hheld : l.held with
    | none => simp [hs, hheld, SentTo.Fits] at hsent
    | some p =>
      rw [hheld] at hmade
      cases hfull : t.full <;> simp_all [SentTo.inPlace, target, recorded]
  | other b =>
    cases hheld : l.held with
    | none => cases hfull : t.full <;> simp_all [SentTo.inPlace, target, recorded]
    | some p =>
      rw [hheld] at hmade
      cases hfull : t.full <;> simp_all [SentTo.inPlace, target, recorded]

/-- What the tick's diff is of, of a link between ticks. -/
theorem Fits.ground (hl : l.Inv) (h : Fits l t) :
    Ground t.store (recorded (diffBase l t)).1 (recorded (diffBase l t)).2 t.frame t.keys
      t.sent.inPlace (target l.held t.sent) := by
  -- what the baseline records is no object of the one written, but in place
  have hrefs : ∀ r ∈ refs (recorded l.held), t.sent.inPlace = false →
      r ∉ owned (target l.held t.sent) := by
    intro r hr hin hown
    have hsent := h.sent
    cases hs : t.sent with
    | base => simp [hs, SentTo.inPlace] at hin
    | other b =>
      rw [hs] at hsent hown
      exact (hsent.2 r hown).2.2 hr
  have howns : Owns t.store (target l.held t.sent) := by
    have hsent := h.sent
    cases hs : t.sent with
    | base => exact ⟨hl.owns.nodup, fun r hr => (hl.owns.made r hr).trans_le h.next⟩
    | other b =>
      rw [hs] at hsent
      exact ⟨hsent.1, fun r hr => (hsent.2 r hr).1⟩
  have hview : ∀ k r, t.frame.values.lookup k = some r →
      r < t.store.next ∧ r ∉ owned (target l.held t.sent) := by
    intro k r hr
    have hframe := h.frame r (Frame.mem_refs hr)
    exact ⟨hframe.1, hframe.2.2⟩
  unfold diffBase
  cases hfull : t.full with
  | true => exact ⟨nothing_madeOn, h.keys, howns, hview, fun k r hr => by simp [recorded] at hr,
      fun r hr => by simp [recorded] at hr, fun _ i e he => by simp [recorded] at he⟩
  | false =>
    refine ⟨hl.made, h.keys, howns, hview, fun k r hr => ?_, fun r hr => ?_, fun hin i e he => ?_⟩
    · obtain ⟨hlt, hnot⟩ := hl.frame k r hr
      refine ⟨hlt.trans_le h.next, ?_⟩
      cases hs : t.sent with
      | base => exact hnot
      | other b =>
        rw [hs] at hrefs
        exact hrefs r (List.mem_append_right _ (Frame.mem_refs hr)) rfl
    · exact ⟨(hl.owns.made r (List.mem_append_left _ hr)).trans_le h.next,
        hrefs r (List.mem_append_left _ hr)⟩
    · cases hs : t.sent with
      | base => exact he
      | other b => simp [hs, SentTo.inPlace] at hin

theorem Within.near {keys keys' : List Key} (h : Within keys') (hsub : ∀ k ∈ keys, k ∈ keys') :
    RPCKeys.Near keys := by
  refine List.Pairwise.isChain (List.pairwise_iff_forall_sublist.2 fun hab => ?_)
  have hin := hab.subset
  exact h _ (hsub _ (hin (by simp))) _ (hsub _ (hin (by simp)))

theorem Reach.nearKeys (hc : codec.RoundTrips) (h : Reach codec l t) {w : Walked} {plan : Plan}
    (hp : Planned codec t.store (recorded (diffBase l t)).1 (recorded (diffBase l t)).2 t.frame
      t.keys t.sent.inPlace (target l.held t.sent) w plan) (full : Bool) :
    (plan.patch full w.removed).NearKeys := by
  have hfrom := hp.walked.from_view false hc (fun hf => absurd hf (by simp))
  have hmem : ∀ k, k ∈ viewMap t.frame t.keys ↔ k ∈ t.keys := fun k => mem_viewMap hp.keys
  refine ⟨?_, h.added.near fun k hk => ?_, h.updated.near fun k hk => ?_⟩
  · have hsorted : w.removed.Pairwise (· < ·) := hfrom.removed
    have hremoved : w.removed = (recorded (diffBase l t)).1.keys.filter (· ∉ t.keys) := by
      refine RPCKeys.eq_of_pairwise hsorted (hp.made.keys.filter _) fun k => ?_
      rw [show k ∈ w.removed ↔ _ from hfrom.mem_removed k, view_isSome, view_eq_none,
        hp.made.mem_asMap, hmem]
      simp
    rw [hremoved]
    exact h.removed
  · have hadd := (hfrom.mem_added k).1 ((hp.splits.added.map _).subset hk)
    rw [view_eq_none, view_isSome, hp.made.mem_asMap, hmem] at hadd
    simpa using ⟨hadd.2, hadd.1⟩
  · obtain ⟨e, he, rfl⟩ := List.mem_map.1 hk
    obtain ⟨u, hu, rfl⟩ := List.mem_map.1 he
    exact (hp.walked.updated_base hp.made (hp.splits.updated.subset hu)).1

/-- What the observer holds when the tick's patch is not full is what its diff is of. -/
theorem Fits.same (hl : l.Inv) (h : Fits l t) (hfull : (diffBase l t).isNone = false) (k : Key) :
    view l.observer.store l.observer.map k =
      view t.store ((recorded (diffBase l t)).1.asMap (recorded (diffBase l t)).2) k := by
  have hbase : diffBase l t = l.held := by
    unfold diffBase at hfull ⊢
    split at hfull
    · simp at hfull
    · rename_i hf
      rw [if_neg hf]
  rw [hl.same, hbase]
  refine Option.map_congr fun r hr => (h.kept r ?_).symm
  have hk := hl.made.mem_asMap.1 (mem_of_lookup hr)
  rw [RPCMapBaseline.lookup_asMap hk, RPCMapBaseline.refOf] at hr
  split at hr
  · rename_i r' hstale
    obtain rfl := Option.some.inj hr
    exact List.mem_append_left _ (List.mem_map.2 ⟨_, hl.made.staleOf_eq_some.1 hstale, rfl⟩)
  · exact List.mem_append_right _ (Frame.mem_refs hr)

/-- **A sound tick goes through, and the two ends agree after it.** -/
theorem Sound.tick (hc : codec.RoundTrips) (hl : l.Inv) (h : Sound codec l t) :
    ∃ l', l.tick codec t = .ok l' ∧ l'.Inv := by
  obtain ⟨w, plan, hp, hdiff⟩ := diffChecked_spec (h.fits.ground hl) codec t.maxBytes
  rw [← h.fits.diffKeys_eq hl] at hdiff
  set full := (diffBase l t).isNone
  set s' := (commit codec t.store t.sent.inPlace (target l.held t.sent)
    (RPCKeys.sortUnique t.keys) plan t.frame).1
  set b' := (commit codec t.store t.sent.inPlace (target l.held t.sent)
    (RPCKeys.sortUnique t.keys) plan t.frame).2
  -- the patch, as it is written
  have hwrite := hp.write_eq (h.unmixed.imp_right (Or.imp_right hp.not_recycles)) full
  have hlen := h.short
  rw [Short, hdiff] at hlen
  have hempty : full → (recorded (diffBase l t)).1.asMap (recorded (diffBase l t)).2 = ∅ := by
    intro hf
    rw [Option.isNone_iff_eq_none.1 hf]
    rfl
  have hfrom := hp.splits.carried (hp.walked.from_view full hc hempty)
  dsimp only at hlen
  rw [hwrite] at hlen
  -- the patch, as it is read and applied
  obtain ⟨patch, hreads, hsent⟩ := reads_patch hc hfrom.toReady hlen (h.reach.nearKeys hc hp full)
    l.observer.patch
  have hread : read codec l.observer.patch (writeMapPatchArg codec s' (plan.patch full w.removed)) =
      .ok (patch, []) := by
    have := hreads []
    rwa [List.append_nil, ← hwrite] at this
  have happlied : ApartFor l.observer.store l.observer.spare patch.isFull (some l.observer.map)
      .base := ⟨_, rfl, hl.apart⟩
  obtain ⟨st, happly, hapart, hviews⟩ := apply_spec hc (hsent.describes hfrom)
    (fun hf => ⟨_, rfl, h.fits.same hl (hsent.isFull.symm.trans hf)⟩) happlied t.recycle
  refine ⟨⟨s', some (b', t.frame), ⟨st.store, st.into, st.spare, patch⟩⟩, ?_, hapart, hp.madeOn hc,
    (hp.committed hc).owns, fun k r hr => ?_, fun k => ?_⟩
  · unfold Link.tick
    rw [hdiff]
    dsimp only [bind, Except.bind]
    rw [hread]
    dsimp only
    rw [happly]
    rfl
  · obtain ⟨hlt, hnot⟩ := hp.ofView k r hr
    refine ⟨hlt.trans_le (hp.committed hc).next, fun hin => ?_⟩
    rcases (hp.committed hc).origin r hin with hown | hge
    · exact hnot hown
    · exact absurd hlt (not_lt.2 hge)
  · exact (hviews k).trans (hp.records hc k).symm

/-- **A budgeted stream never diverges while its ticks are sound**: every tick goes through,
and after it the observer's map is what the baseline records. -/
theorem stream_agrees (hc : codec.RoundTrips) (store observed : Store V) (ticks : List (Tick V))
    (hticks : Runs.Along (step codec) (Meets (Sound codec))
      (.ok (Link.start codec store observed)) ticks) :
    ∃ l, Runs.run (step codec) (.ok (Link.start codec store observed)) ticks = .ok l ∧
      Agrees l := by
  have hrun : ∃ l, Runs.run (step codec) (.ok (Link.start codec store observed)) ticks = .ok l ∧
      l.Inv := by
    refine Runs.run_invariant_along (P := fun l => ∃ l', l = .ok l' ∧ Link.Inv l')
      ⟨_, rfl, .start codec store observed⟩ ?_ hticks
    rintro _ t ⟨l, rfl, hl⟩ hsound
    exact Sound.tick hc hl hsound
  obtain ⟨l, hl, hinv⟩ := hrun
  exact ⟨l, hl, hinv.agrees⟩

/-! ## A class with a nested structure -/

/-- A nested structure of two fields. -/
structure Pair where
  x : Byte
  y : Byte
  deriving DecidableEq, Repr

/-- The patch of the nested structure, its mask taken as the patch is written. -/
def Pair.patch (base current : Pair) : List Byte :=
  ((if base.x = current.x then 0 else 1) + if base.y = current.y then 0 else 2) ::
    ((if base.x = current.x then [] else [current.x]) ++
      if base.y = current.y then [] else [current.y])

/-- Read a field whose bit the mask may have. -/
def Pair.readField (mask bit : Byte) : Parser Thrown (Option Byte) :=
  if mask &&& bit = 0 then pure none else some <$> ByteArrayInput.readByte

/-- The codec of a class whose one field is a nested structure. -/
def pairCodec : RPCCodec Pair (Option (Option Byte × Option Byte)) where
  fieldCount := 1
  initial := ⟨0, 0⟩
  mask a b := if a = b then 0 else 1
  maskHigh _ _ := 0
  writePatch a b mask _ := if mask &&& 1 = 0 then [0] else 1 :: a.patch b
  newState := none
  readPatch _ := do
    let mask ← ByteArrayInput.readByte
    if mask &&& 1 = 0 then pure none
    else do
      let nested ← ByteArrayInput.readByte
      let x ← Pair.readField nested 1
      let y ← Pair.readField nested 2
      pure (some (x, y))
  apply state base _ :=
    let was := base.getD ⟨0, 0⟩
    match state with
    | none => was
    | some (x, y) => ⟨x.getD was.x, y.getD was.y⟩
  copy x _ := x
  patchBound := 4
  patchSize a b mask _ := if mask &&& 1 = 0 then 1 else 1 + (a.patch b).length

theorem pairCodec_roundTrips : pairCodec.RoundTrips where
  eq_of_same x y h := by
    by_contra hne
    simp [RPCCodec.same, pairCodec, hne] at h
  patch a b s₀ := by
    have hfield : ∀ was now : Byte, (if was = now then none else some now).getD was = now := by
      intro was now
      split
      · assumption
      · rfl
    by_cases hab : a = b
    · subst hab
      refine ⟨none, ?_, fun _ => rfl, fun ha _ => ha.symm⟩
      rw [show pairCodec.mask a a = 0 from if_pos rfl]
      exact fun rest => rfl
    · refine ⟨some (if a.x = b.x then none else some b.x, if a.y = b.y then none else some b.y), ?_,
        fun _ => ?_, ?_⟩
      · rw [show pairCodec.mask a b = 1 from if_neg hab]
        change Reads _ (1 :: a.patch b) _
        unfold Pair.patch
        split_ifs <;> exact fun rest => rfl
      · change Pair.mk _ _ = b
        exact congrArg₂ Pair.mk (hfield _ _) (hfield _ _)
      · rintro rfl _
        change Pair.mk _ _ = b
        exact congrArg₂ Pair.mk (hfield _ _) (hfield _ _)
  patch_ne_nil x y m h := by
    change (if m &&& 1 = 0 then [0] else 1 :: x.patch y) ≠ []
    split <;> simp
  copy x target := rfl

/-- Objects of these contents. -/
def objects (contents : List Pair) : Store Pair := ⟨fun r => contents.getD r ⟨0, 0⟩, contents.length⟩

/-- A frame of the keys 1 and 2. -/
def frameOf (id : ℕ) (first second : Ref) : Frame :=
  ⟨id, AList.insert key1 first (AList.insert key2 second ∅)⟩

/-- Three ticks of keys 1 and 2, the last one's baseline given.  The second has no room for
the change of key 1, which the observer then holds stale; the third has changes of both keys
and room for the first. -/
def threeTicks (last : SentTo) : List (Tick Pair) :=
  [⟨objects [⟨1, 1⟩, ⟨2, 2⟩], true, frameOf 1 0 1, [key1, key2], 100, .other .new, false⟩,
   ⟨objects [⟨1, 1⟩, ⟨2, 2⟩, ⟨1, 3⟩], false, frameOf 2 2 1, [key1, key2], 0, .base, false⟩,
   ⟨objects [⟨1, 1⟩, ⟨2, 2⟩, ⟨1, 3⟩, ⟨1, 1⟩, ⟨1, 2⟩, ⟨7, 7⟩], false, frameOf 3 4 5, [key1, key2], 7,
     last, false⟩]

/-- A stream of the class with a nested structure, before its first tick. -/
def pairStart : Except Thrown (Link Pair (Option (Option Byte × Option Byte))) :=
  .ok (Link.start pairCodec (objects []) (objects []))

/-- The value the baseline records of a key. -/
def Link.recordedAt (l : Link V S) (k : Key) : Option V := do
  let (b, frame) ← l.held
  let value ← (b.valueIn k frame).toOption
  value.map l.store.content

theorem Agrees.recordedAt_eq (h : Agrees l) (k : Key) :
    l.recordedAt k = view l.observer.store l.observer.map k := by
  unfold Agrees at h
  unfold Link.recordedAt
  split at h
  · rename_i hheld
    rw [hheld, view_eq_none.2 (h k)]
    rfl
  · rename_i b frame hheld
    obtain ⟨value, hvalue, hview⟩ := (h.2 k).2
    rw [hheld, hview]
    change (b.valueIn k frame).toOption.bind _ = _
    rw [hvalue]
    rfl

/-- The three ticks with a fresh baseline for the last one: the observer has the change. -/
theorem threeTicks_agree :
    ∃ l, Runs.run (step pairCodec) pairStart (threeTicks (.other .new)) = .ok l ∧ Agrees l := by
  refine stream_agrees pairCodec_roundTrips (objects []) (objects []) _ ?_
  have hticks : Runs.Along (step pairCodec) (Meets fun l t => Fits l t ∧ Reach pairCodec l t ∧
      Short pairCodec l t ∧ (t.sent.inPlace = false ∨ ¬ Mixed pairCodec t.store
        (recorded (diffBase l t)).1 (recorded (diffBase l t)).2 (viewMap t.frame t.keys)))
      pairStart (threeTicks (.other .new)) := by
    decide +kernel
  refine hticks.imp fun l t => ?_
  cases l with
  | error e => exact id
  | ok l => exact fun ⟨hfits, hreach, hshort, hunmixed⟩ => ⟨hfits, hreach, hshort, .inr hunmixed⟩

/-- **A stream that diverges.**  The three ticks, each writing the base in place: the third
one's patch is written from key 1's stale value after that object has been recycled for key
2, and of the change of key 1 the observer gets the wrong field. -/
theorem stream_diverges :
    pairCodec.RoundTrips ∧
      Runs.Along (step pairCodec)
        (Meets fun l t => Fits l t ∧ Reach pairCodec l t ∧ Short pairCodec l t) pairStart
        (threeTicks .base) ∧
      ∃ l, Runs.run (step pairCodec) pairStart (threeTicks .base) = .ok l ∧ ¬ Agrees l := by
  refine ⟨pairCodec_roundTrips, by decide +kernel, ?_⟩
  have hkey : (Runs.run (step pairCodec) pairStart (threeTicks .base)).toOption.map (fun l =>
      (l.recordedAt key1, view l.observer.store l.observer.map key1)) =
      some (some ⟨1, 2⟩, some ⟨1, 1⟩) := by
    decide +kernel
  cases hrun : Runs.run (step pairCodec) pairStart (threeTicks .base) with
  | error e =>
    rw [hrun] at hkey
    cases hkey
  | ok l =>
    rw [hrun] at hkey
    refine ⟨l, rfl, fun hagrees => ?_⟩
    obtain ⟨hrecorded, hview⟩ := Prod.mk.inj (Option.some.inj hkey)
    have heq := hrecorded.symm.trans ((hagrees.recordedAt_eq key1).trans hview)
    exact absurd heq (by decide)

end RPCBudgetDiff

end CrossByte
