import CrossByte.RPC.MapPatchApply

/-!
# Replication by map patches

The two ends together.  The sender diffs its current map against the base the receiver
holds and writes the patch; the receiver reads it and applies it to that base, onto itself
or onto any other map, in which each value is an object of its own (`ApartFor`).
`replicates_iff_inReach` says exactly when such a receiver then has the current map: when,
in each of the three groups of keys the patch carries, neighbouring keys are at most
`2 ^ 31` apart.

The condition on the keys is the reader's.  A gap of `2 ^ 31` or more is written as 32 bits
unsigned and read as a negative `Int`, which `nextKey` refuses; `farKeys_do_not_read` is the
two ends of the 32-bit range added by one patch.  The one on the objects is the apply's: it
patches values where they are, so `sharedObject_is_patched_twice`, for a map that has one
object under two keys.
-/

namespace CrossByte

open Bytes (Byte)

namespace RPCMapPatch

variable {V S : Type} {codec : RPCCodec V S} {s : Store V}

/-- The value objects an apply works on are apart: those of the map it sets, the spare
ones, and, for another map than the base, the base's. -/
def ApartFor (store : Store V) (spare : List Ref) (full : Bool) (base : Option IntMap) :
    Target → Prop
  | .base => ∃ m, base = some m ∧ Applying.Apart (fun _ => none) ⟨store, m, spare⟩
  | .other into => Applying.Apart (fun k => if full then none else base.bind (·.lookup k))
      ⟨store, into, spare⟩

variable {base : Option IntMap} {current : IntMap}

/-- A patch that arrived, applied to the map it is from, makes the map it is to, whatever
map it is applied onto. -/
theorem apply_spec (hc : codec.RoundTrips) {patch : Received V S} {was now : Key → Option V}
    (hd : patch.Describes codec was now) {store : Store V} {spare : List Ref} {target : Target}
    (hbase : patch.isFull = false → ∃ m, base = some m ∧ ∀ k, view store m k = was k)
    (hapart : ApartFor store spare patch.isFull base target) (recycle : Bool) :
    ∃ st, apply codec patch store spare base target recycle = .ok st ∧
      Applying.Apart (fun _ => none) st ∧ ∀ k, view st.store st.into k = now k := by
  -- a full patch is applied to nothing
  have hfull : ∀ into, patch.isFull = true →
      Applying.Apart (fun _ => none) ⟨store, into, spare⟩ →
      ∃ st, Applying.applyKeys codec patch none [] into.keys recycle ⟨store, into, spare⟩ = .ok st ∧
        Applying.Apart (fun _ => none) st ∧ ∀ k, view st.store st.into k = now k := by
    intro into hf h
    have h : Applying.Apart (fun k => (none : Option IntMap).bind (·.lookup k))
        ⟨store, into, spare⟩ := h
    exact Applying.applyKeys_spec hc hd h (fun k => (hd.was_none hf k).symm)
      (fun m hm => absurd hm (by simp)) .nil (fun k hk => AList.mem_keys.1 hk) recycle
  cases target with
  | base =>
    obtain ⟨m, rfl, h⟩ := hapart
    unfold apply
    cases hf : patch.isFull with
    | true => exact hfull m hf h
    | false =>
      obtain ⟨m', hm', hview⟩ := hbase hf
      obtain rfl := Option.some.inj hm'
      exact Applying.applyInPlace_spec hc hd h hview recycle
  | other into =>
    unfold apply
    cases hf : patch.isFull with
    | true =>
      have h : Applying.Apart (fun _ => none) ⟨store, into, spare⟩ := by
        simpa [ApartFor, hf] using hapart
      exact hfull into hf h
    | false =>
      obtain ⟨m, rfl, hview⟩ := hbase hf
      have h : Applying.Apart (fun k => (some m).bind (·.lookup k)) ⟨store, into, spare⟩ := by
        simpa [ApartFor, hf] using hapart
      exact Applying.applyKeys_spec hc hd h hview
        (fun m' hm' k => by rw [RPCKeys.mem_sortUnique, Option.some.inj hm', AList.mem_keys])
        (RPCKeys.pairwise_sortUnique m.keys) (fun k hk => AList.mem_keys.1 hk) recycle

/-- A receiver of the patch: its objects, the spare ones, the map it holds as the base, and the map
it applies the patch onto. -/
structure Receiver (V : Type) where
  store : Store V
  spare : List Ref
  held : Option IntMap
  target : Target

/-- The receiver holds the base's contents, in objects of their own. -/
structure Receiver.Ready (r : Receiver V) (s : Store V) (base : Option IntMap) : Prop where
  holds : ∀ b, base = some b → ∃ m, r.held = some m ∧ ∀ k, view r.store m k = view s b k
  apart : ApartFor r.store r.spare base.isNone r.held r.target

/-- What the patch of these bytes is for: it reads, into any patch read before, and the receiver
that applies it has the current map's contents, under exactly its keys. -/
def Replicates (codec : RPCCodec V S) (s : Store V) (current : IntMap) (bytes : List Byte)
    (r : Receiver V) : Prop :=
  ∀ (old : Received V S) (recycle : Bool), ∃ patch, read codec old bytes = .ok (patch, []) ∧
    ∃ st, apply codec patch r.store r.spare r.held r.target recycle = .ok st ∧
      ∀ k, view st.store st.into k = view s current k

/-- In each group of keys the patch carries (those only the base has, those only the
current map has, those both have with values that differ), no two neighbours are more than
`2 ^ 31` apart. -/
structure InReach (codec : RPCCodec V S) (s : Store V) (base : Option IntMap) (current : IntMap) :
    Prop where
  removed : RPCKeys.Bridged {k | k ∈ base.getD ∅ ∧ k ∉ current}
  added : RPCKeys.Bridged {k | k ∈ current ∧ k ∉ base.getD ∅}
  updated : RPCKeys.Bridged {k | Changed codec s (base.getD ∅) current k}

theorem nearKeys_iff_inReach {p : Sent}
    (hp : p.From codec s (view s (base.getD ∅)) (view s current))
    (hup : ∀ k, k ∈ p.updated.map SentUpdate.key ↔ Changed codec s (base.getD ∅) current k) :
    p.NearKeys ↔ InReach codec s base current := by
  have hr : {k | k ∈ p.removed} = {k | k ∈ base.getD ∅ ∧ k ∉ current} := by
    ext k
    simp [hp.mem_removed, view_isSome, view_eq_none]
  have ha : {k | k ∈ p.added.map SentAdd.key} = {k | k ∈ current ∧ k ∉ base.getD ∅} := by
    ext k
    change k ∈ p.added.map SentAdd.key ↔ k ∈ current ∧ k ∉ base.getD ∅
    rw [hp.mem_added, view_isSome, view_eq_none, and_comm]
  have hu : {k | k ∈ p.updated.map SentUpdate.key} = {k | Changed codec s (base.getD ∅) current k} :=
    Set.ext hup
  rw [Sent.NearKeys, RPCKeys.near_iff_bridged hp.removed, RPCKeys.near_iff_bridged hp.added,
    RPCKeys.near_iff_bridged hp.updated, hr, ha, hu]
  exact ⟨fun h => ⟨h.1, h.2.1, h.2.2⟩, fun h => ⟨h.removed, h.added, h.updated⟩⟩

/-- **Map patches replicate exactly, for keys in reach.**  Any base (none for a full patch)
and any current map diff to a patch; and where its bytes are as many as an `Int` counts, every
receiver that is ready for it has the current map exactly when the keys it carries are in reach. -/
theorem replicates_iff_inReach (hc : codec.RoundTrips) (s : Store V) (base : Option IntMap)
    (current : IntMap) :
    ∃ p, diff codec s base current = .ok p ∧
      ((writeMapPatchArg codec s p).length < 2 ^ 31 → ∀ r : Receiver V, r.Ready s base →
        (Replicates codec s current (writeMapPatchArg codec s p) r ↔
          InReach codec s base current)) := by
  obtain ⟨p, hdiff, hp, hfull, hup⟩ := diff_spec hc (s := s) base current
  refine ⟨p, hdiff, fun hlen r hr => ?_⟩
  rw [← nearKeys_iff_inReach hp hup]
  constructor
  · intro hrep
    by_contra hfar
    obtain ⟨patch, hread, -⟩ := hrep ⟨false, [], [], [], codec.newState, [], []⟩ false
    have hfails := fails_patch hc hp.toReady hlen hfar
      (⟨false, [], [], [], codec.newState, [], []⟩ : Received V S) []
    rw [List.append_nil] at hfails
    rw [read, hfails] at hread
    exact absurd hread (by simp)
  · intro hnear old recycle
    obtain ⟨patch, hreads, hsent⟩ := reads_patch hc hp.toReady hlen hnear old
    have hd := hsent.describes hp
    refine ⟨patch, ?_, ?_⟩
    · have h := hreads []
      rwa [List.append_nil] at h
    · have hisFull : patch.isFull = base.isNone := hsent.isFull.trans hfull
      have hbase : patch.isFull = false → ∃ m, r.held = some m ∧
          ∀ k, view r.store m k = view s (base.getD ∅) k := by
        intro hf
        rw [hisFull] at hf
        cases base with
        | none => simp at hf
        | some b => exact hr.holds b rfl
      obtain ⟨st, hrun, -, hviews⟩ := apply_spec hc hd hbase (hisFull ▸ hr.apart) recycle
      exact ⟨st, hrun, hviews⟩

theorem inReach_of_nonneg (hb : ∀ k ∈ base.getD ∅, 0 ≤ k.val) (hcur : ∀ k ∈ current, 0 ≤ k.val) :
    InReach codec s base current := by
  have hbridged : ∀ keys : Set Key, (∀ k ∈ keys, 0 ≤ k.val) → RPCKeys.Bridged keys := by
    intro keys hkeys a ha b hb hfar
    have hlt := b.lt
    have hge := hkeys a ha
    omega
  refine ⟨hbridged _ fun k hk => hb k hk.1, hbridged _ fun k hk => hcur k hk.1,
    hbridged _ fun k hk => ?_⟩
  obtain ⟨was, value, hwas, -⟩ := hk
  exact hb k (mem_of_lookup hwas)

/-! ## A class of one byte -/

/-- The codec of a class with one field, a byte: a patch is the byte of its mask, and the
field when the mask names it. -/
def byteCodec : RPCCodec Byte (Option Byte) where
  fieldCount := 1
  initial := 0
  mask x y := if x = y then 0 else 1
  maskHigh _ _ := 0
  writePatch _ y mask _ := if mask &&& 1 = 0 then [0] else [1, y]
  newState := none
  readPatch _ := do
    let mask ← ByteArrayInput.readByte
    if mask &&& 1 = 0 then pure none
    else do
      let y ← ByteArrayInput.readByte
      pure (some y)
  apply state base _ := state.getD (base.getD 0)
  copy x _ := x
  patchBound := 2
  patchSize _ _ mask _ := if mask &&& 1 = 0 then 1 else 2

theorem byteCodec_roundTrips : byteCodec.RoundTrips where
  eq_of_same x y h := by
    by_contra hne
    simp [RPCCodec.same, byteCodec, hne] at h
  patch x y s₀ := by
    by_cases hxy : x = y
    · subst hxy
      refine ⟨none, ?_, fun _ => rfl, fun hx _ => hx.symm⟩
      rw [show byteCodec.mask x x = 0 from if_pos rfl]
      exact fun rest => rfl
    · refine ⟨some y, ?_, fun _ => rfl, fun _ _ => rfl⟩
      rw [show byteCodec.mask x y = 1 from if_neg hxy]
      exact fun rest => rfl
  patch_ne_nil x y m h := by
    change (if m &&& 1 = 0 then [0] else [1, y]) ≠ []
    split <;> simp
  copy x target := rfl

/-- Two objects, of contents 5 and 6. -/
def twoObjects : Store Byte := ⟨fun r => if r = 0 then 5 else 6, 2⟩

/-- A map of the two objects. -/
def mapOf (a b : Key) : IntMap := AList.insert a 0 (AList.insert b 1 ∅)

/-- The keys 1, 2 and 3. -/
def key1 : Key := ⟨1, by norm_num, by norm_num⟩

@[inherit_doc key1]
def key2 : Key := ⟨2, by norm_num, by norm_num⟩

@[inherit_doc key1]
def key3 : Key := ⟨3, by norm_num, by norm_num⟩

theorem lookup_mapOf {a b k : Key} {r : Ref} (hab : a ≠ b) :
    (mapOf a b).lookup k = some r ↔ k = a ∧ r = 0 ∨ k = b ∧ r = 1 := by
  unfold mapOf
  by_cases ha : k = a
  · subst ha
    rw [AList.lookup_insert]
    simp [hab, eq_comm]
  · rw [AList.lookup_insert_ne ha]
    by_cases hb : k = b
    · subst hb
      rw [AList.lookup_insert]
      simp [ha, eq_comm]
    · rw [AList.lookup_insert_ne hb, AList.lookup_empty]
      simp [ha, hb]

/-- A receiver that applies onto the map of two objects it holds. -/
def onItself (a b : Key) : Receiver Byte := ⟨twoObjects, [], some (mapOf a b), .base⟩

theorem ready_onItself {a b : Key} (hab : a ≠ b) :
    (onItself a b).Ready twoObjects (some (mapOf a b)) := by
  have hholds : ∀ {k r}, Applying.Holds (fun _ => none) ⟨twoObjects, mapOf a b, []⟩ k r ↔
      k = a ∧ r = 0 ∨ k = b ∧ r = 1 := fun {k r} => by
    simp [Applying.Holds, lookup_mapOf hab]
  have hapart : Applying.Apart (fun _ => none) ⟨twoObjects, mapOf a b, []⟩ := by
    refine ⟨fun k k' r h h' => ?_, List.nodup_nil, by simp, fun k r h => ?_, by simp⟩
    · rw [hholds] at h h'
      obtain ⟨rfl, rfl⟩ | ⟨rfl, rfl⟩ := h <;> simp_all
    · rw [hholds] at h
      obtain ⟨-, rfl⟩ | ⟨-, rfl⟩ := h
      · exact Nat.zero_lt_two
      · exact Nat.one_lt_two
  exact ⟨fun m hm => ⟨m, hm, fun _ => rfl⟩, mapOf a b, rfl, hapart⟩

/-- A map of keys 1 and 2 replicated to one of keys 2 and 3: one removed, one updated, one
added. -/
theorem replicates_oneOfEach :
    ∃ p, diff byteCodec twoObjects (some (mapOf key1 key2)) (mapOf key2 key3) = .ok p ∧
      Replicates byteCodec twoObjects (mapOf key2 key3) (writeMapPatchArg byteCodec twoObjects p)
        (onItself key1 key2) := by
  obtain ⟨p, hdiff, h⟩ := replicates_iff_inReach byteCodec_roundTrips twoObjects
    (some (mapOf key1 key2)) (mapOf key2 key3)
  have hp : p = ⟨false, [key1], [⟨key3, 1, 1, 0⟩], [⟨key2, 1, 0, 1, 0⟩]⟩ :=
    (Except.ok.inj (hdiff.symm.trans rfl))
  refine ⟨p, hdiff, (h ?_ _ (ready_onItself (by decide))).2 (inReach_of_nonneg ?_ ?_)⟩
  · rw [hp]
    decide
  · decide
  · decide

/-- The two ends of the 32-bit range of keys. -/
def lowest : Key := ⟨-2 ^ 31, by norm_num, by norm_num⟩

@[inherit_doc lowest]
def highest : Key := ⟨2 ^ 31 - 1, by norm_num, by norm_num⟩

/-- The full patch of the two ends of the range of keys is written, and is refused as it is
read: the gap between them, of `2 ^ 32 - 2`, reads as -2. -/
theorem farKeys_do_not_read :
    (do
      let p ← diff byteCodec twoObjects none (mapOf lowest highest)
      let (r, _) ← read byteCodec ⟨false, [], [], [], none, [], []⟩
        (writeMapPatchArg byteCodec twoObjects p)
      pure (r.added.map Prod.fst)) = .error (.text "RPC map patch key past 2^31 - 1") := by
  rfl

/-- One object under the keys 1 and 2. -/
def oneObject : IntMap := AList.insert key1 0 (AList.insert key2 0 ∅)

/-- A full patch of two values, applied onto a map that has one object under both keys: the second
is written over the first. -/
theorem sharedObject_is_patched_twice :
    (do
      let p ← diff byteCodec twoObjects none (mapOf key1 key2)
      let (r, _) ← read byteCodec ⟨false, [], [], [], none, [], []⟩
        (writeMapPatchArg byteCodec twoObjects p)
      let st ← apply byteCodec r twoObjects [] none (.other oneObject) false
      pure (view st.store st.into key1, view twoObjects (mapOf key1 key2) key1)) =
      .ok (some 6, some 5) := by
  rfl

end RPCMapPatch

end CrossByte
