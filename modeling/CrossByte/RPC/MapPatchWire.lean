import CrossByte.RPC.MapPatch

/-!
# A map patch through the wire

What a sent patch is read back as.  A patch that is `Ready` — its groups ascending, and
its masks those between the values it is written from — reads back exactly when in each
group neighbouring keys are at most `2 ^ 31` apart: `reads_patch` and `fails_patch`.  The
patch read has the same removed keys, the added values, and for each updated key a state
that makes the current value of the base's.
-/

namespace CrossByte

open Bytes (Byte)
open Serial (Word)
open Parse

namespace RPCMapPatch

variable {V S : Type} {codec : RPCCodec V S} {s : Store V} {p : Sent}

/-- A patch the writer can write from the values as they are. -/
structure Sent.Ready (codec : RPCCodec V S) (s : Store V) (p : Sent) : Prop where
  removed : p.removed.Pairwise (· < ·)
  added : (p.added.map SentAdd.key).Pairwise (· < ·)
  updated : (p.updated.map SentUpdate.key).Pairwise (· < ·)
  addedMask : ∀ e ∈ p.added, e.mask = codec.mask codec.initial (s.content e.value) ∧
    e.high = codec.high codec.initial (s.content e.value)
  updatedMask : ∀ e ∈ p.updated, e.mask = codec.mask (s.content e.base) (s.content e.current) ∧
    e.high = codec.high (s.content e.base) (s.content e.current)
  full : p.isFull → p.removed = [] ∧ p.updated = []

/-- In each group neighbouring keys are at most `2 ^ 31` apart. -/
def Sent.NearKeys (p : Sent) : Prop :=
  RPCKeys.Near p.removed ∧ RPCKeys.Near (p.added.map SentAdd.key) ∧
    RPCKeys.Near (p.updated.map SentUpdate.key)

/-- A patch that arrived, as the one sent with the values in `s`. -/
structure Received.IsSent (codec : RPCCodec V S) (s : Store V) (p : Sent) (r : Received V S) :
    Prop where
  isFull : r.isFull = p.isFull
  removed : r.removed = p.removed
  added : RPCKeys.ReadAs SentAdd.key (fun e v => v = s.content e.value) p.added r.added
  updated : RPCKeys.ReadAs SentUpdate.key
    (fun e state => codec.Patches state (some (s.content e.base)) (s.content e.current))
    p.updated r.updated

/-! ## Sizes -/

theorem length_putGroup_le {ι : Type} (key : ι → Key) (payload : ι → List Byte) (m : ℕ)
    (h : ∀ e, m ≤ (payload e).length) (first : Bool) (previous : Key) (es : List ι) :
    (m + 1) * es.length ≤ (RPCKeys.putGroup key payload first previous es).length := by
  induction es generalizing first previous with
  | nil => simp
  | cons e es ih =>
    have hkey : 1 ≤ (RPCKeys.putKey first previous (key e)).length := by
      refine List.length_pos_iff.2 ?_
      unfold RPCKeys.putKey
      split <;> exact Varint.put_ne_nil _
    have hrest := ih false (key e)
    have hpay := h e
    rw [RPCKeys.putGroup, List.length_append, List.length_append, List.length_cons, Nat.mul_add]
    omega

/-- The groups take at least a byte a removed key, and two an entry. -/
theorem counts_le (hc : codec.RoundTrips) :
    p.removed.length + 2 * p.added.length + 2 * p.updated.length ≤
      (RPCKeys.putKeys p.removed ++
        (RPCKeys.putGroup SentAdd.key (addedPatch codec s) true Key.zero p.added ++
          RPCKeys.putGroup SentUpdate.key (updatedPatch codec s) true Key.zero p.updated)).length := by
  have hr := length_putGroup_le id (fun _ : Key => []) 0 (fun _ => Nat.zero_le _) true Key.zero
    p.removed
  have ha := length_putGroup_le SentAdd.key (addedPatch codec s) 1
    (fun e => List.length_pos_iff.2 (hc.patch_ne_nil _ _ _ _)) true Key.zero p.added
  have hu := length_putGroup_le SentUpdate.key (updatedPatch codec s) 1
    (fun e => List.length_pos_iff.2 (hc.patch_ne_nil _ _ _ _)) true Key.zero p.updated
  rw [List.length_append, List.length_append, RPCKeys.putKeys]
  omega

/-! ## The head -/

theorem head_removed {n : ℕ} (h : n < 2 ^ 31) (full : Bool) :
    (((BitVec.ofNat 32 n <<< 1) ||| if full then 1 else 0 : Word) >>> 1) = BitVec.ofNat 32 n := by
  apply BitVec.eq_of_getLsbD_eq
  intro i hi
  rcases lt_or_ge i 31 with h31 | h31
  · cases full <;> simp [show 1 + i < 32 by omega, hi]
  · obtain rfl : i = 31 := by omega
    have htop : (BitVec.ofNat 32 n).getLsbD 31 = false := by
      rw [BitVec.getLsbD_ofNat, Nat.testBit_lt_two_pow h, Bool.and_false]
    rw [BitVec.getLsbD_eq_getElem hi] at htop
    cases full <;> simp [htop]

theorem head_full (n : ℕ) (full : Bool) :
    (((BitVec.ofNat 32 n <<< 1) ||| if full then 1 else 0 : Word) &&& 1 ≠ 0) ↔ full = true := by
  have hbit : ∀ w : Word, w &&& 1 ≠ 0 ↔ w.getLsbD 0 = true := by
    intro w
    rw [Ne, ← BitVec.toNat_inj]
    change ¬ (w.toNat &&& (2 ^ 1 - 1)) = 0 ↔ w.toNat.testBit 0 = true
    rw [Nat.and_two_pow_sub_one_eq_mod, Nat.testBit_zero, decide_eq_true_iff]
    omega
  rw [hbit]
  cases full <;> simp

/-- The counts of a patch short enough are read and pass the reader's checks. -/
theorem counts_read {n : ℕ} (h : n < 2 ^ 31) :
    (BitVec.ofNat 32 n).toNat = n ∧ ¬ (BitVec.ofNat 32 n).toInt < 0 := by
  have hn : (BitVec.ofNat 32 n).toNat = n := by
    rw [BitVec.toNat_ofNat]
    omega
  refine ⟨hn, ?_⟩
  rw [BitVec.toInt_eq_toNat_of_lt (by omega)]
  omega

/-! ## The groups -/

theorem removed_itemsRead (keys : List Key) :
    RPCKeys.ItemsRead (fun s : Unit => pure ((), s)) (fun _ => []) (fun _ _ => True) keys :=
  fun _ _ s => ⟨((), s), reads_pure _, trivial⟩

theorem added_itemsRead (hc : codec.RoundTrips) (h : p.Ready codec s) :
    RPCKeys.ItemsRead (readAdded codec) (addedPatch codec s) (fun e v => v = s.content e.value)
      p.added := by
  rintro e he ⟨state, pool⟩
  obtain ⟨state', hread, -, hpatch⟩ := hc.patch codec.initial (s.content e.value) state
  obtain ⟨hmask, hhigh⟩ := h.addedMask e he
  refine ⟨(codec.apply state' none (pool.headD codec.initial), (state', pool.tail)), ?_,
    hpatch rfl _⟩
  rw [addedPatch, hmask, hhigh]
  exact hread.map fun st => (codec.apply st none (pool.headD codec.initial), (st, pool.tail))

theorem updated_itemsRead (hc : codec.RoundTrips) (h : p.Ready codec s) :
    RPCKeys.ItemsRead (readUpdated codec) (updatedPatch codec s)
      (fun e state => codec.Patches state (some (s.content e.base)) (s.content e.current))
      p.updated := by
  intro e he pool
  obtain ⟨state', hread, hpatch, -⟩ := hc.patch (s.content e.base) (s.content e.current)
    (pool.headD codec.newState)
  obtain ⟨hmask, hhigh⟩ := h.updatedMask e he
  refine ⟨(state', pool.tail), ?_, hpatch⟩
  rw [updatedPatch, hmask, hhigh]
  exact hread.map fun st => (st, pool.tail)

theorem reads_keys {keys : List Key} (hsorted : keys.Pairwise (· < ·)) (hnear : RPCKeys.Near keys) :
    Reads (RPCKeys.getKeys keys.length) (RPCKeys.putKeys keys) keys := by
  obtain ⟨out, s', hreads, has⟩ := RPCKeys.reads_group
    (show (keys.map id).IsChain (· < ·) by simpa using hsorted.isChain)
    (by simpa using hnear) (removed_itemsRead keys) ()
  have hkeys := has.keys
  rw [List.map_id] at hkeys
  have h := hreads.map fun o => o.1.map Prod.fst
  rwa [hkeys] at h

theorem fails_keys {keys : List Key} (hsorted : keys.Pairwise (· < ·))
    (hfar : ¬ RPCKeys.Near keys) :
    Fails (RPCKeys.getKeys keys.length) (RPCKeys.putKeys keys)
      (.text "RPC map patch key past 2^31 - 1") := by
  have h := (RPCKeys.fails_group
    (show (keys.map id).IsChain (· < ·) by simpa using hsorted.isChain)
    (by simpa using hfar) (removed_itemsRead keys) ()).bind
      (f := fun o => pure (o.1.map Prod.fst)) []
  rwa [List.append_nil] at h

/-! ## The patch -/

/-- The reader past the counts. -/
def readGroups (codec : RPCCodec V S) (patch : Received V S) (full : Bool)
    (removedCount added updated : ℕ) : Parser Thrown (Received V S) := do
  let removed ← RPCKeys.getKeys removedCount
  let (addedEntries, (addedState, valuePool)) ← RPCKeys.getGroup (readAdded codec) added
    true Key.zero (patch.addedState, patch.added.map Prod.snd ++ patch.valuePool)
  let (updatedEntries, statePool) ← RPCKeys.getGroup (readUpdated codec) updated
    true Key.zero (patch.updated.map Prod.snd ++ patch.statePool)
  pure ⟨full, removed, addedEntries, updatedEntries, addedState, valuePool, statePool⟩

/-- The bytes past the counts. -/
def putGroups (codec : RPCCodec V S) (s : Store V) (p : Sent) : List Byte :=
  RPCKeys.putKeys p.removed ++
    (RPCKeys.putGroup SentAdd.key (addedPatch codec s) true Key.zero p.added ++
      RPCKeys.putGroup SentUpdate.key (updatedPatch codec s) true Key.zero p.updated)

/-- The counts of a ready patch pass the reader's checks. -/
theorem run_readMapPatchArg (hc : codec.RoundTrips) (h : p.Ready codec s)
    (hlen : (writeMapPatchArg codec s p).length < 2 ^ 31) (old : Received V S) (rest : List Byte) :
    (readMapPatchArg codec old).run (writeMapPatchArg codec s p ++ rest) =
      (readGroups codec old p.isFull p.removed.length p.added.length p.updated.length).run
        (putGroups codec s p ++ rest) := by
  have hcounts : p.removed.length + 2 * p.added.length + 2 * p.updated.length ≤
      (putGroups codec s p).length := counts_le hc
  have hbytes : (putGroups codec s p).length ≤ (writeMapPatchArg codec s p).length := by
    rw [writeMapPatchArg, List.length_append, List.length_append, List.length_append, ← putGroups]
    omega
  obtain ⟨hadded, haddedInt⟩ := counts_read (n := p.added.length) (by omega)
  obtain ⟨hupdated, hupdatedInt⟩ := counts_read (n := p.updated.length) (by omega)
  obtain ⟨hremoved, -⟩ := counts_read (n := p.removed.length) (by omega)
  have hhead := head_removed (n := p.removed.length) (by omega) p.isFull
  have hfull := head_full p.removed.length p.isFull
  rw [writeMapPatchArg, ← putGroups]
  simp only [List.append_assoc]
  unfold readMapPatchArg
  rw [run_bind, ByteArrayInput.reads_varUInt]
  dsimp only
  rw [run_bind, ByteArrayInput.reads_varUInt]
  dsimp only
  rw [run_bind, ByteArrayInput.reads_varUInt]
  dsimp only
  rw [hhead, hremoved, hadded, hupdated]
  have hcheck : ¬ ((BitVec.ofNat 32 p.added.length).toInt < 0 ∨
      (BitVec.ofNat 32 p.updated.length).toInt < 0 ∨
      ((BitVec.ofNat 32 p.removed.length <<< 1 ||| if p.isFull = true then 1 else 0 : Word) &&& 1 ≠ 0 ∧
        (BitVec.ofNat 32 p.removed.length ≠ 0 ∨ BitVec.ofNat 32 p.updated.length ≠ 0))) := by
    rintro (hneg | hneg | ⟨hf, hne⟩)
    · exact haddedInt hneg
    · exact hupdatedInt hneg
    · obtain ⟨hr, hu⟩ := h.full (hfull.1 hf)
      rw [hr, hu] at hne
      simp at hne
  rw [if_neg hcheck]
  change StateT.run (if _ > (putGroups codec s p ++ rest).length then _ else _) _ = _
  rw [if_neg (by rw [List.length_append]; omega)]
  have hdec : decide ((BitVec.ofNat 32 p.removed.length <<< 1 |||
      if p.isFull = true then 1 else 0 : Word) &&& 1 ≠ 0) = p.isFull := by
    rw [Bool.eq_iff_iff, decide_eq_true_iff]
    exact hfull
  rw [hdec]
  rfl

/-- **A ready patch of near keys reads back.** -/
theorem reads_patch (hc : codec.RoundTrips) (h : p.Ready codec s)
    (hlen : (writeMapPatchArg codec s p).length < 2 ^ 31) (hnear : p.NearKeys) (old : Received V S) :
    ∃ r, Reads (readMapPatchArg codec old) (writeMapPatchArg codec s p) r ∧ r.IsSent codec s p := by
  obtain ⟨hnr, hna, hnu⟩ := hnear
  obtain ⟨added, ⟨state, pool⟩, hra, hadded⟩ := RPCKeys.reads_group h.added.isChain hna
    (added_itemsRead hc h) (old.addedState, old.added.map Prod.snd ++ old.valuePool)
  obtain ⟨updated, states, hru, hupdated⟩ := RPCKeys.reads_group h.updated.isChain hnu
    (updated_itemsRead hc h) (old.updated.map Prod.snd ++ old.statePool)
  refine ⟨⟨p.isFull, p.removed, added, updated, state, pool, states⟩, fun rest => ?_,
    ⟨rfl, rfl, hadded, hupdated⟩⟩
  rw [run_readMapPatchArg hc h hlen]
  refine ((reads_keys h.removed hnr).bind (hra.bind ?_)) rest
  exact hru.map fun o => (⟨p.isFull, p.removed, added, o.1, state, pool, o.2⟩ : Received V S)

/-- **A ready patch with keys too far apart does not.** -/
theorem fails_patch (hc : codec.RoundTrips) (h : p.Ready codec s)
    (hlen : (writeMapPatchArg codec s p).length < 2 ^ 31) (hfar : ¬ p.NearKeys) (old : Received V S) :
    Fails (readMapPatchArg codec old) (writeMapPatchArg codec s p)
      (.text "RPC map patch key past 2^31 - 1") := by
  intro rest
  rw [run_readMapPatchArg hc h hlen]
  by_cases hnr : RPCKeys.Near p.removed
  · refine ((reads_keys h.removed hnr).bind_fails ?_) rest
    by_cases hna : RPCKeys.Near (p.added.map SentAdd.key)
    · obtain ⟨added, ⟨state, pool⟩, hra, -⟩ := RPCKeys.reads_group h.added.isChain hna
        (added_itemsRead hc h) (old.addedState, old.added.map Prod.snd ++ old.valuePool)
      refine hra.bind_fails ?_
      have hnu : ¬ RPCKeys.Near (p.updated.map SentUpdate.key) := fun hnu => hfar ⟨hnr, hna, hnu⟩
      have hf := (RPCKeys.fails_group h.updated.isChain hnu (updated_itemsRead hc h)
        (old.updated.map Prod.snd ++ old.statePool)).bind
          (f := fun o => pure (⟨p.isFull, p.removed, added, o.1, state, pool, o.2⟩ : Received V S)) []
      rwa [List.append_nil] at hf
    · exact (RPCKeys.fails_group h.added.isChain hna (added_itemsRead hc h) _).bind _
  · exact ((fails_keys h.removed hnr).bind _) rest

end RPCMapPatch

end CrossByte
