import CrossByte.Db.Kv.MemoryKVStore

/-!
# MemoryKVStore: what every state keeps

`Inv` says how the store's parts go together: the keys in order are the keys of the
records, the undo log has one entry for each key it names, and no buffer the store
holds is one that a caller has.  The lemmas here say what the parts of a call do to the
records, to what was committed, and to `Inv`; the calls are put together from them.

## Main results

* `restore_spec`: replaying the undo log backwards leaves every key with what it
  held before the transaction.
* `foldl_purge`: purging removes the keys it names, and nothing committed.
-/

namespace CrossByte

namespace MemoryKVStore

variable {T : Type} {s s' : MemoryKVStore T} {k k' key : Text} {r : StoredRecord T}

/-- A buffer no caller has. -/
def Owned (s : MemoryKVStore T) (r : Ref) : Prop := r < s.heap.next ∧ r ∉ s.shared

/-- The undo log, when there is one, names `k`. -/
def Logged (s : MemoryKVStore T) (k : Text) : Prop :=
  ∀ undo, s.undo = some undo → k ∈ undo.map KVUndo.key

/-- What every state of a store keeps. -/
structure Inv (s : MemoryKVStore T) : Prop where
  keys : s.keys.WellFormed
  mem_keys : ∀ k, k ∈ s.keys.keys ↔ k ∈ s.records
  isKey : ∀ k ∈ s.records, KVKeys.IsKey k
  nodup : ∀ undo, s.undo = some undo → (undo.map KVUndo.key).Nodup
  logged : ∀ undo, s.undo = some undo → ∀ k, k ∈ s.logged ↔ k ∈ undo.map KVUndo.key
  undoKey : ∀ undo, s.undo = some undo → ∀ e ∈ undo, KVKeys.IsKey e.key
  owned : ∀ k r, s.records.lookup k = some r → s.Owned r.value
  undoOwned : ∀ undo, s.undo = some undo → ∀ e ∈ undo, ∀ r, e.prior = some r → s.Owned r.value
  empty : s.Owned EMPTY ∧ s.heap.content EMPTY = []
  shared : ∀ r ∈ s.shared, r < s.heap.next

theorem inv_new (options : KVOptions T) : Inv (new options) where
  keys := SortedKeys.wellFormed_empty
  mem_keys k := by simp [new, SortedKeys.empty, SortedKeys.keys]
  isKey k hk := by simp [new] at hk
  nodup undo h := by cases h
  logged undo h := by cases h
  undoKey undo h := by cases h
  owned k r h := by simp [new] at h
  undoOwned undo h := by cases h
  empty := ⟨⟨Nat.zero_lt_one, by simp [new]⟩, rfl⟩
  shared r h := by simp [new] at h

/-! ## Buffers -/

/-- `s'` is `s` with other buffers, those the store holds unchanged. -/
structure HeapOnly (s s' : MemoryKVStore T) : Prop where
  options : s'.options = s.options
  records : s'.records = s.records
  keys : s'.keys = s.keys
  undo : s'.undo = s.undo
  logged : s'.logged = s.logged
  closed : s'.closed = s.closed
  owned : ∀ r, s.Owned r → s'.Owned r ∧ s'.heap.content r = s.heap.content r
  shared : (∀ r ∈ s.shared, r < s.heap.next) → ∀ r ∈ s'.shared, r < s'.heap.next

theorem HeapOnly.refl (s : MemoryKVStore T) : HeapOnly s s :=
  ⟨rfl, rfl, rfl, rfl, rfl, rfl, fun _ h => ⟨h, rfl⟩, id⟩

theorem HeapOnly.trans {s'' : MemoryKVStore T} (h : HeapOnly s s') (h' : HeapOnly s' s'') :
    HeapOnly s s'' where
  options := h'.options.trans h.options
  records := h'.records.trans h.records
  keys := h'.keys.trans h.keys
  undo := h'.undo.trans h.undo
  logged := h'.logged.trans h.logged
  closed := h'.closed.trans h.closed
  owned r hr := by
    obtain ⟨h₁, h₂⟩ := h.owned r hr
    obtain ⟨h₃, h₄⟩ := h'.owned r h₁
    exact ⟨h₃, h₄.trans h₂⟩
  shared hs := h'.shared (h.shared hs)

theorem heapOnly_give (s : MemoryKVStore T) (v : Value) : HeapOnly s (s.give v).2 where
  options := rfl
  records := rfl
  keys := rfl
  undo := rfl
  logged := rfl
  closed := rfl
  owned r hr := by
    refine ⟨⟨hr.1.trans (Nat.lt_succ_self _), fun hmem => ?_⟩, s.heap.make_content_lt hr.1 v⟩
    rcases List.mem_cons.1 hmem with heq | hmem
    · exact absurd hr.1 (heq ▸ lt_irrefl _)
    · exact hr.2 hmem
  shared hs r hr := by
    rcases List.mem_cons.1 hr with rfl | hr
    · exact Nat.lt_succ_self _
    · exact (hs r hr).trans (Nat.lt_succ_self _)

theorem heapOnly_poke {r : Ref} (hr : r ∈ s.shared) (v : Value) :
    HeapOnly s { s with heap := s.heap.set r v } where
  options := rfl
  records := rfl
  keys := rfl
  undo := rfl
  logged := rfl
  closed := rfl
  owned r' hr' :=
    ⟨hr', s.heap.set_content_ne (by rintro rfl; exact hr'.2 hr) v⟩
  shared hs := hs

/-- The store's copy of a caller's buffer is a new buffer with the same bytes. -/
theorem own_spec (h : Inv s) (value : Ref) :
    HeapOnly s (s.own value).2 ∧ (s.own value).2.Owned (s.own value).1 ∧
      (s.own value).2.heap.content (s.own value).1 = s.heap.content value := by
  simp only [own]
  split
  · next hlen => exact ⟨.refl s, h.empty.1, by rw [h.empty.2, List.length_eq_zero_iff.1 hlen]⟩
  · refine ⟨⟨rfl, rfl, rfl, rfl, rfl, rfl, fun r hr => ?_, fun hs r hr => ?_⟩, ?_, ?_⟩
    · exact ⟨⟨hr.1.trans (Nat.lt_succ_self _), hr.2⟩, s.heap.make_content_lt hr.1 _⟩
    · exact (hs r hr).trans (Nat.lt_succ_self _)
    · exact ⟨Nat.lt_succ_self _, fun hmem => absurd (h.shared _ hmem) (lt_irrefl _)⟩
    · exact Function.update_self ..

theorem Inv.of_heap (h : Inv s) (hs : HeapOnly s s') : Inv s' where
  keys := hs.keys ▸ h.keys
  mem_keys k := by rw [hs.keys, hs.records]; exact h.mem_keys k
  isKey k hk := h.isKey k (hs.records ▸ hk)
  nodup undo hu := h.nodup undo (hs.undo ▸ hu)
  logged undo hu := by rw [hs.logged]; exact h.logged undo (hs.undo ▸ hu)
  undoKey undo hu := h.undoKey undo (hs.undo ▸ hu)
  owned k r hr := (hs.owned _ (h.owned k r (hs.records ▸ hr))).1
  undoOwned undo hu e he r hr := (hs.owned _ (h.undoOwned undo (hs.undo ▸ hu) e he r hr)).1
  empty := ⟨(hs.owned _ h.empty.1).1, (hs.owned _ h.empty.1).2.trans h.empty.2⟩
  shared := hs.shared h.shared

/-- A record as a caller sees it. -/
def seen (s : MemoryKVStore T) : StoredRecord T → KVRecord Value T := KVRecord.map s.heap.content

theorem seen_of_heap (hs : HeapOnly s s') (hr : s.Owned r.value) : s'.seen r = s.seen r := by
  simp only [seen, KVRecord.map, (hs.owned _ hr).2]

theorem copy_spec (s : MemoryKVStore T) (r : StoredRecord T) :
    HeapOnly s (s.copy r).2 ∧ (s.copy r).2.seen (s.copy r).1 = s.seen r := by
  refine ⟨heapOnly_give s _, ?_⟩
  simp only [seen, KVRecord.map, copy, give, Store.make, Function.update_self]

/-! ## What was committed -/

theorem committed_of_none (h : s.undo = none) (k : Text) : s.committed k = s.records.lookup k := by
  simp [committed, h]

theorem committed_of_mem (h : Inv s) {undo : List (KVUndo T)} (hu : s.undo = some undo)
    {e : KVUndo T} (he : e ∈ undo) : s.committed e.key = e.prior := by
  have hsome : (undo.find? fun entry => entry.key = e.key).isSome = true :=
    List.find?_isSome.2 ⟨e, he, by simp⟩
  obtain ⟨e', he'⟩ := Option.isSome_iff_exists.1 hsome
  have hmem := List.mem_of_find?_eq_some he'
  have hkey : e'.key = e.key := by simpa using List.find?_some he'
  have heq : e' = e := List.inj_on_of_nodup_map (h.nodup undo hu) hmem he hkey
  simp [committed, hu, he', heq]

theorem committed_of_not_mem {undo : List (KVUndo T)} (hu : s.undo = some undo)
    (hk : k ∉ undo.map KVUndo.key) : s.committed k = s.records.lookup k := by
  have hnone : (undo.find? fun entry => entry.key = k) = none := by
    refine List.find?_eq_none.2 fun e he => ?_
    simp only [decide_eq_true_eq]
    rintro rfl
    exact hk (List.mem_map_of_mem he)
  simp [committed, hu, hnone]

theorem Inv.committed_owned (h : Inv s) (hr : s.committed k = some r) : s.Owned r.value := by
  cases hu : s.undo with
  | none => exact h.owned k r (committed_of_none hu k ▸ hr)
  | some undo =>
    by_cases hk : k ∈ undo.map KVUndo.key
    · obtain ⟨e, he, rfl⟩ := List.mem_map.1 hk
      exact h.undoOwned undo hu e he r (committed_of_mem h hu he ▸ hr)
    · exact h.owned k r (committed_of_not_mem hu hk ▸ hr)

theorem committed_of_heap (hs : HeapOnly s s') (k : Text) : s'.committed k = s.committed k := by
  simp only [committed, hs.undo, hs.records]

/-- A key that is logged can be written without what was committed changing. -/
theorem committed_congr (s s' : MemoryKVStore T) (hundo : s'.undo = s.undo) (hsome : s.undo.isSome = true)
    (hlogged : s.Logged key)
    (hrecords : ∀ k, k ≠ key → s'.records.lookup k = s.records.lookup k) (k : Text) :
    s'.committed k = s.committed k := by
  obtain ⟨undo, hu⟩ := Option.isSome_iff_exists.1 hsome
  cases hf : undo.find? fun entry => entry.key = k with
  | some e => simp [committed, hundo, hu, hf]
  | none =>
    have hne : k ≠ key := by
      rintro rfl
      obtain ⟨e, he, hk⟩ := List.mem_map.1 (hlogged undo hu)
      simpa [hk] using List.find?_eq_none.1 hf e he
    simp [committed, hundo, hrecords k hne]

/-! ## Logging a key -/

/-- What `__log` does. -/
structure LogSpec (s s' : MemoryKVStore T) (key : Text) : Prop where
  inv : Inv s'
  logged : s'.Logged key
  committed : ∀ k, s'.committed k = s.committed k
  records : s'.records = s.records
  keys : s'.keys = s.keys
  heap : s'.heap = s.heap
  shared : s'.shared = s.shared
  options : s'.options = s.options
  closed : s'.closed = s.closed
  undo : s'.undo.isSome = s.undo.isSome

theorem log_spec (h : Inv s) (hkey : KVKeys.IsKey key) : LogSpec s (s.log key) key := by
  cases hu : s.undo with
  | none =>
    have heq : s.log key = s := by simp [log, hu]
    rw [heq]
    exact ⟨h, fun undo hu' => by simp [hu] at hu', fun _ => rfl, rfl, rfl, rfl, rfl, rfl, rfl, by
      rw [hu]⟩
  | some undo =>
    by_cases hl : key ∈ s.logged
    · have heq : s.log key = s := by simp [log, hu, hl]
      rw [heq]
      refine ⟨h, fun undo' hu' => ?_, fun _ => rfl, rfl, rfl, rfl, rfl, rfl, rfl, by rw [hu]⟩
      exact (h.logged undo' hu' key).1 hl
    · have hnew : key ∉ undo.map KVUndo.key := fun hk => hl ((h.logged undo hu key).2 hk)
      have heq : s.log key = { s with
          logged := key :: s.logged
          undo := some (undo ++ [⟨key, s.records.lookup key⟩]) } := by simp [log, hu, hl]
      rw [heq]
      refine ⟨{ h with nodup := ?_, logged := ?_, undoKey := ?_, undoOwned := ?_ }, ?_, ?_, rfl,
        rfl, rfl, rfl, rfl, rfl, by rw [hu]; rfl⟩
      · rintro _ ⟨⟩
        simpa [List.nodup_append, h.nodup undo hu] using fun e he hk => hnew (by
          rw [← hk]; exact List.mem_map_of_mem he)
      · rintro _ ⟨⟩ k
        simp only [List.mem_cons, List.map_append, List.map_cons, List.mem_append,
          h.logged undo hu k]
        tauto
      · rintro _ ⟨⟩ e he
        rcases List.mem_append.1 he with he | he
        · exact h.undoKey undo hu e he
        · rw [List.mem_singleton.1 he]
          exact hkey
      · rintro _ ⟨⟩ e he r hr
        rcases List.mem_append.1 he with he | he
        · exact h.undoOwned undo hu e he r hr
        · rw [List.mem_singleton.1 he] at hr
          exact h.owned key r hr
      · rintro _ ⟨⟩
        simp
      · intro k
        simp only [MemoryKVStore.committed, hu, Option.bind_some, List.find?_append]
        cases hf : undo.find? fun entry => entry.key = k with
        | some e => rfl
        | none =>
          by_cases hk : key = k
          · subst hk
            simp
          · simp [hk]

/-! ## Writing and removing a record -/

theorem Inv.setRecord (h : Inv s) (hkey : KVKeys.IsKey key) (hr : s.Owned r.value) :
    Inv (s.setRecord key r) := by
  have hmem : ∀ k, k ∈ s.records.insert key r ↔ k = key ∨ k ∈ s.records := fun k =>
    AList.mem_insert s.records
  refine { h with
      keys := ?_, mem_keys := fun k => ?_, isKey := fun k hk => ?_, owned := fun k r' hk => ?_ }
  · by_cases hin : key ∈ s.records
    · simpa [MemoryKVStore.setRecord, hin] using h.keys
    · simpa [MemoryKVStore.setRecord, hin] using h.keys.insert (mt (h.mem_keys key).1 hin)
  · by_cases hin : key ∈ s.records
    · simp only [MemoryKVStore.setRecord, if_pos hin, hmem, h.mem_keys]
      constructor
      · exact .inr
      · rintro (rfl | hk)
        · exact hin
        · exact hk
    · simp only [MemoryKVStore.setRecord, if_neg hin, hmem, SortedKeys.mem_insert h.keys,
        h.mem_keys]
  · rcases (hmem k).1 hk with rfl | hk
    · exact hkey
    · exact h.isKey k hk
  · by_cases hkk : k = key
    · subst hkk
      have : some r = some r' := (AList.lookup_insert s.records).symm.trans hk
      obtain rfl := Option.some.inj this
      exact hr
    · exact h.owned k r' ((AList.lookup_insert_ne hkk).symm.trans hk)

theorem lookup_setRecord (s : MemoryKVStore T) (key : Text) (r : StoredRecord T) (k : Text) :
    (s.setRecord key r).records.lookup k = if k = key then some r else s.records.lookup k := by
  by_cases hk : k = key
  · subst hk
    rw [if_pos rfl]
    exact AList.lookup_insert s.records
  · rw [if_neg hk]
    exact AList.lookup_insert_ne hk

theorem Inv.removeRecord (h : Inv s) (key : Text) : Inv (s.removeRecord key) := by
  have hmem : ∀ k, k ∈ s.records.erase key ↔ k ≠ key ∧ k ∈ s.records := fun k => AList.mem_erase
  refine { h with
      keys := h.keys.remove key, mem_keys := fun k => ?_,
      isKey := fun k hk => h.isKey k ((hmem k).1 hk).2, owned := fun k r hk => ?_ }
  · simp only [MemoryKVStore.removeRecord, SortedKeys.mem_remove h.keys, hmem, h.mem_keys]
  · by_cases hkk : k = key
    · subst hkk
      exact absurd ((AList.lookup_erase k s.records).symm.trans hk) (by simp)
    · exact h.owned k r ((AList.lookup_erase_ne hkk).symm.trans hk)

theorem lookup_removeRecord (s : MemoryKVStore T) (key k : Text) :
    (s.removeRecord key).records.lookup k = if k = key then none else s.records.lookup k := by
  by_cases hk : k = key
  · subst hk
    rw [if_pos rfl]
    exact AList.lookup_erase k s.records
  · rw [if_neg hk]
    exact AList.lookup_erase_ne hk

/-! ## Replaying the undo log -/

theorem Inv.endUndo (h : Inv s) : Inv { s with undo := none, logged := [] } :=
  { h with nodup := nofun, logged := nofun, undoKey := nofun, undoOwned := nofun }

theorem Inv.beginUndo (h : Inv s) : Inv { s with undo := some [], logged := [] } :=
  { h with
    nodup := by rintro _ ⟨⟩; exact List.nodup_nil
    logged := by rintro _ ⟨⟩ k; simp
    undoKey := by rintro _ ⟨⟩; simp
    undoOwned := by rintro _ ⟨⟩; simp }

theorem lookup_putBack (s : MemoryKVStore T) (e : KVUndo T) (k : Text) :
    (s.putBack e).records.lookup k = if k = e.key then e.prior else s.records.lookup k := by
  cases hp : e.prior with
  | some r =>
    simp only [putBack, hp]
    exact lookup_setRecord s e.key r k
  | none =>
    simp only [putBack, hp]
    split
    · exact lookup_removeRecord s e.key k
    · next hin =>
      by_cases hk : k = e.key
      · rw [if_pos hk, hk]
        exact AList.lookup_eq_none.2 hin
      · rw [if_neg hk]

theorem Inv.putBack (h : Inv s) {e : KVUndo T} (hkey : KVKeys.IsKey e.key)
    (hr : ∀ r, e.prior = some r → s.Owned r.value) : Inv (s.putBack e) := by
  cases hp : e.prior with
  | some r =>
    simp only [MemoryKVStore.putBack, hp]
    exact h.setRecord hkey (hr r hp)
  | none =>
    simp only [MemoryKVStore.putBack, hp]
    split
    · exact h.removeRecord e.key
    · exact h

/-- What neither writing nor removing a record touches. -/
structure SameRest (s s' : MemoryKVStore T) : Prop where
  options : s'.options = s.options
  undo : s'.undo = s.undo
  closed : s'.closed = s.closed
  heap : s'.heap = s.heap
  shared : s'.shared = s.shared

theorem sameRest_putBack (s : MemoryKVStore T) (e : KVUndo T) : SameRest s (s.putBack e) := by
  simp only [putBack]
  split
  · split
    · exact ⟨rfl, rfl, rfl, rfl, rfl⟩
    · exact ⟨rfl, rfl, rfl, rfl, rfl⟩
  · exact ⟨rfl, rfl, rfl, rfl, rfl⟩

/-- Each entry of a log is put back, and the keys it does not name stay as they are. -/
theorem foldl_putBack (entries : List (KVUndo T)) (h : Inv s)
    (hnodup : (entries.map KVUndo.key).Nodup) (hkey : ∀ e ∈ entries, KVKeys.IsKey e.key)
    (hown : ∀ e ∈ entries, ∀ r, e.prior = some r → s.Owned r.value) :
    Inv (entries.foldl putBack s) ∧ SameRest s (entries.foldl putBack s) ∧
      (∀ e ∈ entries, (entries.foldl putBack s).records.lookup e.key = e.prior) ∧
      ∀ k, k ∉ entries.map KVUndo.key →
        (entries.foldl putBack s).records.lookup k = s.records.lookup k := by
  induction entries generalizing s with
  | nil => exact ⟨h, ⟨rfl, rfl, rfl, rfl, rfl⟩, by simp, by simp⟩
  | cons e entries ih =>
    have hrest := sameRest_putBack s e
    rw [List.map_cons, List.nodup_cons] at hnodup
    obtain ⟨hinv, hsame, hback, hother⟩ := ih (s := s.putBack e)
      (h.putBack (hkey e List.mem_cons_self) (hown e List.mem_cons_self)) hnodup.2
      (fun e' he' => hkey e' (List.mem_cons_of_mem _ he')) (fun e' he' r hr => by
        have := hown e' (List.mem_cons_of_mem _ he') r hr
        rwa [Owned, hrest.heap, hrest.shared])
    refine ⟨hinv, ⟨hsame.options.trans hrest.options, hsame.undo.trans hrest.undo,
      hsame.closed.trans hrest.closed, hsame.heap.trans hrest.heap,
      hsame.shared.trans hrest.shared⟩, fun e' he' => ?_, fun k hk => ?_⟩
    · rcases List.mem_cons.1 he' with rfl | he'
      · rw [List.foldl_cons, hother _ hnodup.1, lookup_putBack, if_pos rfl]
      · exact hback e' he'
    · rw [List.map_cons, List.mem_cons, not_or] at hk
      rw [List.foldl_cons, hother k hk.2, lookup_putBack, if_neg hk.1]

/-- `__restore` leaves every key with what it held before the transaction. -/
theorem restore_spec (h : Inv s) :
    Inv s.restore ∧ s.restore.undo = none ∧ s.restore.options = s.options ∧
      s.restore.closed = s.closed ∧ s.restore.heap = s.heap ∧ s.restore.shared = s.shared ∧
      ∀ k, s.restore.records.lookup k = s.committed k := by
  cases hu : s.undo with
  | none =>
    have heq : s.restore = s := by simp [restore, hu]
    rw [heq]
    exact ⟨h, hu, rfl, rfl, rfl, rfl, fun k => (committed_of_none hu k).symm⟩
  | some undo =>
    have heq : s.restore = undo.reverse.foldl putBack { s with undo := none, logged := [] } := by
      simp [restore, hu]
    obtain ⟨hinv', hsame, hback, hother⟩ := foldl_putBack undo.reverse h.endUndo
      (by rw [List.map_reverse]; exact List.nodup_reverse.2 (h.nodup undo hu))
      (fun e he => h.undoKey undo hu e (List.mem_reverse.1 he))
      (fun e he r hr => h.undoOwned undo hu e (List.mem_reverse.1 he) r hr)
    rw [heq]
    refine ⟨hinv', hsame.undo, hsame.options, hsame.closed, hsame.heap, hsame.shared,
      fun k => ?_⟩
    by_cases hk : k ∈ undo.map KVUndo.key
    · obtain ⟨e, he, rfl⟩ := List.mem_map.1 hk
      rw [hback e (List.mem_reverse.2 he), committed_of_mem h hu he]
    · rw [hother k (by rwa [List.map_reverse, List.mem_reverse]), committed_of_not_mem hu hk]

/-! ## Purging -/

/-- The keys named are logged and removed; nothing that was committed changes in a transaction. -/
theorem foldl_purge (gone : List Text) (h : Inv s) (hkey : ∀ k ∈ gone, KVKeys.IsKey k) :
    let s' := gone.foldl (fun s key => (s.log key).removeRecord key) s
    Inv s' ∧ s'.options = s.options ∧ s'.closed = s.closed ∧ s'.heap = s.heap ∧
      s'.shared = s.shared ∧ s'.undo.isSome = s.undo.isSome ∧
      (∀ k, s'.records.lookup k = if k ∈ gone then none else s.records.lookup k) ∧
      (s.undo.isSome = true → ∀ k, s'.committed k = s.committed k) := by
  induction gone generalizing s with
  | nil => exact ⟨h, rfl, rfl, rfl, rfl, rfl, by simp, fun _ _ => rfl⟩
  | cons key gone ih =>
    have hlog := log_spec h (hkey key List.mem_cons_self)
    obtain ⟨h₁, h₂, h₃, h₄, h₅, h₆, h₇, h₈⟩ := ih (s := (s.log key).removeRecord key)
      (hlog.inv.removeRecord key) fun k hk => hkey k (List.mem_cons_of_mem _ hk)
    refine ⟨h₁, h₂.trans hlog.options, h₃.trans hlog.closed, h₄.trans hlog.heap,
      h₅.trans hlog.shared, h₆.trans hlog.undo, fun k => ?_, fun hsome k => ?_⟩
    · rw [List.foldl_cons, h₇, lookup_removeRecord, hlog.records]
      by_cases hk : k = key
      · simp [hk]
      · simp [hk]
    · have hsome' : (s.log key).undo.isSome = true := hlog.undo.trans hsome
      have hsame := committed_congr (s.log key) ((s.log key).removeRecord key) rfl hsome'
        hlog.logged
        fun k' hk' => by rw [lookup_removeRecord, if_neg hk']
      rw [List.foldl_cons, h₈ hsome', hsame, hlog.committed]

end MemoryKVStore

end CrossByte
