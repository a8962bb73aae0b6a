import CrossByte.Db.Kv.MemoryKVStoreLog

/-!
# MemoryKVStore is a KVStore

`Sim` relates the store in memory to the map its interface speaks of: every key shows
the record the map has, and in a transaction every key's committed record is the one
of the map kept at `begin`.  Every call keeps the two related and gives the same
result (`Sim.call`), as long as no key it writes or deletes is at revision 2^53, where
a revision stops growing (`Below`).

## Main results

* `Sim.call`: every call keeps the store in step with the map, and answers as it does.
-/

namespace CrossByte

namespace MemoryKVStore

variable {T : Type} {s s' : MemoryKVStore T} {m : KVStore T} {k key : Text}
  {r : StoredRecord T}

/-- What a key shows. -/
def view (s : MemoryKVStore T) (k : Text) : Option (KVRecord Value T) :=
  (s.records.lookup k).map s.seen

/-- What was committed of a key. -/
def committedView (s : MemoryKVStore T) (k : Text) : Option (KVRecord Value T) :=
  (s.committed k).map s.seen

/-- The store in memory shows the map. -/
structure Sim (s : MemoryKVStore T) (m : KVStore T) : Prop where
  inv : Inv s
  options : s.options = m.options
  closed : s.closed = m.closed
  map : ∀ k, s.view k = m.map.records k
  open_ : s.undo.isSome = m.saved.isSome
  saved : ∀ saved, m.saved = some saved → ∀ k, s.committedView k = saved.records k

theorem sim_new (options : KVOptions T) : Sim (new options) (KVStore.new options) where
  inv := inv_new options
  options := rfl
  closed := rfl
  map _ := rfl
  open_ := rfl
  saved _ h := by cases h

theorem Sim.of_heap (h : Sim s m) (hs : HeapOnly s s') : Sim s' m where
  inv := h.inv.of_heap hs
  options := hs.options.trans h.options
  closed := hs.closed.trans h.closed
  map k := by
    rw [← h.map k, view, view, hs.records]
    cases hr : s.records.lookup k with
    | none => rfl
    | some r => exact congrArg some (seen_of_heap hs (h.inv.owned k r hr))
  open_ := hs.undo ▸ h.open_
  saved saved hsaved k := by
    rw [← h.saved saved hsaved k, committedView, committedView, committed_of_heap hs]
    cases hr : s.committed k with
    | none => rfl
    | some r => exact congrArg some (seen_of_heap hs (h.inv.committed_owned hr))

theorem Sim.transaction (h : Sim s m) : s.undo = none ∧ m.saved = none ∨
    ∃ undo saved, s.undo = some undo ∧ m.saved = some saved := by
  have := h.open_
  cases hu : s.undo <;> cases hs : m.saved <;> simp_all

/-- A record is written under a key that was logged: in a transaction nothing committed changes. -/
theorem Sim.setRecord (h : Sim s m) (hkey : KVKeys.IsKey key) (hr : s.Owned r.value) :
    Sim ((s.log key).setRecord key r) { m with map := m.map.set key (s.seen r) } := by
  have hlog := log_spec h.inv hkey
  have hown : (s.log key).Owned r.value := by rwa [Owned, hlog.heap, hlog.shared]
  have hseen : ∀ r, ((s.log key).setRecord key r).seen = s.seen := fun r => by
    show KVRecord.map (s.log key).heap.content = _
    rw [hlog.heap]; rfl
  refine ⟨hlog.inv.setRecord hkey hown, hlog.options.trans h.options, hlog.closed.trans h.closed,
    fun k => ?_, hlog.undo.trans h.open_, fun saved hsaved k => ?_⟩
  · rw [view, lookup_setRecord, hlog.records, hseen]
    by_cases hk : k = key
    · subst hk
      simp [KVMap.set]
    · simpa [KVMap.set, hk, view] using h.map k
  · have hsome : (s.log key).undo.isSome = true := by rw [hlog.undo, h.open_, hsaved]; rfl
    have hsame := committed_congr (s.log key) ((s.log key).setRecord key r) rfl hsome
      hlog.logged fun k' hk' => by rw [lookup_setRecord, if_neg hk']
    rw [committedView, hsame, hlog.committed, hseen]
    exact h.saved saved hsaved k

/-! ## What the records say -/

theorem Sim.live (h : Sim s m) (k : Text) :
    m.map.live k = ((s.records.lookup k).filter fun r => !r.tombstone).map s.seen := by
  rw [KVMap.live, ← h.map k, view]
  cases s.records.lookup k with
  | none => rfl
  | some r => cases hr : r.tombstone <;> simp [Option.filter, seen, KVRecord.map]

theorem Sim.atRevision_iff (h : Sim s m) (k : Text) (e : ℕ) :
    atRevision (s.records.lookup k) e = true ↔ m.map.At k e := by
  rw [KVMap.At, h.live k]
  cases s.records.lookup k with
  | none => by_cases he : e = 0 <;> simp [atRevision, he]
  | some r =>
    by_cases he : e = 0
    · cases hr : r.tombstone <;> simp [atRevision, he, hr]
    · cases hr : r.tombstone <;> simp [atRevision, hr, Option.filter, seen, KVRecord.map]

/-- The key's revision can still grow. -/
def CanGrow (s : MemoryKVStore T) (k : Text) : Prop :=
  ∀ r, s.records.lookup k = some r → r.revision < 2 ^ 53

variable {n : ℕ} {options : KVKeys.ScanOptions} {range : Option KVKeys.Range} {V : Type}

theorem bump_of_lt (h : n < 2 ^ 53) : bump n = n + 1 := if_pos h

theorem Sim.written (h : Sim s m) (hgrow : s.CanGrow k) (value : Ref) (schema : ℤ) (now : T) :
    s.seen (written (s.records.lookup k) k value schema now) =
      m.map.written k (s.heap.content value) schema now := by
  simp only [KVMap.written, h.live k, KVMap.nextRevision, ← h.map k, view]
  cases hr : s.records.lookup k with
  | none => rfl
  | some r =>
    cases ht : r.tombstone <;>
      simp [MemoryKVStore.written, seen, KVRecord.map, ht, Option.filter, bump_of_lt (hgrow r hr)]

/-! ## The calls -/

/-- The store and the map go on related, with one result. -/
def Agree (f : MemoryKVStore T × KVResult Ref T) (g : KVStore T × KVResult Value T) : Prop :=
  Sim f.1 g.1 ∧ f.2.map f.1.heap.content = g.2

section

variable (h : Sim s m)

include h

theorem Agree.thrown (e : Thrown) : Agree (s, .thrown e) (m, .thrown e) := ⟨h, rfl⟩

theorem Agree.enter {f : MemoryKVStore T × KVResult Ref T} {g : KVStore T × KVResult Value T}
    (hfg : Agree f g) : Agree (s.enter f) (m.whenOpen g) := by
  simp only [MemoryKVStore.enter, KVStore.whenOpen, h.closed]
  split
  · exact .thrown h _
  · exact hfg

theorem Agree.checked {α β : Type} {c : Except Thrown α} {c' : Except Thrown β}
    {f : α → MemoryKVStore T × KVResult Ref T} {g : β → KVStore T × KVResult Value T} (i : α → β)
    (hc : c' = c.map i) (hfg : ∀ a, c = .ok a → Agree (f a) (g (i a))) :
    Agree (s.checked c f) (m.checked c' g) := by
  subst hc
  cases hca : c with
  | error e => exact .thrown h e
  | ok a => exact hfg a hca

theorem agree_get (k : Text) : Agree (s.get k) (m.whenOpen (m, .record (m.map.live k))) := by
  refine Agree.enter h ?_
  rw [h.live k]
  split
  · next hr => exact ⟨h, by simp [KVResult.map, hr]⟩
  · next r hr =>
    obtain ⟨hheap, hseen⟩ := copy_spec s r
    cases ht : r.tombstone with
    | true => exact ⟨h, by simp [KVResult.map, hr, ht]⟩
    | false =>
      refine ⟨h.of_heap hheap, ?_⟩
      simpa [KVResult.map, hr, Option.filter, ht, seen] using hseen

theorem agree_write (hkey : KVKeys.IsKey k) (hgrow : s.CanGrow k) {value : Ref}
    (hown : s.Owned value) (schema : ℤ) (expected : Option ℕ) (now : Except Thrown T) :
    Agree (s.write k value schema expected now)
      (m.whenOpen (m.write k (s.heap.content value) schema expected now)) := by
  refine Agree.enter h ?_
  have hat : (∃ e ∈ expected, atRevision (s.records.lookup k) e = false) ↔
      ∃ e, expected = some e ∧ ¬ m.map.At k e := by
    refine exists_congr fun e => and_congr Iff.rfl ?_
    rw [← h.atRevision_iff k e, Bool.not_eq_true]
  simp only [KVStore.write, ← hat]
  split
  · exact ⟨h, rfl⟩
  · cases now with
    | error e => exact .thrown h e
    | ok now =>
      have hw := h.written hgrow value schema now
      have hset := h.setRecord (r := MemoryKVStore.written (s.records.lookup k) k value schema now)
        hkey hown
      have hcopy := copy_spec ((s.log k).setRecord k
        (MemoryKVStore.written (s.records.lookup k) k value schema now))
        (MemoryKVStore.written (s.records.lookup k) k value schema now)
      have hheap : ((s.log k).setRecord k
          (MemoryKVStore.written (s.records.lookup k) k value schema now)).heap = s.heap :=
        (log_spec h.inv hkey).heap
      rw [hw] at hset
      refine ⟨hset.of_heap hcopy.1, congrArg (KVResult.record ∘ some) (hcopy.2.trans ?_)⟩
      rw [← hw, seen, seen, hheap]

theorem agree_delete (hkey : KVKeys.IsKey k) (hgrow : s.CanGrow k) (expected : Option ℕ)
    (now : Except Thrown T) :
    Agree (s.delete k expected now) (m.whenOpen (m.delete k expected now)) := by
  refine Agree.enter h ?_
  simp only [KVStore.delete, h.live k]
  cases hr : s.records.lookup k with
  | none => exact ⟨h, rfl⟩
  | some r =>
    cases ht : r.tombstone with
    | true => simpa [Option.filter, ht] using ⟨h, rfl⟩
    | false =>
      simp only [Option.filter, ht, Bool.not_false, if_true, Option.map_some, Bool.false_eq_true,
        false_or]
      have hrev : (s.seen r).revision = r.revision := rfl
      rw [hrev]
      split
      · exact ⟨h, rfl⟩
      · cases now with
        | error e => exact .thrown h e
        | ok now =>
          have hset := h.setRecord (r := ⟨k, EMPTY, bump r.revision, r.createdAt, now, 0, true⟩)
            hkey h.inv.empty.1
          have hw : s.seen ⟨k, EMPTY, bump r.revision, r.createdAt, now, 0, true⟩ =
              m.map.deleted k (s.seen r) now := by
            simp [seen, KVRecord.map, KVMap.deleted, KVMap.nextRevision, ← h.map k, view, hr,
              h.inv.empty.2, bump_of_lt (hgrow r hr)]
          rw [hw] at hset
          exact ⟨hset, rfl⟩

end

/-! ## Scans -/

theorem takeWhile_eq_filter {α : Type*} [LinearOrder α] {l : List α} (h : l.Pairwise (· < ·))
    {p : α → Bool} (hp : ∀ x y, x < y → p y = true → p x = true) : l.takeWhile p = l.filter p := by
  induction l with
  | nil => rfl
  | cons x l ih =>
    obtain ⟨hx, hl⟩ := List.pairwise_cons.1 h
    by_cases hpx : p x = true
    · simp [hpx, ih hl]
    · have hnone : l.filter p = [] :=
        List.filter_eq_nil_iff.2 fun y hy hpy => hpx (hp x y (hx y hy) hpy)
      simp [hpx, hnone]

/-- The loop of `scan` fills its page from the records of the keys before `high`. -/
theorem scanLoop_eq_fillPage (options : KVKeys.ScanOptions) (high : Text) (keys : List Text)
    (hkeys : ∀ k ∈ keys, k ∈ s.records) (found : List (StoredRecord T)) (bytes : ℕ) :
    ∃ found' more, s.scanLoop high options keys found bytes = .ok (found', more) ∧
      (found'.map s.seen, more) = KVMap.fillPage options.limit s.options.maxPageBytes
        (((keys.takeWhile (· < high)).filterMap s.view).filter
          fun r => !r.tombstone || options.includeTombstones) (found.map s.seen) bytes := by
  induction keys generalizing found bytes with
  | nil => exact ⟨found, false, rfl, rfl⟩
  | cons key keys ih =>
    have hrest := ih fun k hk => hkeys k (List.mem_cons_of_mem _ hk)
    by_cases hlt : key < high
    · have hcmp : ¬ 0 ≤ KVKeys.compare key high := by
        have := KVKeys.compare_neg_iff.2 hlt
        omega
      obtain ⟨r, hr⟩ := Option.isSome_iff_exists.1
        (AList.lookup_isSome.2 (hkeys key List.mem_cons_self))
      have hview : s.view key = some (s.seen r) := by rw [view, hr]; rfl
      simp only [scanLoop, if_neg hcmp, hr, List.takeWhile_cons, hlt, decide_true, if_true,
        List.filterMap_cons, hview]
      have htomb : (s.seen r).tombstone = r.tombstone := rfl
      by_cases hskip : (r.tombstone && !options.includeTombstones) = true
      · rw [if_pos hskip, List.filter_cons_of_neg (by simp_all)]
        exact hrest found bytes
      · rw [if_neg hskip, List.filter_cons_of_pos (by
          rw [htomb]; revert hskip; cases r.tombstone <;> simp), KVMap.fillPage]
        have hsize : (s.seen r).value.length = (s.heap.content r.value).length := rfl
        rw [hsize, List.length_map]
        split
        · exact ⟨found, true, rfl, rfl⟩
        · have := hrest (found ++ [r]) (bytes + (s.heap.content r.value).length)
          rwa [List.map_append] at this
    · have hcmp : 0 ≤ KVKeys.compare key high :=
        not_lt.1 fun hneg => hlt (KVKeys.compare_neg_iff.1 hneg)
      refine ⟨found, false, by simp [scanLoop, hcmp], ?_⟩
      simp [hlt, KVMap.fillPage]

/-- The copies of a page are new buffers, and show what the records showed. -/
theorem copies_spec (found : List (StoredRecord T)) (hfound : ∀ r ∈ found, r.value < s.heap.next) :
    HeapOnly s (s.copies found).2 ∧
      (∀ r < s.heap.next, (s.copies found).2.heap.content r = s.heap.content r) ∧
      (s.copies found).1.map (s.copies found).2.seen = found.map s.seen := by
  induction found generalizing s with
  | nil => exact ⟨.refl s, fun _ _ => rfl, rfl⟩
  | cons r rest ih =>
    obtain ⟨hcopy, hseen⟩ := copy_spec s r
    have hnext : (s.copy r).2.heap.next = s.heap.next + 1 := rfl
    have hold : ∀ x < s.heap.next, (s.copy r).2.heap.content x = s.heap.content x :=
      fun x hx => s.heap.make_content_lt hx _
    obtain ⟨h₁, h₂, h₃⟩ := ih (s := (s.copy r).2) fun x hx => by
      exact (hfound x (List.mem_cons_of_mem _ hx)).trans (Nat.lt_succ_self _)
    refine ⟨hcopy.trans h₁, fun x hx => ?_, ?_⟩
    · exact (h₂ x (by exact hx.trans (Nat.lt_succ_self _))).trans (hold x hx)
    · have hhead : ((s.copy r).2.copies rest).2.seen (s.copy r).1 = s.seen r := by
        rw [← hseen]
        exact congrArg (fun v => ({ (s.copy r).1 with value := v } : KVRecord Value T))
          (h₂ _ (Nat.lt_succ_self _))
      have htail : rest.map (s.copy r).2.seen = rest.map s.seen := by
        refine List.map_congr_left fun x hx => ?_
        exact congrArg (fun v => ({ x with value := v } : KVRecord Value T))
          (hold _ (hfound x (List.mem_cons_of_mem _ hx)))
      exact congrArg₂ List.cons hhead (h₃.trans htail)

/-- What the loop of `scan` finds are records the store holds. -/
theorem scanLoop_held (options : KVKeys.ScanOptions) (high : Text) (keys : List Text)
    (found : List (StoredRecord T)) (bytes : ℕ) {found' : List (StoredRecord T)} {more : Bool}
    (hloop : s.scanLoop high options keys found bytes = .ok (found', more))
    (hr : r ∈ found') : r ∈ found ∨ ∃ k, s.records.lookup k = some r := by
  induction keys generalizing found bytes with
  | nil =>
    simp only [scanLoop, Except.ok.injEq, Prod.mk.injEq] at hloop
    exact .inl (hloop.1 ▸ hr)
  | cons key keys ih =>
    simp only [scanLoop] at hloop
    split at hloop
    · simp only [Except.ok.injEq, Prod.mk.injEq] at hloop
      exact .inl (hloop.1 ▸ hr)
    · split at hloop
      · cases hloop
      · next r' hr' =>
        split at hloop
        · exact ih found bytes hloop
        · split at hloop
          · simp only [Except.ok.injEq, Prod.mk.injEq] at hloop
            exact .inl (hloop.1 ▸ hr)
          · rcases ih _ _ hloop with hmem | hheld
            · rcases List.mem_append.1 hmem with hmem | hmem
              · exact .inl hmem
              · exact .inr ⟨key, by rw [hr', List.mem_singleton.1 hmem]⟩
            · exact .inr hheld

theorem Sim.sort_keys (h : Sim s m) : m.map.keys.sort (· ≤ ·) = s.keys.keys := by
  refine List.Pairwise.eq_of_mem_iff (Finset.sortedLT_sort _).pairwise h.inv.keys.sorted
    fun k => ?_
  rw [Finset.mem_sort, m.map.mem_keys, ← h.map k, view, Option.isSome_map, AList.lookup_isSome,
    h.inv.mem_keys]

theorem Sim.reads (h : Sim s m) {limit : ℤ} (hrange : KVKeys.rangeOf options n limit = .ok range) :
    m.map.reads options = match range with
      | none => []
      | some range => ((((s.keys.fromKey range.low).takeWhile (· < range.high)).filterMap
          s.view).filter fun r => !r.tombstone || options.includeTombstones) := by
  have hview : m.map.records = s.view := funext fun k => (h.map k).symm
  have hread := fun k (hk : k ∈ s.keys.keys) =>
    KVKeys.mem_rangeOf_iff hrange (h.inv.isKey k ((h.inv.mem_keys k).1 hk))
  classical
  rw [KVMap.reads, h.sort_keys]
  cases range with
  | none =>
    have hnone : (s.keys.keys.filter fun k => decide (options.Reads k)) = [] :=
      List.filter_eq_nil_iff.2 fun k hk => by simp [hread k hk]
    rw [hnone]
    rfl
  | some range =>
    have hsorted : (s.keys.keys.filter (range.low ≤ ·)).Pairwise (· < ·) :=
      h.inv.keys.sorted.filter _
    simp only
    rw [SortedKeys.from_eq_filter h.inv.keys, takeWhile_eq_filter hsorted fun x y hxy hy => by
      simpa using hxy.trans (by simpa using hy), List.filter_filter]
    congr 2
    refine List.filter_congr fun k hk => ?_
    simp [hread k hk, KVKeys.Range.Holds, Bool.and_comm]

theorem agree_scan (h : Sim s m)
    (hrange : KVKeys.rangeOf options s.options.maxKeyBytes s.options.maxScanLimit = .ok range) :
    Agree (s.scan options range) (m.whenOpen (m, m.scan options)) := by
  refine Agree.enter h ?_
  have hreads := h.reads hrange
  cases range with
  | none =>
    refine ⟨h, ?_⟩
    simp [KVStore.scan, hreads, KVMap.fillPage, KVResult.map]
  | some range =>
    have hkeys : ∀ k ∈ s.keys.fromKey range.low, k ∈ s.records := by
      intro k hk
      rw [SortedKeys.from_eq_filter h.inv.keys] at hk
      exact (h.inv.mem_keys k).1 (List.mem_filter.1 hk).1
    obtain ⟨found, more, hloop, hpage⟩ := scanLoop_eq_fillPage options range.high _ hkeys [] 0
    simp only at hreads
    simp only [hloop]
    have hfound : ∀ r ∈ found, r.value < s.heap.next := by
      intro r hr
      rcases scanLoop_held _ _ _ _ _ hloop hr with hmem | ⟨k, hk⟩
      · simp at hmem
      · exact (h.inv.owned k r hk).1
    obtain ⟨hheap, -, hitems⟩ := copies_spec found hfound
    refine ⟨h.of_heap hheap, ?_⟩
    rw [← hreads, h.options] at hpage
    have hlast : ((s.copies found).1.getLast?.map (·.key)) =
        (found.map s.seen).getLast?.map (·.key) := by
      rw [← hitems, List.getLast?_map, Option.map_map]
      rfl
    simp only [KVStore.scan]
    rw [List.map_nil] at hpage
    rw [← hpage, hlast]
    exact congrArg (fun items => KVResult.page items _ _) hitems

/-! ## Purges -/

theorem mem_purged (before : T) :
    k ∈ s.purged before ↔ ∃ r, s.records.lookup k = some r ∧
      (r.tombstone && s.options.earlier r.updatedAt before) = true := by
  simp only [purged, List.mem_map, List.mem_filter]
  constructor
  · rintro ⟨⟨k, r⟩, ⟨hmem, hgone⟩, rfl⟩
    exact ⟨r, AList.mem_lookup_iff.2 hmem, hgone⟩
  · rintro ⟨r, hr, hgone⟩
    exact ⟨⟨k, r⟩, ⟨AList.mem_lookup_iff.1 hr, hgone⟩, rfl⟩

theorem agree_purgeTombstones (h : Sim s m) (before : T) :
    Agree (s.purgeTombstones before) (m.call (.purgeTombstones before)) := by
  refine Agree.enter h ?_
  have hmem := fun k => mem_purged (s := s) (k := k) before
  obtain ⟨h₁, h₂, h₃, h₄, h₅, h₆, h₇, h₈⟩ := foldl_purge (s.purged before) h.inv fun k hk => by
    obtain ⟨r, hr, -⟩ := (hmem k).1 hk
    exact h.inv.isKey k (AList.lookup_isSome.1 (by rw [hr]; rfl))
  have hseen : ((s.purged before).foldl
      (fun s key => (s.log key).removeRecord key) s).seen = s.seen := by
    rw [seen, h₄]
    rfl
  refine ⟨⟨h₁, h₂.trans h.options, h₃.trans h.closed, fun k => ?_, h₆.trans h.open_,
    fun saved hsaved k => ?_⟩, ?_⟩
  · rw [view, h₇, hseen]
    simp only [KVMap.purge, ← h.map k, view]
    by_cases hk : k ∈ s.purged before
    · obtain ⟨r, hr, hgone⟩ := (hmem k).1 hk
      rw [h.options] at hgone
      simp [hk, hr, Option.filter, seen, KVRecord.map, hgone]
    · rw [if_neg hk]
      cases hr : s.records.lookup k with
      | none => rfl
      | some r =>
        have hgone : ¬ (r.tombstone && s.options.earlier r.updatedAt before) = true :=
          fun hg => hk ((hmem k).2 ⟨r, hr, hg⟩)
        rw [h.options] at hgone
        simp [Option.filter, seen, KVRecord.map, hgone]
  · have hsome : s.undo.isSome = true := by rw [h.open_, hsaved]; rfl
    rw [committedView, h₈ hsome, hseen]
    exact h.saved saved hsaved k
  · have hnodup : (s.purged before).Nodup :=
      (List.filter_sublist.map _).nodup s.records.keys_nodup
    show KVResult.purged _ = KVResult.purged _
    rw [← List.toFinset_card_of_nodup hnodup]
    congr 2
    ext k
    rw [List.mem_toFinset, hmem, Finset.mem_filter, m.map.mem_keys, ← h.map k, view, h.options]
    cases s.records.lookup k with
    | none => simp
    | some r => simp [seen, KVRecord.map]

/-! ## One call -/

theorem checkKey_ok {key : Option Text} (h : KVWrites.checkKey key n = .ok k) :
    key = some k ∧ KVKeys.IsKey k := by
  cases key with
  | none => cases h
  | some x =>
    simp only [KVWrites.checkKey] at h
    cases hc : KVKeys.check (some x) n "A key" false with
    | error e => rw [hc] at h; cases h
    | ok u =>
      rw [hc] at h
      obtain rfl : x = k := Except.ok.inj h
      exact ⟨rfl, KVKeys.isKey_of_check hc⟩

theorem checkWrite_ok {size : V → ℕ} {key : Option Text} {value : Option V} {options : KVOptions T}
    {kv : Text × V} (h : KVWrites.checkWrite size key value options = .ok kv) :
    key = some kv.1 ∧ KVKeys.IsKey kv.1 := by
  simp only [KVWrites.checkWrite] at h
  cases hc : KVWrites.checkKey key options.maxKeyBytes with
  | error e => rw [hc] at h; cases h
  | ok x =>
    rw [hc] at h
    split at h
    · cases h
    · split at h
      · cases h
      · obtain rfl := Except.ok.inj h
        exact checkKey_ok hc

theorem checkWrite_map (f : V → Value) (key : Option Text) (value : Option V)
    (options : KVOptions T) :
    KVWrites.checkWrite List.length key (value.map f) options =
      (KVWrites.checkWrite (fun v => (f v).length) key value options).map
        fun kv => (kv.1, f kv.2) := by
  simp only [KVWrites.checkWrite]
  cases hc : KVWrites.checkKey key options.maxKeyBytes with
  | error e => rfl
  | ok x =>
    cases value with
    | none => rfl
    | some v =>
      simp only [Option.map_some]
      split <;> rfl

/-- The key a call may write or delete. -/
def writesOf : KVCall Ref T → Option Text
  | .put key _ _ _ | .compareAndSet key _ _ _ _ | .delete key _ | .compareAndDelete key _ _ => key
  | _ => none

/-- Every key that an act may write or delete is below revision 2^53. -/
def Below (s : MemoryKVStore T) : Act T → Prop
  | .call c => ∀ k ∈ writesOf c, s.CanGrow k
  | _ => True

theorem agree_put (h : Sim s m) {kv : Text × Ref} (hkey : KVKeys.IsKey kv.1)
    (hgrow : s.CanGrow kv.1) (schema : ℤ) (expected : Option ℕ) (now : Except Thrown T) :
    Agree ((s.own kv.2).2.write kv.1 (s.own kv.2).1 schema expected now)
      (m.whenOpen (m.write kv.1 (s.heap.content kv.2) schema expected now)) := by
  obtain ⟨hheap, hown, hcontent⟩ := own_spec h.inv kv.2
  rw [← hcontent]
  refine agree_write (h.of_heap hheap) hkey (fun r hr => hgrow r ?_) hown schema expected now
  rwa [hheap.records] at hr

/-- Every call keeps store and map related, and gives one result. -/
theorem Sim.call (h : Sim s m) {c : KVCall Ref T} (hbelow : s.Below (.call c)) :
    Agree (s.call c) (m.call (c.map s.heap.content)) := by
  have hid : ∀ {α : Type} (c : Except Thrown α), c = c.map id := fun c => by cases c <;> rfl
  cases c with
  | get key =>
    refine Agree.checked h id (by rw [h.options]; exact hid _) fun k _ => agree_get h k
  | put key value schema now =>
    refine Agree.checked h (fun kv => (kv.1, s.heap.content kv.2))
      (by rw [h.options]; exact checkWrite_map _ key value _) fun kv hkv => ?_
    obtain ⟨hk, hkey⟩ := checkWrite_ok hkv
    exact agree_put h hkey (hbelow _ hk) schema none now
  | compareAndSet key value expected schema now =>
    refine Agree.checked h id (hid _) fun e _ =>
      Agree.checked h (fun kv => (kv.1, s.heap.content kv.2))
        (by rw [h.options]; exact checkWrite_map _ key value _) fun kv hkv => ?_
    obtain ⟨hk, hkey⟩ := checkWrite_ok hkv
    exact agree_put h hkey (hbelow _ hk) schema (some e) now
  | delete key now =>
    refine Agree.checked h id (by rw [h.options]; exact hid _) fun k hk => ?_
    obtain ⟨hk, hkey⟩ := checkKey_ok hk
    exact agree_delete h hkey (hbelow _ hk) none now
  | compareAndDelete key expected now =>
    refine Agree.checked h id (hid _) fun e _ =>
      Agree.checked h id (by rw [h.options]; exact hid _) fun k hk => ?_
    obtain ⟨hk, hkey⟩ := checkKey_ok hk
    exact agree_delete h hkey (hbelow _ hk) (some e) now
  | scan options =>
    exact Agree.checked h id (by rw [h.options]; exact hid _) fun range hrange =>
      agree_scan h hrange
  | purgeTombstones before => exact agree_purgeTombstones h before
  | begin_ =>
    refine Agree.enter h ?_
    rcases h.transaction with ⟨hu, hs⟩ | ⟨undo, saved, hu, hs⟩ <;> rw [hu, hs]
    · refine ⟨⟨h.inv.beginUndo, h.options, h.closed, h.map, rfl, ?_⟩, rfl⟩
      rintro _ ⟨⟩ k
      exact h.map k
    · exact .thrown h _
  | commit =>
    refine Agree.enter h ?_
    rcases h.transaction with ⟨hu, hs⟩ | ⟨undo, saved, hu, hs⟩ <;> rw [hu, hs]
    · exact .thrown h _
    · exact ⟨⟨h.inv.endUndo, h.options, h.closed, h.map, rfl, by simp⟩, rfl⟩
  | rollback =>
    obtain ⟨h₁, h₂, h₃, h₄, h₅, -, h₇⟩ := restore_spec h.inv
    simp only [MemoryKVStore.call, KVStore.call, KVCall.map]
    rcases h.transaction with ⟨hu, hs⟩ | ⟨undo, saved, hu, hs⟩ <;> simp only [hs]
    · rw [if_pos (.inr hu)]
      exact ⟨h, rfl⟩
    · simp only [← h.closed]
      by_cases hcl : s.closed = true
      · rw [if_pos (.inl hcl), if_pos hcl]
        exact ⟨h, rfl⟩
      · rw [if_neg (not_or.2 ⟨hcl, by simp [hu]⟩), if_neg hcl]
        refine ⟨⟨h₁, h₃.trans h.options, h₄, fun k => ?_, by rw [h₂]; rfl, by simp⟩, rfl⟩
        rw [view, h₇, seen, h₅]
        exact h.saved saved hs k
  | close =>
    obtain ⟨h₁, h₂, h₃, h₄, h₅, h₆, -⟩ := restore_spec h.inv
    simp only [MemoryKVStore.call, KVStore.call, KVCall.map, ← h.closed]
    split
    · exact ⟨h, rfl⟩
    · refine ⟨⟨⟨SortedKeys.wellFormed_empty, ?_, ?_, ?_, ?_, ?_, ?_, ?_, h₁.empty, h₁.shared⟩,
        h₃.trans h.options, rfl, fun k => rfl, by simp [h₂, KVStore.shut],
        fun _ hn => by cases hn⟩, rfl⟩
      · intro k
        simp [SortedKeys.empty, SortedKeys.keys]
      · intro k hk
        simp at hk
      all_goals simp [h₂]

end MemoryKVStore

end CrossByte
