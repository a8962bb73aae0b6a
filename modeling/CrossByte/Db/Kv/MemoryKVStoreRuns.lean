import CrossByte.Db.Kv.MemoryKVStoreRefines
import CrossByte.Lib.Runs

/-!
# MemoryKVStore: every run

A run is a list of acts of one caller: buffers made, buffers written, and calls of the
store.  The map sees the calls with the bytes that were passed (`trace`), and is in
step with the store all along (`sim_run`).

## Main results

* `memoryKVStore_refines`: every run answers as the interface states, keeps its keys
  in order, shares no buffer, goes back to the records there were at `begin`, and never
  commits two records of a key with one revision between two of its purges.
* `revision_stops_at_2_pow_53`: the bound on revisions is needed.
-/

namespace CrossByte

open Runs

namespace MemoryKVStore

variable {T : Type} {s : MemoryKVStore T} {m : KVStore T} {k : Text}

/-! ## Every run -/

/-- Every act keeps the store related to the map that saw its calls. -/
theorem Sim.act (h : Sim s m) {act : Act T} (hbelow : s.Below act) :
    Sim (s.step act) (m.after ((s.trace [act]).map Prod.fst)) := by
  cases act with
  | alloc v => exact h.of_heap (heapOnly_give s v)
  | poke r v =>
    simp only [MemoryKVStore.step]
    split
    · next hr => exact h.of_heap (heapOnly_poke hr v)
    · exact h
  | call c => exact (h.call hbelow).1

theorem trace_cons (s : MemoryKVStore T) (act : Act T) (acts : List (Act T)) :
    s.trace (act :: acts) = s.trace [act] ++ (s.step act).trace acts := by
  cases act <;> rfl

theorem trace_append (s : MemoryKVStore T) (acts acts' : List (Act T)) :
    s.trace (acts ++ acts') = s.trace acts ++ (run step s acts).trace acts' := by
  induction acts generalizing s with
  | nil => rfl
  | cons act acts ih =>
    rw [List.cons_append, trace_cons, ih, trace_cons s act acts, List.append_assoc, run_cons]

theorem Sim.acts (h : Sim s m) {acts : List (Act T)} (hl : Along step Below s acts) :
    Sim (run step s acts) (m.after ((s.trace acts).map Prod.fst)) := by
  induction acts generalizing s m with
  | nil => exact h
  | cons act acts ih =>
    rw [trace_cons, List.map_append, KVStore.after_append]
    exact ih (h.act hl.1) hl.2

theorem Sim.results (h : Sim s m) {acts : List (Act T)} (hl : Along step Below s acts) :
    (s.trace acts).map Prod.snd = m.results ((s.trace acts).map Prod.fst) := by
  induction acts generalizing s m with
  | nil => rfl
  | cons act acts ih =>
    have hrest := ih (h.act hl.1) hl.2
    cases act with
    | alloc v => exact hrest
    | poke r v => exact hrest
    | call c => exact congrArg₂ List.cons (h.call hl.1).2 hrest

/-- The map after the calls of a run. -/
noncomputable def mapAfter (options : KVOptions T) (acts : List (Act T)) : KVStore T :=
  (KVStore.new options).after (((new options).trace acts).map Prod.fst)

variable {options : KVOptions T}

theorem sim_run {acts : List (Act T)}
    (hl : Along step Below (new options) acts) :
    Sim (run step (new options) acts) (mapAfter options acts) :=
  (sim_new options).acts hl

/-- An act that ends a transaction. -/
def Ends (act : Act T) : Prop := act = .call .commit ∨ act = .call .rollback ∨ act = .call .close

theorem exists_of_mem_trace {acts : List (Act T)} {c : KVCall Value T}
    (hc : c ∈ (s.trace acts).map Prod.fst) : ∃ c' f, Act.call c' ∈ acts ∧ c = KVCall.map f c' := by
  induction acts generalizing s with
  | nil => simp [trace] at hc
  | cons act acts ih =>
    rw [trace_cons, List.map_append] at hc
    rcases List.mem_append.1 hc with hc | hc
    · cases act with
      | alloc v => simp [trace] at hc
      | poke r v => simp [trace] at hc
      | call c' => exact ⟨c', s.heap.content, by simp, by simpa [trace] using hc⟩
    · obtain ⟨c', f, hmem, heq⟩ := ih hc
      exact ⟨c', f, List.mem_cons_of_mem _ hmem, heq⟩

theorem not_ending_of_mem_trace {acts : List (Act T)} (hacts : ∀ act ∈ acts, ¬ Ends act) :
    ∀ c ∈ (s.trace acts).map Prod.fst, c ≠ .commit ∧ c ≠ .rollback ∧ c ≠ .close := by
  intro c hc
  obtain ⟨c', f, hmem, rfl⟩ := exists_of_mem_trace hc
  have hne := hacts _ hmem
  cases c' <;> simp_all [KVCall.map, Ends]

/-- Whatever a transaction wrote, deleted or purged, `__restore` brings back the records and the
key order there were at `begin`. -/
theorem restore_begin {before after : List (Act T)}
    (hl : Along step Below (new options) (before ++ .call .begin_ :: after))
    (hopen : (run step (new options) before).closed = false)
    (hundo : (run step (new options) before).undo = none)
    (hends : ∀ act ∈ after, ¬ Ends act) :
    let s := run step (new options) before
    let s' := run step (new options) (before ++ .call .begin_ :: after)
    (∀ k, s'.restore.view k = s.view k) ∧ s'.restore.keys.keys = s.keys.keys ∧
      s'.closed = false ∧ s'.undo ≠ none := by
  intro s s'
  have hs : Sim s (mapAfter options before) := sim_run ((along_append _ _).1 hl).1
  have hs' : Sim s' (mapAfter options (before ++ .call .begin_ :: after)) := sim_run hl
  have hmap : mapAfter options (before ++ .call .begin_ :: after) =
      ((mapAfter options before).call .begin_).1.after
        (((s.step (.call .begin_)).trace after).map Prod.fst) := by
    rw [mapAfter, trace_append, List.map_append, KVStore.after_append, trace_cons, List.map_append]
    rfl
  have hbegin : ((mapAfter options before).call .begin_).1 =
      { mapAfter options before with saved := some (mapAfter options before).map } := by
    have hcl : (mapAfter options before).closed = false := hs.closed ▸ hopen
    have hnone : (mapAfter options before).saved = none := by
      rcases hs.transaction with ⟨-, h⟩ | ⟨undo, _, h, -⟩
      · exact h
      · cases hundo.symm.trans h
    simp [KVStore.call, KVStore.whenOpen, hcl, hnone]
  have hsaved : (mapAfter options (before ++ .call .begin_ :: after)).saved =
      some (mapAfter options before).map := by
    rw [hmap, KVStore.saved_after (by rw [hbegin]; rfl) (not_ending_of_mem_trace hends), hbegin]
  obtain ⟨hinv, -, -, -, hheap, -, hlookup⟩ := restore_spec hs'.inv
  have hview : ∀ k, s'.restore.view k = s.view k := by
    intro k
    rw [view, hlookup, seen, hheap, hs.map k]
    exact hs'.saved _ hsaved k
  have hsound := (KVStore.sound_new options).after
    (((new options).trace (before ++ .call .begin_ :: after)).map Prod.fst)
  refine ⟨hview, List.Pairwise.eq_of_mem_iff hinv.keys.sorted hs.inv.keys.sorted fun k => ?_,
    ?_, fun hnone => ?_⟩
  · have hsome := congrArg Option.isSome (hview k)
    rw [hinv.mem_keys, hs.inv.mem_keys, ← AList.lookup_isSome, ← AList.lookup_isSome]
    simpa [view] using hsome
  · by_contra hcl
    have hunsaved := hsound.unsaved (by rw [← mapAfter, ← hs'.closed]; simpa using hcl)
    rw [← mapAfter, hsaved] at hunsaved
    cases hunsaved
  · have hsome := hs'.open_
    rw [hnone, hsaved] at hsome
    cases hsome

/-- Between the same purges of a key no two of its committed states share a revision. -/
theorem committed_revision {acts acts' : List (Act T)}
    (hl : Along step Below (new options) (acts ++ acts')) {r r' : KVRecord Value T}
    (hr : (run step (new options) acts).committedView k = some r)
    (hr' : (run step (new options) (acts ++ acts')).committedView k = some r')
    (hp : (mapAfter options acts).committed.purges k =
      (mapAfter options (acts ++ acts')).committed.purges k)
    (hrev : r.revision = r'.revision) : r = r' := by
  have hcommitted : ∀ {s : MemoryKVStore T} {m : KVStore T}, Sim s m →
      s.committedView k = m.committed.records k := by
    intro s m h
    rcases h.transaction with ⟨hu, hs⟩ | ⟨-, saved, -, hs⟩
    · rw [committedView, committed_of_none hu]
      simpa [KVStore.committed, hs, view] using h.map k
    · simpa [KVStore.committed, hs] using h.saved saved hs k
  rw [hcommitted (sim_run ((along_append _ _).1 hl).1)] at hr
  rw [hcommitted (sim_run hl)] at hr'
  have hafter : mapAfter options (acts ++ acts') = (mapAfter options acts).after
      (((run step (new options) acts).trace acts').map Prod.fst) := by
    rw [mapAfter, trace_append, List.map_append, KVStore.after_append]
    rfl
  have hsound : (mapAfter options acts).Sound := (KVStore.sound_new options).after _
  rcases hsound.newer_after (((run step (new options) acts).trace acts').map Prod.fst) with h | h
  · rw [← hafter] at h
    exact h.eq_of_revision hp hr hr' hrev
  · rw [← hafter] at h
    rw [h k] at hr'
    cases hr'

/-- **`MemoryKVStore` is the store its interface states**, in every run in which no key at
revision 2^53 is written or deleted.  Its results are the map's; its keys, in order, are the keys
of its records; it holds no buffer that a caller has; `rollback`, and `close` before it lets go
of the records, go back to what there was at `begin`; and between the same purges of a key no two
of its committed states share a revision. -/
theorem memoryKVStore_refines (options : KVOptions T) (acts : List (Act T))
    (hl : Along step Below (new options) acts) :
    let s := run step (new options) acts
    ((new options).trace acts).map Prod.snd =
        (KVStore.new options).results (((new options).trace acts).map Prod.fst) ∧
      (s.keys.keys.Pairwise (· < ·) ∧ ∀ k, k ∈ s.keys.keys ↔ k ∈ s.records) ∧
      ((∀ k r, s.records.lookup k = some r → r.value ∉ s.shared) ∧
        ∀ undo, s.undo = some undo → ∀ e ∈ undo, ∀ r, e.prior = some r → r.value ∉ s.shared) ∧
      (∀ before after, acts = before ++ .call .begin_ :: after →
        (run step (new options) before).closed = false →
        (run step (new options) before).undo = none → (∀ act ∈ after, ¬ Ends act) →
        (∀ k, s.restore.view k = (run step (new options) before).view k) ∧
          s.restore.keys.keys = (run step (new options) before).keys.keys ∧
          s.step (.call .rollback) = s.restore ∧
          s.step (.call .close) =
            { s.restore with closed := true, records := ∅, keys := .empty }) ∧
      ∀ before after, acts = before ++ after → ∀ k r r',
        (run step (new options) before).committedView k = some r → s.committedView k = some r' →
        (mapAfter options before).committed.purges k =
          (mapAfter options acts).committed.purges k →
        r.revision = r'.revision → r = r' := by
  intro s
  have hsim : Sim s (mapAfter options acts) := sim_run hl
  refine ⟨(sim_new options).results hl, ⟨hsim.inv.keys.sorted, hsim.inv.mem_keys⟩,
    ⟨fun k r hr => (hsim.inv.owned k r hr).2,
      fun undo hu e he r hr => (hsim.inv.undoOwned undo hu e he r hr).2⟩, ?_, ?_⟩
  · rintro before after rfl hopen hundo hends
    obtain ⟨hview, hkeys, hcl, hsome⟩ := restore_begin hl hopen hundo hends
    have hcl' : ¬ s.closed = true := by rw [show s.closed = false from hcl]; simp
    refine ⟨hview, hkeys, ?_, ?_⟩
    · simp only [step, call]
      rw [if_neg (not_or.2 ⟨hcl', hsome⟩)]
    · simp only [step, call, if_neg hcl']
  · rintro before after rfl k r r' hr hr' hp hrev
    exact committed_revision hl hr hr' hp hrev

/-- A key is written, deleted in a transaction that is rolled back, and read. -/
theorem memoryKVStore_refines_delete :
    let options := KVOptions.default fun a b : ℕ => decide (a < b)
    let acts : List (Act ℕ) := [.alloc [7], .call (.put (some [97]) (some 1) 0 (.ok 5)),
      .call .begin_, .call (.delete (some [97]) (.ok 6)), .call .rollback,
      .call (.get (some [97]))]
    Along step Below (new options) acts ∧ ((new options).trace acts).map Prod.snd =
      (KVStore.new options).results (((new options).trace acts).map Prod.fst) := by
  intro options acts
  have hl : Along step Below (new options) acts := by
    refine ⟨trivial, ?_, nofun, ?_, nofun, nofun, trivial⟩
    · rintro k ⟨⟩ r hr
      cases hr
    · rintro k ⟨⟩ r hr
      cases hr
      change 1 < 2 ^ 53
      decide
  exact ⟨hl, (memoryKVStore_refines options acts hl).1⟩

/-! ## The last revision -/

section LastRevision

/-- One write of the key `a`, with an empty value. -/
def writeA : Act ℕ := .call (.put (some [97]) (some 1) 0 (.ok 0))

/-- The options of the run. -/
def ordinary : KVOptions ℕ := .default fun a b => decide (a < b)

/-- A store in which the key `a` was written `n` times. -/
structure WrittenTimes (n : ℕ) (s : MemoryKVStore ℕ) : Prop where
  options : s.options = ordinary
  closed : s.closed = false
  undo : s.undo = none
  buffer : s.heap.content 1 = [] ∧ 1 < s.heap.next
  revision : (s.records.lookup [97]).map KVRecord.revision = if n = 0 then none else some n

variable {s : MemoryKVStore ℕ} {n : ℕ}

theorem WrittenTimes.revision_eq (h : WrittenTimes n s)
    {r : StoredRecord ℕ} (hr : s.records.lookup [97] = some r) : r.revision = n := by
  have hrev := h.revision
  split at hrev <;> simp_all

theorem WrittenTimes.call (h : WrittenTimes n s) :
    let r := written (s.records.lookup [97]) [97] EMPTY 0 0
    s.call (.put (some [97]) (some 1) 0 (.ok 0)) =
      (((s.setRecord [97] r).copy r).2, .record (some ((s.setRecord [97] r).copy r).1)) := by
  intro r
  have hcheck : KVWrites.checkWrite (fun v => (s.heap.content v).length) (some [97]) (some 1)
      s.options = .ok ([97], 1) := by
    have hkey : KVWrites.checkKey (some [97]) s.options.maxKeyBytes = .ok [97] := by
      rw [h.options]
      rfl
    simp [KVWrites.checkWrite, hkey, h.buffer.1, bind, Except.bind]
  have hown : s.own 1 = (EMPTY, s) := by simp [own, h.buffer.1]
  have hlog : s.log [97] = s := by simp [log, h.undo]
  simp only [MemoryKVStore.call, hcheck, MemoryKVStore.checked, hown, write, enter, h.closed,
    hlog]
  simp [r]

theorem WrittenTimes.succ (h : WrittenTimes n s) (hn : n < 2 ^ 53) :
    WrittenTimes (n + 1) (s.step writeA) := by
  have hcall := h.call
  have heq : s.step writeA = (s.call (.put (some [97]) (some 1) 0 (.ok 0))).1 := rfl
  rw [heq, hcall]
  refine ⟨h.options, h.closed, h.undo, ⟨?_, ?_⟩, ?_⟩
  · exact (s.heap.make_content_lt h.buffer.2 _).trans h.buffer.1
  · exact h.buffer.2.trans (Nat.lt_succ_self _)
  · have hlookup : ∀ r : StoredRecord ℕ, (((s.setRecord [97] r).copy r).2.records.lookup [97]) =
        some r := fun r => by
      show (s.setRecord [97] r).records.lookup [97] = some r
      rw [lookup_setRecord, if_pos rfl]
    rw [hlookup]
    cases hr : s.records.lookup [97] with
    | none =>
      have h0 : n = 0 := by simpa [hr] using h.revision
      simp [written, h0]
    | some r => simp [written, h.revision_eq hr, bump_of_lt hn]

theorem WrittenTimes.below (h : WrittenTimes n s) (hn : n < 2 ^ 53) : s.Below writeA := by
  rintro k ⟨⟩ r hr
  rw [h.revision_eq hr]
  exact hn

theorem writtenTimes_run (hn : n ≤ 2 ^ 53) :
    Along step Below (new ordinary) (.alloc [] :: List.replicate n writeA) ∧
      WrittenTimes n (run step (new ordinary) (.alloc [] :: List.replicate n writeA)) := by
  induction n with
  | zero => exact ⟨⟨trivial, trivial⟩, ⟨rfl, rfl, rfl, ⟨rfl, by decide⟩, rfl⟩⟩
  | succ n ih =>
    obtain ⟨hl, h⟩ := ih (by omega)
    have hlt : n < 2 ^ 53 := by omega
    have hsplit : Act.alloc [] :: List.replicate (n + 1) writeA =
        (.alloc [] :: List.replicate n writeA) ++ [writeA] := by
      rw [List.replicate_succ', List.cons_append]
    rw [hsplit, along_concat, run_concat]
    exact ⟨⟨hl, h.below hlt⟩, h.succ hlt⟩

/-- The revision of the record a call returned. -/
def revisionOf {V T : Type} : KVResult V T → Option ℕ
  | .record (some r) => some r.revision
  | _ => none

/-- The map answers a write of the key `a` with the next revision. -/
theorem Sim.revisionOf_put {m : KVStore ℕ} (h : Sim s m)
    (hn : WrittenTimes n s) {r : StoredRecord ℕ} (hr : s.records.lookup [97] = some r) :
    revisionOf (m.call (.put (some [97]) (some (s.heap.content 1)) 0 (.ok 0))).2 =
      some (r.revision + 1) := by
  have hcheck : KVWrites.checkWrite List.length (some [97]) (some (s.heap.content 1)) m.options =
      .ok ([97], []) := by
    rw [← h.options, hn.options, hn.buffer.1]
    rfl
  have hcl : m.closed = false := h.closed ▸ hn.closed
  have hrec : m.map.records [97] = some (s.seen r) := by rw [← h.map, view, hr]; rfl
  simp [KVStore.call, hcheck, KVStore.checked, KVStore.whenOpen, hcl, KVStore.write, revisionOf,
    KVMap.written, KVMap.nextRevision, hrec, seen, KVRecord.map]

/-- A revision is exact to 2^53: the write after that answers the revision there was, where the
map's record takes the next. -/
theorem revision_stops_at_2_pow_53 :
    ∃ acts : List (Act ℕ), ((new ordinary).trace acts).map Prod.snd ≠
      (KVStore.new ordinary).results (((new ordinary).trace acts).map Prod.fst) := by
  obtain ⟨hl, h⟩ := writtenTimes_run (n := 2 ^ 53) le_rfl
  generalize hacts : (.alloc [] :: List.replicate (2 ^ 53) writeA : List (Act ℕ)) = acts at hl h
  have hsim : Sim (run step (new ordinary) acts) (mapAfter ordinary acts) := sim_run hl
  refine ⟨acts ++ [writeA], fun heq => ?_⟩
  rw [trace_append, List.map_append, List.map_append, KVStore.results_append,
    (sim_new ordinary).results hl, List.append_cancel_left_eq] at heq
  have hlast := congrArg revisionOf (List.head_eq_of_cons_eq heq)
  obtain ⟨r, hr, hrev⟩ : ∃ r, (run step (new ordinary) acts).records.lookup [97] = some r ∧
      r.revision = 2 ^ 53 := by
    have := h.revision
    exact Option.map_eq_some_iff.1 this
  have hstore : revisionOf (((run step (new ordinary) acts).call
      (.put (some [97]) (some 1) 0 (.ok 0))).2.map ((run step (new ordinary) acts).call
      (.put (some [97]) (some 1) 0 (.ok 0))).1.heap.content) = some (2 ^ 53) := by
    rw [h.call, hr]
    show some (bump r.revision) = some (2 ^ 53)
    rw [hrev, bump, if_neg (lt_irrefl _)]
  have hmap := hsim.revisionOf_put h hr
  rw [hrev] at hmap
  have := hstore.symm.trans (hlast.trans hmap)
  norm_num at this

end LastRevision

end MemoryKVStore

end CrossByte
