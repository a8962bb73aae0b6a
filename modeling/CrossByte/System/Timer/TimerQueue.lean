import CrossByte.Lib.Serial
import CrossByte.Lib.SlotHeap

/-!
# The queue of the timer heap

`crossbyte._internal.system.timer.heap.TimerQueue`: a binary heap of nodes by due time and then
by arming number, in three parallel arrays, with each node recording its place.  A node taken
from the root leaves a hole that sinks to the bottom before the last node is sifted up from
there.

A `QueueEntry` is one place of the arrays; writing it writes the node's `heapIndex`, `none` for
`-1`, as the code does at every write.

* `Tracked`: every node queued records its place, and no other node records one;
* `Tracked.enqueue`, `.remove`, `.update`, `.dequeue`: each operation keeps it.
-/

namespace CrossByte

open SlotHeap Serial

/-- One place of `__heap`, `__times` and `__armings`. -/
structure QueueEntry where
  node : ℕ := 0
  time : ℚ := 0
  arming : Word := 0
  deriving DecidableEq

/-- The arrays, and the `heapIndex` of every node. -/
structure QueueTable where
  slots : ℕ → QueueEntry := fun _ => {}
  heapIndex : ℕ → Option ℕ := fun _ => none

namespace QueueTable

/-- An entry is written, and its node records the place. -/
def put (t : QueueTable) (i : ℕ) (e : QueueEntry) : QueueTable :=
  { slots := Function.update t.slots i e
    heapIndex := Function.update t.heapIndex e.node (some i) }

/-- An entry is written over one of the same node. -/
def write (t : QueueTable) (i : ℕ) (e : QueueEntry) : QueueTable :=
  { t with slots := Function.update t.slots i e }

/-- `node.heapIndex = -1`. -/
def forget (t : QueueTable) (n : ℕ) : QueueTable :=
  { t with heapIndex := Function.update t.heapIndex n none }

/-- The arrays as the slots of a heap. -/
def store : Slots QueueTable QueueEntry where
  get t i := t.slots i
  put := put
  get_put _ _ _ _ := Function.update_apply ..

def before (e f : QueueEntry) : Bool :=
  e.time < f.time ∨ e.time = f.time ∧ ahead e.arming f.arming < 0

def siftUp (t : QueueTable) (i : ℕ) : QueueTable :=
  SlotHeap.siftUp store before i t i (t.slots i)

/-- `__siftDown`, among `length` places. -/
def siftDown (t : QueueTable) (length i : ℕ) : QueueTable :=
  sink store before length length t i (t.slots i)

/-- Every node of the first `n` places records its place, and no other node records one. -/
structure Tracked (t : QueueTable) (n : ℕ) : Prop where
  index : ∀ i < n, t.heapIndex (t.slots i).node = some i
  back : ∀ m i, t.heapIndex m = some i → i < n ∧ (t.slots i).node = m

/-- The same but for the hole at `k`, from which `x` is held aside. -/
structure TrackedBut (t : QueueTable) (n k x : ℕ) : Prop where
  lt : k < n
  index : ∀ j < n, j ≠ k → t.heapIndex (t.slots j).node = some j ∧ (t.slots j).node ≠ x
  back : ∀ m i, t.heapIndex m = some i → m = x ∨ i < n ∧ i ≠ k ∧ (t.slots i).node = m

variable {t t' : QueueTable} {n i j k k' x : ℕ} {e : QueueEntry}

theorem slots_put (t : QueueTable) (i j : ℕ) (e : QueueEntry) :
    (t.put i e).slots j = if j = i then e else t.slots j := Function.update_apply ..

theorem heapIndex_put (t : QueueTable) (i m : ℕ) (e : QueueEntry) :
    (t.put i e).heapIndex m = if m = e.node then some i else t.heapIndex m :=
  Function.update_apply ..

theorem records : Records store heapIndex QueueEntry.node some :=
  ⟨Option.some_injective _, fun _ _ _ _ => Function.update_apply ..⟩

theorem TrackedBut.move (h : t.TrackedBut n k x) (hj : j < n) (hne : j ≠ k) :
    (t.put k (t.slots j)).TrackedBut n j x := by
  refine ⟨hj, records.move h.index hj hne, fun m i hm => ?_⟩
  rw [heapIndex_put] at hm
  by_cases hmj : m = (t.slots j).node
  · rw [if_pos hmj] at hm
    obtain rfl := Option.some.inj hm
    refine .inr ⟨h.lt, hne.symm, ?_⟩
    rw [slots_put, if_pos rfl, hmj]
  · rw [if_neg hmj] at hm
    rcases h.back m i hm with hx | ⟨hi, hik, hnode⟩
    · exact .inl hx
    · refine .inr ⟨hi, fun hij => hmj (by rw [← hnode, hij]), ?_⟩
      rw [slots_put, if_neg hik]
      exact hnode

theorem TrackedBut.of_moves (h : t.TrackedBut n k x) (hm : Moves store n t k t' k') :
    t'.TrackedBut n k' x :=
  hm.rule (Q := fun t k => TrackedBut t n k x) h fun _ _ _ hQ hj hne => hQ.move hj hne

theorem TrackedBut.put (h : t.TrackedBut n k e.node) : (t.put k e).Tracked n := by
  refine ⟨records.fill h.index, fun m i hm => ?_⟩
  rw [heapIndex_put] at hm
  by_cases hme : m = e.node
  · rw [if_pos hme] at hm
    obtain rfl := Option.some.inj hm
    rw [slots_put, if_pos rfl]
    exact ⟨h.lt, hme.symm⟩
  · rw [if_neg hme] at hm
    obtain ⟨hi, hik, hnode⟩ := (h.back m i hm).resolve_left hme
    rw [slots_put, if_neg hik]
    exact ⟨hi, hnode⟩

theorem Tracked.but (h : t.Tracked n) (hk : k < n) : t.TrackedBut n k (t.slots k).node := by
  refine ⟨hk, fun j hj hne => ⟨h.index j hj, fun heq => ?_⟩, fun m i hm => ?_⟩
  · have hj' := h.index j hj
    rw [heq, h.index k hk] at hj'
    exact hne (Option.some.inj hj').symm
  · obtain ⟨hi, hnode⟩ := h.back m i hm
    by_cases hik : i = k
    · subst hik
      exact .inl hnode.symm
    · exact .inr ⟨hi, hik, hnode⟩

/-- The nodes of the first `n` places. -/
def nodes (t : QueueTable) (n : ℕ) : Multiset ℕ := (elements store n t).map QueueEntry.node

/-- A chain of moves and a write leaves the nodes a write would have left. -/
theorem nodes_of_moves (hm : Moves store n t k t' k') (hk : k < n) :
    (t'.put k' e).nodes n = (t.put k e).nodes n :=
  congrArg (Multiset.map QueueEntry.node) (elements_of_moves (S := store) hm hk)

/-- Writing over a place swaps its node for the one written. -/
theorem nodes_put (hk : k < n) :
    (t.slots k).node ::ₘ (t.put k e).nodes n = e.node ::ₘ t.nodes n := by
  have h := congrArg (Multiset.map QueueEntry.node)
    (elements_put (S := store) (s := t) (x := e) hk)
  rwa [Multiset.map_cons] at h

theorem nodes_put_same (hk : k < n) (he : e.node = (t.slots k).node) :
    (t.put k e).nodes n = t.nodes n := by
  have h := nodes_put (t := t) (e := e) hk
  rw [he] at h
  exact (Multiset.cons_inj_right _).1 h

theorem nodes_succ : t.nodes (n + 1) = (t.slots n).node ::ₘ t.nodes n := by
  unfold nodes
  rw [elements_succ]
  rfl

theorem nodes_put_end : (t.put n e).nodes (n + 1) = e.node ::ₘ t.nodes n := by
  rw [nodes_succ, slots_put, if_pos rfl]
  exact congrArg _ (congrArg (Multiset.map QueueEntry.node) (elements_put_of_le le_rfl))

@[simp] theorem forget_nodes (t : QueueTable) (m n : ℕ) : (t.forget m).nodes n = t.nodes n := rfl

theorem mem_nodes {m : ℕ} : m ∈ t.nodes n ↔ ∃ i < n, (t.slots i).node = m := by
  simp [nodes, mem_elements, store]

theorem Tracked.mem_iff (h : t.Tracked n) {m : ℕ} : m ∈ t.nodes n ↔ (t.heapIndex m).isSome := by
  rw [mem_nodes, Option.isSome_iff_exists]
  constructor
  · rintro ⟨i, hi, rfl⟩
    exact ⟨i, h.index i hi⟩
  · rintro ⟨i, hi⟩
    exact ⟨i, (h.back m i hi).1, (h.back m i hi).2⟩

theorem siftUp_spec (h : t.TrackedBut n i (t.slots i).node) :
    (t.siftUp i).Tracked n ∧ (t.siftUp i).nodes n = t.nodes n := by
  obtain ⟨t', i', hm, heq⟩ := siftUp_moves store before t (t.slots i) i h.lt
  have hput : t.siftUp i = t'.put i' (t.slots i) := heq
  rw [hput]
  refine ⟨(h.of_moves hm).put, ?_⟩
  rw [nodes_of_moves hm h.lt, nodes_put_same h.lt rfl]

theorem siftDown_spec (h : t.Tracked n) (hi : i < n) :
    (t.siftDown n i).Tracked n ∧ (t.siftDown n i).nodes n = t.nodes n := by
  have hsinks : Sinks store before n (t.slots i) t i (t.siftDown n i) := sink_sinks hi (by omega)
  obtain ⟨t', i', hm, heq⟩ := hsinks.moves
  have hput : t.siftDown n i = t'.put i' (t.slots i) := heq
  rw [hput]
  refine ⟨((h.but hi).of_moves hm).put, ?_⟩
  rw [nodes_of_moves hm hi, nodes_put_same hi rfl]

end QueueTable

structure TimerQueue where
  table : QueueTable := {}
  length : ℕ := 0
  nextArming : Word := 0

namespace TimerQueue

/-- The place node `n` records. -/
def heapIndex (q : TimerQueue) (n : ℕ) : Option ℕ := q.table.heapIndex n

/-- `rearm` on a node takes its place off it. -/
def rearm (q : TimerQueue) (n : ℕ) : TimerQueue := { q with table := q.table.forget n }

def peek (q : TimerQueue) : Option ℕ := if 0 < q.length then some (q.table.slots 0).node else none

/-- `__siftUp(i)` and then `__siftDown(node.heapIndex)`. -/
def resift (t : QueueTable) (length i n : ℕ) : QueueTable :=
  let t := t.siftUp i
  match t.heapIndex n with
  | some j => t.siftDown length j
  | none => t

/-- `update`: the node is due at `time` now. -/
def update (q : TimerQueue) (n : ℕ) (time : ℚ) : TimerQueue :=
  match q.heapIndex n with
  | none => q
  | some i =>
    { q with
      table := resift (q.table.write i { q.table.slots i with
        time := time, arming := q.nextArming }) q.length i n
      nextArming := q.nextArming + 1 }

def enqueue (q : TimerQueue) (n : ℕ) (time : ℚ) : TimerQueue :=
  match q.heapIndex n with
  | some _ => q.update n time
  | none =>
    { table := (q.table.put q.length { node := n, time := time, arming := q.nextArming }).siftUp
        q.length
      length := q.length + 1
      nextArming := q.nextArming + 1 }

def remove (q : TimerQueue) (n : ℕ) : TimerQueue :=
  match q.heapIndex n with
  | none => q
  | some i =>
    let last := q.length - 1
    let t := q.table.forget n
    if i = last then { q with table := t, length := last }
    else
      let moved := q.table.slots last
      { q with table := resift (t.put i moved) last i moved.node, length := last }

def dequeue (q : TimerQueue) : TimerQueue :=
  if q.length = 0 then q
  else
    let last := q.length - 1
    let t := q.table.forget (q.table.slots 0).node
    if last = 0 then { q with table := t, length := last }
    else
      let moved := q.table.slots last
      let hole := sinkHole QueueTable.store QueueTable.before last last t 0
      { q with table := (hole.1.put hole.2 moved).siftUp hole.2, length := last }

def nodes (q : TimerQueue) : Multiset ℕ := q.table.nodes q.length

/-- Every node queued records its place, and no other node records one. -/
def Tracked (q : TimerQueue) : Prop := q.table.Tracked q.length

variable {q : TimerQueue} {n i : ℕ}

theorem tracked_new : Tracked {} := ⟨fun _ h => absurd h (Nat.not_lt_zero _), nofun⟩

theorem Tracked.heapIndex_eq_none (h : q.Tracked) : q.heapIndex n = none ↔ n ∉ q.nodes := by
  rw [nodes, h.mem_iff, Option.not_isSome_iff_eq_none]
  rfl

theorem Tracked.rearm (h : q.Tracked) (hn : n ∉ q.nodes) : q.rearm n = q := by
  have hnone : q.table.heapIndex n = none := h.heapIndex_eq_none.2 hn
  have hself : Function.update q.table.heapIndex n none = q.table.heapIndex := by
    rw [← hnone, Function.update_eq_self]
  unfold TimerQueue.rearm QueueTable.forget
  rw [hself]

theorem resift_spec {t : QueueTable} {m : ℕ} (h : t.TrackedBut m i (t.slots i).node) (n : ℕ) :
    (resift t m i n).Tracked m ∧ (resift t m i n).nodes m = t.nodes m := by
  obtain ⟨htracked, hnodes⟩ := QueueTable.siftUp_spec h
  unfold resift
  dsimp only
  split
  · rename_i j hj
    obtain ⟨htracked', hnodes'⟩ := QueueTable.siftDown_spec htracked (htracked.back n j hj).1
    exact ⟨htracked', hnodes'.trans hnodes⟩
  · exact ⟨htracked, hnodes⟩

section

variable (h : q.Tracked)

include h

/-- **`update`** keeps the nodes. -/
theorem Tracked.update (n : ℕ) (time : ℚ) :
    (q.update n time).Tracked ∧ (q.update n time).nodes = q.nodes := by
  unfold TimerQueue.update
  split
  · exact ⟨h, rfl⟩
  · rename_i i hi
    obtain ⟨hlt, hnode⟩ := h.back n i hi
    -- the place keeps its node, so this is a write of the entry into it
    have hself : Function.update q.table.heapIndex (q.table.slots i).node (some i) =
        q.table.heapIndex := by
      rw [← h.index i hlt, Function.update_eq_self]
    have hput : q.table.write i { q.table.slots i with time := time, arming := q.nextArming } =
        q.table.put i { q.table.slots i with time := time, arming := q.nextArming } := by
      unfold QueueTable.put QueueTable.write
      rw [hself]
    rw [hput]
    have hbut := (QueueTable.TrackedBut.put
      (e := { q.table.slots i with time := time, arming := q.nextArming })
      (h.but hlt)).but hlt
    obtain ⟨htracked, hnodes⟩ := resift_spec hbut n
    exact ⟨htracked, hnodes.trans (QueueTable.nodes_put_same hlt rfl)⟩

/-- **`enqueue`** adds a node that is not queued. -/
theorem Tracked.enqueue (n : ℕ) (time : ℚ) :
    (q.enqueue n time).Tracked ∧
      (q.enqueue n time).nodes = if n ∈ q.nodes then q.nodes else n ::ₘ q.nodes := by
  unfold TimerQueue.enqueue
  split
  · rename_i i hi
    have hmem : n ∈ q.nodes := by
      by_contra hnot
      cases hi.symm.trans (h.heapIndex_eq_none.2 hnot)
    rw [if_pos hmem]
    exact h.update n time
  · rename_i hnone
    have hnot := h.heapIndex_eq_none.1 hnone
    rw [if_neg hnot]
    have hbut : q.table.TrackedBut (q.length + 1) q.length n := by
      refine ⟨Nat.lt_succ_self _, fun j hj hne => ?_, fun m i hm => ?_⟩
      · have hj' : j < q.length := by omega
        refine ⟨h.index j hj', fun heq => ?_⟩
        cases hnone.symm.trans (heq ▸ h.index j hj')
      · obtain ⟨hi, hnode⟩ := h.back m i hm
        exact .inr ⟨by omega, by omega, hnode⟩
    have hput := QueueTable.TrackedBut.put
      (e := { node := n, time := time, arming := q.nextArming }) hbut
    obtain ⟨htracked, hnodes⟩ := QueueTable.siftUp_spec (hput.but (Nat.lt_succ_self _))
    exact ⟨htracked, hnodes.trans QueueTable.nodes_put_end⟩

/-- The place a node leaves, with the last entry to go there. -/
theorem Tracked.leave (hi : i < q.length) (hne : i ≠ q.length - 1) :
    (q.table.forget (q.table.slots i).node).TrackedBut (q.length - 1) i
        (q.table.slots (q.length - 1)).node ∧
      ((q.table.forget (q.table.slots i).node).put i (q.table.slots (q.length - 1))).nodes
        (q.length - 1) = q.nodes.erase (q.table.slots i).node := by
  obtain ⟨last, hlast⟩ : ∃ last, q.length = last + 1 := ⟨q.length - 1, by omega⟩
  rw [hlast, Nat.add_sub_cancel] at hne ⊢
  rw [hlast] at hi
  have htracked : q.table.Tracked (last + 1) := hlast ▸ h
  have hbut := htracked.but hi
  refine ⟨⟨by omega, fun j hj hji => ?_, fun m j hm => ?_⟩, ?_⟩
  · have hj' := hbut.index j (by omega) hji
    refine ⟨(Function.update_of_ne hj'.2 ..).trans hj'.1, fun heq => ?_⟩
    have hlast' := (hbut.index last (Nat.lt_succ_self _) (Ne.symm hne)).1
    change (q.table.slots j).node = _ at heq
    rw [← heq, hj'.1] at hlast'
    have := Option.some.inj hlast'
    omega
  · by_cases hmi : m = (q.table.slots i).node
    · subst hmi
      cases (Function.update_self ..).symm.trans hm
    · have hm' : q.table.heapIndex m = some j := (Function.update_of_ne hmi ..).symm.trans hm
      obtain ⟨hj, hji, hnode⟩ := (hbut.back m j hm').resolve_left hmi
      by_cases hjl : j = last
      · exact .inl (by rw [← hnode, hjl])
      · exact .inr ⟨by omega, hji, hnode⟩
  · have hlt : i < last := by omega
    have hput := QueueTable.nodes_put (t := q.table.forget (q.table.slots i).node)
      (e := q.table.slots last) hlt
    rw [QueueTable.forget_nodes] at hput
    have hsucc : q.nodes = (q.table.slots last).node ::ₘ q.table.nodes last := by
      unfold nodes
      rw [hlast]
      exact QueueTable.nodes_succ
    rw [hsucc, ← hput]
    exact (Multiset.erase_cons_head ..).symm

theorem Tracked.leave_last (hpos : 0 < q.length) :
    (q.table.forget (q.table.slots (q.length - 1)).node).Tracked (q.length - 1) ∧
      q.table.nodes (q.length - 1) = q.nodes.erase (q.table.slots (q.length - 1)).node := by
  obtain ⟨last, hlast⟩ : ∃ last, q.length = last + 1 := ⟨q.length - 1, by omega⟩
  have htracked : q.table.Tracked (last + 1) := hlast ▸ h
  rw [hlast, Nat.add_sub_cancel]
  have hbut := htracked.but (Nat.lt_succ_self last)
  refine ⟨⟨fun j hj => ?_, fun m j hm => ?_⟩, ?_⟩
  · have hj' := hbut.index j (by omega) hj.ne
    exact (Function.update_of_ne hj'.2 ..).trans hj'.1
  · by_cases hml : m = (q.table.slots last).node
    · subst hml
      cases (Function.update_self ..).symm.trans hm
    · have hm' : q.table.heapIndex m = some j := (Function.update_of_ne hml ..).symm.trans hm
      obtain ⟨hj, hjl, hnode⟩ := (hbut.back m j hm').resolve_left hml
      exact ⟨by omega, hnode⟩
  · unfold nodes
    rw [hlast, QueueTable.nodes_succ, Multiset.erase_cons_head]

/-- **`remove`** takes the node out. -/
theorem Tracked.remove (n : ℕ) : (q.remove n).Tracked ∧ (q.remove n).nodes = q.nodes.erase n := by
  unfold TimerQueue.remove
  split
  · rename_i hnone
    exact ⟨h, (Multiset.erase_of_notMem (h.heapIndex_eq_none.1 hnone)).symm⟩
  · rename_i i hi
    obtain ⟨hlt, rfl⟩ := h.back n i hi
    dsimp only
    split
    · rename_i hlast
      subst hlast
      exact h.leave_last (by omega)
    · rename_i hlast
      obtain ⟨hbut, hnodes⟩ := h.leave hlt hlast
      have hput := hbut.put (e := q.table.slots (q.length - 1))
      obtain ⟨htracked, hnodes'⟩ := resift_spec (hput.but hbut.lt)
        (q.table.slots (q.length - 1)).node
      exact ⟨htracked, hnodes'.trans hnodes⟩

end

theorem mem_of_peek (hpeek : q.peek = some n) : n ∈ q.nodes := by
  unfold peek at hpeek
  split at hpeek
  · rename_i hpos
    obtain rfl := Option.some.inj hpeek
    exact QueueTable.mem_nodes.2 ⟨0, hpos, rfl⟩
  · cases hpeek

/-- **`dequeue`** takes the root out. -/
theorem Tracked.dequeue (h : q.Tracked) (hpeek : q.peek = some n) :
    q.dequeue.Tracked ∧ q.dequeue.nodes = q.nodes.erase n := by
  unfold peek at hpeek
  split at hpeek
  · rename_i hpos
    obtain rfl := Option.some.inj hpeek
    unfold TimerQueue.dequeue
    rw [if_neg hpos.ne']
    dsimp only
    split
    · rename_i hlast
      have hleave := h.leave_last hpos
      rw [hlast] at hleave
      rw [hlast]
      exact hleave
    · rename_i hlast
      obtain ⟨hbut, hnodes⟩ := h.leave hpos (Ne.symm hlast)
      have hm := sinkHole_moves QueueTable.store QueueTable.before (q.length - 1)
        (q.table.forget (q.table.slots 0).node) 0 (q.length - 1)
      have hbut' := hbut.of_moves hm
      have hput := hbut'.put (e := q.table.slots (q.length - 1))
      obtain ⟨htracked, hnodes'⟩ := QueueTable.siftUp_spec (hput.but hbut'.lt)
      refine ⟨htracked, hnodes'.trans ?_⟩
      rw [QueueTable.nodes_of_moves hm hbut.lt]
      exact hnodes
  · cases hpeek

end TimerQueue

end CrossByte
