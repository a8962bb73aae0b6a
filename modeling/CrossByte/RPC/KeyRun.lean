import CrossByte.Lib.Fenwick
import CrossByte.RPC.BudgetDiff

/-!
# Weighing the keys of a group

A key of a group goes as its distance from the key before it, so what a key adds to the
group's bytes depends on its neighbours among those carried.  `RPCKeyRun` answers that as the
keys are chosen, in any order: it finds the neighbours of a candidate among the chosen by
their ranks, with a Fenwick tree of the ranks chosen.

`Chosen` is what a run knows: its tree counts the ranks of a list `ranks`.  The neighbours
follow (`below_eq`, `nth_spec`), and then the cost: what the keys take with the candidate
among them, less what they take without it (`cost_eq`).

## Main results

* `keys_size`: what the sizes say is what the writer writes.
* `weighs_exactly`: the costs of any choices, in any order, add up to the bytes of the keys
  chosen, as the writer writes them, and of their count.
-/

namespace CrossByte

open Bytes (Byte)
open Serial (Word)

/-! ## Sizes -/

namespace RPCSizes

theorem varUInt_eq (v : Word) : varUInt v = (Varint.put v).length := by
  rw [Varint.length_put, varUInt]
  have hcond := BitVec.toInt_eq_toNat_cond v
  have hlt := v.isLt
  split at hcond <;> split_ifs <;> omega

theorem key_eq (previous : Option Key) (k : Key) :
    key previous k = (RPCKeys.putKey previous.isNone (previous.getD Key.zero) k).length := by
  cases previous with
  | none => exact varUInt_eq _
  | some p => exact varUInt_eq _

/-- The bytes of a group: those of its keys and of what follows each. -/
theorem length_putGroup {ι : Type} (key : ι → Key) (payload : ι → List Byte) (es : List ι)
    (previous : Option Key) :
    (RPCKeys.putGroup key payload previous.isNone (previous.getD Key.zero) es).length =
      keysFrom previous (es.map key) + (es.map fun e => (payload e).length).sum := by
  induction es generalizing previous with
  | nil => rfl
  | cons e es ih =>
    have ih := ih (some (key e))
    simp only [Option.isNone_some, Option.getD_some] at ih
    rw [RPCKeys.putGroup, List.length_append, List.length_append, ← key_eq, List.map_cons,
      keysFrom, List.map_cons, List.sum_cons]
    omega

theorem keys_size (list : List Key) : keys list = (RPCKeys.putKeys list).length := by
  have h := length_putGroup id (fun _ => []) list none
  simp only [Option.isNone_none, Option.getD_none] at h
  rw [RPCKeys.putKeys, h, keys]
  simp

theorem keysFrom_append (previous : Option Key) (l l' : List Key) :
    keysFrom previous (l ++ l') = keysFrom previous l + keysFrom (l.getLast?.or previous) l' := by
  induction l generalizing previous with
  | nil => simp [keysFrom]
  | cons k l ih =>
    rw [List.cons_append, keysFrom, keysFrom, ih]
    have hlast : l.getLast?.or (some k) = (k :: l).getLast?.or previous := by
      cases l with
      | nil => rfl
      | cons a l =>
        rw [List.getLast?_cons_cons]
        cases h : (a :: l).getLast? with
        | none => simp at h
        | some x => rfl
    rw [hlast]
    omega

theorem keys_insert (l l' : List Key) (k : Key) :
    (keys (l ++ k :: l') : ℤ) = keys (l ++ l') + (key l.getLast? k +
      match l'.head? with
      | some next => (key (some k) next : ℤ) - key l.getLast? next
      | none => 0) := by
  simp only [keys, keysFrom_append, Option.or_none]
  cases l' with
  | nil => simp [keysFrom]
  | cons next l' =>
    simp only [keysFrom, List.head?_cons]
    push_cast
    ring

end RPCSizes

namespace RPCKeyRun

open Fenwick

/-! ## The tree -/

/-- What a run knows once the ranks of `ranks` are chosen. -/
structure Chosen (run : RPCKeyRun) (ranks : List ℕ) : Prop where
  few : run.keys.length < 2 ^ 30
  length : run.tree.length = run.keys.length + 1
  cells : Cells (· ∈ ranks) run.keys.length (run.tree.getD · 0)
  top : run.keys.length = 0 ∨ ∃ e, run.top = 2 ^ e ∧ 2 ^ e ≤ run.keys.length ∧
    run.keys.length < 2 ^ (e + 1)
  lt : ∀ r ∈ ranks, r < run.keys.length
  nodup : ranks.Nodup
  chosen : run.chosen = ranks.length

variable {run : RPCKeyRun} {ranks : List ℕ} {rank : ℕ}

theorem lowBit_eq {i : ℕ} (h : 0 < i) (hi : i < 2 ^ 32) : lowBit i = low i := toNat_and_neg h hi

theorem topLoop_spec {n e : ℕ} (fuel : ℕ) (he : 2 ^ e ≤ n) (hn : n < 2 ^ (e + fuel + 1)) :
    ∃ e', topLoop fuel n (2 ^ e) = 2 ^ e' ∧ 2 ^ e' ≤ n ∧ n < 2 ^ (e' + 1) := by
  induction fuel generalizing e with
  | zero => exact ⟨e, rfl, he, hn⟩
  | succ fuel ih =>
    rw [topLoop]
    split
    · next hle =>
      exact ih hle (by rwa [show e + 1 + fuel + 1 = e + (fuel + 1) + 1 by omega])
    · next hlt =>
      exact ⟨e, rfl, he, not_le.1 hlt⟩

theorem chosen_begin {keys : List Key} (h : keys.length < 2 ^ 30) : Chosen (begin keys) [] where
  few := h
  length := by simp [begin]
  cells := by
    have htree : ((begin keys).tree.getD · 0) = fun _ => 0 := by
      funext i
      simp only [begin, List.getD_eq_getElem?_getD, List.getElem?_replicate]
      split <;> rfl
    rw [htree]
    exact cells_zero fun r => List.not_mem_nil
  top := by
    rcases Nat.eq_zero_or_pos keys.length with h0 | hpos
    · exact .inl h0
    · obtain ⟨e, he, hle, hlt⟩ := topLoop_spec (n := keys.length) (e := 0) keys.length (by simpa)
        (by rw [Nat.zero_add]; exact (Nat.lt_two_pow_self).trans (Nat.pow_lt_pow_right (by decide)
          (Nat.lt_succ_self _)))
      refine .inr ⟨e, ?_, hle, hlt⟩
      simp only [begin, if_neg hpos.ne']
      exact he
  lt := by simp
  nodup := List.nodup_nil
  chosen := rfl

/-- The loop of `__below` counts the chosen below. -/
theorem belowLoop_eq (h : Chosen run ranks) (fuel sum i : ℕ) (hf : i ≤ fuel)
    (hi : i ≤ run.keys.length) : belowLoop run.tree fuel sum i = sum + Nat.count (· ∈ ranks) i := by
  induction fuel generalizing sum i with
  | zero =>
    obtain rfl : i = 0 := by omega
    simp [belowLoop]
  | succ fuel ih =>
    rw [belowLoop]
    split
    · next hpos =>
      have hfew := h.few
      have hlow := low_pos i
      have hcell := h.cells i hpos hi
      dsimp only at hcell
      rw [lowBit_eq hpos (by omega), ih _ _ (by omega) (by omega)]
      omega
    · next hpos =>
      obtain rfl : i = 0 := by omega
      simp

theorem below_eq (h : Chosen run ranks) (hr : rank ≤ run.keys.length) :
    run.below rank = Nat.count (· ∈ ranks) rank := by
  rw [below, belowLoop_eq h rank 0 rank le_rfl hr, Nat.zero_add]

/-- The loop of `choose` counts one more in the cells from `i` on that count the rank. -/
theorem chooseLoop_spec (fuel : ℕ) {tree : List ℕ} {i : ℕ} (hi : Covers i rank)
    (hf : tree.length ≤ i + fuel) (hlen : tree.length ≤ 2 ^ 30) :
    (chooseLoop fuel tree i).length = tree.length ∧
      ∀ j < tree.length, (chooseLoop fuel tree i).getD j 0 =
        tree.getD j 0 + if i ≤ j ∧ Covers j rank then 1 else 0 := by
  induction fuel generalizing tree i with
  | zero =>
    refine ⟨rfl, fun j hj => ?_⟩
    rw [if_neg (by omega), chooseLoop, Nat.add_zero]
  | succ fuel ih =>
    rw [chooseLoop]
    split
    · next hlt =>
      have hpos : 0 < i := by
        have := hi.2
        omega
      have hlow := low_pos i
      rw [lowBit_eq hpos (by omega)]
      obtain ⟨hl, hget⟩ := @ih (tree.set i (tree.getD i 0 + 1)) _ hi.up
        (by rw [List.length_set]; omega) (by rwa [List.length_set])
      rw [List.length_set] at hl hget
      refine ⟨hl, fun j hj => ?_⟩
      have hset : (tree.set i (tree.getD i 0 + 1)).getD j 0 =
          if j = i then tree.getD i 0 + 1 else tree.getD j 0 := by
        by_cases hji : j = i
        · simp [hji, hlt]
        · simp [hji, Ne.symm hji]
      rw [hget j hj, hset]
      by_cases hji : j = i
      · subst hji
        rw [if_pos rfl, if_neg (by omega), if_pos ⟨le_rfl, hi⟩]
      · -- past this cell, those that count the rank begin with the next of the chain
        have hsame : (i + low i ≤ j ∧ Covers j rank) ↔ (i ≤ j ∧ Covers j rank) :=
          ⟨fun hc => ⟨by omega, hc.2⟩, fun hc => ⟨hi.next hc.2 (by omega), hc.2⟩⟩
        rw [if_neg hji, if_congr hsame rfl rfl]
    · next hge =>
      refine ⟨rfl, fun j hj => ?_⟩
      rw [if_neg (by omega), Nat.add_zero]

theorem Chosen.choose (h : Chosen run ranks) (hr : rank < run.keys.length) (hnew : rank ∉ ranks) :
    Chosen (run.choose rank) (rank :: ranks) := by
  have hfew := h.few
  have hlen := h.length
  obtain ⟨hl, hget⟩ := @chooseLoop_spec rank run.tree.length run.tree _ (covers_succ rank)
    (by omega) (by omega)
  refine ⟨h.few, hl.trans hlen, ?_, h.top, ?_, List.nodup_cons.2 ⟨hnew, h.nodup⟩, ?_⟩
  · refine h.cells.insert hnew (fun r => List.mem_cons) fun i hi hin => ?_
    have hcell := hget i (by omega)
    have hsame : (rank + 1 ≤ i ∧ Covers i rank) ↔ Covers i rank :=
      ⟨fun hc => hc.2, fun hc => ⟨hc.2, hc⟩⟩
    rwa [if_congr hsame rfl rfl] at hcell
  · intro r hr'
    rcases List.mem_cons.1 hr' with rfl | hr'
    · exact hr
    · exact h.lt r hr'
  · simp [RPCKeyRun.choose, h.chosen]

/-- The loop of `__nth` closes in on the chosen rank with `k - 1` chosen below it: it is among the
`2 ^ m` from `i` on. -/
theorem nthLoop_spec (h : Chosen run ranks) {k : ℕ}
    (hk : k ≤ Nat.count (· ∈ ranks) run.keys.length) (m fuel left i : ℕ) (hm : m ≤ fuel)
    (hdvd : 2 ^ m ∣ i) (hleft : 0 < left) (hi : Nat.count (· ∈ ranks) i + left = k)
    (hend : k ≤ Nat.count (· ∈ ranks) (i + 2 ^ m)) :
    nthLoop run.tree run.keys.length fuel (2 ^ m / 2) left i ∈ ranks ∧
      Nat.count (· ∈ ranks) (nthLoop run.tree run.keys.length fuel (2 ^ m / 2) left i) + 1 = k := by
  induction m generalizing fuel left i with
  | zero =>
    -- one place is left
    have hstop : nthLoop run.tree run.keys.length fuel (2 ^ 0 / 2) left i = i := by
      cases fuel <;> simp [nthLoop]
    rw [hstop]
    rw [pow_zero, Nat.count_succ] at hend
    split at hend
    · next hmem => exact ⟨hmem, by omega⟩
    · omega
  | succ m ih =>
    obtain ⟨fuel, rfl⟩ : ∃ f, fuel = f + 1 := ⟨fuel - 1, by omega⟩
    have hhalf : 2 ^ (m + 1) / 2 = 2 ^ m := by omega
    have hpos : 0 < 2 ^ m := by positivity
    have hdvd' : 2 ^ m ∣ i := (pow_dvd_pow 2 (Nat.le_succ m)).trans hdvd
    rw [hhalf, nthLoop, if_pos hpos]
    split
    · next hc =>
      have hcell := h.cells.half hdvd hc.1
      refine ih fuel _ _ (by omega) (hdvd'.add (dvd_refl _)) (by omega) (by omega) ?_
      rwa [Nat.add_assoc, ← two_mul, ← pow_succ']
    · next hc =>
      refine ih fuel left i (by omega) hdvd' hleft hi ?_
      by_cases hle : i + 2 ^ m ≤ run.keys.length
      · have hcell := h.cells.half hdvd hle
        omega
      · exact hk.trans (Nat.count_monotone _ (by omega))

/-- `__nth` finds the `k`-th chosen. -/
theorem nth_spec (h : Chosen run ranks) {k : ℕ} (hpos : 0 < k)
    (hk : k ≤ Nat.count (· ∈ ranks) run.keys.length) :
    run.nth k ∈ ranks ∧ Nat.count (· ∈ ranks) (run.nth k) + 1 = k := by
  have hle := Nat.count_le (p := (· ∈ ranks)) (n := run.keys.length)
  obtain h0 | ⟨e, htop, hpow, hlt⟩ := h.top
  · omega
  · have he : e < 2 ^ e := Nat.lt_two_pow_self
    rw [nth, htop, show 2 ^ e = 2 ^ (e + 1) / 2 by omega]
    refine nthLoop_spec h hk (e + 1) _ k 0 (by omega) (dvd_zero _) hpos (by simp) ?_
    rw [Nat.zero_add]
    exact hk.trans (Nat.count_monotone _ hlt.le)

/-! ## The neighbours of a rank -/

/-- The chosen ranks, ascending. -/
def ascending (n : ℕ) (ranks : List ℕ) : List ℕ := (List.range n).filter (· ∈ ranks)

theorem length_ascending (n : ℕ) (ranks : List ℕ) :
    (ascending n ranks).length = Nat.count (· ∈ ranks) n := by
  induction n with
  | zero => rfl
  | succ n ih =>
    rw [ascending, List.range_succ, List.filter_append, Nat.count_succ, ← ih]
    by_cases h : n ∈ ranks <;> simp [ascending, h]

/-- The chosen ranks below one, that one if it is chosen, and those above it. -/
theorem ascending_split {n : ℕ} (hr : rank < n) (ranks : List ℕ) :
    ascending n ranks = ascending rank ranks ++ ([rank].filter (· ∈ ranks) ++
      (List.range' (rank + 1) (n - (rank + 1))).filter (· ∈ ranks)) := by
  have hrange : List.range n = List.range rank ++ (rank :: List.range' (rank + 1) (n - (rank + 1))) := by
    rw [← List.range'_succ, List.range_eq_range', List.range_eq_range',
      show n - (rank + 1) + 1 = n - rank by omega]
    have happ := List.range'_append_1 (s := 0) (m := rank) (n := n - rank)
    rw [Nat.zero_add] at happ
    rw [happ, show rank + (n - rank) = n by omega]
  rw [ascending, hrange, List.filter_append, ascending, ← List.singleton_append, List.filter_append]

theorem getElem?_ascending {n : ℕ} (hr : rank < n) (hmem : rank ∈ ranks) :
    (ascending n ranks)[Nat.count (· ∈ ranks) rank]? = some rank := by
  rw [ascending_split hr, ← length_ascending, List.getElem?_append_right le_rfl]
  simp [hmem]

theorem ascending_cons {n : ℕ} (hr : rank < n) :
    ascending n (rank :: ranks) = ascending rank ranks ++
      rank :: (List.range' (rank + 1) (n - (rank + 1))).filter (· ∈ ranks) := by
  have hbelow : ascending rank (rank :: ranks) = ascending rank ranks := by
    refine List.filter_congr fun r hr' => ?_
    have := List.mem_range.1 hr'
    simp [show r ≠ rank by omega]
  have habove : (List.range' (rank + 1) (n - (rank + 1))).filter (· ∈ rank :: ranks) =
      (List.range' (rank + 1) (n - (rank + 1))).filter (· ∈ ranks) := by
    refine List.filter_congr fun r hr' => ?_
    have := List.mem_range'_1.1 hr'
    simp [show r ≠ rank by omega]
  rw [ascending_split hr, hbelow, habove]
  simp

theorem Chosen.length_ascending (h : Chosen run ranks) :
    (ascending run.keys.length ranks).length = ranks.length := by
  refine (List.Perm.length_eq ((List.perm_ext_iff_of_nodup h.nodup ?_).2 fun r => ?_)).symm
  · exact List.nodup_range.filter _
  · simp only [ascending, List.mem_filter, List.mem_range, decide_eq_true_eq]
    exact ⟨fun hm => ⟨h.lt r hm, hm⟩, fun hm => hm.2⟩

def chosenKeys (run : RPCKeyRun) (ranks : List ℕ) : List Key :=
  (ascending run.keys.length ranks).map fun r => run.keys.getD r Key.zero

/-- **What a cost is**: the bytes of the keys chosen with the candidate among them, less what they
are without, and the growth of their count. -/
theorem cost_eq (h : Chosen run ranks) (hr : rank < run.keys.length) (hnew : rank ∉ ranks) :
    run.cost rank = RPCSizes.keys (chosenKeys (run.choose rank) (rank :: ranks)) -
      RPCSizes.keys (chosenKeys run ranks) +
      (RPCSizes.varUInt (BitVec.ofNat 32 (ranks.length + 1)) -
        RPCSizes.varUInt (BitVec.ofNat 32 ranks.length)) := by
  have hold := ascending_split hr ranks
  rw [show [rank].filter (· ∈ ranks) = [] by simp [hnew], List.nil_append] at hold
  set below := ascending rank ranks
  set above := (List.range' (rank + 1) (run.keys.length - (rank + 1))).filter (· ∈ ranks)
  have hlen : below.length = Nat.count (· ∈ ranks) rank := length_ascending rank ranks
  have hcount : run.chosen = (below ++ above).length := by
    rw [h.chosen, ← hold, h.length_ascending]
  have htotal : Nat.count (· ∈ ranks) run.keys.length = (below ++ above).length := by
    rw [← length_ascending, hold]
  -- the chosen that `__nth` finds is the one at its place
  have hnth : ∀ k < (below ++ above).length, (below ++ above)[k]? = some (run.nth (k + 1)) := by
    intro k hk
    obtain ⟨hmem, hc⟩ := nth_spec h (Nat.succ_pos k) (by omega)
    rw [← hold, ← getElem?_ascending (h.lt _ hmem) hmem]
    congr 1
    omega
  have hprevious : (if 0 < run.below rank then
      some (run.keys.getD (run.nth (run.below rank)) Key.zero) else none) =
        (below.map fun r => run.keys.getD r Key.zero).getLast? := by
    rw [below_eq h hr.le, ← hlen, List.getLast?_map, List.getLast?_eq_getElem?]
    rcases Nat.eq_zero_or_pos below.length with h0 | hpos
    · simp [List.length_eq_zero_iff.1 h0]
    · have := hnth (below.length - 1) (by rw [List.length_append]; omega)
      rw [List.getElem?_append_left (by omega), Nat.sub_add_cancel hpos] at this
      rw [if_pos hpos, this, Option.map_some]
  have hnext : above.head?.map (fun r => run.keys.getD r Key.zero) =
      if run.below rank < run.chosen then
        some (run.keys.getD (run.nth (run.below rank + 1)) Key.zero) else none := by
    rw [below_eq h hr.le, ← hlen, hcount]
    split
    · next hlt =>
      have := hnth below.length hlt
      rw [List.getElem?_append_right le_rfl, Nat.sub_self, ← List.head?_eq_getElem?] at this
      rw [this, Option.map_some]
    · next hge =>
      rw [List.length_append] at hge
      simp [List.length_eq_zero_iff.1 (show above.length = 0 by omega)]
  have hkeys : chosenKeys (run.choose rank) (rank :: ranks) =
      below.map (fun r => run.keys.getD r Key.zero) ++ run.keys.getD rank Key.zero ::
        above.map fun r => run.keys.getD r Key.zero := by
    change (ascending run.keys.length (rank :: ranks)).map _ = _
    rw [ascending_cons hr, List.map_append]
    rfl
  rw [hkeys, chosenKeys, hold, List.map_append, RPCSizes.keys_insert, List.head?_map, hnext, ← hprevious]
  simp only [cost, h.chosen]
  split <;> ring

/-! ## Any choices -/

/-- The costs of choices, each weighed just before it is made, and the run after them. -/
def weighAll (run : RPCKeyRun) : List ℕ → ℤ × RPCKeyRun
  | [] => (0, run)
  | rank :: ranks =>
    (run.cost rank + (weighAll (run.choose rank) ranks).1, (weighAll (run.choose rank) ranks).2)

theorem weighAll_spec (ranks : List ℕ) {before : List ℕ} (h : Chosen run before)
    (hr : ∀ r ∈ ranks, r < run.keys.length) (hnd : (ranks.reverse ++ before).Nodup) :
    Chosen (weighAll run ranks).2 (ranks.reverse ++ before) ∧
      (weighAll run ranks).2.keys = run.keys ∧
      (weighAll run ranks).1 =
        RPCSizes.keys (chosenKeys (weighAll run ranks).2 (ranks.reverse ++ before)) -
          RPCSizes.keys (chosenKeys run before) +
        (RPCSizes.varUInt (BitVec.ofNat 32 (ranks.length + before.length)) -
          RPCSizes.varUInt (BitVec.ofNat 32 before.length)) := by
  induction ranks generalizing run before with
  | nil => exact ⟨h, rfl, by simp [weighAll]⟩
  | cons rank ranks ih =>
    rw [List.reverse_cons, List.append_assoc, List.singleton_append] at hnd ⊢
    have hnew : rank ∉ before := (List.nodup_cons.1 (List.nodup_append.1 hnd).2.1).1
    have hlt := hr rank List.mem_cons_self
    have hstep := h.choose hlt hnew
    obtain ⟨hc, hkeys, hsum⟩ := ih hstep (fun r hm => hr r (List.mem_cons_of_mem _ hm)) hnd
    refine ⟨hc, hkeys, ?_⟩
    rw [weighAll, hsum, cost_eq h hlt hnew, List.length_cons, List.length_cons,
      show ranks.length + (before.length + 1) = ranks.length + 1 + before.length by omega]
    ring

/-- **The keys are weighed exactly, in any order.**  The costs of choices of distinct ranks, each
taken just before its choice, add up to the bytes the writer writes of the keys chosen, ascending,
and the growth of their count; and after any of them the tree gives the number of chosen below
every rank, and every chosen by its place.  (An `IdList` doubles its storage and holds at most
`2 ^ 30`, and the tree has one more than there are keys.) -/
theorem weighs_exactly (keys : List Key) (hkeys : keys.length < 2 ^ 30) (ranks : List ℕ)
    (hr : ∀ r ∈ ranks, r < keys.length) (hnd : ranks.Nodup) :
    let run := (weighAll (begin keys) ranks).2
    let chosen := (List.range keys.length).filter (· ∈ ranks)
    (weighAll (begin keys) ranks).1 =
        (RPCKeys.putKeys (chosen.map fun r => keys.getD r Key.zero)).length +
          ((Varint.put (BitVec.ofNat 32 ranks.length)).length - (Varint.put 0).length : ℤ) ∧
      run.chosen = ranks.length ∧
      (∀ rank ≤ keys.length, run.below rank = (chosen.filter (· < rank)).length) ∧
      ∀ k (hk : k < chosen.length), run.nth (k + 1) = chosen[k] := by
  intro run chosen
  obtain ⟨hc, hsame, hsum⟩ := weighAll_spec ranks (chosen_begin hkeys) hr
    (by rw [List.append_nil]; exact List.nodup_reverse.2 hnd)
  rw [List.append_nil] at hc hsum
  have hasc : ∀ n, ascending n ranks.reverse = (List.range n).filter (· ∈ ranks) := fun n =>
    List.filter_congr fun r _ => by simp
  have hcount : ∀ n, Nat.count (· ∈ ranks.reverse) n = ((List.range n).filter (· ∈ ranks)).length :=
    fun n => by rw [← length_ascending, hasc]
  refine ⟨?_, by rw [hc.chosen, List.length_reverse], fun rank hrank => ?_, fun k hk => ?_⟩
  · have hzero : chosenKeys (begin keys) [] = [] := by simp [chosenKeys, ascending]
    rw [hsum, hzero, chosenKeys, hsame, hasc, RPCSizes.keys_size, RPCSizes.varUInt_eq]
    rfl
  · rw [below_eq hc (by rwa [hsame]), hcount, List.filter_filter]
    congr 1
    -- of all the ranks, those below `rank` are those of the range
    obtain ⟨d, hd⟩ := Nat.exists_eq_add_of_le hrank
    rw [hd, List.range_add, List.filter_append]
    have hleft : (List.range rank).filter (fun r => decide (r < rank) && decide (r ∈ ranks)) =
        (List.range rank).filter (· ∈ ranks) := by
      refine List.filter_congr fun r hm => ?_
      simp [List.mem_range.1 hm]
    have hright : ((List.range d).map (rank + ·)).filter
        (fun r => decide (r < rank) && decide (r ∈ ranks)) = [] := by
      rw [List.filter_eq_nil_iff]
      intro r hm
      obtain ⟨t, -, rfl⟩ := List.mem_map.1 hm
      simp
    rw [hleft, hright, List.append_nil]
  · have hk' : k + 1 ≤ Nat.count (· ∈ ranks.reverse) run.keys.length := by
      rw [hcount, hsame]
      exact hk
    obtain ⟨hmem, hn⟩ := nth_spec hc (Nat.succ_pos k) hk'
    have hn : Nat.count (· ∈ ranks.reverse) (run.nth (k + 1)) + 1 = k + 1 := hn
    have hget := getElem?_ascending (hc.lt _ hmem) hmem
    rw [show (weighAll (begin keys) ranks).2.keys = keys from hsame, hasc,
      show Nat.count (· ∈ ranks.reverse) (run.nth (k + 1)) = k by omega] at hget
    have := List.getElem?_eq_getElem hk
    exact Option.some.inj (hget.symm.trans this)

/-- Three keys, the last chosen first. -/
theorem weighs_three_keys :
    let keys := [Key.ofWord 3, Key.ofWord 70, Key.ofWord 300]
    keys.length < 2 ^ 30 ∧ (∀ r ∈ [2, 0, 1], r < keys.length) ∧ [2, 0, 1].Nodup ∧
      (weighAll (begin keys) [2, 0, 1]).2.chosen = 3 := by
  intro keys
  have hr : ∀ r ∈ [2, 0, 1], r < keys.length := by decide
  exact ⟨by decide, hr, by decide, (weighs_exactly keys (by decide) [2, 0, 1] hr (by decide)).2.1⟩

end RPCKeyRun

end CrossByte
