import CrossByte.Errors
import CrossByte.Lib.Serial
import Mathlib.Data.List.Sort
import Mathlib.Data.Prod.Lex

/-!
# Rendezvous ownership

`crossbyte/cluster/Rendezvous.hx`: which nodes own a key, by a score of the key and the node.  Names
are of any linear order whose least is the empty one, and the hash is any function.
-/

namespace CrossByte

open Serial (Word)

/-- The names, and their hashes beside them. -/
structure Rendezvous (ν : Type) where
  nodes : List ν := []
  hashes : List Word := []

namespace Rendezvous

/-! ## The score -/

def imul (a b : Word) : Word :=
  let aLow := a &&& 0xFFFF
  let aHigh := a >>> 16 &&& 0xFFFF
  let bLow := b &&& 0xFFFF
  let bHigh := b >>> 16 &&& 0xFFFF
  aLow * bLow + (aLow * bHigh + aHigh * bLow &&& 0xFFFF) <<< 16

def weigh (keyHash nodeHash : Word) : ℕ :=
  let h := keyHash ^^^ nodeHash
  let h := imul (h ^^^ h >>> 16) 0x85EBCA6B
  let h := imul (h ^^^ h >>> 13) 0xC2B2AE35
  let h := h ^^^ h >>> 16
  (h >>> 1).toNat

namespace Js

/-- A number as a bitwise operator takes it. -/
abbrev word (x : ℤ) : Word := .ofInt 32 x

def and (a b : ℤ) : ℤ := (word a &&& word b).toInt
def xor (a b : ℤ) : ℤ := (word a ^^^ word b).toInt
def shl (a : ℤ) (n : ℕ) : ℤ := (word a <<< n).toInt
def ushr (a : ℤ) (n : ℕ) : ℤ := (word a >>> n).toNat

variable (round : ℤ → ℤ)

/-- `imul` on JavaScript numbers, whose sums and products are rounded. -/
def imul (a b : ℤ) : ℤ :=
  let aLow := and a 0xFFFF
  let aHigh := and (ushr a 16) 0xFFFF
  let bLow := and b 0xFFFF
  let bHigh := and (ushr b 16) 0xFFFF
  (word (round (round (aLow * bLow) +
    shl (and (round (round (aLow * bHigh) + round (aHigh * bLow))) 0xFFFF) 16))).toInt

/-- `weigh` on JavaScript numbers. -/
def weigh (keyHash nodeHash : ℤ) : ℤ :=
  let h := xor keyHash nodeHash
  let h := imul round (xor h (ushr h 16)) 0x85EBCA6B
  let h := imul round (xor h (ushr h 13)) 0xC2B2AE35
  let h := xor h (ushr h 16)
  ushr h 1

theorem word_xor (a b : ℤ) : word (xor a b) = word a ^^^ word b := BitVec.ofInt_toInt

theorem word_ushr (a : ℤ) (n : ℕ) : word (ushr a n) = word a >>> n := by
  simp [ushr, -BitVec.toNat_ushiftRight]

variable {round} (hround : ∀ x, |x| ≤ 2 ^ 53 → round x = x)

include hround

theorem round_mul (x y : ℤ) : round (and x 0xFFFF * and y 0xFFFF) = and x 0xFFFF * and y 0xFFFF ∧
    0 ≤ and x 0xFFFF * and y 0xFFFF ∧ and x 0xFFFF * and y 0xFFFF ≤ 2 ^ 32 := by
  have hmask : ∀ x, 0 ≤ and x 0xFFFF ∧ and x 0xFFFF ≤ 0xFFFF := by
    intro x
    have hle : (word x &&& word 0xFFFF).toNat ≤ 0xFFFF := Nat.and_le_right
    rw [and, BitVec.toInt_eq_toNat_of_lt (by omega)]
    omega
  have hpos := mul_nonneg (hmask x).1 (hmask y).1
  have hle := mul_le_mul (hmask x).2 (hmask y).2 (hmask y).1 (by norm_num)
  exact ⟨hround _ (by rw [abs_of_nonneg hpos]; omega), hpos, by omega⟩

theorem word_imul (a b : ℤ) : word (imul round a b) = Rendezvous.imul (word a) (word b) := by
  obtain ⟨h₁, _, _⟩ := round_mul hround a b
  obtain ⟨h₂, _, _⟩ := round_mul hround a (ushr b 16)
  obtain ⟨h₃, _, _⟩ := round_mul hround (ushr a 16) b
  have h₄ := hround (and a 0xFFFF * and (ushr b 16) 0xFFFF + and (ushr a 16) 0xFFFF * and b 0xFFFF)
    (by rw [abs_of_nonneg] <;> omega)
  have h₅ : ∀ x, round (and a 0xFFFF * and b 0xFFFF + shl x 16) =
      and a 0xFFFF * and b 0xFFFF + shl x 16 := by
    intro x
    have hlow : -2 ^ 31 ≤ shl x 16 := BitVec.le_toInt _
    have hhigh : shl x 16 < 2 ^ 31 := BitVec.toInt_lt
    exact hround _ (abs_le.2 ⟨by omega, by omega⟩)
  rw [imul, h₁, h₂, h₃, h₄, h₅]
  simp only [and, shl, word_ushr, BitVec.ofInt_toInt, BitVec.ofInt_add, BitVec.ofInt_mul]
  rfl

theorem weigh_eq (keyHash nodeHash : ℤ) :
    weigh round keyHash nodeHash = Rendezvous.weigh (word keyHash) (word nodeHash) := by
  rw [weigh, ushr]
  simp only [word_xor, word_ushr, word_imul hround]
  rfl

end Js

/-! ## The names -/

section

variable {ν : Type} [LinearOrder ν]

/-- A score, and the name it is of. -/
abbrev Scored (ν : Type) := ℕ ×ₗ ν

def Scored.name (e : Scored ν) : ν := (ofLex e).2

def ranksAbove (a b : Scored ν) : Bool :=
  (ofLex a).1 > (ofLex b).1 || (ofLex a).1 == (ofLex b).1 && a.name > b.name

/-- The loop that moves down what ranks below `e`, the worst first. -/
def shift (e : Scored ν) : List (Scored ν) → List (Scored ν)
  | [] => [e]
  | b :: best => if ranksAbove e b then b :: shift e best else e :: b :: best

/-- One node looked at by `owners`: the best `limit` so far, the worst first. -/
def place (limit : ℕ) (best : List (Scored ν)) (e : Scored ν) : List (Scored ν) :=
  match best with
  | [] => [e]
  | worst :: rest =>
    if best.length = limit then if ranksAbove e worst then shift e rest else best
    else shift e best

/-- One node looked at by `owner`. -/
def better (best e : Scored ν) : Scored ν := if ranksAbove e best then e else best

variable (hash : ν → Word) (s : Rendezvous ν) (key : ν)

/-- The nodes, scored for a key by the hashes held. -/
def candidates : List (Scored ν) :=
  s.nodes.zipWith (fun node h => toLex (weigh (hash key) h, node)) s.hashes

def owner : Option ν :=
  match s.candidates hash key with
  | [] => none
  | first :: rest => some (rest.foldl better first).name

def owners (count : ℤ) : List ν :=
  if count ≤ 0 ∨ s.nodes = [] then []
  else
    ((s.candidates hash key).foldl (place (min count.toNat s.nodes.length)) []).reverse.map
      Scored.name

/-- `add`, of a name that may be null. -/
def add [OrderBot ν] : Option ν → Except Thrown (Bool × Rendezvous ν)
  | none => .error (.argumentError "A node needs a name.")
  | some node =>
    if node = ⊥ then .error (.argumentError "A node needs a name.")
    else if node ∈ s.nodes then .ok (false, s)
    else .ok (true, ⟨s.nodes ++ [node], s.hashes ++ [hash node]⟩)

def remove (node : ν) : Bool × Rendezvous ν :=
  if node ∈ s.nodes then
    (true, ⟨s.nodes.eraseIdx (s.nodes.idxOf node), s.hashes.eraseIdx (s.nodes.idxOf node)⟩)
  else (false, s)

/-- What some calls of `add`, `remove` and `clear` come to; one that throws changes nothing. -/
inductive Reached [OrderBot ν] : Rendezvous ν → Prop
  | new : Reached {}
  | add {t t' node new} : Reached t → t.add hash node = .ok (new, t') → Reached t'
  | remove {t} (node) : Reached t → Reached (t.remove node).2
  | clear {t} : Reached t → Reached {}

/-! ## The order of the scores -/

variable {hash s key} {s' : Rendezvous ν} {n : ν} {R : List ν} {a b e : Scored ν}
  {l m : List (Scored ν)} {limit : ℕ}

theorem ranksAbove_iff : ranksAbove a b ↔ b < a := by
  simp only [ranksAbove, Bool.or_eq_true, Bool.and_eq_true, decide_eq_true_eq, beq_iff_eq]
  rw [Prod.Lex.lt_iff, eq_comm]
  rfl

theorem shift_eq (l : List (Scored ν)) : shift e l = l.orderedInsert (· ≤ ·) e := by
  induction l with
  | nil => rfl
  | cons b l ih => simp only [shift, ih, ranksAbove_iff, List.orderedInsert_cons, ← not_lt, ite_not]

theorem place_eq (hlimit : 0 < limit) (hle : l.length ≤ limit) :
    place limit l e = (l.orderedInsert (· ≤ ·) e).drop (l.length + 1 - limit) := by
  cases l with
  | nil => simp [place, Nat.sub_eq_zero_of_le hlimit]
  | cons worst rest =>
    rw [place]
    split_ifs with hfull habove
    · rw [hfull, Nat.add_sub_cancel_left, shift_eq,
        List.orderedInsert_of_not_le _ _ (ranksAbove_iff.1 habove).not_ge]
      rfl
    · rw [hfull, Nat.add_sub_cancel_left,
        List.orderedInsert_cons_of_le _ _ (not_lt.1 (habove ∘ ranksAbove_iff.2))]
      rfl
    · rw [Nat.sub_eq_zero_of_le (by omega), shift_eq, List.drop_zero]

/-- What is below the best changes none of them. -/
theorem drop_orderedInsert (hm : m.Pairwise (· ≤ ·)) (k : ℕ) :
    (m.orderedInsert (· ≤ ·) e).drop (k + 1) = ((m.drop k).orderedInsert (· ≤ ·) e).drop 1 := by
  induction m generalizing k with
  | nil => simp
  | cons x m ih =>
    obtain ⟨hx, hm⟩ := List.pairwise_cons.1 hm
    cases k with
    | zero => rfl
    | succ k =>
      rw [List.drop_succ_cons, ← ih hm, List.orderedInsert_cons]
      split_ifs with hle
      · cases m with
        | nil => rfl
        | cons y m =>
          rw [List.orderedInsert_cons_of_le _ _ (hle.trans (hx y List.mem_cons_self))]
          rfl
      · rfl

/-- `owners` keeps the best of the candidates it has seen. -/
theorem foldl_place (l : List (Scored ν)) :
    ∃ m : List (Scored ν), m.Pairwise (· ≤ ·) ∧ m.Perm l ∧
      ∀ limit, 0 < limit → l.foldl (place limit) [] = m.drop (m.length - limit) := by
  induction l using List.reverseRecOn with
  | nil => exact ⟨[], .nil, .refl _, fun _ _ => List.drop_nil.symm⟩
  | append_singleton l e ih =>
    obtain ⟨m, hm, hperm, hl⟩ := ih
    refine ⟨m.orderedInsert (· ≤ ·) e, hm.orderedInsert e _, ?_, fun limit hlimit => ?_⟩
    · exact (List.perm_orderedInsert _ e _).trans
        ((hperm.cons e).trans (List.perm_append_singleton e l).symm)
    · rw [List.foldl_append, List.foldl_cons, List.foldl_nil, hl limit hlimit,
        place_eq hlimit (by rw [List.length_drop]; omega), List.orderedInsert_length]
      rcases Nat.lt_or_ge limit m.length with hlt | hle
      · rw [List.length_drop, show m.length - (m.length - limit) + 1 - limit = 1 by omega,
          ← drop_orderedInsert hm, Nat.sub_add_comm hlt.le]
      · rw [Nat.sub_eq_zero_of_le hle, List.drop_zero]

theorem foldl_place_one (l : List (Scored ν)) (b : Scored ν) :
    l.foldl (place 1) [b] = [l.foldl better b] := by
  induction l generalizing b with
  | nil => rfl
  | cons e l ih =>
    have hplace : place 1 [b] e = [better b e] := by
      rw [place, if_pos List.length_singleton, better]
      split <;> rfl
    rw [List.foldl_cons, hplace, ih, List.foldl_cons]

/-! ## The order of the names -/

/-- The score of a name for a key. -/
def scored (hash : ν → Word) (key node : ν) : Scored ν := toLex (weigh (hash key) (hash node), node)

/-- One name ranks above another for a key. -/
def Above (hash : ν → Word) (key a b : ν) : Prop :=
  ranksAbove (scored hash key a) (scored hash key b)

theorem above_isStrictTotalOrder (hash : ν → Word) (key : ν) :
    IsStrictTotalOrder ν (Above hash key) :=
  (RelEmbedding.mk ⟨scored hash key, fun _ _ h => congrArg Scored.name h⟩ ranksAbove_iff.symm :
    Above hash key ↪r (· > ·)).isStrictTotalOrder

theorem nodup_of_above (h : R.Pairwise (Above hash key)) : R.Nodup :=
  have := above_isStrictTotalOrder hash key
  h.imp ne_of_irrefl

theorem above_unique {R' : List ν} (h : R.Pairwise (Above hash key))
    (h' : R'.Pairwise (Above hash key)) (hmem : ∀ n, n ∈ R ↔ n ∈ R') : R = R' := by
  have := above_isStrictTotalOrder hash key
  exact ((List.perm_ext_iff_of_nodup (nodup_of_above h) (nodup_of_above h')).2 hmem).eq_of_pairwise
    (fun a b _ _ hab hba => absurd hba (asymm hab)) h h'

/-- The names are distinct, and the hashes theirs. -/
structure Sound (hash : ν → Word) (s : Rendezvous ν) : Prop where
  nodup : s.nodes.Nodup
  hashes : s.hashes = s.nodes.map hash

theorem Sound.mem_remove (h : Sound hash s) (n m : ν) :
    m ∈ (s.remove n).2.nodes ↔ m ∈ s.nodes ∧ m ≠ n := by
  rw [remove]
  split
  · rw [← List.erase_eq_eraseIdx_of_idxOf rfl, h.nodup.mem_erase_iff, and_comm]
  · next hn => exact ⟨fun hm => ⟨hm, fun he => hn (he ▸ hm)⟩, And.left⟩

theorem Reached.sound [OrderBot ν] (h : Reached hash s) : Sound hash s := by
  induction h with
  | new | clear => exact ⟨.nil, rfl⟩
  | @add _ _ node _ _ hadd ih =>
    cases node with
    | none => cases hadd
    | some node =>
      rw [Rendezvous.add] at hadd
      split_ifs at hadd with _ hmem <;> cases hadd
      · exact ih
      · exact ⟨List.nodup_append_comm.1 (List.nodup_cons.2 ⟨hmem, ih.nodup⟩), by simp [ih.hashes]⟩
  | remove node _ ih =>
    rw [Rendezvous.remove]
    split_ifs
    · exact ⟨ih.nodup.eraseIdx _, by rw [ih.hashes, List.eraseIdx_map]⟩
    · exact ih

omit [LinearOrder ν] in
theorem Sound.candidates (h : Sound hash s) (key : ν) :
    s.candidates hash key = s.nodes.map (scored hash key) := by
  rw [Rendezvous.candidates, h.hashes, List.zipWith_map_right, List.zipWith_self]
  rfl

theorem Sound.owner (h : Sound hash s) : s.owner hash key = (s.owners hash key 1).head? := by
  rw [Rendezvous.owner, owners, h.candidates]
  cases hnodes : s.nodes with
  | nil => simp
  | cons first rest =>
    rw [List.length_cons, Int.toNat_one, Nat.min_eq_left (by omega),
      List.map_cons, List.foldl_cons, place, foldl_place_one]
    rfl

/-- The names in the order of a key, of which its owners are the first. -/
structure Ranked (hash : ν → Word) (key : ν) (s : Rendezvous ν) (R : List ν) : Prop where
  sorted : R.Pairwise (Above hash key)
  mem_iff : ∀ n, n ∈ R ↔ n ∈ s.nodes
  owners : ∀ count, s.owners hash key count = R.take count.toNat
  owner : s.owner hash key = R.head?

theorem Sound.ranked (h : Sound hash s) (key : ν) : ∃ R, Ranked hash key s R := by
  obtain ⟨m, hm, hperm, hfold⟩ := foldl_place (s.nodes.map (scored hash key))
  obtain ⟨N, rfl, hN⟩ :=
    (congrFun₂ (List.eq_map_comp_perm (scored hash key)) m s.nodes).mpr hperm
  have howners : ∀ count, s.owners hash key count = N.reverse.take count.toNat := by
    intro count
    rw [Rendezvous.owners]
    split_ifs with hc
    · rcases hc with hc | hc
      · rw [Int.toNat_of_nonpos hc, List.take_zero]
      · rw [hc] at hN
        rw [hN.eq_nil, List.reverse_nil, List.take_nil]
    · obtain ⟨hcount, hnodes⟩ := not_or.1 hc
      have hpos := List.length_pos_iff.2 hnodes
      rw [h.candidates, hfold _ (by omega), ← List.take_reverse, ← List.map_reverse, ← List.map_take,
        List.map_map, show Scored.name ∘ scored hash key = id from rfl, List.map_id,
        List.take_eq_take_iff, List.length_reverse, hN.length_eq]
      omega
  refine ⟨_, ?_, fun n => by rw [List.mem_reverse, hN.mem_iff], howners, ?_⟩
  · rw [List.pairwise_map] at hm
    refine List.pairwise_reverse.2 (hm.imp₂ (fun a b hle hne => ?_) (hN.nodup_iff.2 h.nodup))
    exact ranksAbove_iff.2 (lt_of_le_of_ne hle fun he => hne (congrArg Scored.name he))
  · rw [h.owner, howners, Int.toNat_one, List.head?_take, if_neg one_ne_zero]

theorem Ranked.erase (hR : Ranked hash key s R) (h' : Sound hash s')
    (hmem : ∀ m, m ∈ s'.nodes ↔ m ∈ s.nodes ∧ m ≠ n) : Ranked hash key s' (R.erase n) := by
  obtain ⟨R', hR'⟩ := h'.ranked key
  rwa [above_unique (hR.sorted.sublist List.erase_sublist) hR'.sorted fun m => by
    rw [(nodup_of_above hR.sorted).mem_erase_iff, hR.mem_iff, hR'.mem_iff, hmem, and_comm]]

theorem take_erase (n : ν) (R : List ν) (c : ℕ) : (R.erase n).take c =
    if n ∈ R.take c then (R.take c).erase n ++ (R.drop c).take 1 else R.take c := by
  induction R generalizing c with
  | nil => simp
  | cons x R ih =>
    cases c with
    | zero => simp
    | succ c =>
      by_cases hx : x = n
      · simp [hx, List.take_add]
      · have hx' : ¬(x == n) = true := by simpa using hx
        rw [List.erase_cons_tail hx', List.take_succ_cons, ih, List.take_succ_cons,
          List.erase_cons_tail hx']
        by_cases hn : n ∈ R.take c <;> simp [hn, Ne.symm hx]

/-- **A change of the nodes moves only what it must.**  The order of the nodes for a key is strict
and total and every set of nodes that can be reached is ranked by it, so owners depend on the set
alone; a node that leaves is replaced in a key's owners by the next in rank, and where it was not
one of them nothing moves; a node that joins takes its place in the rank and leaves the others in
theirs.  The weight is the same where `Int` arithmetic goes through doubles. -/
theorem moves_only_what_it_must [OrderBot ν] (hash : ν → Word) (key : ν) :
    IsStrictTotalOrder ν (Above hash key) ∧
    (∀ s, Reached hash s → ∃ R, Ranked hash key s R) ∧
    (∀ s s', Reached hash s → Reached hash s' → (∀ n, n ∈ s.nodes ↔ n ∈ s'.nodes) →
      s.owner hash key = s'.owner hash key ∧ s.owners hash key = s'.owners hash key) ∧
    (∀ s R n, Reached hash s → Ranked hash key s R →
      let s' := (s.remove n).2
      Ranked hash key s' (R.erase n) ∧
      (∀ c, s'.owners hash key c = if n ∈ s.owners hash key c
        then (s.owners hash key c).erase n ++ (R.drop c.toNat).take 1 else s.owners hash key c) ∧
      (s.owner hash key ≠ some n → s'.owner hash key = s.owner hash key)) ∧
    (∀ s n, Reached hash s → n ≠ ⊥ → n ∉ s.nodes → ∃ s' R₁ R₂,
      s.add hash (some n) = .ok (true, s') ∧
      Ranked hash key s (R₁ ++ R₂) ∧ Ranked hash key s' (R₁ ++ n :: R₂)) ∧
    ∀ round : ℤ → ℤ, (∀ x, |x| ≤ 2 ^ 53 → round x = x) → ∀ keyHash nodeHash,
      Js.weigh round keyHash nodeHash = weigh (Js.word keyHash) (Js.word nodeHash) := by
  refine ⟨above_isStrictTotalOrder hash key, fun s h => h.sound.ranked key,
    fun s s' h h' hmem => ?_, fun s R n h hR => ?_, fun s n h hne hn => ?_,
    fun round => Js.weigh_eq⟩
  · obtain ⟨R, hR⟩ := h.sound.ranked key
    obtain ⟨R', hR'⟩ := h'.sound.ranked key
    obtain rfl := above_unique hR.sorted hR'.sorted fun n => by
      rw [hR.mem_iff, hR'.mem_iff, hmem]
    exact ⟨hR.owner.trans hR'.owner.symm, funext fun c => (hR.owners c).trans (hR'.owners c).symm⟩
  · have hR' := hR.erase (h.remove n).sound (h.sound.mem_remove n)
    refine ⟨hR', fun c => ?_, fun hne => ?_⟩
    · rw [hR.owners, ← take_erase, hR'.owners]
    · rw [hR'.owner, hR.owner]
      rw [hR.owner] at hne
      cases R with
      | nil => rfl
      | cons x R => rw [List.erase_cons_tail (by simpa using hne)]; rfl
  · have hadd : s.add hash (some n) = .ok (true, ⟨s.nodes ++ [n], s.hashes ++ [hash n]⟩) := by
      rw [add, if_neg hne, if_neg hn]
    obtain ⟨R', hR'⟩ := (h.add hadd).sound.ranked key
    obtain ⟨R₁, R₂, -, rfl, hR⟩ := List.exists_erase_eq ((hR'.mem_iff n).2 (by simp))
    refine ⟨_, R₁, R₂, hadd, hR ▸ hR'.erase h.sound fun m => ?_, hR'⟩
    grind

end

end Rendezvous
end CrossByte
