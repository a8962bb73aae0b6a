import CrossByte.Errors
import CrossByte.Lib.Serial
import Mathlib.Data.Rat.Floor

/-!
# Snowflake ids

`crossbyte/cluster/SnowflakeId.hx`: identifiers of a time, a node and a sequence, under a clock that
may do anything, and their text.  Readings of the clock are rationals, the epoch a whole number.

The code has times as `Float`s, which count milliseconds one by one up to `2 ^ 53`; from there on
`__lastMs += 1` may leave the time as it is, and ids repeat.  `InTime` keeps an epoch far enough
below that, and the sums and differences of times here are then those of the code.

## Main results

* `ids_unique_and_ordered`: ids increase, are not shared between nodes, and read back, and so do
  their texts;
* `before_the_reading`: the time in an id can be before the reading it was made at, by a fraction.
-/

namespace CrossByte

open Serial (Word)

/-- A generator; the constructor refuses other nodes. -/
structure SnowflakeId where
  node : Fin 1024
  epochMs : ℤ
  lastMs : ℤ := -1
  sequence : ℕ := 0

namespace SnowflakeId

/-! ## The ids -/

/-- `next`, at a reading of the clock: the state it leaves. -/
def next (g : SnowflakeId) (reading : ℚ) : SnowflakeId :=
  if ⌊reading⌋ > g.lastMs then { g with lastMs := ⌊reading⌋, sequence := 0 }
  else if g.sequence + 1 > 4095 then { g with lastMs := g.lastMs + 1, sequence := 0 }
  else { g with sequence := g.sequence + 1 }

/-- What `next` returns, from the state it leaves. -/
def id (g : SnowflakeId) : BitVec 64 :=
  BitVec.ofInt 64 (g.lastMs - g.epochMs) <<< 22 ||| BitVec.ofNat 64 g.node <<< 12 |||
    BitVec.ofNat 64 g.sequence

def elapsedOf (id : BitVec 64) : BitVec 64 := id >>> 22

def nodeOf (id : BitVec 64) : ℕ := (id >>> 12 &&& 1023).toNat

def sequenceOf (id : BitVec 64) : ℕ := (id &&& 4095).toNat

/-- The states after each of some readings. -/
def states (g : SnowflakeId) : List ℚ → List SnowflakeId
  | [] => []
  | r :: l => g.next r :: (g.next r).states l

/-- The ids are issued in the order of this. -/
def stamp (g : SnowflakeId) : ℤ := g.lastMs * 2 ^ 12 + g.sequence

variable {g : SnowflakeId}

theorem next_spec (h : g.sequence < 2 ^ 12) (r : ℚ) :
    (g.next r).node = g.node ∧ (g.next r).epochMs = g.epochMs ∧ (g.next r).sequence < 2 ^ 12 ∧
      g.stamp < (g.next r).stamp ∧ ⌊r⌋ ≤ (g.next r).lastMs := by
  unfold next stamp
  split_ifs <;> refine ⟨rfl, rfl, ?_, ?_, ?_⟩ <;> dsimp only <;> omega

theorem states_spec (h : g.sequence < 2 ^ 12) (l : List ℚ) (hl : ∀ r ∈ l, (g.epochMs : ℚ) ≤ r) :
    (∀ x ∈ g.states l, x.node = g.node ∧ x.epochMs = g.epochMs ∧ x.sequence < 2 ^ 12 ∧
      g.epochMs ≤ x.lastMs ∧ g.stamp < x.stamp) ∧
      (g.states l).Pairwise (fun x y => x.stamp < y.stamp) ∧
      l.Forall₂ (fun r x => ⌊r⌋ ≤ x.lastMs) (g.states l) := by
  induction l generalizing g with
  | nil => exact ⟨by simp [states], .nil, .nil⟩
  | cons r l ih =>
    obtain ⟨hnode, hepoch, hseq, hstamp, hlast⟩ := next_spec h r
    obtain ⟨hr, hl⟩ := List.forall_mem_cons.1 hl
    obtain ⟨hall, hpairwise, hforall⟩ := ih hseq (by rwa [hepoch])
    refine ⟨fun x hx => ?_, .cons (fun x hx => (hall x hx).2.2.2.2) hpairwise, .cons hlast hforall⟩
    rcases List.mem_cons.1 hx with rfl | hx
    · exact ⟨hnode, hepoch, hseq, (Int.le_floor.2 hr).trans hlast, hstamp⟩
    · obtain ⟨hnode', hepoch', hseq', hle, hstamp'⟩ := hall x hx
      exact ⟨hnode'.trans hnode, hepoch'.trans hepoch, hseq', hepoch ▸ hle, hstamp.trans hstamp'⟩

theorem toNat_id {e : ℕ} (he : g.lastMs - g.epochMs = e) (hlt : e < 2 ^ 42)
    (hseq : g.sequence < 2 ^ 12) : g.id.toNat = e * 2 ^ 22 + g.node * 2 ^ 12 + g.sequence := by
  have hnode := g.node.isLt
  rw [id, he, BitVec.ofInt_natCast, BitVec.toNat_or, BitVec.toNat_or, BitVec.toNat_shiftLeft,
    BitVec.toNat_shiftLeft, BitVec.toNat_ofNat, BitVec.toNat_ofNat, BitVec.toNat_ofNat,
    Nat.mod_eq_of_lt (a := e) (by omega), Nat.mod_eq_of_lt (a := g.node) (by omega),
    Nat.mod_eq_of_lt (a := g.sequence) (by omega), Nat.shiftLeft_eq, Nat.shiftLeft_eq,
    Nat.mod_eq_of_lt (by omega), Nat.mod_eq_of_lt (by omega), ← Nat.shiftLeft_eq,
    ← Nat.shiftLeft_eq, Nat.or_assoc, ← Nat.shiftLeft_add_eq_or_of_lt hseq,
    ← Nat.shiftLeft_add_eq_or_of_lt (by rw [Nat.shiftLeft_eq]; omega), Nat.shiftLeft_eq,
    Nat.shiftLeft_eq, Nat.add_assoc]

theorem of_id {e : ℕ} (he : g.lastMs - g.epochMs = e) (hlt : e < 2 ^ 42)
    (hseq : g.sequence < 2 ^ 12) : (elapsedOf g.id).toNat = e ∧ nodeOf g.id = g.node ∧
      sequenceOf g.id = g.sequence := by
  have hid := toNat_id he hlt hseq
  have hnode := g.node.isLt
  have hmask : ∀ (x : BitVec 64), (x &&& 1023).toNat = x.toNat % 2 ^ 10 ∧
      (x &&& 4095).toNat = x.toNat % 2 ^ 12 := fun x =>
    ⟨Nat.and_two_pow_sub_one_eq_mod x.toNat 10, Nat.and_two_pow_sub_one_eq_mod x.toNat 12⟩
  rw [elapsedOf, nodeOf, sequenceOf, (hmask _).1, (hmask _).2, BitVec.toNat_ushiftRight,
    BitVec.toNat_ushiftRight, Nat.shiftRight_eq_div_pow, Nat.shiftRight_eq_div_pow, hid]
  omega

/-! ## The text -/

def hexChar (digit : ℕ) : Char := Char.ofNat (if digit < 10 then 48 + digit else 97 + digit - 10)

/-- The loop of `__hex8`, with `k` digits to go. -/
def hexFrom : ℕ → Word → List Char
  | 0, _ => []
  | k + 1, value => hexChar (value >>> (4 * k) &&& 15).toNat :: hexFrom k value

def format (id : BitVec 64) : String :=
  String.ofList (hexFrom 8 (id.extractLsb' 32 32) ++ hexFrom 8 (id.setWidth 32))

def digitOf (c : Char) : Option ℕ :=
  if '0' ≤ c ∧ c ≤ '9' then some (c.toNat - 48)
  else if 'a' ≤ c ∧ c ≤ 'f' then some (c.toNat - 97 + 10)
  else if 'A' ≤ c ∧ c ≤ 'F' then some (c.toNat - 65 + 10)
  else none

/-- The loop of `parse`, at the character `i`. -/
def parseFrom : List Char → ℕ → Word → Word → Option (BitVec 64)
  | [], _, high, low => some (high ++ low)
  | c :: cs, i, high, low => do
    let digit ← digitOf c
    if i < 8 then parseFrom cs (i + 1) (high <<< 4 ||| BitVec.ofNat 32 digit) low
    else parseFrom cs (i + 1) high (low <<< 4 ||| BitVec.ofNat 32 digit)

def parse (text : Option String) : Except Thrown (BitVec 64) :=
  match text with
  | none => .error (.argumentError "A Snowflake id is 16 hexadecimal digits; got null.")
  | some text =>
    if text.length ≠ 16 then
      .error (.argumentError ("A Snowflake id is 16 hexadecimal digits; got \"" ++ text ++ "\"."))
    else match parseFrom text.toList 0 0 0 with
      | some id => .ok id
      | none => .error (.argumentError
          ("A Snowflake id is hexadecimal digits only; got \"" ++ text ++ "\"."))

theorem hexChar_lt : ∀ d d' : Fin 16, (hexChar d < hexChar d' ↔ d < d') ∧
    (hexChar d = hexChar d' ↔ d = d') ∧ digitOf (hexChar d) = some d.val := by decide

theorem nibble_lt (v : Word) (k : ℕ) : (v >>> (4 * k) &&& 15).toNat = v.toNat / 16 ^ k % 16 := by
  rw [BitVec.toNat_and, BitVec.toNat_ushiftRight, Nat.shiftRight_eq_div_pow, pow_mul]
  exact Nat.and_two_pow_sub_one_eq_mod _ 4

theorem lex_iff {B r r' d d' : ℕ} (hr : r < B) (hr' : r' < B) (P : Prop) :
    d < d' ∨ d = d' ∧ (r < r' ∨ r = r' ∧ P) ↔
      r + B * d < r' + B * d' ∨ r + B * d = r' + B * d' ∧ P := by
  rcases lt_trichotomy d d' with h | rfl | h
  · have hle := Nat.mul_le_mul_left B h
    rw [Nat.mul_succ] at hle
    exact iff_of_true (.inl h) (.inl (by omega))
  · simp
  · have hle := Nat.mul_le_mul_left B h
    rw [Nat.mul_succ] at hle
    exact iff_of_false (by omega) (by rintro (h' | ⟨h', -⟩) <;> omega)

theorem hexFrom_lt (k : ℕ) (v w : Word) (a b : List Char) :
    hexFrom k v ++ a < hexFrom k w ++ b ↔ v.toNat % 16 ^ k < w.toNat % 16 ^ k ∨
      v.toNat % 16 ^ k = w.toNat % 16 ^ k ∧ a < b := by
  induction k with
  | zero => simp [hexFrom, Nat.mod_one]
  | succ k ih =>
    have hd := hexChar_lt ⟨_, Nat.mod_lt (v.toNat / 16 ^ k) (by decide : 16 > 0)⟩
      ⟨_, Nat.mod_lt (w.toNat / 16 ^ k) (by decide : 16 > 0)⟩
    have hv := Nat.mod_lt v.toNat (pow_pos (by decide : 16 > 0) k)
    have hw := Nat.mod_lt w.toNat (pow_pos (by decide : 16 > 0) k)
    rw [hexFrom, hexFrom, List.cons_append, List.cons_append, List.cons_lt_cons_iff, ih, nibble_lt,
      nibble_lt, hd.1, hd.2.1, Fin.mk_lt_mk, Fin.mk.injEq, Nat.mod_pow_succ, Nat.mod_pow_succ]
    exact lex_iff hv hw _

theorem hexFrom_length (k : ℕ) (v : Word) : (hexFrom k v).length = k := by
  induction k with
  | zero => rfl
  | succ k ih => rw [hexFrom, List.length_cons, ih]

theorem shift_nibble (v : Word) (k : ℕ) :
    v >>> (4 * (k + 1)) <<< 4 ||| BitVec.ofNat 32 (v >>> (4 * k) &&& 15).toNat = v >>> (4 * k) := by
  rw [Nat.mul_succ, BitVec.shiftRight_add, BitVec.ofNat_toNat, BitVec.setWidth_eq]
  generalize v >>> (4 * k) = w
  apply BitVec.eq_of_toNat_eq
  have hlt := w.isLt
  rw [BitVec.toNat_or, BitVec.toNat_shiftLeft, BitVec.toNat_ushiftRight, BitVec.toNat_and,
    Nat.shiftRight_eq_div_pow, Nat.shiftLeft_eq, Nat.mod_eq_of_lt (by omega), ← Nat.shiftLeft_eq,
    show w.toNat &&& (15 : Word).toNat = w.toNat % 2 ^ 4 from Nat.and_two_pow_sub_one_eq_mod _ 4,
    ← Nat.shiftLeft_add_eq_or_of_lt (Nat.mod_lt _ (by decide)), Nat.shiftLeft_eq]
  omega

theorem digitOf_nibble (v : Word) (k : ℕ) :
    digitOf (hexChar (v >>> (4 * k) &&& 15).toNat) = some (v >>> (4 * k) &&& 15).toNat := by
  rw [nibble_lt]
  exact (hexChar_lt ⟨_, Nat.mod_lt _ (by decide)⟩ 0).2.2

theorem parse_low (k i : ℕ) (hi : 8 ≤ i) (high v : Word) :
    parseFrom (hexFrom k v) i high (v >>> (4 * k)) = some (high ++ v) := by
  induction k generalizing i with
  | zero => simp [hexFrom, parseFrom]
  | succ k ih =>
    rw [hexFrom, parseFrom, digitOf_nibble, Option.bind_eq_bind, Option.bind_some,
      if_neg (by omega), shift_nibble, ih _ (by omega)]

theorem parse_high (k : ℕ) (hk : k ≤ 8) (v low : Word) (cs : List Char) :
    parseFrom (hexFrom k v ++ cs) (8 - k) (v >>> (4 * k)) low = parseFrom cs 8 v low := by
  induction k with
  | zero => simp [hexFrom]
  | succ k ih =>
    rw [hexFrom, List.cons_append, parseFrom, digitOf_nibble, Option.bind_eq_bind, Option.bind_some,
      if_pos (by omega), shift_nibble, show 8 - (k + 1) + 1 = 8 - k by omega, ih (by omega)]

theorem format_lt (i j : BitVec 64) : format i < format j ↔ i < j := by
  have hj : ∀ (i : BitVec 64), (i.extractLsb' 32 32).toNat % 16 ^ 8 = i.toNat / 2 ^ 32 ∧
      (i.setWidth 32).toNat % 16 ^ 8 = i.toNat % 2 ^ 32 := by
    intro i
    have hi := i.isLt
    rw [BitVec.extractLsb'_toNat, BitVec.toNat_setWidth, Nat.shiftRight_eq_div_pow]
    omega
  rw [format, format, String.lt_iff, String.toList_ofList, String.toList_ofList, hexFrom_lt,
    ← List.append_nil (hexFrom 8 (i.setWidth 32)), ← List.append_nil (hexFrom 8 (j.setWidth 32)),
    hexFrom_lt, (hj i).1, (hj i).2, (hj j).1, (hj j).2, BitVec.lt_def]
  simp only [List.not_lt_nil, and_false, or_false]
  omega

theorem parse_format (i : BitVec 64) : parse (some (format i)) = .ok i := by
  have hfrom : parseFrom (format i).toList 0 0 0 = some i := by
    have hhigh := parse_high 8 le_rfl (i.extractLsb' 32 32) 0 (hexFrom 8 (i.setWidth 32))
    have hlow := parse_low 8 8 le_rfl (i.extractLsb' 32 32) (i.setWidth 32)
    rw [BitVec.ushiftRight_eq_zero (by decide)] at hhigh hlow
    have happend : i.extractLsb' 32 32 ++ i.setWidth 32 = i := by
      apply BitVec.eq_of_toNat_eq
      rw [BitVec.toNat_append, ← Nat.shiftLeft_add_eq_or_of_lt (i.setWidth 32).isLt,
        Nat.shiftLeft_eq, BitVec.extractLsb'_toNat, BitVec.toNat_setWidth,
        Nat.shiftRight_eq_div_pow]
      omega
    rw [format, String.toList_ofList]
    exact hhigh.trans (hlow.trans (congrArg some happend))
  have hlength : (format i).length = 16 := by
    rw [format, String.length_ofList, List.length_append, hexFrom_length, hexFrom_length]
  rw [parse, if_neg (by simp [hlength]), hfrom]

theorem parseFrom_isSome (cs : List Char) (i : ℕ) (high low : Word) :
    (parseFrom cs i high low).isSome ↔ ∀ c ∈ cs, (digitOf c).isSome := by
  induction cs generalizing i high low with
  | nil => simp [parseFrom]
  | cons c cs ih =>
    rw [parseFrom, List.forall_mem_cons]
    cases digitOf c with
    | none => simp
    | some d =>
      rw [Option.bind_eq_bind, Option.bind_some]
      split <;> simp [ih]

/-! ## Both -/

/-- A new generator. -/
def new (node : Fin 1024) (epochMs : ℤ) : SnowflakeId := { node, epochMs }

/-- Readings at or after the epoch, and times issued below 2^42 ms past it, where a `Float` counts
milliseconds one by one. -/
structure InTime (node : Fin 1024) (epoch : ℤ) (l : List ℚ) : Prop where
  counted : -2 ^ 53 ≤ epoch ∧ epoch ≤ 2 ^ 53 - 2 ^ 42
  clock : ∀ r ∈ l, (epoch : ℚ) ≤ r
  time : ∀ x ∈ (new node epoch).states l, x.lastMs - epoch < 2 ^ 42

/-- The ids issued. -/
def ids (node : Fin 1024) (epoch : ℤ) (l : List ℚ) : List (BitVec 64) :=
  ((new node epoch).states l).map id

theorem InTime.made {node : Fin 1024} {epoch : ℤ} {l : List ℚ} (h : InTime node epoch l)
    {x : SnowflakeId} (hx : x ∈ (new node epoch).states l) : ∃ e : ℕ, x.lastMs - epoch = e ∧
      x.sequence < 2 ^ 12 ∧ x.id.toNat = e * 2 ^ 22 + node * 2 ^ 12 + x.sequence ∧
      (elapsedOf x.id).toNat = e ∧ nodeOf x.id = node ∧ sequenceOf x.id = x.sequence := by
  obtain ⟨hnode, hepoch, hseq, hle, -⟩ :=
    (states_spec (g := new node epoch) (Nat.two_pow_pos 12) l h.clock).1 x hx
  obtain ⟨e, he⟩ := Int.eq_ofNat_of_zero_le (sub_nonneg.2 hle)
  have hlt : e < 2 ^ 42 := by exact_mod_cast he ▸ h.time x hx
  have hid := toNat_id (hepoch ▸ he) hlt hseq
  have hof := of_id (hepoch ▸ he) hlt hseq
  rw [hnode] at hid hof
  exact ⟨e, he, hseq, hid, hof⟩

/-- No time issued is past what a `Float` counts. -/
theorem InTime.exact {node : Fin 1024} {epoch : ℤ} {l : List ℚ} (h : InTime node epoch l)
    {x : SnowflakeId} (hx : x ∈ (new node epoch).states l) : |x.lastMs| ≤ 2 ^ 53 := by
  have htime := h.time x hx
  obtain ⟨-, -, -, hle, -⟩ :=
    (states_spec (g := new node epoch) (Nat.two_pow_pos 12) l h.clock).1 x hx
  have hcounted := h.counted
  change epoch ≤ x.lastMs at hle
  rw [abs_le]
  omega

/-- **Ids never repeat and sort as issued; their texts sort alike and read back.** -/
theorem ids_unique_and_ordered :
    (∀ node epoch l, InTime node epoch l →
      (∀ x ∈ (new node epoch).states l, |x.lastMs| ≤ 2 ^ 53) ∧
      (ids node epoch l).Pairwise (· < ·) ∧
      (∀ node' l', node' ≠ node → InTime node' epoch l' →
        (ids node epoch l).Disjoint (ids node' epoch l')) ∧
      l.Forall₂ (fun r x => ⌊r⌋ ≤ x.lastMs) ((new node epoch).states l) ∧
      ∀ x ∈ (new node epoch).states l, ((elapsedOf x.id).toNat : ℤ) = x.lastMs - epoch ∧
        nodeOf x.id = node ∧ sequenceOf x.id = x.sequence) ∧
    (∀ i j, format i < format j ↔ i < j) ∧ (∀ i, parse (some (format i)) = .ok i) ∧
    ∀ text, (∃ i, parse (some text) = .ok i) ↔ text.length = 16 ∧ ∀ c ∈ text.toList,
      '0' ≤ c ∧ c ≤ '9' ∨ 'a' ≤ c ∧ c ≤ 'f' ∨ 'A' ≤ c ∧ c ≤ 'F' := by
  refine ⟨fun node epoch l h => ?_, format_lt, parse_format, fun text => ?_⟩
  · obtain ⟨-, hpairwise, hforall⟩ :=
      states_spec (g := new node epoch) (Nat.two_pow_pos 12) l h.clock
    refine ⟨fun x hx => h.exact hx,
      List.pairwise_map.2 (hpairwise.imp_of_mem fun hx hy hstamp => ?_),
      fun node' l' hne h' i hi hi' => ?_, hforall, fun x hx => ?_⟩
    · obtain ⟨e, he, hseq, hid, -⟩ := h.made hx
      obtain ⟨e', he', hseq', hid', -⟩ := h.made hy
      rw [stamp, stamp] at hstamp
      rw [BitVec.lt_def]
      omega
    · obtain ⟨x, hx, rfl⟩ := List.mem_map.1 hi
      obtain ⟨x', hx', he⟩ := List.mem_map.1 hi'
      obtain ⟨_, -, -, -, -, hnode, -⟩ := h.made hx
      obtain ⟨_, -, -, -, -, hnode', -⟩ := h'.made hx'
      rw [he, hnode] at hnode'
      exact hne (Fin.ext hnode'.symm)
    · obtain ⟨e, he, -, -, helapsed, hrest⟩ := h.made hx
      exact ⟨by rw [helapsed, he], hrest⟩
  · have hdigit : ∀ c, (digitOf c).isSome ↔
        '0' ≤ c ∧ c ≤ '9' ∨ 'a' ≤ c ∧ c ≤ 'f' ∨ 'A' ≤ c ∧ c ≤ 'F' := by
      intro c
      unfold digitOf
      split_ifs <;> simp_all
    simp only [← hdigit, ← parseFrom_isSome text.toList 0 0 0, parse]
    split_ifs with hlength
    · simp [hlength]
    · cases parseFrom text.toList 0 0 0 <;> simp [not_not.1 hlength]

/-- A clock that stands still, jumps and falls back. -/
theorem ids_of_four_readings : (ids 1 100 [100, 100, 103, 203 / 2]).Pairwise (· < ·) := by
  refine (ids_unique_and_ordered.1 1 100 [100, 100, 103, 203 / 2] ⟨by norm_num, ?_, ?_⟩).2.1
  · norm_num
  · have hstates : (new 1 100).states [100, 100, 103, 203 / 2] =
        [⟨1, 100, 100, 0⟩, ⟨1, 100, 100, 1⟩, ⟨1, 100, 103, 0⟩, ⟨1, 100, 103, 1⟩] := by
      norm_num [new, states, next]
    rw [hstates]
    norm_num

/-- A reading of half a millisecond is read back as none. -/
theorem before_the_reading :
    ((elapsedOf ((new 0 0).next (1 / 2)).id).toNat : ℚ) < 1 / 2 := by
  have hnext : (new 0 0).next (1 / 2) = ⟨0, 0, 0, 0⟩ := by
    rw [next, show ⌊(1 / 2 : ℚ)⌋ = 0 by norm_num]
    rfl
  rw [hnext, show (elapsedOf (id ⟨0, 0, 0, 0⟩)).toNat = 0 from rfl]
  norm_num

end SnowflakeId
end CrossByte
