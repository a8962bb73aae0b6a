import CrossByte.ByteArrayInput
import CrossByte.Lib.BinarySearch
import CrossByte.Lib.Serial
import Mathlib.Data.List.Destutter

/-!
# The keys of a map patch

`RPCKeys`: the keys of a map patch go in groups, each ascending.  The first key of a
group is a zigzag varint, and each after it a varint of how far past the one before it
is, less one.

The writer takes the distance as 32 bits unsigned.  The reader takes it as a signed
`Int` and refuses a negative one, so a group whose neighbouring keys are more than
`2 ^ 31` apart is written and cannot be read: `nextKey_gap` is the exact answer of the
reader to what the writer wrote, `reads_group` and `fails_group` that of a whole group.

## Contents

* `Key`: a 32-bit `Int`, as the number it is.
* `putKey`, `getKey`, `nextKey`, `putKeys`, `getKeys`, `indexOf`, `sortUnique`.
* `Bridged`: no two neighbouring keys of a set are more than `2 ^ 31` apart.
-/

namespace CrossByte

open Bytes (Byte)
open Serial (Word)
open Parse

/-- A key: a 32-bit `Int`. -/
@[ext]
structure Key where
  val : ℤ
  ge : -2 ^ 31 ≤ val
  lt : val < 2 ^ 31
  deriving Repr

namespace Key

instance : LinearOrder Key := LinearOrder.lift' Key.val fun _ _ => Key.ext

instance : LawfulBEq Key := inferInstance

theorem lt_iff {a b : Key} : a < b ↔ a.val < b.val := Iff.rfl

def ofWord (w : Word) : Key := ⟨w.toInt, by simpa using w.le_toInt, by simpa using w.toInt_lt⟩

def word (k : Key) : Word := BitVec.ofInt 32 k.val

def zero : Key := ⟨0, by norm_num, by norm_num⟩

@[simp] theorem ofWord_word (k : Key) : ofWord k.word = k := by
  have hge := k.ge
  have hlt := k.lt
  apply Key.ext
  change (BitVec.ofInt 32 k.val).toInt = k.val
  rw [BitVec.toInt_ofInt]
  exact Int.bmod_eq_of_le (by omega) (by omega)

end Key

namespace RPCKeys

/-! ## Coding -/

/-- The key `gap + 1` past `previous`, or a throw. -/
def nextKey (previous : Key) (gap : Word) : Except Thrown Key :=
  let next := Key.ofWord (previous.word + 1 + gap)
  if gap.toInt < 0 ∨ previous.val = 0x7FFFFFFF ∨ next ≤ previous then
    .error (.text "RPC map patch key past 2^31 - 1")
  else .ok next

/-- The bytes of `key`, the first of its group or the next after `previous`. -/
def putKey (first : Bool) (previous key : Key) : List Byte :=
  if first then Varint.put (Varint.zigzag key.word)
  else Varint.put (key.word - previous.word - 1)

/-- Read a key, the first of its group or the next after `previous`. -/
def getKey (first : Bool) (previous : Key) : Parser Thrown Key :=
  if first then do
    let w ← ByteArrayInput.readVarInt
    pure (Key.ofWord w)
  else do
    let gap ← ByteArrayInput.readVarUInt
    match nextKey previous gap with
    | .ok key => pure key
    | .error e => fail e

variable {previous key k : Key} {list : List Key}

/-- What the reader makes of the gap the writer puts between two ascending keys. -/
theorem nextKey_gap (h : previous < key) :
    nextKey previous (key.word - previous.word - 1) =
      if key.val - previous.val ≤ 2 ^ 31 then .ok key
      else .error (.text "RPC map patch key past 2^31 - 1") := by
  have hlt : previous.val < key.val := h
  obtain ⟨hp, hp', hk, hk'⟩ := And.intro previous.ge <| And.intro previous.lt <|
    And.intro key.ge key.lt
  have hgap : key.word - previous.word - 1 = BitVec.ofInt 32 (key.val - previous.val - 1) := by
    apply BitVec.eq_of_toInt_eq
    simp [Key.word]
  have hnext : previous.word + 1 + (key.word - previous.word - 1) = key.word := by
    apply BitVec.eq_of_toNat_eq
    bv_omega
  have hnle : ¬ key ≤ previous := not_le.2 h
  have hmax : previous.val ≠ 0x7FFFFFFF := by omega
  unfold nextKey
  rw [hnext, Key.ofWord_word, hgap, BitVec.toInt_ofInt]
  simp only [hnle, hmax, or_false]
  have hbmod : (key.val - previous.val - 1).bmod (2 ^ 32) < 0 ↔ ¬ key.val - previous.val ≤ 2 ^ 31 := by
    rw [Int.bmod_def]
    split <;> omega
  rw [if_congr hbmod rfl rfl, ite_not]

theorem reads_first_key (previous key : Key) :
    Reads (getKey true previous) (putKey true previous key) key := by
  have h := (ByteArrayInput.reads_varInt key.word).map Key.ofWord
  rwa [Key.ofWord_word] at h

/-- A key at most `2 ^ 31` past the one before it reads back. -/
theorem reads_next_key (h : previous < key) (hnear : key.val - previous.val ≤ 2 ^ 31) :
    Reads (getKey false previous) (putKey false previous key) key := by
  intro rest
  change (ByteArrayInput.readVarUInt >>= _).run _ = _
  rw [run_bind, putKey, if_neg (by decide), ByteArrayInput.reads_varUInt]
  dsimp only
  rw [nextKey_gap h, if_pos hnear]
  rfl

theorem fails_next_key (h : previous < key) (hfar : ¬ key.val - previous.val ≤ 2 ^ 31) :
    Fails (getKey false previous) (putKey false previous key)
      (.text "RPC map patch key past 2^31 - 1") := by
  intro rest
  change (ByteArrayInput.readVarUInt >>= _).run _ = _
  rw [run_bind, putKey, if_neg (by decide), ByteArrayInput.reads_varUInt]
  dsimp only
  rw [nextKey_gap h, if_neg hfar]
  rfl

/-! ## Groups -/

section Groups

variable {ι β σ : Type}

/-- A group: each entry's key and then its payload. -/
def putGroup (key : ι → Key) (payload : ι → List Byte) : Bool → Key → List ι → List Byte
  | _, _, [] => []
  | first, previous, e :: es =>
    putKey first previous (key e) ++ (payload e ++ putGroup key payload false (key e) es)

/-- Read a group of so many entries, each a key and then an item. -/
def getGroup (item : σ → Parser Thrown (β × σ)) :
    ℕ → Bool → Key → σ → Parser Thrown (List (Key × β) × σ)
  | 0, _, _, s => pure ([], s)
  | n + 1, first, previous, s => do
    let key ← getKey first previous
    let (b, s) ← item s
    let (rest, s) ← getGroup item n false key s
    pure ((key, b) :: rest, s)

/-- `putKeys`: a group of keys alone. -/
def putKeys (keys : List Key) : List Byte := putGroup id (fun _ => []) true Key.zero keys

def getKeys (count : ℕ) : Parser Thrown (List Key) := do
  let (out, _) ← getGroup (fun s => pure ((), s)) count true Key.zero ()
  pure (out.map Prod.fst)

/-- Neighbouring keys are at most `2 ^ 31` apart. -/
def Near (keys : List Key) : Prop := keys.IsChain fun a b => b.val - a.val ≤ 2 ^ 31

variable {key : ι → Key} {payload : ι → List Byte} {item : σ → Parser Thrown (β × σ)}
  {P : ι → β → Prop}

/-- Every entry's payload reads as an item of which `P` holds. -/
def ItemsRead (item : σ → Parser Thrown (β × σ)) (payload : ι → List Byte) (P : ι → β → Prop)
    (es : List ι) : Prop :=
  ∀ e ∈ es, ∀ s, ∃ r, Reads (item s) (payload e) r ∧ P e r.1

/-- What is read of `es`: their keys, and items of which `P` holds. -/
def ReadAs (key : ι → Key) (P : ι → β → Prop) (es : List ι) (out : List (Key × β)) : Prop :=
  List.Forall₂ (fun e r => r.1 = key e ∧ P e r.2) es out

variable {es : List ι} {out : List (Key × β)} {e : ι} {first : Bool} {s : σ}

theorem ReadAs.keys (h : ReadAs key P es out) : out.map Prod.fst = es.map key := by
  induction h with
  | nil => rfl
  | cons hr _ ih => rw [List.map_cons, List.map_cons, hr.1, ih]

theorem ReadAs.exists_of_mem (h : ReadAs key P es out) {r : Key × β} (hr : r ∈ out) :
    ∃ e ∈ es, r.1 = key e ∧ P e r.2 := by
  induction h with
  | nil => cases hr
  | cons he _ ih =>
    rcases List.mem_cons.1 hr with rfl | hr
    · exact ⟨_, List.mem_cons_self, he⟩
    · obtain ⟨e, hmem, h⟩ := ih hr
      exact ⟨e, List.mem_cons_of_mem _ hmem, h⟩

theorem reads_entry (hkey : Reads (getKey first previous) (putKey first previous (key e)) (key e))
    (hitem : ∃ r, Reads (item s) (payload e) r ∧ P e r.1)
    (hrest : ∀ s, ∃ out s', Reads (getGroup item es.length false (key e) s)
      (putGroup key payload false (key e) es) (out, s') ∧ ReadAs key P es out) :
    ∃ out s', Reads (getGroup item (e :: es).length first previous s)
      (putGroup key payload first previous (e :: es)) (out, s') ∧ ReadAs key P (e :: es) out := by
  obtain ⟨⟨b, s₁⟩, hb, hP⟩ := hitem
  obtain ⟨out, s', hout, has⟩ := hrest s₁
  refine ⟨(key e, b) :: out, s', ?_, .cons ⟨rfl, hP⟩ has⟩
  refine hkey.bind (hb.bind ?_)
  exact hout.map fun p => ((key e, b) :: p.1, p.2)

theorem reads_rest (previous : Key) (hsorted : (previous :: es.map key).IsChain (· < ·))
    (hnear : Near (previous :: es.map key)) (hitems : ItemsRead item payload P es) (s : σ) :
    ∃ out s', Reads (getGroup item es.length false previous s)
      (putGroup key payload false previous es) (out, s') ∧ ReadAs key P es out := by
  induction es generalizing previous s with
  | nil => exact ⟨[], s, reads_pure _, .nil⟩
  | cons e es ih =>
    have hlt := (List.isChain_cons_cons.1 hsorted).1
    have hgap := (List.isChain_cons_cons.1 hnear).1
    refine reads_entry (reads_next_key hlt hgap) (hitems e List.mem_cons_self s) fun s => ?_
    exact ih (key e) (List.isChain_cons_cons.1 hsorted).2 (List.isChain_cons_cons.1 hnear).2
      (fun e' he' => hitems e' (List.mem_cons_of_mem _ he')) s

theorem reads_group (hsorted : (es.map key).IsChain (· < ·)) (hnear : Near (es.map key))
    (hitems : ItemsRead item payload P es) (s : σ) :
    ∃ out s', Reads (getGroup item es.length true Key.zero s)
      (putGroup key payload true Key.zero es) (out, s') ∧ ReadAs key P es out := by
  cases es with
  | nil => exact ⟨[], s, reads_pure _, .nil⟩
  | cons e es =>
    refine reads_entry (reads_first_key _ _) (hitems e List.mem_cons_self s) fun s => ?_
    exact reads_rest (key e) hsorted hnear
      (fun e' he' => hitems e' (List.mem_cons_of_mem _ he')) s

theorem fails_entry {err : Thrown}
    (hkey : Reads (getKey first previous) (putKey first previous (key e)) (key e))
    (hitem : ∃ r, Reads (item s) (payload e) r ∧ P e r.1)
    (hrest : ∀ s, Fails (getGroup item es.length false (key e) s)
      (putGroup key payload false (key e) es) err) :
    Fails (getGroup item (e :: es).length first previous s)
      (putGroup key payload first previous (e :: es)) err := by
  obtain ⟨⟨b, s₁⟩, hb, -⟩ := hitem
  refine hkey.bind_fails (hb.bind_fails ?_)
  have h := (hrest s₁).bind (f := fun p => pure ((key e, b) :: p.1, p.2)) []
  rwa [List.append_nil] at h

theorem fails_rest (previous : Key) (hsorted : (previous :: es.map key).IsChain (· < ·))
    (hfar : ¬ Near (previous :: es.map key)) (hitems : ItemsRead item payload P es) (s : σ) :
    Fails (getGroup item es.length false previous s) (putGroup key payload false previous es)
      (.text "RPC map patch key past 2^31 - 1") := by
  induction es generalizing previous s with
  | nil => exact absurd (List.isChain_singleton _) hfar
  | cons e es ih =>
    obtain ⟨hlt, hchain⟩ := List.isChain_cons_cons.1 hsorted
    by_cases hgap : (key e).val - previous.val ≤ 2 ^ 31
    · refine fails_entry (P := P) (reads_next_key hlt hgap) (hitems e List.mem_cons_self s) fun s => ?_
      refine ih (key e) hchain (fun h => hfar (List.isChain_cons_cons.2 ⟨hgap, h⟩))
        (fun e' he' => hitems e' (List.mem_cons_of_mem _ he')) s
    · exact (fails_next_key hlt hgap).bind _

/-- An ascending group with keys too far apart is refused. -/
theorem fails_group (hsorted : (es.map key).IsChain (· < ·)) (hfar : ¬ Near (es.map key))
    (hitems : ItemsRead item payload P es) (s : σ) :
    Fails (getGroup item es.length true Key.zero s) (putGroup key payload true Key.zero es)
      (.text "RPC map patch key past 2^31 - 1") := by
  cases es with
  | nil => exact absurd List.isChain_nil hfar
  | cons e es =>
    refine fails_entry (P := P) (reads_first_key _ _) (hitems e List.mem_cons_self s) fun s => ?_
    exact fails_rest (key e) hsorted hfar
      (fun e' he' => hitems e' (List.mem_cons_of_mem _ he')) s

end Groups

/-- No two neighbouring keys of the set are more than `2 ^ 31` apart: between any two
further apart there is another. -/
def Bridged (keys : Set Key) : Prop :=
  ∀ a ∈ keys, ∀ b ∈ keys, 2 ^ 31 < b.val - a.val → ∃ c ∈ keys, a < c ∧ c < b

theorem near_iff_bridged {keys : List Key} (h : keys.Pairwise (· < ·)) :
    Near keys ↔ Bridged {k | k ∈ keys} := by
  have hmono : ∀ {i j} (hi : i < keys.length) (hj : j < keys.length),
      keys[i] < keys[j] ↔ i < j := by
    refine fun {i j} hi hj => ⟨fun hlt => ?_, List.pairwise_iff_getElem.1 h i j hi hj⟩
    by_contra hle
    rcases Nat.lt_or_eq_of_le (not_lt.1 hle) with hji | rfl
    · exact hlt.asymm (List.pairwise_iff_getElem.1 h j i hj hi hji)
    · exact lt_irrefl _ hlt
  rw [Near, List.isChain_iff_getElem]
  refine ⟨fun hnear a ha b hb hfar => ?_, fun hbridged i hi => ?_⟩
  · obtain ⟨i, hi, rfl⟩ := List.getElem_of_mem ha
    obtain ⟨j, hj, rfl⟩ := List.getElem_of_mem hb
    have hij := (hmono hi hj).1 (Key.lt_iff.2 (by omega))
    -- the key after the first is between, unless it is the other one
    refine ⟨keys[i + 1], List.getElem_mem _, (hmono _ _).2 i.lt_succ_self, (hmono _ _).2 ?_⟩
    refine lt_of_le_of_ne hij fun heq => ?_
    subst heq
    exact absurd (hnear i hj) (not_le.2 hfar)
  · by_contra hgap
    obtain ⟨c, hc, hlt, hlt'⟩ := hbridged _ (List.getElem_mem _) _ (List.getElem_mem _)
      (not_le.1 hgap)
    obtain ⟨j, hj, rfl⟩ := List.getElem_of_mem hc
    rw [hmono] at hlt hlt'
    omega

/-! ## Lists of keys -/

theorem eq_of_pairwise {l l' : List Key} (h : l.Pairwise (· < ·)) (h' : l'.Pairwise (· < ·))
    (hmem : ∀ k, k ∈ l ↔ k ∈ l') : l = l' :=
  List.Perm.eq_of_pairwise (fun _ _ _ _ hab hba => absurd hba hab.asymm) h h'
    ((List.perm_ext_iff_of_nodup h.nodup h'.nodup).2 hmem)

/-- `indexOf`: where `key` is in an ascending list. -/
def indexOf (list : List Key) (key : Key) : Option ℕ := BinarySearch.search list key

theorem indexOf_eq_none_iff (hs : list.Pairwise (· < ·)) :
    indexOf list key = none ↔ key ∉ list := BinarySearch.search_eq_none_iff hs

/-- The entry of a key in a list of entries, as `indexOf` finds it. -/
theorem entry_spec {β : Type} {entries : List (Key × β)}
    (hs : (entries.map Prod.fst).Pairwise (· < ·)) :
    (k ∉ entries.map Prod.fst ∧
        (indexOf (entries.map Prod.fst) k).bind (entries[·]?) = none) ∨
      ∃ b, (k, b) ∈ entries ∧
        (indexOf (entries.map Prod.fst) k).bind (entries[·]?) = some (k, b) := by
  cases hfind : indexOf (entries.map Prod.fst) k with
  | none => exact .inl ⟨(indexOf_eq_none_iff hs).1 hfind, rfl⟩
  | some i =>
    have hget := BinarySearch.get_of_search hfind
    rw [List.getElem?_map, Option.map_eq_some_iff] at hget
    obtain ⟨⟨k', b⟩, he, rfl⟩ := hget
    exact .inr ⟨b, List.mem_of_getElem? he, he⟩

/-- `sortUnique`: sorted ascending, each key once.  The sort is taken by what it makes of
the list; the pass after it drops each key that is the one kept before it. -/
def sortUnique (list : List Key) : List Key :=
  (list.insertionSort (· ≤ ·)).destutter (· ≠ ·)

theorem mem_destutter_ne : k ∈ list.destutter (· ≠ ·) ↔ k ∈ list := by
  refine ⟨fun h => (List.destutter_sublist _ list).mem h, fun h => ?_⟩
  cases list with
  | nil => exact h
  | cons a list =>
    rw [List.destutter_cons']
    induction list generalizing a with
    | nil => exact h
    | cons b list ih =>
      rw [List.destutter'_cons]
      split
      · rcases List.mem_cons.1 h with rfl | h
        · exact List.mem_cons_self
        · exact List.mem_cons_of_mem _ (ih b h)
      · rename_i hab
        obtain rfl := not_not.1 hab
        exact ih a (by simpa using h)

@[simp] theorem mem_sortUnique : k ∈ sortUnique list ↔ k ∈ list := by
  rw [sortUnique, mem_destutter_ne, List.mem_insertionSort]

theorem pairwise_sortUnique (list : List Key) : (sortUnique list).Pairwise (· < ·) := by
  have hle : (sortUnique list).Pairwise (· ≤ ·) :=
    (List.pairwise_insertionSort _ list).sublist (List.destutter_sublist _ _)
  have hne : (sortUnique list).IsChain (· ≠ ·) := List.isChain_destutter _ _
  refine List.isChain_iff_pairwise.1 (List.isChain_iff_getElem.2 fun i hi => ?_)
  exact lt_of_le_of_ne (List.isChain_iff_getElem.1 hle.isChain i hi)
    (List.isChain_iff_getElem.1 hne i hi)

end RPCKeys

end CrossByte
