import CrossByte.Db.Kv.KVKeys

/-!
# KVStore

The store of `crossbyte/db/kv/KVStore.hx`, as its interface states it: a map from keys
to records, in which each write or delete of a key takes the next revision after the one
the key, or its tombstone, holds.  A transaction keeps the map there was at `begin`, and
`rollback` goes back to it.

Records, calls and results are over any type of values: the interface speaks of their
bytes, a store may hold them by reference.  Times are of any type, with any comparison:
a clock may say what it likes.

`purges` counts the purges a key has gone through.  No call reads it; it says when two
states of a key lie between the same two purges.

## Main results

* `KVStore.forward_call`: while the store is open its committed states only grow newer, so
  that two of them, between the same purges of a key, with one revision are one
  (`KVMap.Newer.eq_of_revision`).
-/

namespace CrossByte

structure KVRecord (V T : Type) where
  key : Text
  value : V
  revision : ℕ
  createdAt : T
  updatedAt : T
  schema : ℤ
  tombstone : Bool
  deriving DecidableEq

/-- The record with its value read. -/
def KVRecord.map {V W T : Type} (f : V → W) (r : KVRecord V T) : KVRecord W T :=
  { r with value := f r.value }

/-- `KVOptions`, as far as a store in memory reads them; `earlier` is `<` between readings of
the clock. -/
structure KVOptions (T : Type) where
  maxKeyBytes : ℕ
  maxValueBytes : ℕ
  maxScanLimit : ℤ
  maxPageBytes : ℕ
  earlier : T → T → Bool
  /-- `KVOptions.__check`. -/
  maxKeyBytes_bounds : 1 ≤ maxKeyBytes ∧ maxKeyBytes ≤ 2048
  one_le_maxScanLimit : 1 ≤ maxScanLimit
  one_le_maxPageBytes : 1 ≤ maxPageBytes

def KVOptions.default {T : Type} (earlier : T → T → Bool) : KVOptions T where
  maxKeyBytes := 1024
  maxValueBytes := 1048576
  maxScanLimit := 1000
  maxPageBytes := 4194304
  earlier
  maxKeyBytes_bounds := by decide
  one_le_maxScanLimit := by decide
  one_le_maxPageBytes := by decide

/-- A number as a caller may pass it. -/
inductive FloatValue
  | nan
  | infinite (negative : Bool)
  | finite (q : ℚ)

/-- A number, and the text it is printed as. -/
structure FloatArg where
  value : FloatValue
  text : String

/-- The calls; a write is given what its clock answers or throws, should it be read. -/
inductive KVCall (V T : Type)
  | get (key : Option Text)
  | put (key : Option Text) (value : Option V) (schema : ℤ) (now : Except Thrown T)
  | compareAndSet (key : Option Text) (value : Option V) (expected : FloatArg) (schema : ℤ)
      (now : Except Thrown T)
  | delete (key : Option Text) (now : Except Thrown T)
  | compareAndDelete (key : Option Text) (expected : FloatArg) (now : Except Thrown T)
  | scan (options : KVKeys.ScanOptions)
  | purgeTombstones (before : T)
  | begin_
  | commit
  | rollback
  | close

/-- The call with its value read. -/
def KVCall.map {V W T : Type} (f : V → W) : KVCall V T → KVCall W T
  | .get key => .get key
  | .put key value schema now => .put key (value.map f) schema now
  | .compareAndSet key value expected schema now =>
    .compareAndSet key (value.map f) expected schema now
  | .delete key now => .delete key now
  | .compareAndDelete key expected now => .compareAndDelete key expected now
  | .scan options => .scan options
  | .purgeTombstones before => .purgeTombstones before
  | .begin_ => .begin_
  | .commit => .commit
  | .rollback => .rollback
  | .close => .close

/-- What a call returns or throws. -/
inductive KVResult (V T : Type)
  | record (r : Option (KVRecord V T))
  | deleted (was : Bool)
  | page (items : List (KVRecord V T)) (more : Bool) (next : Option Text)
  | purged (count : ℕ)
  | done
  | thrown (e : Thrown)

/-- The result with its values read. -/
def KVResult.map {V W T : Type} (f : V → W) : KVResult V T → KVResult W T
  | .record r => .record (r.map (KVRecord.map f))
  | .deleted was => .deleted was
  | .page items more next => .page (items.map (KVRecord.map f)) more next
  | .purged count => .purged count
  | .done => .done
  | .thrown e => .thrown e

/-! ## What every store refuses alike -/

namespace KVWrites

/-- A text in a message. -/
def shown (text : Text) : String := String.ofList (text.map fun code => Char.ofNat code.val)

/-- `KVKeys.check` of a call's key, and the key. -/
def checkKey (key : Option Text) (maxKeyBytes : ℕ) : Except Thrown Text := do
  KVKeys.check key maxKeyBytes "A key" false
  return key.getD []

/-- `checkWrite`: refuses a key that is not one, and a value that is null or too long; `size` is
the length of a value. -/
def checkWrite {V T : Type} (size : V → ℕ) (key : Option Text) (value : Option V)
    (options : KVOptions T) : Except Thrown (Text × V) := do
  let key ← checkKey key options.maxKeyBytes
  match value with
  | none => .error (.argumentError ("The value for " ++ shown key ++
      " is null: an empty value is Bytes.alloc(0)."))
  | some value =>
    if options.maxValueBytes < size value then
      .error (.argumentError ("The value for " ++ shown key ++ " is " ++ toString (size value) ++
        " bytes, past the store's maxValueBytes of " ++ toString options.maxValueBytes ++ "."))
    else .ok (key, value)

def leastRevision (mustBeRecord : Bool) : ℕ := if mustBeRecord then 1 else 0

/-- `checkExpected`: refuses an expected revision that is not one. -/
def checkExpected (expected : FloatArg) (mustBeRecord : Bool) : Except Thrown ℕ :=
  let refused : Thrown := .argumentError (expected.text ++
    " is not a revision: a whole number of " ++ toString (leastRevision mustBeRecord) ++
    " or more.")
  match expected.value with
  | .nan | .infinite _ => .error refused
  | .finite q =>
    if ¬ (leastRevision mustBeRecord : ℚ) ≤ q ∨ q ≠ ⌊q⌋ ∨ (2 ^ 53 : ℚ) < q then .error refused
    else .ok ⌊q⌋.toNat

end KVWrites

/-- "MemoryKVStore: the store is closed." and the others. -/
def storeClosed : Thrown := .illegalOperationError "MemoryKVStore: the store is closed."

def transactionOpen : Thrown :=
  .illegalOperationError "MemoryKVStore: a transaction is open already, and they do not nest."

def noTransaction : Thrown :=
  .illegalOperationError "MemoryKVStore: commit() with no transaction open."

/-! ## The map -/

/-- The bytes of a value. -/
abbrev Value := List UInt8

/-- A map from keys to records, with finitely many keys. -/
@[ext]
structure KVMap (T : Type) where
  records : Text → Option (KVRecord Value T)
  keys : Finset Text
  mem_keys : ∀ k, k ∈ keys ↔ (records k).isSome = true
  purges : Text → ℕ

namespace KVMap

variable {T : Type}

def empty : KVMap T where
  records := fun _ => none
  keys := ∅
  mem_keys := by simp
  purges := fun _ => 0

/-- `k` holds `r`. -/
def set (m : KVMap T) (k : Text) (r : KVRecord Value T) : KVMap T where
  records := Function.update m.records k (some r)
  keys := insert k m.keys
  mem_keys x := by
    by_cases h : x = k
    · subst h; simp
    · simp [h, m.mem_keys]
  purges := m.purges

/-- The records that `p` is true of are gone. -/
def purge (m : KVMap T) (p : KVRecord Value T → Bool) : KVMap T where
  records k := (m.records k).filter fun r => !p r
  keys := m.keys.filter fun k => (m.records k).any fun r => !p r
  mem_keys k := by
    rw [Finset.mem_filter, m.mem_keys]
    cases m.records k with
    | none => simp
    | some r => cases hp : p r <;> simp [Option.filter, hp]
  purges k := if (m.records k).any p then m.purges k + 1 else m.purges k

/-- The record of a key that is not a tombstone. -/
def live (m : KVMap T) (k : Text) : Option (KVRecord Value T) :=
  (m.records k).filter fun r => !r.tombstone

def nextRevision (m : KVMap T) (k : Text) : ℕ :=
  match m.records k with
  | none => 1
  | some r => r.revision + 1

/-- What a write leaves under `k`. -/
def written (m : KVMap T) (k : Text) (v : Value) (schema : ℤ) (now : T) : KVRecord Value T where
  key := k
  value := v
  revision := m.nextRevision k
  createdAt := match m.live k with
    | some r => r.createdAt
    | none => now
  updatedAt := now
  schema
  tombstone := false

/-- What a delete leaves under the key of `r`. -/
def deleted (m : KVMap T) (k : Text) (r : KVRecord Value T) (now : T) : KVRecord Value T where
  key := k
  value := []
  revision := m.nextRevision k
  createdAt := r.createdAt
  updatedAt := now
  schema := 0
  tombstone := true

/-- The live record is at the expected revision; 0 expects none. -/
def At (m : KVMap T) (k : Text) (expected : ℕ) : Prop :=
  if expected = 0 then m.live k = none
  else ∃ r, m.live k = some r ∧ r.revision = expected

/-- How a page is filled: until `limit` records, or before one that would take it past `maxBytes`,
the first whatever its size; and whether records are left. -/
def fillPage (limit : ℤ) (maxBytes : ℕ) :
    List (KVRecord Value T) → List (KVRecord Value T) → ℕ → List (KVRecord Value T) × Bool
  | [], found, _ => (found, false)
  | r :: rest, found, bytes =>
    if found.length = limit ∨ 0 < found.length ∧ maxBytes < bytes + r.value.length then
      (found, true)
    else fillPage limit maxBytes rest (found ++ [r]) (bytes + r.value.length)

open Classical in
/-- The records a scan reads, in the order of their keys. -/
noncomputable def reads (m : KVMap T) (options : KVKeys.ScanOptions) : List (KVRecord Value T) :=
  (((m.keys.sort (· ≤ ·)).filter fun k => options.Reads k).filterMap m.records).filter
    fun r => !r.tombstone || options.includeTombstones

end KVMap

/-- The store: its map, the map there was at `begin`, and whether it is closed. -/
structure KVStore (T : Type) where
  options : KVOptions T
  map : KVMap T
  saved : Option (KVMap T)
  closed : Bool

namespace KVStore

variable {T : Type}

def new (options : KVOptions T) : KVStore T := ⟨options, .empty, none, false⟩

/-- The map as it was before the open transaction. -/
def committed (s : KVStore T) : KVMap T := s.saved.getD s.map

open Classical in
/-- A write, if the record is at the revision expected, when one is. -/
noncomputable def write (s : KVStore T) (k : Text) (v : Value) (schema : ℤ) (expected : Option ℕ)
    (now : Except Thrown T) : KVStore T × KVResult Value T :=
  if ∃ e, expected = some e ∧ ¬ s.map.At k e then (s, .record none)
  else
    match now with
    | .error e => (s, .thrown e)
    | .ok now =>
      let r := s.map.written k v schema now
      ({ s with map := s.map.set k r }, .record (some r))

/-- A delete of a live record, if it is at the revision expected, when one is. -/
def delete (s : KVStore T) (k : Text) (expected : Option ℕ) (now : Except Thrown T) :
    KVStore T × KVResult Value T :=
  match s.map.live k with
  | none => (s, .deleted false)
  | some r =>
    if ∃ e ∈ expected, r.revision ≠ e then (s, .deleted false)
    else
      match now with
      | .error e => (s, .thrown e)
      | .ok now => ({ s with map := s.map.set k (s.map.deleted k r now) }, .deleted true)

noncomputable def scan (s : KVStore T) (options : KVKeys.ScanOptions) : KVResult Value T :=
  let (items, more) := KVMap.fillPage options.limit s.options.maxPageBytes
    (s.map.reads options) [] 0
  .page items more (if more then items.getLast?.map (·.key) else none)

/-- A call that a closed store refuses. -/
def whenOpen (s : KVStore T) (f : KVStore T × KVResult Value T) : KVStore T × KVResult Value T :=
  if s.closed then (s, .thrown storeClosed) else f

/-- A call whose arguments are checked first. -/
def checked {α : Type} (s : KVStore T) (c : Except Thrown α)
    (f : α → KVStore T × KVResult Value T) : KVStore T × KVResult Value T :=
  match c with
  | .error e => (s, .thrown e)
  | .ok a => f a

/-- The store, closed: it has let go of its records. -/
def shut (s : KVStore T) : KVStore T := { s with map := .empty, saved := none, closed := true }

noncomputable def call (s : KVStore T) : KVCall Value T → KVStore T × KVResult Value T
  | .get key =>
    s.checked (KVWrites.checkKey key s.options.maxKeyBytes) fun k =>
      s.whenOpen (s, .record (s.map.live k))
  | .put key value schema now =>
    s.checked (KVWrites.checkWrite List.length key value s.options) fun kv =>
      s.whenOpen (s.write kv.1 kv.2 schema none now)
  | .compareAndSet key value expected schema now =>
    s.checked (KVWrites.checkExpected expected false) fun e =>
      s.checked (KVWrites.checkWrite List.length key value s.options) fun kv =>
        s.whenOpen (s.write kv.1 kv.2 schema (some e) now)
  | .delete key now =>
    s.checked (KVWrites.checkKey key s.options.maxKeyBytes) fun k =>
      s.whenOpen (s.delete k none now)
  | .compareAndDelete key expected now =>
    s.checked (KVWrites.checkExpected expected true) fun e =>
      s.checked (KVWrites.checkKey key s.options.maxKeyBytes) fun k =>
        s.whenOpen (s.delete k (some e) now)
  | .scan options =>
    s.checked (KVKeys.rangeOf options s.options.maxKeyBytes s.options.maxScanLimit) fun _ =>
      s.whenOpen (s, s.scan options)
  | .purgeTombstones before =>
    let gone := fun r : KVRecord Value T => r.tombstone && s.options.earlier r.updatedAt before
    s.whenOpen ({ s with map := s.map.purge gone },
      .purged (s.map.keys.filter fun k => (s.map.records k).any gone).card)
  | .begin_ =>
    s.whenOpen <| match s.saved with
      | some _ => (s, .thrown transactionOpen)
      | none => ({ s with saved := some s.map }, .done)
  | .commit =>
    s.whenOpen <| match s.saved with
      | some _ => ({ s with saved := none }, .done)
      | none => (s, .thrown noTransaction)
  | .rollback =>
    match s.saved with
    | some saved => if s.closed then (s, .done) else ({ s with map := saved, saved := none }, .done)
    | none => (s, .done)
  | .close => if s.closed then (s, .done) else (s.shut, .done)

end KVStore

/-! ## Committed states -/

namespace KVMap

variable {T : Type} {m m' m'' : KVMap T}

/-- `m'` is `m` or came after it: each key was purged since, or holds the record it held, or one
of a later revision. -/
def Newer (m m' : KVMap T) : Prop :=
  ∀ k, m.purges k < m'.purges k ∨ m.purges k = m'.purges k ∧
    (m.records k = m'.records k ∨ ∃ r', m'.records k = some r' ∧
      ∀ r, m.records k = some r → r.revision < r'.revision)

theorem Newer.refl (m : KVMap T) : Newer m m := fun _ => .inr ⟨rfl, .inl rfl⟩

theorem Newer.trans (h : Newer m m') (h' : Newer m' m'') : Newer m m'' := by
  intro k
  rcases h k, h' k with ⟨hp | ⟨hp, hr⟩, hp' | ⟨hp', hr'⟩⟩
  · exact .inl (hp.trans hp')
  · exact .inl (hp' ▸ hp)
  · exact .inl (hp ▸ hp')
  · refine .inr ⟨hp.trans hp', ?_⟩
    rcases hr with hr | ⟨r₁, hr₁, hlt⟩
    · rw [hr]
      exact hr'
    · rcases hr' with hr' | ⟨r₂, hr₂, hlt'⟩
      · exact .inr ⟨r₁, hr' ▸ hr₁, hlt⟩
      · exact .inr ⟨r₂, hr₂, fun r hr => (hlt r hr).trans (hlt' r₁ hr₁)⟩

/-- Between the same purges, one revision is one record. -/
theorem Newer.eq_of_revision (h : Newer m m') {k : Text} {r r' : KVRecord Value T}
    (hp : m.purges k = m'.purges k) (hr : m.records k = some r) (hr' : m'.records k = some r')
    (hrev : r.revision = r'.revision) : r = r' := by
  rcases h k with hlt | ⟨-, heq | ⟨r₁, hr₁, hlt⟩⟩
  · omega
  · rw [hr, hr'] at heq
    exact Option.some.inj heq
  · rw [hr'] at hr₁
    obtain rfl := Option.some.inj hr₁
    have := hlt r hr
    omega

theorem Newer.set (m : KVMap T) (k : Text) (r : KVRecord Value T)
    (h : r.revision = m.nextRevision k) : Newer m (m.set k r) := by
  intro k'
  refine .inr ⟨rfl, ?_⟩
  by_cases hk : k' = k
  · subst hk
    refine .inr ⟨r, by simp [KVMap.set], fun r₀ hr₀ => ?_⟩
    rw [h, nextRevision, hr₀]
    exact Nat.lt_succ_self _
  · exact .inl (by simp [KVMap.set, hk])

theorem Newer.purge (m : KVMap T) (p : KVRecord Value T → Bool) : Newer m (m.purge p) := by
  intro k
  simp only [KVMap.purge]
  cases hr : m.records k with
  | none => exact .inr ⟨by simp, .inl (by simp)⟩
  | some r =>
    cases hp : p r with
    | true => exact .inl (by simp [hp])
    | false => exact .inr ⟨by simp [hp], .inl (by simp [Option.filter, hp])⟩

end KVMap

namespace KVStore

variable {T : Type} {s : KVStore T}

/-- The map never falls behind what was committed, and an open store's committed states only grow
newer. -/
structure Forward (s s' : KVStore T) : Prop where
  committed : s.committed.Newer s'.committed
  map : s'.committed.Newer s'.map

theorem Forward.refl (h : s.committed.Newer s.map) : Forward s s := ⟨.refl _, h⟩

theorem forward_map {m : KVMap T} (h : s.committed.Newer s.map) (hm : s.map.Newer m) :
    Forward s { s with map := m } := by
  have hnew := h.trans hm
  cases hs : s.saved with
  | none =>
    exact ⟨by simpa [committed, hs] using hnew, by simpa [committed, hs] using .refl _⟩
  | some saved =>
    exact ⟨by simpa [committed, hs] using .refl _, by simpa [committed, hs] using hnew⟩

/-- What a call can do: nothing, or, to a store that is open, to move its map on, to begin, end or
undo a transaction, or to shut it. -/
inductive Moves (s : KVStore T) : KVCall Value T → KVStore T → Prop
  | stays {c : KVCall Value T} : Moves s c s
  | moves {c : KVCall Value T} {m : KVMap T} (hcl : ¬ s.closed) (hm : s.map.Newer m) :
    Moves s c { s with map := m }
  | begins (hcl : ¬ s.closed) (hs : s.saved = none) : Moves s .begin_ { s with saved := some s.map }
  | commits (hcl : ¬ s.closed) : Moves s .commit { s with saved := none }
  | rollsBack {saved : KVMap T} (hcl : ¬ s.closed) (hs : s.saved = some saved) :
    Moves s .rollback { s with map := saved, saved := none }
  | closes (hcl : ¬ s.closed) : Moves s .close s.shut

section
variable {c : KVCall Value T} {k : Text} {expected : Option ℕ} {now : Except Thrown T}

theorem moves_write {v : Value} {schema : ℤ} (hcl : ¬ s.closed) :
    Moves s c (s.write k v schema expected now).1 := by
  simp only [write]
  split
  · exact .stays
  · split
    · exact .stays
    · next now => exact .moves hcl (.set _ k (s.map.written k v schema now) rfl)

theorem moves_delete (hcl : ¬ s.closed) : Moves s c (s.delete k expected now).1 := by
  simp only [delete]
  split
  · exact .stays
  · next r _ =>
    split
    · exact .stays
    · split
      · exact .stays
      · next now => exact .moves hcl (.set _ k (s.map.deleted k r now) rfl)

theorem moves_whenOpen {f : KVStore T × KVResult Value T} (hf : ¬ s.closed → Moves s c f.1) :
    Moves s c (s.whenOpen f).1 := by
  simp only [whenOpen]
  split
  · exact .stays
  · next hcl => exact hf hcl

theorem moves_checked {α : Type} {a : Except Thrown α} {f : α → KVStore T × KVResult Value T}
    (hf : ∀ a, Moves s c (f a).1) : Moves s c (s.checked a f).1 := by
  cases a with
  | error e => exact .stays
  | ok a => exact hf a

end

theorem call_moves (s : KVStore T) (c : KVCall Value T) : Moves s c (s.call c).1 := by
  cases c with
  | get key => exact moves_checked fun k => moves_whenOpen fun _ => .stays
  | put key value schema now => exact moves_checked fun kv => moves_whenOpen moves_write
  | compareAndSet key value expected schema now =>
    exact moves_checked fun e => moves_checked fun kv => moves_whenOpen moves_write
  | delete key now => exact moves_checked fun k => moves_whenOpen moves_delete
  | compareAndDelete key expected now =>
    exact moves_checked fun e => moves_checked fun k => moves_whenOpen moves_delete
  | scan options => exact moves_checked fun _ => moves_whenOpen fun _ => .stays
  | purgeTombstones before => exact moves_whenOpen fun hcl => .moves hcl (.purge _ _)
  | begin_ =>
    refine moves_whenOpen fun hcl => ?_
    split
    · exact .stays
    · next hs => exact .begins hcl hs
  | commit =>
    refine moves_whenOpen fun hcl => ?_
    split
    · exact .commits hcl
    · exact .stays
  | rollback =>
    simp only [call]
    split
    · next hs =>
      split
      · exact .stays
      · next hcl => exact .rollsBack hcl hs
    · exact .stays
  | close =>
    simp only [call]
    split
    · exact .stays
    · next hcl => exact .closes hcl

/-- A call that leaves the store open takes its committed state forward. -/
theorem forward_call {c : KVCall Value T} (h : s.committed.Newer s.map)
    (hopen : (s.call c).1.closed = false) : Forward s (s.call c).1 := by
  have hmoves := call_moves s c
  generalize (s.call c).1 = s' at hmoves hopen
  cases hmoves with
  | stays => exact .refl h
  | moves _ hm => exact forward_map h hm
  | commits => exact ⟨by simpa [committed] using h, by simpa [committed] using .refl _⟩
  | begins _ hs | rollsBack _ hs =>
    exact ⟨by simpa [committed, hs] using .refl _, by simpa [committed] using .refl _⟩
  | closes => cases hopen

/-! ## Runs -/

noncomputable def results (s : KVStore T) : List (KVCall Value T) → List (KVResult Value T)
  | [] => []
  | c :: cs => (s.call c).2 :: results (s.call c).1 cs

noncomputable def after (s : KVStore T) (cs : List (KVCall Value T)) : KVStore T :=
  cs.foldl (fun s c => (s.call c).1) s

theorem after_append (s : KVStore T) (cs cs' : List (KVCall Value T)) :
    s.after (cs ++ cs') = (s.after cs).after cs' := List.foldl_append

theorem results_append (s : KVStore T) (cs cs' : List (KVCall Value T)) :
    s.results (cs ++ cs') = s.results cs ++ (s.after cs).results cs' := by
  induction cs generalizing s with
  | nil => rfl
  | cons c cs ih => exact congrArg ((s.call c).2 :: ·) (ih (s.call c).1)

/-- A call keeps a closed store as it is, and leaves an open one open or shuts it. -/
def Keeps (s s' : KVStore T) : Prop :=
  (s.closed = true → s' = s) ∧ (s.closed = false → s'.closed = false ∨ s' = s.shut)

theorem keeps_call (s : KVStore T) (c : KVCall Value T) : Keeps s (s.call c).1 := by
  have hmoves := call_moves s c
  generalize (s.call c).1 = s' at hmoves
  cases hmoves with
  | stays => exact ⟨fun _ => rfl, .inl⟩
  | closes hcl => exact ⟨fun h => absurd h hcl, fun _ => .inr rfl⟩
  | moves hcl | begins hcl | commits hcl | rollsBack hcl =>
    exact ⟨fun h => absurd h hcl, .inl⟩

/-- What every state of a store keeps. -/
structure Sound (s : KVStore T) : Prop where
  newer : s.committed.Newer s.map
  closed : s.closed = true → ∀ k, s.committed.records k = none
  unsaved : s.closed = true → s.saved = none

theorem sound_new (options : KVOptions T) : Sound (new options) :=
  ⟨.refl _, nofun, nofun⟩

theorem Sound.call (h : Sound s) (c : KVCall Value T) : Sound (s.call c).1 := by
  obtain ⟨hsame, hopen⟩ := keeps_call s c
  cases hcl : s.closed with
  | true =>
    rw [hsame hcl]
    exact h
  | false =>
    rcases hopen hcl with hop | hshut
    · have hnot : (s.call c).1.closed ≠ true := by simp [hop]
      exact ⟨(forward_call h.newer hop).map, fun hc => absurd hc hnot, fun hc => absurd hc hnot⟩
    · rw [hshut]
      exact ⟨.refl _, fun _ k => rfl, fun _ => rfl⟩

theorem Sound.after (h : Sound s) (cs : List (KVCall Value T)) : Sound (s.after cs) := by
  induction cs generalizing s with
  | nil => exact h
  | cons c cs ih => exact ih (h.call c)

theorem open_of_open_after {cs : List (KVCall Value T)} (h : (s.after cs).closed = false) :
    s.closed = false := by
  induction cs generalizing s with
  | nil => exact h
  | cons c cs ih =>
    by_contra hcl
    have hopen := ih (s := (s.call c).1) h
    rw [(keeps_call s c).1 (by simpa using hcl)] at hopen
    exact hcl hopen

/-- The committed states of a store only grow newer, until it is closed and holds nothing. -/
theorem Sound.newer_after (h : Sound s) (cs : List (KVCall Value T)) :
    s.committed.Newer (s.after cs).committed ∨ ∀ k, (s.after cs).committed.records k = none := by
  cases hcl : (s.after cs).closed with
  | true => exact .inr ((h.after cs).closed hcl)
  | false =>
    left
    induction cs generalizing s with
    | nil => exact .refl _
    | cons c cs ih =>
      have hop : (s.call c).1.closed = false := open_of_open_after hcl
      exact (forward_call h.newer hop).committed.trans (ih (h.call c) hcl)

/-- Only `commit`, `rollback` and `close` end a transaction. -/
theorem saved_call {c : KVCall Value T} (hs : s.saved.isSome = true) (hcommit : c ≠ .commit)
    (hrollback : c ≠ .rollback) (hclose : c ≠ .close) : (s.call c).1.saved = s.saved := by
  have hmoves := call_moves s c
  generalize (s.call c).1 = s' at hmoves
  cases hmoves with
  | stays | moves => rfl
  | begins _ hn =>
    rw [hn] at hs
    cases hs
  | commits => exact absurd rfl hcommit
  | rollsBack => exact absurd rfl hrollback
  | closes => exact absurd rfl hclose

theorem saved_after {cs : List (KVCall Value T)} (hs : s.saved.isSome = true)
    (hcs : ∀ c ∈ cs, c ≠ .commit ∧ c ≠ .rollback ∧ c ≠ .close) : (s.after cs).saved = s.saved := by
  induction cs generalizing s with
  | nil => rfl
  | cons c cs ih =>
    obtain ⟨h₁, h₂, h₃⟩ := hcs c List.mem_cons_self
    have heq := saved_call hs h₁ h₂ h₃
    exact (ih (by rw [heq]; exact hs) fun c hc => hcs c (List.mem_cons_of_mem _ hc)).trans heq

end KVStore

end CrossByte
