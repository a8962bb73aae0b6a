import CrossByte.Db.Kv.KVStore
import CrossByte.Db.Kv.SortedKeys
import CrossByte.Lib.Store
import Mathlib.Data.List.AList

/-!
# MemoryKVStore

The store of `crossbyte/db/kv/MemoryKVStore.hx`: the records by key, the keys in
order beside them, and, in a transaction, what each key held before it was first
written.  Values are buffers held by reference (`Lib.Store`), so that a buffer the
store shares with a caller would show: `shared` are the buffers callers have.

A revision is a float: at 2^53 it stops growing (`bump`).

The lock, which one thread may take again, is left out: a run here is one thread's.
-/

namespace CrossByte

/-- A record as the store holds it. -/
abbrev StoredRecord (T : Type) := KVRecord Ref T

/-- `KVUndo`: what a key held before a transaction first wrote it. -/
structure KVUndo (T : Type) where
  key : Text
  prior : Option (StoredRecord T)

/-- The store, and the buffers. -/
structure MemoryKVStore (T : Type) where
  options : KVOptions T
  records : AList fun _ : Text => StoredRecord T
  keys : SortedKeys Text
  undo : Option (List (KVUndo T))
  logged : List Text
  closed : Bool
  heap : Store Value
  shared : List Ref

namespace MemoryKVStore

variable {T : Type}

def EMPTY : Ref := 0

/-- A new store; the one buffer is `__EMPTY`. -/
def new (options : KVOptions T) : MemoryKVStore T where
  options
  records := ∅
  keys := .empty
  undo := none
  logged := []
  closed := false
  heap := { content := fun _ => [], next := 1 }
  shared := []

/-- `revision + 1` in floats. -/
def bump (revision : ℕ) : ℕ := if revision < 2 ^ 53 then revision + 1 else revision

/-- A caller gets a new buffer. -/
def give (s : MemoryKVStore T) (v : Value) : Ref × MemoryKVStore T :=
  ((s.heap.make v).1,
    { s with heap := (s.heap.make v).2, shared := (s.heap.make v).1 :: s.shared })

def copy (s : MemoryKVStore T) (r : StoredRecord T) : StoredRecord T × MemoryKVStore T :=
  let (value, s) := s.give (s.heap.content r.value)
  ({ r with value }, s)

/-- `__own`, of a value that was checked: a copy of the caller's buffer. -/
def own (s : MemoryKVStore T) (value : Ref) : Ref × MemoryKVStore T :=
  if (s.heap.content value).length = 0 then (EMPTY, s)
  else
    let (value, heap) := s.heap.make (s.heap.content value)
    (value, { s with heap })

def log (s : MemoryKVStore T) (key : Text) : MemoryKVStore T :=
  match s.undo with
  | none => s
  | some undo =>
    if key ∈ s.logged then s
    else { s with
      logged := key :: s.logged
      undo := some (undo ++ [⟨key, s.records.lookup key⟩]) }

/-- `__records.set`, with the key added to `__keys` if it was not held. -/
def setRecord (s : MemoryKVStore T) (key : Text) (r : StoredRecord T) : MemoryKVStore T :=
  { s with
    keys := if key ∈ s.records then s.keys else s.keys.insert key
    records := s.records.insert key r }

/-- `__records.remove` and `__keys.remove`. -/
def removeRecord (s : MemoryKVStore T) (key : Text) : MemoryKVStore T :=
  { s with records := s.records.erase key, keys := (s.keys.remove key).1 }

/-- One entry of the undo log, put back. -/
def putBack (s : MemoryKVStore T) (entry : KVUndo T) : MemoryKVStore T :=
  match entry.prior with
  | none => if entry.key ∈ s.records then s.removeRecord entry.key else s
  | some r => s.setRecord entry.key r

/-- `__restore`: latest first. -/
def restore (s : MemoryKVStore T) : MemoryKVStore T :=
  match s.undo with
  | none => s
  | some undo => undo.reverse.foldl putBack { s with undo := none, logged := [] }

/-- `__at`. -/
def atRevision (current : Option (StoredRecord T)) (expected : ℕ) : Bool :=
  match current with
  | none => expected = 0
  | some r => if expected = 0 then r.tombstone else !r.tombstone && r.revision = expected

/-- What `__write` puts under a key that holds `current`. -/
def written (current : Option (StoredRecord T)) (key : Text) (value : Ref) (schema : ℤ) (now : T) :
    StoredRecord T where
  key
  value
  revision := match current with
    | none => 1
    | some r => bump r.revision
  createdAt := match current with
    | none => now
    | some r => if r.tombstone then now else r.createdAt
  updatedAt := now
  schema
  tombstone := false

/-- A call that a closed store refuses: `__enter`. -/
def enter (s : MemoryKVStore T) (f : MemoryKVStore T × KVResult Ref T) :
    MemoryKVStore T × KVResult Ref T :=
  if s.closed then (s, .thrown storeClosed) else f

/-- A call whose arguments are checked first. -/
def checked {α : Type} (s : MemoryKVStore T) (c : Except Thrown α)
    (f : α → MemoryKVStore T × KVResult Ref T) : MemoryKVStore T × KVResult Ref T :=
  match c with
  | .error e => (s, .thrown e)
  | .ok a => f a

/-- `get`, of a key that was checked. -/
def get (s : MemoryKVStore T) (key : Text) : MemoryKVStore T × KVResult Ref T :=
  s.enter <| match s.records.lookup key with
    | none => (s, .record none)
    | some r =>
      if r.tombstone then (s, .record none)
      else ((s.copy r).2, .record (some (s.copy r).1))

/-- `__write`; `expected` is none for a write that is not conditional. -/
def write (s : MemoryKVStore T) (key : Text) (value : Ref) (schema : ℤ) (expected : Option ℕ)
    (now : Except Thrown T) : MemoryKVStore T × KVResult Ref T :=
  s.enter <|
    let current := s.records.lookup key
    if ∃ e ∈ expected, atRevision current e = false then (s, .record none)
    else
      match now with
      | .error e => (s, .thrown e)
      | .ok now =>
        let r := written current key value schema now
        let (r', s') := ((s.log key).setRecord key r).copy r
        (s', .record (some r'))

/-- `__delete`, of a key that was checked. -/
def delete (s : MemoryKVStore T) (key : Text) (expected : Option ℕ) (now : Except Thrown T) :
    MemoryKVStore T × KVResult Ref T :=
  s.enter <| match s.records.lookup key with
    | none => (s, .deleted false)
    | some r =>
      if r.tombstone ∨ ∃ e ∈ expected, r.revision ≠ e then (s, .deleted false)
      else
        match now with
        | .error e => (s, .thrown e)
        | .ok now =>
          ((s.log key).setRecord key
            ⟨key, EMPTY, bump r.revision, r.createdAt, now, 0, true⟩, .deleted true)

/-- The loop of `scan` over its cursor's keys; a key without a record is a null access. -/
def scanLoop (s : MemoryKVStore T) (high : Text) (options : KVKeys.ScanOptions) :
    List Text → List (StoredRecord T) → ℕ → Except Thrown (List (StoredRecord T) × Bool)
  | [], found, _ => .ok (found, false)
  | key :: rest, found, bytes =>
    if 0 ≤ KVKeys.compare key high then .ok (found, false)
    else
      match s.records.lookup key with
      | none => .error .nullAccess
      | some r =>
        if r.tombstone && !options.includeTombstones then
          scanLoop s high options rest found bytes
        else
          let size := (s.heap.content r.value).length
          if found.length = options.limit ∨
              0 < found.length ∧ s.options.maxPageBytes < bytes + size then .ok (found, true)
          else scanLoop s high options rest (found ++ [r]) (bytes + size)

/-- The records found, copied. -/
def copies (s : MemoryKVStore T) : List (StoredRecord T) → List (StoredRecord T) × MemoryKVStore T
  | [] => ([], s)
  | r :: rest =>
    let (r, s) := s.copy r
    let (rest, s) := copies s rest
    (r :: rest, s)

/-- `scan`, in a range that was checked. -/
def scan (s : MemoryKVStore T) (options : KVKeys.ScanOptions) (range : Option KVKeys.Range) :
    MemoryKVStore T × KVResult Ref T :=
  s.enter <| match range with
    | none => (s, .page [] false none)
    | some range =>
      match s.scanLoop range.high options (s.keys.fromKey range.low) [] 0 with
      | .error e => (s, .thrown e)
      | .ok (found, more) =>
        let (items, s) := s.copies found
        (s, .page items more (if more then items.getLast?.map (·.key) else none))

/-- The keys `purgeTombstones` removes. -/
def purged (s : MemoryKVStore T) (before : T) : List Text :=
  (s.records.entries.filter fun e =>
    e.2.tombstone && s.options.earlier e.2.updatedAt before).map (·.1)

def purgeTombstones (s : MemoryKVStore T) (before : T) : MemoryKVStore T × KVResult Ref T :=
  s.enter ((s.purged before).foldl (fun s key => (s.log key).removeRecord key) s,
    .purged (s.purged before).length)

def call (s : MemoryKVStore T) : KVCall Ref T → MemoryKVStore T × KVResult Ref T
  | .get key => s.checked (KVWrites.checkKey key s.options.maxKeyBytes) s.get
  | .put key value schema now =>
    s.checked (KVWrites.checkWrite (fun v => (s.heap.content v).length) key value s.options)
      fun kv => (s.own kv.2).2.write kv.1 (s.own kv.2).1 schema none now
  | .compareAndSet key value expected schema now =>
    s.checked (KVWrites.checkExpected expected false) fun e =>
      s.checked (KVWrites.checkWrite (fun v => (s.heap.content v).length) key value s.options)
        fun kv => (s.own kv.2).2.write kv.1 (s.own kv.2).1 schema (some e) now
  | .delete key now =>
    s.checked (KVWrites.checkKey key s.options.maxKeyBytes) fun k => s.delete k none now
  | .compareAndDelete key expected now =>
    s.checked (KVWrites.checkExpected expected true) fun e =>
      s.checked (KVWrites.checkKey key s.options.maxKeyBytes) fun k => s.delete k (some e) now
  | .scan options =>
    s.checked (KVKeys.rangeOf options s.options.maxKeyBytes s.options.maxScanLimit) (s.scan options)
  | .purgeTombstones before => s.purgeTombstones before
  | .begin_ =>
    s.enter <| match s.undo with
      | some _ => (s, .thrown transactionOpen)
      | none => ({ s with undo := some [], logged := [] }, .done)
  | .commit =>
    s.enter <| match s.undo with
      | none => (s, .thrown noTransaction)
      | some _ => ({ s with undo := none, logged := [] }, .done)
  | .rollback => if s.closed ∨ s.undo = none then (s, .done) else (s.restore, .done)
  | .close =>
    if s.closed then (s, .done)
    else ({ s.restore with closed := true, records := ∅, keys := .empty }, .done)

/-- What a caller does: makes a buffer, writes one it has, or calls the store. -/
inductive Act (T : Type)
  | alloc (v : Value)
  | poke (r : Ref) (v : Value)
  | call (c : KVCall Ref T)

def step (s : MemoryKVStore T) : Act T → MemoryKVStore T
  | .alloc v => (s.give v).2
  | .poke r v => if r ∈ s.shared then { s with heap := s.heap.set r v } else s
  | .call c => (s.call c).1

/-- The calls of a run as their caller sees them: with the bytes that were passed, and the bytes
that came back. -/
def trace (s : MemoryKVStore T) : List (Act T) → List (KVCall Value T × KVResult Value T)
  | [] => []
  | .call c :: acts =>
    (c.map s.heap.content, (s.call c).2.map (s.call c).1.heap.content) ::
      trace (s.step (.call c)) acts
  | act :: acts => trace (s.step act) acts

/-! ## The undo log -/

/-- What a key held before the open transaction: its prior record if it was logged. -/
def committed (s : MemoryKVStore T) (key : Text) : Option (StoredRecord T) :=
  match s.undo.bind fun undo => undo.find? fun entry => entry.key = key with
  | some entry => entry.prior
  | none => s.records.lookup key

end MemoryKVStore

end CrossByte
