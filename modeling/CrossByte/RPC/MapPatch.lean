import CrossByte.Lib.SortedMerge
import CrossByte.RPC.Codec

/-!
# Map patches

`RPCMapPatch`: the difference from one map of values to another, as it is found, written,
read and applied.

A diff walks the two maps' keys together and sorts them into three groups: those only the
base has (removed), those only the current map has (added), and those both have whose
values differ (updated).  It holds the values it found by reference, with their masks; the
patch is written later, from what those values hold then.

A patch that arrived is applied onto its base in place, or onto another map, whose values
are patched where they are.  Values dropped may be kept to be taken again.
-/

namespace CrossByte

open Bytes (Byte)
open Serial (Word)
open Parse
open SortedMerge (Side walk)

namespace RPCMapPatch

variable {V S : Type}

/-! ## Diff -/

/-- An added entry of a patch being sent. -/
structure SentAdd where
  key : Key
  value : Ref
  mask : Word
  high : Word
  deriving DecidableEq, Repr

/-- An updated entry of a patch being sent. -/
structure SentUpdate where
  key : Key
  base : Ref
  current : Ref
  mask : Word
  high : Word
  deriving DecidableEq, Repr

/-- A patch being sent: what a diff found. -/
structure Sent where
  isFull : Bool
  removed : List Key
  added : List SentAdd
  updated : List SentUpdate
  deriving DecidableEq, Repr

variable (codec : RPCCodec V S)

/-- The masks between two objects: none of an object and itself. -/
def maskOf (s : Store V) (was value : Ref) : Word :=
  if was = value then 0 else codec.mask (s.content was) (s.content value)

/-- And the high masks. -/
def highOf (s : Store V) (was value : Ref) : Word :=
  if was = value then 0 else codec.high (s.content was) (s.content value)

def diffStep (s : Store V) (baseValues currentValues : IntMap) (patch : Sent) :
    Side Key → Except Thrown Sent
  | .left c =>
    match currentValues.lookup c with
    | none => .error (.argumentError ("RPCMapPatch: key " ++ toString c.val ++
        " is in the current keys and not in the current values."))
    | some value =>
      let mask := codec.mask codec.initial (s.content value)
      let high := codec.high codec.initial (s.content value)
      .ok { patch with added := patch.added ++ [⟨c, value, mask, high⟩] }
  | .right o => .ok { patch with removed := patch.removed ++ [o] }
  | .both c =>
    match baseValues.lookup c, currentValues.lookup c with
    | some was, some value =>
      let mask := maskOf codec s was value
      let high := highOf codec s was value
      if mask ≠ 0 ∨ high ≠ 0 then
        .ok { patch with updated := patch.updated ++ [⟨c, was, value, mask, high⟩] }
      else .ok patch
    | _, _ => .error (.argumentError ("RPCMapPatch: key " ++ toString c.val ++
        " is in a list of keys and not in its values."))

/-- `diffKeys`: the keys of `base` (`none` for a null base) against the current ones. -/
def diffKeys (s : Store V) (base : Option (IntMap × List Key)) (currentValues : IntMap)
    (currentKeys : List Key) : Except Thrown Sent :=
  let cur := RPCKeys.sortUnique currentKeys
  let old := match base with
    | none => []
    | some (_, keys) => RPCKeys.sortUnique keys
  let baseValues := match base with
    | none => ∅
    | some (values, _) => values
  (walk cur old).foldlM (diffStep codec s baseValues currentValues) ⟨base.isNone, [], [], []⟩

def diff (s : Store V) (base : Option IntMap) (current : IntMap) : Except Thrown Sent :=
  diffKeys codec s (base.map fun m => (m, m.keys)) current current.keys

/-! ## Writing and reading -/

/-- The bytes of an added entry's value: its patch from a value as made. -/
def addedPatch (s : Store V) (e : SentAdd) : List Byte :=
  codec.writePatch codec.initial (s.content e.value) e.mask e.high

/-- The bytes of an updated entry's value: its patch from the base's. -/
def updatedPatch (s : Store V) (e : SentUpdate) : List Byte :=
  codec.writePatch (s.content e.base) (s.content e.current) e.mask e.high

/-- `writeMapPatchArg`: the counts, the removed keys, and each entry after its key. -/
def writeMapPatchArg (s : Store V) (patch : Sent) : List Byte :=
  Varint.put ((BitVec.ofNat 32 patch.removed.length <<< 1) ||| if patch.isFull then 1 else 0) ++
  (Varint.put (BitVec.ofNat 32 patch.added.length) ++
  (Varint.put (BitVec.ofNat 32 patch.updated.length) ++
  (RPCKeys.putKeys patch.removed ++
  (RPCKeys.putGroup SentAdd.key (addedPatch codec s) true Key.zero patch.added ++
  RPCKeys.putGroup SentUpdate.key (updatedPatch codec s) true Key.zero patch.updated))))

/-- A patch that arrived: each added key with its value, and each updated one with its
state, and what is left of the pools they were read into. -/
structure Received (V S : Type) where
  isFull : Bool
  removed : List Key
  added : List (Key × V)
  updated : List (Key × S)
  addedState : S
  valuePool : List V
  statePool : List S

/-- Read an added entry's patch, and apply it to the pool's next value. -/
def readAdded : S × List V → Parser Thrown (V × (S × List V)) := fun (state, pool) => do
  let state ← codec.readPatch state
  pure (codec.apply state none (pool.headD codec.initial), (state, pool.tail))

/-- Read an updated entry's patch into the pool's next state. -/
def readUpdated : List S → Parser Thrown (S × List S) := fun pool => do
  let state ← codec.readPatch (pool.headD codec.newState)
  pure (state, pool.tail)

/-- `readMapPatchArg`: read a patch into one read before. -/
def readMapPatchArg (patch : Received V S) : Parser Thrown (Received V S) := do
  let head ← ByteArrayInput.readVarUInt
  let added ← ByteArrayInput.readVarUInt
  let updated ← ByteArrayInput.readVarUInt
  let removedCount := head >>> 1
  let full := head &&& 1 ≠ 0
  if added.toInt < 0 ∨ updated.toInt < 0 ∨ full ∧ (removedCount ≠ 0 ∨ updated ≠ 0) then
    fail (.text "RPC map patch counts do not read")
  else
    let left ← remaining
    if removedCount.toNat + 2 * added.toNat + 2 * updated.toNat > left then
      fail (.text "RPC frame names more than it holds")
    else
      let removed ← RPCKeys.getKeys removedCount.toNat
      let (addedEntries, (addedState, valuePool)) ← RPCKeys.getGroup (readAdded codec) added.toNat
        true Key.zero (patch.addedState, patch.added.map Prod.snd ++ patch.valuePool)
      let (updatedEntries, statePool) ← RPCKeys.getGroup (readUpdated codec) updated.toNat
        true Key.zero (patch.updated.map Prod.snd ++ patch.statePool)
      pure ⟨full, removed, addedEntries, updatedEntries, addedState, valuePool, statePool⟩

def read (patch : Received V S) (input : List Byte) : Except Thrown (Received V S × List Byte) :=
  (readMapPatchArg codec patch).run input

/-! ## Applying -/

/-- What an apply works on: the objects, the map it sets, and the values kept to be taken. -/
structure Applying (V : Type) where
  store : Store V
  into : IntMap
  spare : List Ref

/-- The error of a base that is not the sender's. -/
def missing (key : Key) (what : String) : Thrown :=
  .argumentError ("This map patch " ++ what ++ " key " ++ toString key.val ++
    ", which its base does not hold: the base is not the one the sender used.")

namespace Applying

def keep (st : Applying V) (r : Ref) : Applying V := { st with spare := r :: st.spare }

def take (st : Applying V) : Ref × Applying V :=
  match st.spare with
  | r :: spare => (r, { st with spare })
  | [] => ((st.store.make codec.initial).1, { st with store := (st.store.make codec.initial).2 })

/-- Write `target` and put it under `key`. -/
def put (st : Applying V) (key : Key) (target : Ref) (v : V) : Applying V :=
  { st with store := st.store.set target v, into := st.into.insert key target }

/-- Set the value under `key`, in the object it has or in one taken for it. -/
def setAt (st : Applying V) (key : Key) (value : Store V → Ref → Except Thrown V) :
    Except Thrown (Applying V) :=
  match st.into.lookup key with
  | some target => do
    let v ← value st.store target
    pure { st with store := st.store.set target v }
  | none =>
    let (target, st) := st.take codec
    do
      let v ← value st.store target
      pure (st.put key target v)

/-- Drop `key` from the map. -/
def drop (st : Applying V) (key : Key) (value : Ref) (recycle : Bool) : Applying V :=
  let st := { st with into := st.into.erase key }
  if recycle then st.keep value else st

def removeKey (recycle : Bool) (st : Applying V) (key : Key) : Except Thrown (Applying V) :=
  match st.into.lookup key with
  | none => .error (missing key "removes")
  | some value => .ok (st.drop key value recycle)

def updateKey (st : Applying V) (entry : Key × S) : Except Thrown (Applying V) :=
  match st.into.lookup entry.1 with
  | none => .error (missing entry.1 "updates")
  | some target =>
    let v := st.store.content target
    .ok { st with store := st.store.set target (codec.apply entry.2 (some v) v) }

def addKey (st : Applying V) (entry : Key × V) : Except Thrown (Applying V) :=
  st.setAt codec entry.1 fun s target => .ok (codec.copy entry.2 (s.content target))

def applyInPlace (patch : Received V S) (recycle : Bool) (st : Applying V) :
    Except Thrown (Applying V) := do
  let st ← patch.removed.foldlM (removeKey recycle) st
  let st ← patch.updated.foldlM (updateKey codec) st
  patch.added.foldlM (addKey codec) st

end Applying

/-- The base's keys without the removed ones, both ascending. -/
def keptKeys : List Key → List Key → Except Thrown (List Key)
  | [], [] => .ok []
  | [], r :: _ => .error (missing r "removes")
  | key :: keys, [] => do
    let kept ← keptKeys keys []
    pure (key :: kept)
  | key :: keys, r :: removed =>
    if r < key then .error (missing r "removes")
    else if r = key then keptKeys keys removed
    else do
      let kept ← keptKeys keys (r :: removed)
      pure (key :: kept)

/-- A base of these keys has every key the patch updates. -/
def requireUpdated (kept : List Key) : List (Key × S) → Except Thrown Unit
  | [] => .ok ()
  | (key, _) :: updated =>
    if RPCKeys.indexOf kept key = none then .error (missing key "updates")
    else requireUpdated kept updated

/-- `__resultKeys`: the keys of the map the patch makes from a base of `baseKeys`. -/
def resultKeys (patch : Received V S) (baseKeys : Option (List Key)) : Except Thrown (List Key) := do
  let kept ← match baseKeys with
    | none => pure []
    | some keys => do
      let kept ← keptKeys keys patch.removed
      requireUpdated kept patch.updated
      pure kept
  pure ((walk kept (patch.added.map Prod.fst)).map Side.element)

namespace Applying

/-- Drop `key` when the new map does not have it. -/
def dropUnlisted (result : List Key) (recycle : Bool) (st : Applying V) (key : Key) : Applying V :=
  if RPCKeys.indexOf result key = none then
    match st.into.lookup key with
    | none => st
    | some value => st.drop key value recycle
  else st

/-- The value the patch makes for `key`, of the base's, onto `target`. -/
def valueFor (patch : Received V S) (base : Option IntMap) (key : Key) (s : Store V)
    (target : Ref) : Except Thrown V :=
  match (RPCKeys.indexOf (patch.updated.map Prod.fst) key).bind (patch.updated[·]?) with
  | some (_, state) =>
    match base with
    | none => .error .nullAccess
    | some base => .ok (codec.apply state ((base.lookup key).map s.content) (s.content target))
  | none =>
    match (RPCKeys.indexOf (patch.added.map Prod.fst) key).bind (patch.added[·]?) with
    | some (_, value) => .ok (codec.copy value (s.content target))
    | none =>
      match base.bind (·.lookup key) with
      | none => .error .nullAccess
      | some was =>
        if was ≠ target then .ok (codec.copy (s.content was) (s.content target))
        else .ok (s.content target)

/-- `__applyKeys`: `into` becomes `base` patched. -/
def applyKeys (patch : Received V S) (base : Option IntMap) (baseKeys intoKeys : List Key)
    (recycle : Bool) (st : Applying V) : Except Thrown (Applying V) := do
  let result ← resultKeys patch (base.map fun _ => baseKeys)
  let st := intoKeys.foldl (dropUnlisted result recycle) st
  result.foldlM (fun st key => st.setAt codec key (valueFor codec patch base key)) st

end Applying

/-- The map an apply sets: the base itself, or another. -/
inductive Target where
  | base
  | other (map : IntMap)

/-- `apply`, with the objects and the spare values as they are. -/
def apply (patch : Received V S) (store : Store V) (spare : List Ref) (base : Option IntMap)
    (target : Target) (recycle : Bool) : Except Thrown (Applying V) :=
  match target, base with
  | .base, none => .error (.argumentError
      "RPCMapPatch.apply needs a map to set: the base to patch in place, or another.")
  | .base, some map =>
    if patch.isFull then Applying.applyKeys codec patch none [] map.keys recycle ⟨store, map, spare⟩
    else Applying.applyInPlace codec patch recycle ⟨store, map, spare⟩
  | .other into, base =>
    if patch.isFull then
      Applying.applyKeys codec patch none [] into.keys recycle ⟨store, into, spare⟩
    else match base with
      | none => .error (.argumentError
          "This map patch is against a base, and none was given: keep the map it names, or wait for a full one.")
      | some map => Applying.applyKeys codec patch (some map) (RPCKeys.sortUnique map.keys)
          into.keys recycle ⟨store, into, spare⟩

end RPCMapPatch

end CrossByte
