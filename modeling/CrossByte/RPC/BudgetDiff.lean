import CrossByte.RPC.MapPatch

/-!
# Diffs within a budget

`RPCMapPatch.diffKeysWithin`: a diff against what one observer holds, carrying the entries
that fit a budget of bytes, in the caller's order of priority, and leaving the rest for a
later patch.

What the observer holds is a baseline: its keys, and for each key whose update was left out
a copy of the older value it still has; the rest is in the frame of values the baseline was
made against.  The copies are the baseline's own objects, kept for reuse when they are no
longer needed.  A diff (`walkStep`) finds the entries added and updated, `choose` weighs
them against the budget, and `commit` writes the baseline the observer will hold once the
patch arrives.  That may be the base itself.
-/

namespace CrossByte

open Serial (Word)
open SortedMerge (Side walk)
open RPCMapPatch

/-- A frame of values: the map object a tick's values are in. -/
structure Frame where
  id : ℕ
  values : IntMap

/-- `RPCMapBaseline`: the keys, the stale entries, the values kept for the next stale ones
(the last kept first), and the frame it was made against. -/
structure RPCMapBaseline where
  keys : List Key
  stale : List (Key × Ref)
  spare : List Ref
  frame : Option Frame

namespace RPCMapBaseline

variable {V S : Type} (codec : RPCCodec V S)

def new : RPCMapBaseline := ⟨[], [], [], none⟩

def has (b : RPCMapBaseline) (key : Key) : Bool := (RPCKeys.indexOf b.keys key).isSome

def valueIn (b : RPCMapBaseline) (key : Key) (frame : Frame) : Except Thrown (Option Ref) :=
  if b.frame.map Frame.id ≠ some frame.id then
    .error (.argumentError ("This baseline was made against another frame of values: " ++
      "give the frame of the tick it was sent at."))
  else if RPCKeys.indexOf b.keys key = none then .ok none
  else match (RPCKeys.indexOf (b.stale.map Prod.fst) key).bind (b.stale[·]?) with
    | some (_, value) => .ok (some value)
    | none => .ok (frame.values.lookup key)

def keep (b : RPCMapBaseline) (value : Ref) : RPCMapBaseline := { b with spare := value :: b.spare }

end RPCMapBaseline

/-! ## Sizes -/

namespace RPCSizes

def varUInt (v : Word) : ℕ :=
  if v.toInt < 0 then 5
  else if v.toInt < 0x80 then 1
  else if v.toInt < 0x4000 then 2
  else if v.toInt < 0x200000 then 3
  else if v.toInt < 0x10000000 then 4
  else 5

def varInt (v : Word) : ℕ := varUInt (Varint.zigzag v)

/-- The bytes of a key, the first of its group or the next after `previous`. -/
def key (previous : Option Key) (k : Key) : ℕ :=
  match previous with
  | none => varInt k.word
  | some p => varUInt (k.word - p.word - 1)

/-- `keysSize`, past a key. -/
def keysFrom (previous : Option Key) : List Key → ℕ
  | [] => 0
  | k :: keys => key previous k + keysFrom (some k) keys

/-- `keysSize`: the bytes of a group of keys. -/
def keys (list : List Key) : ℕ := keysFrom none list

end RPCSizes

/-- `RPCKeyRun`: the candidate keys of a group, ascending, and a Fenwick tree over their
ranks, from 1, of those chosen. -/
structure RPCKeyRun where
  keys : List Key
  tree : List ℕ
  top : ℕ
  chosen : ℕ

namespace RPCKeyRun

/-- The lowest bit of `i`. -/
def lowBit (i : ℕ) : ℕ := (BitVec.ofNat 32 i &&& -BitVec.ofNat 32 i).toNat

/-- The greatest power of two up to `n`, from `top`. -/
def topLoop : ℕ → ℕ → ℕ → ℕ
  | 0, _, top => top
  | fuel + 1, n, top => if top * 2 ≤ n then topLoop fuel n (top * 2) else top

def begin (keys : List Key) : RPCKeyRun where
  keys := keys
  tree := List.replicate (keys.length + 1) 0
  top := if keys.length = 0 then 0 else topLoop keys.length keys.length 1
  chosen := 0

/-- Count one more at `i` and above it. -/
def chooseLoop : ℕ → List ℕ → ℕ → List ℕ
  | 0, tree, _ => tree
  | fuel + 1, tree, i =>
    if i < tree.length then chooseLoop fuel (tree.set i (tree.getD i 0 + 1)) (i + lowBit i)
    else tree

def choose (run : RPCKeyRun) (rank : ℕ) : RPCKeyRun :=
  { run with tree := chooseLoop run.tree.length run.tree (rank + 1), chosen := run.chosen + 1 }

/-- The loop of `__below`. -/
def belowLoop (tree : List ℕ) : ℕ → ℕ → ℕ → ℕ
  | 0, sum, _ => sum
  | fuel + 1, sum, i =>
    if 0 < i then belowLoop tree fuel (sum + tree.getD i 0) (i - lowBit i) else sum

/-- `__below`: how many chosen have a rank below `rank`. -/
def below (run : RPCKeyRun) (rank : ℕ) : ℕ := belowLoop run.tree rank 0 rank

/-- The loop of `__nth`. -/
def nthLoop (tree : List ℕ) (size : ℕ) : ℕ → ℕ → ℕ → ℕ → ℕ
  | 0, _, _, i => i
  | fuel + 1, step, left, i =>
    if 0 < step then
      if i + step ≤ size ∧ tree.getD (i + step) 0 < left then
        nthLoop tree size fuel (step / 2) (left - tree.getD (i + step) 0) (i + step)
      else nthLoop tree size fuel (step / 2) left i
    else i

/-- `__nth`: the rank of the `k`-th chosen, counting from 1. -/
def nth (run : RPCKeyRun) (k : ℕ) : ℕ :=
  nthLoop run.tree run.keys.length (run.keys.length + 1) run.top k 0

/-- `cost`: what choosing the candidate of rank `rank` adds to the group's bytes. -/
def cost (run : RPCKeyRun) (rank : ℕ) : ℤ :=
  let key := run.keys.getD rank Key.zero
  let before := run.below rank
  let previous := if 0 < before then some (run.keys.getD (run.nth before) Key.zero) else none
  let size : ℤ := RPCSizes.key previous key
  let size :=
    if before < run.chosen then
      let next := run.keys.getD (run.nth (before + 1)) Key.zero
      size + (RPCSizes.key (some key) next - RPCSizes.key previous next)
    else size
  size + RPCSizes.varUInt (BitVec.ofNat 32 (run.chosen + 1)) -
    RPCSizes.varUInt (BitVec.ofNat 32 run.chosen)

end RPCKeyRun

namespace RPCBudgetDiff

variable {V S : Type} (codec : RPCCodec V S)

/-! ## The walk -/

/-- What the walk has found: the removed keys, the entries added and updated, each updated
one with where in the base's stale values its base value is, and the stale entries passed. -/
structure Walked where
  removed : List Key
  added : List SentAdd
  updated : List (SentUpdate × Option ℕ)
  stale : ℕ

/-- The value the observer holds of a key: its stale value, when the walk has come to it, or
the frame's. -/
def baseValue (baseValues : IntMap) (stale : List (Key × Ref)) (passed : ℕ) (c : Key) :
    Option (Option ℕ × Ref) :=
  match stale[passed]? with
  | some (key, value) =>
    if key = c then some (some passed, value) else (baseValues.lookup c).map (none, ·)
  | none => (baseValues.lookup c).map (none, ·)

/-- One step of the walk, against a base of these values and stale entries. -/
def walkStep (s : Store V) (baseValues : IntMap) (stale : List (Key × Ref)) (currentValues : IntMap)
    (w : Walked) : Side Key → Except Thrown Walked
  | .left c =>
    match currentValues.lookup c with
    | none => .error (.argumentError ("RPCMapPatch: key " ++ toString c.val ++
        " is in the current keys and not in the current values."))
    | some value =>
      let mask := codec.mask codec.initial (s.content value)
      let high := codec.high codec.initial (s.content value)
      .ok { w with added := w.added ++ [⟨c, value, mask, high⟩] }
  | .right o =>
    let passed := if (stale[w.stale]?).map Prod.fst = some o then w.stale + 1 else w.stale
    .ok { w with removed := w.removed ++ [o], stale := passed }
  | .both c =>
    match baseValue baseValues stale w.stale c, currentValues.lookup c with
    | some (origin, was), some value =>
      let mask := maskOf codec s was value
      let high := highOf codec s was value
      let passed := if origin.isSome then w.stale + 1 else w.stale
      if mask ≠ 0 ∨ high ≠ 0 then
        .ok { w with updated := w.updated ++ [(⟨c, was, value, mask, high⟩, origin)],
                     stale := passed }
      else .ok { w with stale := passed }
    | _, _ => .error (.argumentError ("RPCMapPatch: key " ++ toString c.val ++
        " is in a list of keys and not in its values."))

/-! ## The choice -/

/-- The flags of an entry: met in the order of priority, and carried. -/
inductive Flag where
  | unseen
  | seen
  | chosen
  deriving DecidableEq, Repr

structure Choosing where
  addFlags : List Flag
  updateFlags : List Flag
  adds : RPCKeyRun
  updates : RPCKeyRun
  left : ℤ
  filled : Bool
  deferred : List Key

/-- Set the flag of an add or an update. -/
def Choosing.setFlag (st : Choosing) (isAdd : Bool) (i : ℕ) (flag : Flag) : Choosing :=
  if isAdd then { st with addFlags := st.addFlags.set i flag }
  else { st with updateFlags := st.updateFlags.set i flag }

/-- Weigh the `i`-th add or update, of `measure` bytes past its key and at least `least`. -/
def Choosing.weigh (st : Choosing) (isAdd : Bool) (i : ℕ) (key : Key) (least measure : ℤ) :
    Choosing :=
  if (if isAdd then st.addFlags else st.updateFlags).getD i .unseen ≠ .unseen then st
  else if st.filled then
    { st.setFlag isAdd i .seen with deferred := st.deferred ++ [key] }
  else
    let run := if isAdd then st.adds else st.updates
    let keyCost := run.cost i
    let cost := if keyCost + least > st.left then st.left + 1 else keyCost + measure
    if cost ≤ st.left then
      let st := { st.setFlag isAdd i .chosen with left := st.left - cost }
      if isAdd then { st with adds := run.choose i } else { st with updates := run.choose i }
    else { st.setFlag isAdd i .seen with filled := true, deferred := st.deferred ++ [key] }

/-- Weigh the entry of a key, when it has one. -/
def Choosing.consider (s : Store V) (w : Walked) (least : ℤ) (st : Choosing) (key : Key) :
    Choosing :=
  match RPCKeys.indexOf (w.added.map SentAdd.key) key with
  | some i =>
    match w.added[i]? with
    | some e => st.weigh true i key least
        (codec.patchSize codec.initial (s.content e.value) e.mask e.high)
    | none => st
  | none =>
    match RPCKeys.indexOf (w.updated.map fun e => e.1.key) key with
    | some i =>
      match w.updated[i]? with
      | some (e, _) => st.weigh false i key least
          (codec.patchSize (s.content e.base) (s.content e.current) e.mask e.high)
      | none => st
    | none => st

/-- What is carried and what is left out, of what the walk found. -/
structure Plan where
  added : List SentAdd
  updated : List (SentUpdate × Option ℕ)
  leftAdds : List Key
  leftUpdates : List (SentUpdate × Option ℕ)
  deferred : List Key

/-- Those of a list whose flag says so. -/
def flagged {α : Type} (carried : Bool) : List α → List Flag → List α
  | [], _ => []
  | a :: as, flags =>
    let rest := flagged carried as flags.tail
    if decide (flags.headD .unseen = .chosen) = carried then a :: rest else rest

def choose (s : Store V) (w : Walked) (order : List Key) (room : ℤ) : Plan :=
  let start : Choosing :=
    { addFlags := w.added.map fun _ => .unseen
      updateFlags := w.updated.map fun _ => .unseen
      adds := .begin (w.added.map SentAdd.key)
      updates := .begin (w.updated.map fun e => e.1.key)
      left := room
      filled := false
      deferred := [] }
  let least : ℤ := ((codec.fieldCount + 7) / 8 : ℕ)
  let st := order.foldl (Choosing.consider codec s w least) start
  { added := flagged true w.added st.addFlags
    updated := flagged true w.updated st.updateFlags
    leftAdds := (flagged false w.added st.addFlags).map SentAdd.key
    leftUpdates := flagged false w.updated st.updateFlags
    deferred := st.deferred }

def carryAll (w : Walked) : Plan := ⟨w.added, w.updated, [], [], []⟩

/-- The bytes of the head's removed count and the removed keys. -/
def fixedSize (full : Bool) (w : Walked) : ℕ :=
  RPCSizes.varUInt ((BitVec.ofNat 32 w.removed.length <<< 1) ||| if full then 1 else 0) +
    RPCSizes.keys w.removed

/-- Whether everything fits, by the largest patch a value takes. -/
def fitsAll (full : Bool) (w : Walked) (maxBytes : ℤ) : Bool :=
  let candidates := w.added.length + w.updated.length
  candidates = 0 ∨ 0 ≤ codec.patchBound ∧
    (fixedSize full w + RPCSizes.varUInt (BitVec.ofNat 32 w.added.length) +
      RPCSizes.varUInt (BitVec.ofNat 32 w.updated.length) +
      RPCSizes.keys (w.added.map SentAdd.key) + RPCSizes.keys (w.updated.map fun e => e.1.key) +
      candidates * codec.patchBound : ℤ) ≤ maxBytes

/-! ## The baseline -/

/-- The view's keys without the adds left out, both ascending. -/
def keysSent : List Key → List Key → List Key
  | [], _ => []
  | cur, [] => cur
  | key :: cur, l :: leftAdds =>
    if l = key then keysSent cur leftAdds else key :: keysSent cur (l :: leftAdds)

/-- `__take`: a value no longer held, or one made. -/
def takeValue (s : Store V) : List Ref → Ref × Store V × List Ref
  | r :: spare => (r, s, spare)
  | [] => ((s.make codec.initial).1, (s.make codec.initial).2, [])

/-- The stale values of the updates left out.  In place, one that stays stale is kept where
it is; of another the base's value is copied into one taken. -/
def makeStale (inPlace : Bool) (held : List (Key × Ref)) :
    List (SentUpdate × Option ℕ) → Store V → List Ref → List (Key × Ref) × Store V × List Ref
  | [], s, spare => ([], s, spare)
  | (e, origin) :: entries, s, spare =>
    match inPlace, origin with
    | true, some h =>
      let (made, s, spare) := makeStale inPlace held entries s spare
      ((e.key, (held.getD h (e.key, e.base)).2) :: made, s, spare)
    | _, _ =>
      let (value, s, spare) := takeValue codec s spare
      let s := s.set value (codec.copy (s.content e.base) (s.content value))
      let (made, s, spare) := makeStale inPlace held entries s spare
      ((e.key, value) :: made, s, spare)

/-- The stale values the baseline held and does not keep. -/
def loose (inPlace : Bool) (held : List (Key × Ref)) (left : List (SentUpdate × Option ℕ)) :
    List Ref :=
  let kept := if inPlace then left.filterMap Prod.snd else []
  (held.zipIdx.filter fun h => h.2 ∉ kept).map fun h => h.1.2

/-- `commit`: what the observer holds once the patch arrives, into `sent`. -/
def commit (s : Store V) (inPlace : Bool) (sent : RPCMapBaseline) (cur : List Key) (plan : Plan)
    (frame : Frame) : Store V × RPCMapBaseline :=
  let spare := (loose inPlace sent.stale plan.leftUpdates).reverse ++ sent.spare
  let (stale, s, spare) := makeStale codec inPlace sent.stale plan.leftUpdates s spare
  (s, ⟨keysSent cur plan.leftAdds, stale, spare, some frame⟩)

/-- The baseline a diff writes: the base itself, or another. -/
inductive SentTo where
  | base
  | other (baseline : RPCMapBaseline)

/-- What a budgeted diff leaves: the patch, the keys it left out, the objects, and the
baseline written. -/
structure Diffed (V : Type) where
  patch : Sent
  deferred : List Key
  store : Store V
  sent : RPCMapBaseline

/-- What is carried within the budget. -/
def plan (s : Store V) (full : Bool) (w : Walked) (order : List Key) (maxBytes : ℤ) : Plan :=
  if fitsAll codec full w maxBytes then carryAll w
  else choose codec s w order (maxBytes - fixedSize full w - 2)

/-- The walk of a budgeted diff, against a base of these keys, values and stale entries. -/
def walkAll (s : Store V) (old : List Key) (baseValues : IntMap) (stale : List (Key × Ref))
    (current : IntMap) (currentKeys : List Key) : Except Thrown Walked :=
  (walk (RPCKeys.sortUnique currentKeys) old).foldlM (walkStep codec s baseValues stale current)
    ⟨[], [], [], 0⟩

/-- The diff, its arguments checked. -/
def diffChecked (s : Store V) (base : Option (RPCMapBaseline × Frame)) (current : Frame)
    (currentKeys : List Key) (maxBytes : ℤ) (inPlace : Bool) (sent : RPCMapBaseline) :
    Except Thrown (Diffed V) := do
  let w ← match base with
    | none => walkAll codec s [] ∅ [] current.values currentKeys
    | some (b, frame) => walkAll codec s b.keys frame.values b.stale current.values currentKeys
  let plan := plan codec s base.isNone w currentKeys maxBytes
  let (store, sent) := commit codec s inPlace sent (RPCKeys.sortUnique currentKeys) plan current
  pure ⟨⟨base.isNone, w.removed, plan.added, plan.updated.map Prod.fst⟩, plan.deferred, store, sent⟩

/-- `diffKeys`: `RPCMapPatch.diffKeysWithin`. -/
def diffKeys (s : Store V) (baseValues : Option Frame) (base : Option RPCMapBaseline)
    (current : Frame) (currentKeys : List Key) (maxBytes : ℤ) (sent : SentTo) :
    Except Thrown (Diffed V) :=
  match sent, base with
  | .base, none => .error (.argumentError ("RPCMapPatch.diffKeysWithin needs the baseline to " ++
      "write: what the observer holds once this patch arrives."))
  | sent, base =>
    if maxBytes < 0 then
      .error (.argumentError ("A budget cannot be negative, not " ++ toString maxBytes ++ "."))
    else
      let target := match sent, base with
        | .base, some b => b
        | .base, none => .new
        | .other b, _ => b
      match baseValues, base with
      | some frame, some b =>
        if b.frame.map Frame.id ≠ some frame.id then
          .error (.argumentError ("The base baseline was made against another frame of values: " ++
            "give the frame of the tick it was sent at."))
        else
          let inPlace := match sent with
            | .base => true
            | .other _ => false
          diffChecked codec s (some (b, frame)) current currentKeys maxBytes inPlace target
      | _, _ => diffChecked codec s none current currentKeys maxBytes
          (match sent with | .base => true | .other _ => false) target

end RPCBudgetDiff

end CrossByte
