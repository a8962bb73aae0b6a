import CrossByte.Lib.LinkedQueue
import CrossByte.Lib.Runs
import CrossByte.Lib.WrappingInt

/-!
# Room for request bodies

`crossbyte._internal.http.RequestBodyMemory` holds the request bodies of every connection of a
configuration to one limit.  A connection takes room as body arrives and gives it back later; one
that finds too little is queued, and room let go is given to the queue in order.  Each call is made
under a lock.  Telling a waiter that it has been given room is not: the call that gave it walks a
chain of those to tell after it has let go of the lock, and takes it again for each of them.

This module is the class as the code computes it.  Waiters are linked into the queue through `next`
and into a chain through `nextToTell`, and a run is a list of steps, one for each time the lock is
held, so that other calls may come between any two of them.

The waiters are any finite type `W`, the holders of room any finite type `H`.  Beside the fields of
the code the model keeps an account of what happened: whether `used` was ever clamped at zero or
taken past the limit, the order in which the waiters queued and were served, and which of them have
been told since they were last given room.
-/

namespace CrossByte

open LinkedQueue
open WrappingInt (wrap)

structure BodyRoomWaiter (W : Type) where
  want : ℤ := 0
  granted : ℤ := 0
  queued : Bool := false
  next : Option W := none
  toTell : Bool := false
  nextToTell : Option W := none
  deriving DecidableEq

namespace RequestBodyMemory

/-- What the code does not keep. -/
structure Account (W : Type) where
  /-- `used` went below zero and was set back. -/
  clamped : Bool := false
  /-- Room was taken or granted past a positive limit. -/
  pastLimit : Bool := false
  /-- When each waiter queued last, by a count of those that have. -/
  ticket : W → ℕ := fun _ => 0
  nextTicket : ℕ := 0
  /-- The tickets served, in the order they were. -/
  served : List ℕ := []
  /-- Whether a waiter has been told since it was last given room. -/
  told : W → Bool := fun _ => false

end RequestBodyMemory

/-- The fields of `RequestBodyMemory`, and the waiters. -/
structure RequestBodyMemory (W : Type) where
  limit : ℤ
  floor : ℤ
  cap : ℤ
  used : ℤ
  head : Option W
  tail : Option W
  waiters : W → BodyRoomWaiter W
  account : RequestBodyMemory.Account W

namespace RequestBodyMemory

def minGrant : ℤ := 16 * 1024

def capOf (limit floor : ℤ) : ℤ := if limit ≤ 0 then 0 else if limit > floor then limit else floor

variable {W H : Type} [Fintype W] [DecidableEq W] [DecidableEq H]

def new (W : Type) (limit floor : ℤ) : RequestBodyMemory W where
  limit := limit
  floor := floor
  cap := capOf limit floor
  used := 0
  head := none
  tail := none
  waiters := fun _ => {}
  account := {}

def modify (m : RequestBodyMemory W) (w : W) (f : BodyRoomWaiter W → BodyRoomWaiter W) :
    RequestBodyMemory W :=
  { m with waiters := Function.update m.waiters w (f (m.waiters w)) }

def next (m : RequestBodyMemory W) : W → Option W := fun w => (m.waiters w).next

def nextToTell (m : RequestBodyMemory W) : W → Option W := fun w => (m.waiters w).nextToTell

def queue (m : RequestBodyMemory W) : List W := follow m.next (Fintype.card W) m.head

def chainFrom (m : RequestBodyMemory W) (chain : Option W) : List W :=
  follow m.nextToTell (Fintype.card W) chain

/-! ## Under the lock -/

/-- What follows a waiter linked to what stands before it. -/
def linkPast (m : RequestBodyMemory W) (previous after : Option W) : RequestBodyMemory W :=
  match previous with
  | none => { m with head := after }
  | some b => m.modify b fun x => { x with next := after }

/-- A waiter out of the queue. -/
def dismissed (x : BodyRoomWaiter W) : BodyRoomWaiter W :=
  { x with next := none, queued := false, want := 0 }

/-- What `__unlink` writes once it has found what stands before the waiter. -/
def cutOut (m : RequestBodyMemory W) (w : W) (previous : Option W) : RequestBodyMemory W :=
  { m.linkPast previous (m.waiters w).next with
    tail := if m.tail = some w then previous else m.tail }.modify w dismissed

def unlink (m : RequestBodyMemory W) (w : W) : RequestBodyMemory W :=
  match walk m.next w (Fintype.card W) none m.head with
  | (_, none) => m.modify w fun x => { x with queued := false }
  | (previous, some _) => m.cutOut w previous

/-- A waiter on a chain, before `link`. -/
def onChain (link : Option W) (x : BodyRoomWaiter W) : BodyRoomWaiter W :=
  { x with toTell := true, nextToTell := link }

def offChain (x : BodyRoomWaiter W) : BodyRoomWaiter W :=
  { x with nextToTell := none, toTell := false }

/-- `__chain`: the chain after, and the waiter marked as on it. -/
def chain (m : RequestBodyMemory W) (link : Option W) (w : W) : RequestBodyMemory W × Option W :=
  if (m.waiters w).toTell then (m, link)
  else (m.modify w (onChain link), some w)

/-- Room given to the first waiter, which leaves the queue: one turn of `__serve` or `__drainAll`. -/
def grant (m : RequestBodyMemory W) (w : W) (given : ℤ) : RequestBodyMemory W :=
  let used := m.used + given
  let m := m.modify w fun x => { x with granted := wrap (x.granted + given) }
  { m with
    used
    account := { m.account with
      pastLimit := m.account.pastLimit || (decide (0 < m.cap) && decide (m.cap < used))
      served := m.account.served ++ [m.account.ticket w]
      told := Function.update m.account.told w false } }.unlink w

/-- What `__serve` waits to have free before it gives to a waiter that wants `want`. -/
def least (want : ℤ) : ℤ := if want < minGrant then want else minGrant

/-- The loop of `__serve`. -/
def serveLoop : ℕ → RequestBodyMemory W → Option W → RequestBodyMemory W × Option W
  | 0, m, link => (m, link)
  | fuel + 1, m, link =>
    match m.head with
    | none => (m, link)
    | some w =>
      let want := (m.waiters w).want
      let room := m.cap - m.used
      if room < least want then (m, link)
      else
        let given := if room < want then room else want
        let (m, link) := (m.grant w given).chain link w
        serveLoop fuel m link

/-- `__serve`: the chain of those to tell. -/
def serve (m : RequestBodyMemory W) : RequestBodyMemory W × Option W :=
  serveLoop (Fintype.card W) m none

/-- The loop of `__drainAll`. -/
def drainLoop : ℕ → RequestBodyMemory W → Option W → RequestBodyMemory W × Option W
  | 0, m, link => (m, link)
  | fuel + 1, m, link =>
    match m.head with
    | none => (m, link)
    | some w =>
      let (m, link) := (m.grant w (m.waiters w).want).chain link w
      drainLoop fuel m link

def drainAll (m : RequestBodyMemory W) : RequestBodyMemory W × Option W :=
  drainLoop (Fintype.card W) m none

/-- `used` less some bytes, and not below zero. -/
def letGo (m : RequestBodyMemory W) (bytes : ℤ) : RequestBodyMemory W :=
  if m.used - bytes < 0 then
    { m with used := 0, account := { m.account with clamped := true } }
  else { m with used := m.used - bytes }

/-- A waiter that waits for `want`, the last of its queue. -/
def waiting (want : ℤ) (x : BodyRoomWaiter W) : BodyRoomWaiter W :=
  { x with want, queued := true, next := none }

/-- A waiter linked after the last one, if there is one. -/
def linkLast (m : RequestBodyMemory W) (w : W) : RequestBodyMemory W :=
  match m.tail with
  | none => { m with head := some w, tail := some w }
  | some t => { m.modify t fun x => { x with next := some w } with tail := some w }

def enqueue (m : RequestBodyMemory W) (w : W) (want : ℤ) : RequestBodyMemory W :=
  { (m.modify w (waiting want)).linkLast w with
    account := { m.account with
      ticket := Function.update m.account.ticket w m.account.nextTicket
      nextTicket := m.account.nextTicket + 1 } }

/-- What `take` gives at once. -/
def given (m : RequestBodyMemory W) (want : ℤ) (w : W) : ℤ :=
  if 0 < m.cap then
    if m.head = none ∧ (m.waiters w).queued = false then
      let room := m.cap - m.used
      if 0 < room then if room < want then room else want else 0
    else 0
  else want

/-- `take`: what it took, and the memory after. -/
def take (m : RequestBodyMemory W) (want : ℤ) (w : W) : ℤ × RequestBodyMemory W :=
  if want ≤ 0 then (0, m)
  else
    let given := m.given want w
    let used := m.used + given
    let m := { m with
      used
      account := { m.account with
        pastLimit := m.account.pastLimit ||
          (decide (0 < given) && decide (0 < m.cap) && decide (m.cap < used)) } }
    if given < want ∧ (m.waiters w).queued = false then (given, m.enqueue w (want - given))
    else (given, m)

def charge (m : RequestBodyMemory W) (bytes : ℤ) : RequestBodyMemory W :=
  if bytes ≤ 0 then m else { m with used := m.used + bytes }

/-- `release`, up to the telling. -/
def release (m : RequestBodyMemory W) (bytes : ℤ) : RequestBodyMemory W × Option W :=
  if bytes ≤ 0 then (m, none) else (m.letGo bytes).serve

/-- A waiter that has been given nothing since it was asked. -/
def collected (x : BodyRoomWaiter W) : BodyRoomWaiter W := { x with granted := 0 }

def collect (m : RequestBodyMemory W) (w : W) : ℤ × RequestBodyMemory W :=
  ((m.waiters w).granted, m.modify w collected)

/-- `cancel`, up to the telling. -/
def cancel (m : RequestBodyMemory W) (w : W) : RequestBodyMemory W × Option W :=
  let m := if (m.waiters w).queued then m.unlink w else m
  let (given, m) := m.collect w
  let m := m.letGo given
  if 0 < given then m.serve else (m, none)

/-- `configure`, up to the telling. -/
def configure (m : RequestBodyMemory W) (limit floor : ℤ) : RequestBodyMemory W × Option W :=
  let was := m.cap
  let cap := capOf limit floor
  let m := { m with limit, floor, cap }
  if cap ≤ 0 then m.drainAll
  else if cap > was ∨ was ≤ 0 then m.serve
  else (m, none)

/-! ## The telling -/

/-- Where a call is in `__wake`. -/
inductive Phase (W : Type) where
  /-- At the head of the loop. -/
  | walking
  /-- A waiter taken off the chain, and the lock let go. -/
  | telling (w : W)
  /-- `tell` answered that its runtime has gone. -/
  | untold (w : W)
  deriving DecidableEq

/-- A call of `__wake`: what is left of its chain, and what it has collected for waiters whose
runtime has gone. -/
structure Teller (W : Type) where
  chain : Option W
  lost : ℤ := 0
  phase : Phase W := .walking
  deriving DecidableEq

/-- One more thing `__wake` does, and where it is after; `none` once it has returned.  `told` is
what `tell` answers. -/
def wake (m : RequestBodyMemory W) (t : Teller W) (told : Bool) :
    RequestBodyMemory W × Option (Teller W) :=
  match t.phase with
  | .telling w =>
    if told then
      ({ m with account := { m.account with told := Function.update m.account.told w true } },
        some { t with phase := .walking })
    else (m, some { t with phase := .untold w })
  | .untold w =>
    let (given, m) := m.collect w
    (m, some { t with lost := wrap (t.lost + given), phase := .walking })
  | .walking =>
    match t.chain with
    | some w =>
      (m.modify w offChain,
        some { t with chain := (m.waiters w).nextToTell, phase := .telling w })
    | none =>
      if 0 < t.lost then
        let (m, woken) := m.release t.lost
        (m, some { chain := woken })
      else (m, none)

/-! ## Runs -/

/-- The memory, the calls of `__wake` that have not returned, and what each holder holds. -/
structure System (W H : Type) where
  memory : RequestBodyMemory W
  tellers : List (Teller W)
  holds : H → ℤ

/-- A step: a call up to the end of its lock, or one more thing a call of `__wake` does.  The
numbers are the code's `Int`s. -/
inductive Step (W H : Type) where
  | take (holder : H) (waiter : W) (want : BitVec 32)
  | charge (holder : H) (bytes : BitVec 32)
  | release (holder : H) (bytes : BitVec 32)
  | collect (holder : H) (waiter : W)
  | cancel (waiter : W)
  | configure (limit floor : BitVec 32)
  | wake (teller : ℕ) (told : Bool)
  deriving DecidableEq

namespace System

def init (W H : Type) (limit floor : BitVec 32) : System W H where
  memory := RequestBodyMemory.new W limit.toInt floor.toInt
  tellers := []
  holds := fun _ => 0

/-- A call that ends by telling a chain. -/
def telling (s : System W H) (r : RequestBodyMemory W × Option W) : System W H :=
  { s with memory := r.1, tellers := { chain := r.2 } :: s.tellers }

/-- What a holder holds, changed. -/
def hold (s : System W H) (h : H) (bytes : ℤ) : System W H :=
  { s with holds := Function.update s.holds h (s.holds h + bytes) }

def step (s : System W H) : Step W H → System W H
  | .take h w want =>
    let r := s.memory.take want.toInt w
    { s.hold h r.1 with memory := r.2 }
  | .charge h bytes =>
    { s.hold h (max bytes.toInt 0) with memory := s.memory.charge bytes.toInt }
  | .release h bytes =>
    (s.hold h (-max bytes.toInt 0)).telling (s.memory.release bytes.toInt)
  | .collect h w =>
    let r := s.memory.collect w
    { s.hold h r.1 with memory := r.2 }
  | .cancel w => s.telling (s.memory.cancel w)
  | .configure limit floor => s.telling (s.memory.configure limit.toInt floor.toInt)
  | .wake i told =>
    match s.tellers[i]? with
    | none => s
    | some t =>
      let r := s.memory.wake t told
      { s with
        memory := r.1
        tellers := match r.2 with
          | none => s.tellers.eraseIdx i
          | some t => s.tellers.set i t }

/-- A holder releases no more than it holds. -/
def Disciplined (s : System W H) : Step W H → Prop
  | .release h bytes => bytes.toInt ≤ s.holds h
  | _ => True

instance (s : System W H) : ∀ a, Decidable (s.Disciplined a)
  | .release h bytes => inferInstanceAs (Decidable (bytes.toInt ≤ s.holds h))
  | .take .. | .charge .. | .collect .. | .cancel .. | .configure .. | .wake .. =>
    inferInstanceAs (Decidable True)

end System

end RequestBodyMemory

end CrossByte
