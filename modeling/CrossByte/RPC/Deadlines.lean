import CrossByte.Lib.Serial
import CrossByte.Lib.Runs
import CrossByte.Lib.SlotHeap

/-!
# The deadlines of a session's calls

`crossbyte.rpc._internal.RPCDeadlines` keeps the deadlines of a session's calls in
a binary heap, with one timer set for the first of them.  A call in the heap
records its place there in its own `__deadline`, and follows every move of it.

This module is the class as the code computes it, together with the three places
of `RPCResponse` that use it (`__arm`, `__disarm`, and the handlers that run while
`__fired` is in its loop).  What the environment decides is in the input of a
step: the time, which call is armed or answered, whether the scheduler has a timer
left to give, and what a handler does.  The loop of `__fired` is cut at the point
where it hands a call to its handlers, so a handler is any sequence of steps
between two turns of the loop.

Times are of any linear order; `Clock` gives the two sums the code computes with
them.  A trace beside the fields records which entry was added, expired, or let
go, in order; no decision reads it.
-/

namespace CrossByte

open Serial SlotHeap

namespace RPCDeadlines

/-- The two sums of times in the code. -/
structure Clock (τ : Type*) where
  /-- `now + milliseconds / 1000`. -/
  after : τ → ℤ → τ
  /-- `now + DUE_EPSILON`. -/
  slack : τ → τ

/-- Seconds as a whole number of nanoseconds, of which `DUE_EPSILON` is one. -/
def nanoseconds : Clock ℤ := ⟨fun now milliseconds => now + milliseconds * 1000000, (· + 1)⟩

/-- One place of the arrays `__calls`, `__due`, `__milliseconds` and `__order`. -/
structure Entry (τ : Type*) where
  call : ℕ
  due : τ
  milliseconds : ℤ
  order : Word
  /-- Which addition this was; the code has it modulo `2 ^ 32`, in `order`. -/
  serial : ℕ
  deriving DecidableEq

/-- The arrays, and the `__deadline` of every call. -/
structure Table (τ : Type*) where
  slots : ℕ → Entry τ
  deadline : ℕ → ℤ

/-- What happened: entries added, entries expired (each with how many had been added by
then), and entries that left or were cleared. -/
structure Trace (τ : Type*) where
  added : List (Entry τ)
  expired : List (Entry τ × ℕ)
  left : List (Entry τ)

end RPCDeadlines

open RPCDeadlines

/-- The fields of `RPCDeadlines`.  `firing` is `__firing` with the local `now` of the
`__fired` in progress, and `failure` its first caught error. -/
structure RPCDeadlines (τ : Type*) where
  capacity : ℕ
  table : Table τ
  added : Word
  count : ℕ
  /-- `__timer` is not `INVALID`. -/
  timer : Bool
  /-- The scheduler has the timer, and runs `__fired` when its time comes. -/
  live : Bool
  timerDue : τ
  firing : Option τ
  failure : Option String
  trace : Trace τ

namespace RPCDeadlines

variable {τ : Type*}

/-- `TimerHandle.INVALID`. -/
def invalid : ℤ := -1

/-- `INITIAL`. -/
def initialCapacity : ℕ := 16

def keep : ℕ := 65536

def deadlineOf (place : ℕ) : ℤ := -2 - place

def isPlace (deadline : ℤ) : Bool := deadline < -1

namespace Table

/-- `response.__deadline = deadline`. -/
def setDeadline (t : Table τ) (call : ℕ) (deadline : ℤ) : Table τ :=
  { t with deadline := Function.update t.deadline call deadline }

def put (t : Table τ) (place : ℕ) (e : Entry τ) : Table τ :=
  { slots := Function.update t.slots place e
    deadline := Function.update t.deadline e.call (deadlineOf place) }

/-- The arrays as the slots of a heap; a write records the place in the call. -/
def store : Slots (Table τ) (Entry τ) where
  get t i := t.slots i
  put := put
  get_put _ _ _ _ := Function.update_apply ..

variable [LinearOrder τ]

/-- `__sooner`, and `__before` of two places: due sooner, or as soon and added first. -/
def sooner (e f : Entry τ) : Bool := e.due < f.due ∨ e.due = f.due ∧ ahead e.order f.order < 0

def up (t : Table τ) (place : ℕ) : Table τ :=
  siftUp store sooner place t place (t.slots place)

/-- `__down`, among `count` places. -/
def down (t : Table τ) (count place : ℕ) : Table τ :=
  siftDown store sooner count count t place (t.slots place)

/-- `__removeAt`, with `last` the count it leaves. -/
def removeAt (t : Table τ) (last place : ℕ) : Table τ :=
  if place ≠ last then
    let t := t.put place (t.slots last)
    if 0 < place ∧ sooner (t.slots place) (t.slots (parent place)) = true then t.up place
    else t.down last place
  else t

end Table

/-- `new`. -/
def init [Inhabited τ] : RPCDeadlines τ where
  capacity := initialCapacity
  table := ⟨fun _ => ⟨0, default, 0, 0, 0⟩, fun _ => invalid⟩
  added := 0
  count := 0
  timer := false
  live := false
  timerDue := default
  firing := none
  failure := none
  trace := ⟨[], [], []⟩

def shrink (s : RPCDeadlines τ) : RPCDeadlines τ :=
  if s.count = 0 ∧ s.capacity > keep then { s with capacity := initialCapacity } else s

/-- `__arm`: the timer there was is cleared, and the scheduler gives another (`given`), or throws
with `MAX_TIMERS` of them in use, and then `__timer` is what it was. -/
def arm (s : RPCDeadlines τ) (due : τ) (given : Bool) : RPCDeadlines τ :=
  { s with timer := s.timer || given, live := given, timerDue := due }

variable [LinearOrder τ] (clock : Clock τ)

def add (s : RPCDeadlines τ) (call : ℕ) (milliseconds : ℤ) (now : τ) (given : Bool) :
    RPCDeadlines τ :=
  let due := clock.after now milliseconds
  let e : Entry τ := ⟨call, due, milliseconds, s.added, s.trace.added.length⟩
  let s' : RPCDeadlines τ :=
    { s with
      -- `__grow` doubles the arrays
      capacity := if s.count = s.capacity then s.capacity * 2 else s.capacity
      table := (s.table.put s.count e).up s.count
      count := s.count + 1
      added := s.added + 1
      trace := { s.trace with added := s.trace.added ++ [e] } }
  if s.firing = none ∧ (s.timer = false ∨ due < s.timerDue) then s'.arm due given else s'

/-- `__removeAt`, and the trace of an entry that left. -/
def removeAt (s : RPCDeadlines τ) (place : ℕ) : RPCDeadlines τ :=
  { s with
    table := s.table.removeAt (s.count - 1) place
    count := s.count - 1 }

/-- `leave`, of a `deadline` that is a place. -/
def leave (s : RPCDeadlines τ) (call : ℕ) (deadline : ℤ) : RPCDeadlines τ :=
  let place := (-2 - deadline).toNat
  if place ≥ s.count ∨ (s.table.slots place).call ≠ call then s
  else
    let s' := s.removeAt place
    shrink { s' with trace := { s'.trace with left := s'.trace.left ++ [s.table.slots place] } }

/-- The loop of `clear` over the places from `place` on: a call that records its place here
records none. -/
def clearFrom (t : Table τ) (place : ℕ) : ℕ → Table τ
  | 0 => t
  | n + 1 =>
    let call := (t.slots place).call
    clearFrom (if t.deadline call = deadlineOf place then t.setDeadline call invalid else t)
      (place + 1) n

def clear (s : RPCDeadlines τ) : RPCDeadlines τ :=
  shrink
    { s with
      table := clearFrom s.table 0 s.count
      count := 0
      timer := false
      live := false
      trace := { s.trace with
        left := s.trace.left ++ (List.range s.count).map s.table.slots } }

/-- `RPCResponse.__disarm`.  `__leaveQueue` leaves the heap of the session that the call's commands
are bound to now, which is the one of this heap (`bound`), another, or none. -/
def disarm (s : RPCDeadlines τ) (call : ℕ) (bound : Bool) : RPCDeadlines τ :=
  let deadline := s.table.deadline call
  if deadline = invalid then s
  else
    let s := { s with table := s.table.setDeadline call invalid }
    if isPlace deadline ∧ bound then s.leave call deadline else s

/-- `RPCResponse.__arm`, of a call not completed whose commands are bound to this session. -/
def armCall (s : RPCDeadlines τ) (call : ℕ) (milliseconds : ℤ) (now : τ) (given : Bool) :
    RPCDeadlines τ :=
  let s := s.disarm call true
  if milliseconds ≤ 0 then s else s.add clock call milliseconds now given

/-! ## The steps -/

/-- The loop of `__fired` goes round again: the first call is due. -/
def Due (s : RPCDeadlines τ) (now : τ) : Prop :=
  0 < s.count ∧ (s.table.slots 0).due ≤ clock.slack now

instance (s : RPCDeadlines τ) (now : τ) : Decidable (s.Due clock now) :=
  inferInstanceAs (Decidable (_ ∧ _))

/-- What can happen next.  Between `fire` and `finish` the first five are what handlers do. -/
inductive Step (τ : Type*) where
  /-- A call is given a deadline, a new one or another than it had. -/
  | arm (call : ℕ) (milliseconds : ℤ) (now : τ) (given : Bool)
  /-- A call is answered or failed, its commands bound to this session or not. -/
  | answer (call : ℕ) (bound : Bool)
  /-- `leave`, by a call that may be in another session's heap. -/
  | leave (call : ℕ) (deadline : ℤ)
  | clear
  /-- A handler of the call just expired throws. -/
  | throws (error : String)
  /-- The timer calls `__fired`. -/
  | fire (now : τ)
  /-- A turn of the loop of `__fired`, up to the handlers of the call it expires. -/
  | expire
  /-- The end of `__fired`. -/
  | finish (given : Bool)

/-- Where the code can take the step. -/
def Enabled (s : RPCDeadlines τ) : Step τ → Prop
  | .arm _ _ _ _ => True
  | .answer _ _ => True
  | .leave _ deadline => isPlace deadline = true
  | .clear => True
  | .throws _ => s.firing ≠ none
  | .fire _ => s.live = true
  | .expire => ∃ now ∈ s.firing, s.Due clock now
  | .finish _ => ∃ now ∈ s.firing, ¬ s.Due clock now

/-- A turn of the loop of `__fired`. -/
def expire (s : RPCDeadlines τ) : RPCDeadlines τ :=
  let e := s.table.slots 0
  let s' := s.removeAt 0
  { s' with
    table := s'.table.setDeadline e.call invalid
    trace := { s'.trace with expired := s'.trace.expired ++ [(e, s'.trace.added.length)] } }

/-- What `__fired` does after its loop. -/
def finish (s : RPCDeadlines τ) (given : Bool) : RPCDeadlines τ :=
  let s := { s with firing := none }
  if 0 < s.count ∧ s.timer = false then s.arm (s.table.slots 0).due given
  else s.shrink

def step (s : RPCDeadlines τ) : Step τ → RPCDeadlines τ
  | .arm call milliseconds now given => s.armCall clock call milliseconds now given
  | .answer call bound => s.disarm call bound
  | .leave call deadline => s.leave call deadline
  | .clear => s.clear
  | .throws error => { s with failure := s.failure.or (some error) }
  | .fire now => { s with timer := false, live := false, firing := some now, failure := none }
  | .expire => s.expire
  | .finish given => s.finish given

end RPCDeadlines
end CrossByte
