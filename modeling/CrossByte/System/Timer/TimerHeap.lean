import CrossByte.System.Timer.TimerQueue
import CrossByte.System.Timer.TimerWheel

/-!
# The timer heap

`crossbyte._internal.system.timer.heap.TimerHeap` as the code computes it: the timers in a
`TimerQueue`, a pass that fires them from its root, and the timers armed during a pass held
back until its end.

Times are exact numbers and `DUE_EPSILON` is zero.  The loop of `advanceBy` runs for as long as
its callbacks make it, so it is cut at each turn: `begin` is `advanceBy` up to the loop, each
`next` is one turn of the loop up to the callback, or what follows the loop once that is over, and
`returns` is what follows the callback.  In between the callback has the heap: its calls are turns
of their own, and so are the passes it runs itself, which are seen through before it returns.  The
passes under way are a stack, the innermost first.
-/

namespace CrossByte

open Serial

/-- The locals of an `advanceBy` in its loop, and the node whose callback it has called. -/
structure HeapPass where
  fired : ℤ := 0
  checkAt : Option ℤ
  maxFires : Option ℤ
  calling : Option ℕ := none

structure TimerHeap where
  book : TimerBook := {}
  queue : TimerQueue := {}
  /-- The nodes' fields `held` and `armPass`. -/
  held : ℕ → Bool := fun _ => false
  armPass : ℕ → Word := fun _ => 0
  pass : Word := 0
  deferred : List ℕ := []
  now : ℚ := 0
  cutShort : Bool := false
  passes : List HeapPass := []
  onError : Bool := false

namespace TimerHeap

def node (s : TimerHeap) (n : ℕ) : TimerNode := s.book.nodes n

def set (s : TimerHeap) (n : ℕ) (t : TimerNode) : TimerHeap := { s with book := s.book.set n t }

def note (s : TimerHeap) (e : TimerEvent) : TimerHeap := { s with book := s.book.note e }

def retire (s : TimerHeap) (n : ℕ) : TimerHeap := { s with book := s.book.retire n (s.held n) }

def recycle (s : TimerHeap) (n : ℕ) : TimerHeap := { s with book := s.book.recycle n }

def enqueue (s : TimerHeap) (n : ℕ) : TimerHeap :=
  { s with queue := s.queue.enqueue n (s.node n).time }

def update (s : TimerHeap) (n : ℕ) : TimerHeap :=
  { s with queue := s.queue.update n (s.node n).time }

def remove (s : TimerHeap) (n : ℕ) : TimerHeap := { s with queue := s.queue.remove n }

def stamp (s : TimerHeap) (n : ℕ) : TimerHeap :=
  { s with armPass := Function.update s.armPass n s.pass }

/-- `createTimer`: the handle, or none for the error of a full table. -/
def createTimer (s : TimerHeap) (time interval : ℚ) (callback : ℕ) : Option ℕ × TimerHeap :=
  match s.book.create time interval callback with
  | none => (none, s)
  | some (handle, n, book) =>
    let s := { s with
      book := book, queue := s.queue.rearm n, held := Function.update s.held n false }
    (some handle, (s.stamp n).enqueue n)

def setTimeout (s : TimerHeap) (delay : ℚ) (callback : ℕ) : Option ℕ × TimerHeap :=
  s.createTimer (s.now + checkDelay delay) 0 callback

/-- An interval that is not above zero is refused by `checkInterval`. -/
def setInterval (s : TimerHeap) (delay interval : ℚ) (callback : ℕ) : Option ℕ × TimerHeap :=
  if 0 < interval then s.createTimer (s.now + checkDelay delay) interval callback else (none, s)

def nextDue (s : TimerHeap) : Option ℚ := s.queue.peek.map fun n => (s.node n).time

def clear (s : TimerHeap) (handle : ℕ) (immediate : Bool) : Bool × TimerHeap :=
  match s.book.table handle with
  | none => (false, s)
  | some n =>
    let s := s.note (.cleared handle immediate)
    if immediate then (true, (s.remove n).retire n)
    else if (s.node n).isPaused then (true, s.retire n)
    else (true, s.set n { s.node n with enabled := false })

/-- The part of `reschedule` and `delay` after the time is set. -/
def moved (s : TimerHeap) (handle n : ℕ) (time : ℚ) : TimerHeap :=
  let t := s.node n
  let s := s.note (.moved handle t.firing t.isPaused)
  if t.firing then s.set n { t with time := time, rearmed := true }
  else (s.set n { t with time := time }).update n

def reschedule (s : TimerHeap) (handle : ℕ) (time : ℚ) : Bool × TimerHeap :=
  match s.book.table handle with
  | none => (false, s)
  | some n => (true, (s.stamp n).moved handle n time)

/-- `delay` does not stamp the node. -/
def delay (s : TimerHeap) (handle : ℕ) (dt : ℚ) : Bool × TimerHeap :=
  match s.book.table handle with
  | none => (false, s)
  | some n => if dt < 0 then (false, s) else (true, s.moved handle n ((s.node n).time + dt))

def setEnabledBy (s : TimerHeap) (handle : ℕ) (enabled : Bool) (policy : ResumePolicy)
    (time : ℚ) : Bool × TimerHeap :=
  match s.book.table handle with
  | none => (false, s)
  | some n =>
    let t := s.node n
    if t.enabled = enabled then (true, s)
    else
      let at' := if time ≠ 0 then time else s.now
      if !enabled then
        let s := s.note (.paused handle t.firing t.rearmed)
        (true, (s.set n { t with enabled := false, pausedAt := some at' }).remove n)
      else
        let s := (s.note (.resumed handle t.isPaused (s.held n))).stamp n
        if t.firing then (true, s.set n { t.resume policy at' with rearmed := true })
        else (true, (s.set n (t.resume policy at')).enqueue n)

def perform (s : TimerHeap) : TimerCall → TimerHeap
  | .setTimeout delay callback => (s.setTimeout delay callback).2
  | .setInterval delay interval callback => (s.setInterval delay interval callback).2
  | .clear handle immediate => (s.clear handle immediate).2
  | .reschedule handle time => (s.reschedule handle time).2
  | .delay handle dt => (s.delay handle dt).2
  | .setEnabled handle enabled policy time => (s.setEnabledBy handle enabled policy time).2

/-! ## A pass -/

/-- One node of `__readmit`. -/
def readmitNode (s : TimerHeap) (n : ℕ) : TimerHeap :=
  let s := { s with held := Function.update s.held n false }
  let t := s.node n
  if t.handle = none then s.recycle n
  else if s.queue.heapIndex n = none && !t.firing && !t.isPaused then
    if t.enabled then s.enqueue n else s.retire n
  else s

/-- `__readmit`. -/
def readmitAll (s : TimerHeap) : TimerHeap :=
  { s.deferred.foldl readmitNode s with deferred := [] }

def settle (s : TimerHeap) (n : ℕ) : TimerHeap :=
  let t := s.node n
  match t.handle with
  | none => s.recycle n
  | some handle =>
    let s := s.note (.returned handle)
    if t.rearmed then s.enqueue n
    else if t.enabled && decide (0 < t.interval) then
      (s.set n { t with time := t.time + t.interval }).enqueue n
    else if t.enabled || !t.isPaused then s.retire n
    else s

/-- The node's callback is about to be called. -/
def startFiring (s : TimerHeap) (n : ℕ) : TimerHeap :=
  let t := s.node n
  (s.note (.ran t.handle t.callback (s.held n))).set n { t with firing := true, rearmed := false }

/-- A node the pass finds due but armed in it is held back. -/
def defer (s : TimerHeap) (n : ℕ) : TimerHeap :=
  if s.held n then s
  else { s with held := Function.update s.held n true, deferred := s.deferred ++ [n] }

/-- The innermost pass is over, and `rest` go on. -/
def finish (s : TimerHeap) (rest : List HeapPass) : TimerHeap :=
  { (if s.deferred = [] then s else s.readmitAll) with passes := rest }

/-- What the loop does with the node it took off the queue, up to the callback. -/
def turn (s : TimerHeap) (p : HeapPass) (rest : List HeapPass) (n : ℕ) : TimerHeap :=
  if !(s.node n).enabled then { s.retire n with passes := p :: rest }
  else if s.armPass n = s.pass then { s.defer n with passes := p :: rest }
  else { s.startFiring n with passes := { p with calling := some n } :: rest }

/-- One turn of the loop of `advanceBy`, or the end of it. -/
def next (s : TimerHeap) (p : HeapPass) (rest : List HeapPass) (late : Bool) : TimerHeap :=
  match s.queue.peek with
  | none => s.finish rest
  | some n =>
    if s.now < (s.node n).time then s.finish rest
    else if limitReached p.checkAt p.fired then
      if limitReached p.maxFires p.fired || late then { s with cutShort := true }.finish rest
      else
        { s with queue := s.queue.dequeue }.turn
          { p with checkAt := checkNext p.maxFires p.fired } rest n
    else { s with queue := s.queue.dequeue }.turn p rest n

/-- The callback of `n` is back, and its timer is settled. -/
def settled (s : TimerHeap) (p : HeapPass) (rest : List HeapPass) (n : ℕ) : TimerHeap :=
  { s.set n { s.node n with firing := false } with
    passes := { p with fired := p.fired + 1, calling := none } :: rest }.settle n

/-- `__fail` leaves the pass if there is no `onError`. -/
def returns (s : TimerHeap) (p : HeapPass) (rest : List HeapPass) (n : ℕ) (throws : Bool) :
    TimerHeap :=
  let s := s.settled p rest n
  if throws && !s.onError then { s.readmitAll with passes := rest } else s

/-- `advanceBy` up to its loop. -/
def begin (s : TimerHeap) (dt : ℚ) (maxFires : Option ℤ) (budget : Bool) : TimerHeap :=
  { s with
    now := s.now + dt
    pass := s.pass + 1
    cutShort := false
    passes :=
      if s.queue.length = 0 then s.passes
      else
        { checkAt := if budget then checkNext maxFires 0 else maxFires, maxFires := maxFires } ::
          s.passes }

/-- The nodes whose callbacks are running, the innermost first. -/
def running (s : TimerHeap) : List ℕ := s.passes.filterMap (·.calling)

/-- Whether the owner or a callback has the heap, and not a pass. -/
def free (s : TimerHeap) : Bool := s.passes.head?.all (·.calling.isSome)

/-- One turn.  What cannot happen when it is told, such as a call while a pass has the heap,
does nothing. -/
def step (s : TimerHeap) : PassTurn → TimerHeap
  | .call c => if s.free then s.perform c else s
  | .begin dt maxFires budget => if s.free then s.begin dt maxFires budget else s
  | .next late =>
    match s.passes with
    | [] => s
    | p :: rest => if p.calling = none then s.next p rest late else s
  | .returns throws =>
    match s.passes with
    | [] => s
    | p :: rest =>
      match p.calling with
      | none => s
      | some n => s.returns p rest n throws
  | .onError handler => { s with onError := handler }

def run (turns : List PassTurn) : TimerHeap := Runs.run step {} turns

end TimerHeap

end CrossByte
