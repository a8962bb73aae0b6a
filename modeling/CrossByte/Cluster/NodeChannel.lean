import CrossByte.Lib.Runs
import CrossByte.Lib.WrappingInt
import CrossByte.Net.FrameCodec

/-!
# NodeChannel

The channel of `crossbyte/cluster/NodeChannel.hx`: messages to another node over one
link after another.  While the link is up a message is written to its socket, and
either flushed at once or kept for the end of the runtime's pass; while it is down a
message waits in a queue.  When a link fails, what the pass wrote goes back to the
queue.

A message is told apart from another with the same bytes by its number.  The socket is
what was written to it and not sent, and `wire` is all that was sent, on which link.  A
socket that is closed while it is connected sends what it holds first, unless it is
told to discard it, and announces its close, which the channel hears before `close`
returns.  One that a failed write leaves unconnected sends nothing any more.

The callbacks may call `send` and `close`.  A function that calls one is cut there:
what it does afterwards is a `Frame` on a stack, and runs when the callback returns.
Between the two anything that a callback may do can happen, and so can callbacks of
its own.  The runtime's own calls come when no callback is running.

`log` is the callbacks, and the return of the `close` that closed the channel.
-/

namespace CrossByte

namespace Cluster

open Bytes
open WrappingInt (wrap)

/-- A message handed to `send`. -/
structure Message where
  id : ℕ
  payload : List Byte
  deriving DecidableEq

/-- What `__write` gives to the socket: a message's length, and then its bytes. -/
inductive Piece
  | header (m : Message)
  | body (m : Message)
  deriving DecidableEq

/-- The two writes of a message; an empty one has no bytes to write. -/
def Message.pieces (m : Message) : List Piece :=
  if m.payload = [] then [.header m] else [.header m, .body m]

/-- How a write goes: kept for the pass or flushed, or a throw of the first write, of the second, or
of the flush, which leaves the socket connected or not. -/
inductive Outcome
  | held
  | flushed
  | throwsHeader (connected : Bool)
  | throwsBody (connected : Bool)
  | throwsFlush (connected : Bool)
  deriving DecidableEq

/-- What a function does after the callback it has made. -/
inductive Frame
  /-- `__scheduleRetry`, after `onDown`. -/
  | retry (requeued : Bool)
  /-- `close`, after `onDown`. -/
  | close
  /-- `__enforceQueueLimit`, after `onDown`. -/
  | limit
  /-- `__markUp`, after a message of the queue failed to go. -/
  | flush
  /-- `__markUp`, after `onUp`. -/
  | up
  /-- `__read`, after `onMessage`. -/
  | read
  deriving DecidableEq

inductive Event
  | onMessage (payload : List Byte)
  | onUp
  | onDown
  /-- `close` has returned. -/
  | closed
  deriving DecidableEq

structure NodeChannel where
  dials : Bool
  closed : Bool
  up : Bool
  /-- The link it has, by number. -/
  socket : Option ℕ
  connected : Bool
  output : List Piece
  links : ℕ
  wire : List (ℕ × Piece)
  /-- `__retryAt >= 0`. -/
  retryAt : Bool
  queue : List Message
  /-- `__queuedBytes`, an `Int`. -/
  queuedBytes : ℤ
  passQueued : Bool
  pass : List Message
  buffer : List Byte
  maxMessageSize : ℕ
  maxQueuedBytes : ℕ
  /-- `overflowPolicy == THROW`. -/
  overflowThrows : Bool
  stack : List Frame
  handed : List Message
  log : List Event

namespace NodeChannel

/-- A channel with its first link, which it dialled or adopted, and not yet up. -/
def new (dials : Bool) (maxMessageSize maxQueuedBytes : ℕ) (overflowThrows : Bool) :
    NodeChannel where
  dials
  closed := false
  up := false
  socket := some 0
  connected := false
  output := []
  links := 1
  wire := []
  retryAt := false
  queue := []
  queuedBytes := 0
  passQueued := false
  pass := []
  buffer := []
  maxMessageSize
  maxQueuedBytes
  overflowThrows
  stack := []
  handed := []
  log := []

def bytesOf (messages : List Message) : ℕ := (messages.map fun m => m.payload.length).sum

/-- The count of bytes queued, as messages are added to it. -/
def countAll (bytes : ℤ) (messages : List Message) : ℤ :=
  messages.foldl (fun n m => wrap (n + m.payload.length)) bytes

/-- A callback is made, and the rest of the function waits for it. -/
def await (s : NodeChannel) (e : Event) (frame : Frame) : NodeChannel :=
  { s with log := s.log ++ [e], stack := frame :: s.stack }

/-- The socket sends what it holds. -/
def sendOutput (s : NodeChannel) (link : ℕ) : NodeChannel :=
  { s with wire := s.wire ++ s.output.map (link, ·), output := [] }

def requeuePass (s : NodeChannel) : NodeChannel :=
  { s with queue := s.queue ++ s.pass, queuedBytes := countAll s.queuedBytes s.pass, pass := [] }

/-- `__socket.close()`, and what the channel does when it hears of it: it takes the pass back. -/
def closeSocket (s : NodeChannel) (discard : Bool) : NodeChannel :=
  match s.socket with
  | none => s
  | some link => { s with
      wire := if s.connected ∧ !discard then s.wire ++ s.output.map (link, ·) else s.wire
      queue := if s.connected then s.queue ++ s.pass else s.queue
      queuedBytes := if s.connected then countAll s.queuedBytes s.pass else s.queuedBytes
      pass := if s.connected then [] else s.pass
      socket := none
      connected := false
      output := [] }

/-- `__scheduleRetry`, after `onDown`. -/
def retryRest (s : NodeChannel) (requeued : Bool) : NodeChannel :=
  let s := s.closeSocket requeued
  if s.closed ∨ !s.dials then s else { s with retryAt := true }

def scheduleRetry (s : NodeChannel) : NodeChannel :=
  let requeued : Bool := s.pass ≠ []
  let s := s.requeuePass
  if s.up then { s with up := false }.await .onDown (.retry requeued) else s.retryRest requeued

/-- `close`, after `onDown`. -/
def closeRest (s : NodeChannel) : NodeChannel :=
  let s := s.closeSocket false
  { s with queue := [], queuedBytes := 0, pass := [], log := s.log ++ [.closed] }

def close (s : NodeChannel) : NodeChannel :=
  if s.closed then s
  else
    let s := { s with closed := true, dials := false }
    if s.up then { s with up := false }.await .onDown .close else s.closeRest

def enforceQueueLimit (s : NodeChannel) : NodeChannel :=
  if s.maxQueuedBytes = 0 ∨ s.queuedBytes ≤ s.maxQueuedBytes ∨ s.overflowThrows then s
  else s.await .onDown .limit

def enqueue (s : NodeChannel) (m : Message) : NodeChannel :=
  { s with queue := s.queue ++ [m], queuedBytes := wrap (s.queuedBytes + m.payload.length) }

/-- The `catch` of `__write`. -/
def writeFailed (s : NodeChannel) (m : Message) (connected : Bool) : NodeChannel :=
  { s.requeuePass.enqueue m with
    connected, output := if connected then s.output else [] }.scheduleRetry

/-- Kept for the pass. -/
def hold (s : NodeChannel) (m : Message) : NodeChannel :=
  { s with output := s.output ++ m.pieces, passQueued := true, pass := s.pass ++ [m] }

def write (s : NodeChannel) (m : Message) : Outcome → NodeChannel
  | .held => s.hold m
  | .flushed =>
    if s.passQueued then s.hold m
    else
      match s.socket with
      | none => s.writeFailed m false
      | some link => { s with output := s.output ++ m.pieces }.sendOutput link
  | .throwsHeader connected => s.writeFailed m connected
  | .throwsBody connected => { s with output := s.output ++ [Piece.header m] }.writeFailed m connected
  | .throwsFlush connected =>
    if s.passQueued then s.hold m
    else { s with output := s.output ++ m.pieces }.writeFailed m connected

def send (s : NodeChannel) (payload : List Byte) (outcome : Outcome) : NodeChannel :=
  if s.closed then s
  else
    let m : Message := ⟨s.handed.length, payload⟩
    let s := { s with handed := s.handed ++ [m] }
    if s.up then s.write m outcome else (s.enqueue m).enforceQueueLimit

def dequeue (s : NodeChannel) (m : Message) (rest : List Message) : NodeChannel :=
  { s with queue := rest, queuedBytes := wrap (s.queuedBytes - m.payload.length) }

/-- The loop of `__flushQueue`, with how each write goes. -/
def flushLoop : ℕ → List Outcome → NodeChannel → NodeChannel
  | 0, _, s => s
  | n + 1, outcomes, s =>
    if s.up then
      match s.queue with
      | [] => s
      | m :: rest =>
        flushLoop n outcomes.tail ((s.dequeue m rest).write m (outcomes.headD .held))
    else s

/-- `__markUp`, after the loop. -/
def flushRest (s : NodeChannel) : NodeChannel :=
  { s with queuedBytes := if s.queue = [] then 0 else s.queuedBytes }.await .onUp .up

/-- The loop of `__read`, as far as the next callback. -/
def readRest (s : NodeChannel) : NodeChannel :=
  match FrameCodec.next s.maxMessageSize s.buffer with
  | .wait => s
  | .refuse => s.scheduleRetry
  | .message payload rest => { s with buffer := rest }.await (.onMessage payload) .read

/-- The callback on top returns, and the rest of what made it runs. -/
def returns (s : NodeChannel) : NodeChannel :=
  match s.stack with
  | [] => s
  | frame :: stack =>
    let s := { s with stack }
    match frame with
    | .retry requeued => s.retryRest requeued
    | .close => s.closeRest
    | .limit => s.close
    | .flush => s.flushRest
    | .up => s
    | .read => s.readRest

/-- `__markUp`.  If a write of the loop has thrown, its `onDown` is running, and the rest waits below
what waits for that. -/
def markUp (s : NodeChannel) (outcomes : List Outcome) : NodeChannel :=
  if s.up ∨ s.closed then s
  else
    let s := { s with up := true, connected := true, buffer := [] }
    let s := flushLoop s.queue.length outcomes s
    if s.up then s.flushRest
    else { s with stack := s.stack.take 1 ++ .flush :: s.stack.drop 1 }

/-- `__read`, with what the socket has received. -/
def read (s : NodeChannel) (arrived : List Byte) : NodeChannel :=
  if s.socket = none then s else { s with buffer := s.buffer ++ arrived }.readRest

/-- `__flushPass`; `some` says that the flush throws, and how it leaves the socket. -/
def flushPass (s : NodeChannel) (thrown : Option Bool) : NodeChannel :=
  let s := { s with passQueued := false }
  match s.socket with
  | none => s
  | some link =>
    if s.pass = [] then s
    else
      match thrown with
      | none => { s.sendOutput link with pass := [] }
      | some connected => { s with connected }.scheduleRetry

/-- `poll`, when the time has come: a new link. -/
def poll (s : NodeChannel) : NodeChannel :=
  if s.closed ∨ s.up ∨ !s.dials ∨ !s.retryAt then s
  else { s with
    retryAt := false, socket := some s.links, links := s.links + 1, connected := false, output := [] }

/-- What happens: calls of the user's, which may come from a callback, the return of a callback, and
the runtime's calls. -/
inductive Turn
  | send (payload : List Byte) (outcome : Outcome)
  | close
  | returns
  | linkUp (outcomes : List Outcome)
  | arrives (bytes : List Byte)
  | linkFails (connected : Bool)
  | passEnds (thrown : Option Bool)
  | poll

/-- One turn; the runtime waits for callbacks to return. -/
def step (s : NodeChannel) : Turn → NodeChannel
  | .send payload outcome => s.send payload outcome
  | .close => s.close
  | .returns => s.returns
  | .linkUp outcomes => if s.stack = [] ∧ s.socket.isSome then s.markUp outcomes else s
  | .arrives bytes => if s.stack = [] then s.read bytes else s
  | .linkFails connected =>
    if s.stack = [] then { s with connected := connected && s.connected }.scheduleRetry else s
  | .passEnds thrown => if s.stack = [] then s.flushPass thrown else s
  | .poll => if s.stack = [] then s.poll else s

end NodeChannel

end Cluster

end CrossByte
