import CrossByte.Lib.Bytes

/-!
# FrameCodec

The framing of `crossbyte/net/FrameCodec.hx`: a message is its length in four bytes,
big-endian, and its bytes.  A reader is fed whatever arrives and gives the messages
that are whole, and it refuses a length past its limit before it waits for the bytes.

The buffer is what was fed and not yet taken; the cursor over it and its compaction
are left out.

## Main results

* `drainAll_encode`: however a stream of messages is cut up, the reader gives exactly
  those messages.
-/

namespace CrossByte

namespace FrameCodec

open Bytes

variable {size : ℕ} {payload buffer bytes : List Byte} {messages : List (List Byte)}

/-- A length, big-endian. -/
def header (n : ℕ) : List Byte := putInt (BitVec.ofNat 32 n)

def encode (payload : List Byte) : List Byte := header payload.length ++ payload

/-- What `next` makes of the buffer: nothing yet, a length past the limit, or a message and the
rest. -/
inductive Next
  | wait
  | refuse
  | message (payload rest : List Byte)

def next (size : ℕ) : List Byte → Next
  | a :: b :: c :: d :: rest =>
    let declared := (getInt a b c d).toNat
    if size < declared then .refuse
    else if rest.length < declared then .wait
    else .message (rest.take declared) (rest.drop declared)
  | _ => .wait

theorem next_rest_length {rest : List Byte} (h : next size buffer = .message payload rest) :
    rest.length < buffer.length := by
  match buffer with
  | [] | [_] | [_, _] | [_, _, _] => cases h
  | a :: b :: c :: d :: tail =>
    rw [next] at h
    split_ifs at h
    obtain ⟨-, rfl⟩ := Next.message.inj h
    simp
    omega

/-- The messages that are whole, and what is left. -/
def drain (size : ℕ) (buffer : List Byte) : List (List Byte) × List Byte :=
  match h : next size buffer with
  | .message payload rest =>
    have := next_rest_length h
    let (messages, left) := drain size rest
    (payload :: messages, left)
  | _ => ([], buffer)
termination_by buffer.length

/-- What a reader gives as the arrivals are fed to it in turn. -/
def drainAll (size : ℕ) (buffer : List Byte) : List (List Byte) → List (List Byte)
  | [] => []
  | chunk :: chunks =>
    let (messages, left) := drain size (buffer ++ chunk)
    messages ++ drainAll size left chunks

theorem next_encode (h : payload.length ≤ size) (hw : payload.length < 2 ^ 32)
    (rest : List Byte) : next size (encode payload ++ rest) = .message payload rest := by
  have hd : (getInt (byteOf (BitVec.ofNat 32 payload.length) 3)
      (byteOf (BitVec.ofNat 32 payload.length) 2) (byteOf (BitVec.ofNat 32 payload.length) 1)
      (byteOf (BitVec.ofNat 32 payload.length) 0)).toNat = payload.length := by
    rw [getInt_byteOf, BitVec.toNat_ofNat, Nat.mod_eq_of_lt hw]
  show next size (byteOf (BitVec.ofNat 32 payload.length) 3 :: _ :: _ :: _ :: (payload ++ rest)) = _
  rw [next, hd, if_neg (not_lt.2 h), if_neg (by simp), List.take_left, List.drop_left]

theorem drain_of_message {rest : List Byte} (h : next size buffer = .message payload rest) :
    drain size buffer = (payload :: (drain size rest).1, (drain size rest).2) := by
  rw [drain]
  split
  · next hn =>
    rw [h] at hn
    obtain ⟨rfl, rfl⟩ := Next.message.inj hn
    rfl
  · next hn => exact absurd h (hn payload rest)

/-- What is at the front of the buffer does not change with what arrives after it. -/
theorem next_append {rest : List Byte} (h : next size buffer = .message payload rest)
    (more : List Byte) : next size (buffer ++ more) = .message payload (rest ++ more) := by
  match buffer with
  | [] | [_] | [_, _] | [_, _, _] => cases h
  | a :: b :: c :: d :: tail =>
    rw [next] at h
    split_ifs at h with hsize hshort
    obtain ⟨rfl, rfl⟩ := Next.message.inj h
    have hle := not_lt.1 hshort
    have hlong : ¬ (tail ++ more).length < (getInt a b c d).toNat := by
      rw [List.length_append]
      omega
    simp only [List.cons_append, next]
    rw [if_neg hsize, if_neg hlong, List.take_append_of_le_length hle,
      List.drop_append_of_le_length hle]

/-- The messages of a buffer, and then those of what it leaves and what arrives after it. -/
theorem drain_append (buffer more : List Byte) : drain size (buffer ++ more) =
    ((drain size buffer).1 ++ (drain size ((drain size buffer).2 ++ more)).1,
      (drain size ((drain size buffer).2 ++ more)).2) := by
  fun_induction drain size buffer with
  | case1 buffer payload rest h _ messages left hd ih =>
    rw [drain_of_message (next_append h more), ih, hd]
    rfl
  | case2 buffer h => rfl

theorem drain_left (size : ℕ) (buffer : List Byte) :
    drain size (drain size buffer).2 = ([], (drain size buffer).2) := by
  fun_induction drain size buffer with
  | case1 buffer payload rest h _ messages left hd ih =>
    rw [hd] at ih
    exact ih
  | case2 buffer h =>
    rw [drain]
    split
    · next p r hn => exact absurd hn (h p r)
    · rfl

theorem drainAll_eq (hb : drain size buffer = ([], buffer)) (chunks : List (List Byte)) :
    drainAll size buffer chunks = (drain size (buffer ++ chunks.flatten)).1 := by
  induction chunks generalizing buffer with
  | nil => simp [drainAll, hb]
  | cons chunk chunks ih =>
    rw [List.flatten_cons, ← List.append_assoc, drain_append, drainAll]
    dsimp only
    rw [ih (drain_left size _)]

theorem drain_nil : drain size [] = ([], []) := by rw [drain]; rfl

theorem drain_flatMap_encode (hall : ∀ m ∈ messages, m.length ≤ size ∧ m.length < 2 ^ 32) :
    drain size (messages.flatMap encode) = (messages, []) := by
  induction messages with
  | nil => exact drain_nil
  | cons m messages ih =>
    obtain ⟨hsize, hw⟩ := hall m List.mem_cons_self
    rw [List.flatMap_cons, drain_of_message (next_encode hsize hw _),
      ih fun m hm => hall m (List.mem_cons_of_mem _ hm)]

/-- However a stream of messages is cut up, the reader gives exactly those messages. -/
theorem drainAll_encode (hall : ∀ m ∈ messages, m.length ≤ size ∧ m.length < 2 ^ 32)
    {chunks : List (List Byte)} (hs : buffer ++ chunks.flatten = messages.flatMap encode)
    (hb : drain size buffer = ([], buffer)) : drainAll size buffer chunks = messages := by
  rw [drainAll_eq hb, hs, drain_flatMap_encode hall]

end FrameCodec

end CrossByte
