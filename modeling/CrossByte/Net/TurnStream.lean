import CrossByte.Lib.Bytes
import CrossByte.Lib.Runs

/-!
# TURN over a stream

`receiveStream`, `__channelData` and what `__redirect` does to the stream, of
`crossbyte/net/TurnClient.hx`, over TCP or TLS.  Bytes arrive in any pieces; whole messages are
taken out of them, and what is neither STUN nor ChannelData ends the allocation.

What `__handle` makes of a message is a parameter: given all it was handed, the allocation goes
on, ends, or moves to the relay of a 300.

## Main results

* `view_receiveStream`: a call takes what the framing of the unread bytes and the new ones takes.
* `receiveStream_frames`: however the bytes of a connection are cut up, the messages are those of
  their framing, and the next connection's are framed alone if nothing of this one is unread.
-/

namespace CrossByte

namespace TurnClient

open Bytes

/-! ## The bytes at the front -/

/-- `StunMessage.HEADER_LENGTH`. -/
def headerLength : ℕ := 20

def channelHeader : ℕ := 4

/-- The zeroes after a ChannelData message of this length. -/
def padding (length : ℕ) : ℕ := (4 - length % 4) % 4

/-- What the unread bytes start with: part of a message, neither kind of message, or a whole
message of a size, framed by so many bytes. -/
inductive Front
  | wait
  | neither
  | message (size framed : ℕ)
deriving DecidableEq

/-- The check that a message is whole. -/
def whole (available size framed : ℕ) : Front :=
  if available < framed then .wait else .message size framed

/-- The checks of one turn of the loop. -/
def front : List Byte → Front
  | first :: _ :: high :: low :: rest =>
    let available := rest.length + 4
    let length := high.toNat * 256 + low.toNat
    if first < 0x40 then
      if available < headerLength then .wait
      else whole available (headerLength + length) (headerLength + length)
    else if first < 0x80 then
      whole available (channelHeader + length) (channelHeader + length + padding length)
    else .neither
  | _ => .wait

/-- `__channelData`, on a stream. -/
def channelData (number : ℕ) (payload : List Byte) : List Byte :=
  let length := payload.length
  [.ofNat 8 (number / 256), .ofNat 8 number, .ofNat 8 (length / 256), .ofNat 8 length] ++
    payload ++ List.replicate (padding length) 0

/-! ## The loop -/

/-- What becomes of the allocation in `__handle`. -/
inductive Effect
  | goesOn
  | ends
  | redirects
deriving DecidableEq

/-- A client, at first one that has read nothing. -/
structure State where
  /-- `__stream`, empty where it is null. -/
  stream : List Byte := []
  streamAt : ℕ := 0
  closed : Bool := false
  /-- The messages handed to `__handle`, in order. -/
  taken : List (List Byte) := []
  /-- The redirections followed. -/
  redirections : ℕ := 0
deriving DecidableEq

/-- What of the stream is not read. -/
def State.unread (s : State) : List Byte := s.stream.drop s.streamAt

/-- What is read is let go. -/
def State.compact (s : State) : State :=
  if s.stream.length ≤ s.streamAt then { s with stream := [], streamAt := 0 }
  else if 0 < s.streamAt then { s with stream := s.unread, streamAt := 0 }
  else s

section

variable (effect : List (List Byte) → Effect)

/-- A message is taken out of the stream and handed to `__handle`.  `__redirect` names another
server, and leaves `__stream` as it is. -/
def State.take (s : State) (size framed : ℕ) : State :=
  let taken := s.taken ++ [s.unread.take size]
  { s with
    taken
    streamAt := s.streamAt + framed
    closed := s.closed || effect taken = .ends
    redirections := s.redirections + if effect taken = .redirects then 1 else 0 }

theorem front_framed {bytes : List Byte} {size framed : ℕ}
    (h : front bytes = .message size framed) :
    0 < framed ∧ size ≤ framed ∧ framed ≤ bytes.length := by
  match bytes with
  | [] | [_] | [_, _] | [_, _, _] => cases h
  | first :: second :: high :: low :: rest =>
    simp only [front, whole] at h
    split_ifs at h <;> cases h <;> simp [headerLength, channelHeader] at * <;> omega

/-- The loop of `receiveStream`, and what follows it. -/
def State.read (s : State) : State :=
  if s.closed then s.compact
  else
    match _h : front s.unread with
    | .wait => s.compact
    | .neither => { s with closed := true }
    | .message size framed => (s.take effect size framed).read
termination_by s.stream.length - s.streamAt
decreasing_by
  obtain ⟨hpos, -, hle⟩ := front_framed ‹_›
  rw [State.unread, List.length_drop] at hle
  simp only [State.take]
  omega

def State.receiveStream (s : State) (bytes : List Byte) : State :=
  if s.closed ∨ bytes = [] then s
  else { s with stream := s.stream ++ bytes }.read effect

/-! ## The framing of a sequence of bytes -/

/-- The messages after those of `taken`, and the bytes left, if the allocation has not ended. -/
def framing (taken : List (List Byte)) (bytes : List Byte) :
    List (List Byte) × Option (List Byte) :=
  match _h : front bytes with
  | .wait => (taken, some bytes)
  | .neither => (taken, none)
  | .message size framed =>
    let taken := taken ++ [bytes.take size]
    if effect taken = .ends then (taken, none) else framing taken (bytes.drop framed)
termination_by bytes.length
decreasing_by
  have := front_framed ‹_›
  rw [List.length_drop]
  omega

/-- More bytes arrive. -/
def more : List (List Byte) × Option (List Byte) → List Byte →
    List (List Byte) × Option (List Byte)
  | (taken, some left), bytes => framing effect taken (left ++ bytes)
  | (taken, none), _ => (taken, none)

end

section

variable {effect : List (List Byte) → Effect} {s : State} {bytes : List Byte}
  {taken : List (List Byte)} {size framed : ℕ}

/-- What the bytes start with does not change with what arrives after them. -/
theorem front_append (h : front bytes ≠ .wait) (after : List Byte) :
    front (bytes ++ after) = front bytes := by
  match bytes with
  | [] | [_] | [_, _] | [_, _, _] => exact absurd rfl h
  | first :: second :: high :: low :: rest =>
    simp only [front, whole, List.cons_append, List.length_append] at h ⊢
    split_ifs at h ⊢ <;> first | rfl | exact absurd rfl h | omega

theorem framing_eq : framing effect taken bytes =
    match front bytes with
    | .wait => (taken, some bytes)
    | .neither => (taken, none)
    | .message size framed =>
      if effect (taken ++ [bytes.take size]) = .ends then (taken ++ [bytes.take size], none)
      else framing effect (taken ++ [bytes.take size]) (bytes.drop framed) := by
  rw [framing]
  split <;> simp [*]

theorem framing_append (after : List Byte) :
    framing effect taken (bytes ++ after) = more effect (framing effect taken bytes) after := by
  fun_induction framing effect taken bytes with
  | case1 taken bytes h => rfl
  | case2 taken bytes h => rw [framing_eq, front_append (by simp [h]), h, more]
  | case3 taken bytes size framed h taken' hends =>
    obtain ⟨-, hsize, hle⟩ := front_framed h
    rw [framing_eq, front_append (by simp [h]), h]
    dsimp only
    rw [List.take_append_of_le_length (hsize.trans hle), if_pos hends, more]
  | case4 taken bytes size framed h taken' hends ih =>
    obtain ⟨-, hsize, hle⟩ := front_framed h
    rw [framing_eq, front_append (by simp [h]), h]
    dsimp only
    rw [List.take_append_of_le_length (hsize.trans hle), if_neg hends,
      List.drop_append_of_le_length hle, ih]

theorem more_more (v : List (List Byte) × Option (List Byte)) (a b : List Byte) :
    more effect (more effect v a) b = more effect v (a ++ b) := by
  obtain ⟨taken, _ | left⟩ := v
  · rfl
  · show _ = framing effect taken (left ++ (a ++ b))
    rw [← List.append_assoc]
    exact (framing_append b).symm

/-! ## The calls -/

/-- What was taken and what is unread, if the allocation has not ended. -/
def State.view (s : State) : List (List Byte) × Option (List Byte) :=
  (s.taken, if s.closed then none else some s.unread)

theorem more_of_open (h : ¬ s.closed) (bytes : List Byte) :
    more effect s.view bytes = framing effect s.taken (s.unread ++ bytes) := by
  simp [State.view, h, more]

theorem compact_eq (s : State) : s.compact = { s with stream := s.unread, streamAt := 0 } := by
  rw [State.compact]
  split_ifs with hall hsome
  · rw [State.unread, List.drop_eq_nil_of_le hall]
  · rfl
  · have hat : s.streamAt = 0 := by omega
    rw [State.unread, hat, List.drop_zero, ← hat]

theorem view_compact (s : State) : s.compact.view = s.view := by
  simp [compact_eq, State.view, State.unread]

/-- Between the calls: the stream is unread, and part of one message. -/
def State.Settled (s : State) : Prop :=
  ¬ s.closed → s.streamAt = 0 ∧ front s.stream = .wait

theorem read_spec (s : State) :
    (s.read effect).view = more effect s.view [] ∧ (s.read effect).Settled := by
  fun_induction State.read effect s with
  | case1 s hclosed =>
    rw [view_compact]
    exact ⟨by simp [State.view, hclosed, more], fun hopen => by simp [compact_eq, hclosed] at hopen⟩
  | case2 s hopen h =>
    rw [view_compact, more_of_open hopen, List.append_nil, framing_eq, h]
    exact ⟨by simp [State.view, hopen], fun _ => by simpa [compact_eq] using h⟩
  | case3 s hopen h =>
    rw [more_of_open hopen, List.append_nil, framing_eq, h]
    exact ⟨rfl, fun hopen => absurd rfl hopen⟩
  | case4 s hopen size framed h ih =>
    refine ⟨?_, ih.2⟩
    rw [ih.1, more_of_open hopen, List.append_nil, framing_eq, h]
    by_cases hends : effect (s.taken ++ [(s.stream.drop s.streamAt).take size]) = .ends <;>
      simp [State.view, State.take, State.unread, hopen, hends, more]

theorem more_of_settled (h : s.Settled) : more effect s.view [] = s.view := by
  by_cases hclosed : s.closed
  · simp [State.view, hclosed, more]
  · obtain ⟨hat, hwait⟩ := h hclosed
    rw [more_of_open hclosed, framing_eq]
    simp [State.view, State.unread, hclosed, hat, hwait]

/-- **A call** takes what the framing of the unread bytes and the new ones takes. -/
theorem view_receiveStream (h : s.Settled) (bytes : List Byte) :
    (s.receiveStream effect bytes).view = more effect s.view bytes ∧
    (s.receiveStream effect bytes).Settled := by
  rw [State.receiveStream]
  split_ifs with hskip
  · refine ⟨?_, h⟩
    rcases hskip with hclosed | rfl
    · simp [State.view, hclosed, more]
    · exact (more_of_settled h).symm
  · have hopen : ¬ s.closed := fun hclosed => hskip (.inl hclosed)
    refine ⟨?_, (read_spec _).2⟩
    rw [(read_spec _).1]
    simp [State.view, State.unread, more, hopen, (h hopen).1]

theorem view_run (h : s.Settled) (chunks : List (List Byte)) :
    (Runs.run (State.receiveStream effect) s chunks).view = more effect s.view chunks.flatten ∧
    (Runs.run (State.receiveStream effect) s chunks).Settled := by
  induction chunks generalizing s with
  | nil => exact ⟨(more_of_settled h).symm, h⟩
  | cons chunk chunks ih =>
    obtain ⟨hview, hsettled⟩ := view_receiveStream h chunk
    obtain ⟨hrun, hend⟩ := ih hsettled
    refine ⟨?_, hend⟩
    rw [Runs.run_cons, hrun, hview, more_more, List.flatten_cons]

end

/-! ## ChannelData -/

def firstChannel : ℕ := 0x4000

def lastChannel : ℕ := 0x7FFE

/-- The number and the payload `__deliverChannelData` reads; whether the number is that of a channel
bound is not looked at here. -/
def deliverChannelData : List Byte → Option (ℕ × List Byte)
  | a :: b :: c :: d :: rest =>
    let number := a.toNat * 256 + b.toNat
    let length := c.toNat * 256 + d.toNat
    if number < firstChannel ∨ lastChannel < number ∨ rest.length < length then none
    else some (number, rest.take length)
  | _ => none

theorem channelData_framed {number : ℕ} {payload : List Byte} (hfirst : firstChannel ≤ number)
    (hlast : number ≤ lastChannel) (hlength : payload.length < 2 ^ 16) (rest : List Byte) :
    ∃ size, front (channelData number payload ++ rest) =
        .message size (channelData number payload).length ∧
      deliverChannelData ((channelData number payload ++ rest).take size) =
        some (number, payload) := by
  simp only [firstChannel, lastChannel] at hfirst hlast
  have hword : ∀ n < 2 ^ 16,
      (BitVec.ofNat 8 (n / 256)).toNat * 256 + (BitVec.ofNat 8 n).toNat = n := by
    intro n hn
    simp only [BitVec.toNat_ofNat]
    omega
  obtain ⟨hlow, hhigh⟩ : ¬ BitVec.ofNat 8 (number / 256) < 0x40 ∧
      BitVec.ofNat 8 (number / 256) < 0x80 := by
    simp [BitVec.lt_def]
    omega
  refine ⟨channelHeader + payload.length, ?_, ?_⟩
  · simp only [channelData, List.cons_append, front, hword _ hlength]
    rw [if_neg hlow, if_pos hhigh, whole, if_neg] <;>
      simp [channelHeader] <;> omega
  · have htake : (channelData number payload ++ rest).take (channelHeader + payload.length) =
        BitVec.ofNat 8 (number / 256) :: .ofNat 8 number :: .ofNat 8 (payload.length / 256) ::
          .ofNat 8 payload.length :: payload := by
      simp [channelData, channelHeader, Nat.add_comm 4]
    rw [htake, deliverChannelData, hword _ hlength, hword number (by omega), if_neg,
      List.take_length]
    simp only [firstChannel, lastChannel]
    omega

/-! ## The results -/

/-- However the bytes of a connection are cut up, the messages taken are those of their framing,
what is kept is unread and part of one message, and ChannelData is framed back as its payload; and
where nothing is unread, the messages of the next connection are those of its own framing. -/
theorem receiveStream_frames (effect : List (List Byte) → Effect)
    (chunks after : List (List Byte)) :
    let s := Runs.run (State.receiveStream effect) {} chunks
    s.view = framing effect [] chunks.flatten ∧ s.Settled ∧
    (¬ s.closed → s.stream = [] →
      (Runs.run (State.receiveStream effect) s after).view =
        framing effect s.taken after.flatten) ∧
    ∀ number payload rest, firstChannel ≤ number → number ≤ lastChannel →
      payload.length < 2 ^ 16 →
      ∃ size, front (channelData number payload ++ rest) =
          .message size (channelData number payload).length ∧
        deliverChannelData ((channelData number payload ++ rest).take size) =
          some (number, payload) := by
  intro s
  obtain ⟨hview, hsettled⟩ : s.view = _ ∧ s.Settled := view_run (fun _ => ⟨rfl, rfl⟩) chunks
  refine ⟨hview, hsettled, fun hopen hnil => ?_, fun _ _ rest hfirst hlast hlength =>
    channelData_framed hfirst hlast hlength rest⟩
  rw [(view_run hsettled after).1, more_of_open hopen, State.unread, hnil, List.drop_nil]
  rfl

/-- A 300 to an Allocate, with the alternate 192.0.2.1:3478. -/
def tryAlternate : List Byte :=
  [1, 0x13, 0, 20, 0x21, 0x12, 0xA4, 0x42] ++ List.replicate 12 1 ++
    [0, 9, 0, 4, 0, 0, 3, 0, 0x80, 0x23, 0, 8, 0, 1, 0x0D, 0x96, 192, 0, 2, 1]

/-- It moves the client to another connection. -/
def follows (taken : List (List Byte)) : Effect :=
  if taken = [tryAlternate] then .redirects else .goesOn

/-- A Data indication of the other relay. -/
def answer : List Byte := [0, 0x17, 0, 0, 0x21, 0x12, 0xA4, 0x42] ++ List.replicate 12 2

/-- Where the 300 ends the first connection's bytes, the other relay's are framed alone. -/
theorem redirected_stream_apart :
    let s := Runs.run (State.receiveStream follows) {} [tryAlternate]
    s.redirections = 1 ∧ (Runs.run (State.receiveStream follows) s [answer]).view =
      ([tryAlternate, answer], some []) := by
  have hview := (receiveStream_frames follows [tryAlternate] [answer]).2.2.1
    (by decide +kernel) (by decide +kernel)
  exact ⟨by decide +kernel, hview.trans (by decide +kernel)⟩

theorem redirected_stream_mixed :
    let s := Runs.run (State.receiveStream follows) {} [tryAlternate ++ [0]]
    s.redirections = 1 ∧ ¬ s.closed ∧
    framing follows s.taken answer = ([tryAlternate, answer], some []) ∧
    (Runs.run (State.receiveStream follows) s [answer]).view =
      ([tryAlternate], some (0 :: answer)) := by
  decide +kernel

end TurnClient
end CrossByte
