import CrossByte.Cluster.NodeChannel

/-!
# Each message at most once

What a channel promises of a message: it goes on one link at most, whole and behind its
length, and until it has gone it waits once, in the pass's buffer or in the queue.

The invariant keeps two lists beside the channel: `sent`, the messages that went and on
which link, of which the wire is the writing out; and `out`, those whose bytes the socket
holds.  While the link is up the socket holds what the pass wrote.  When the link fails
the pass goes back to the queue, and the socket is told to discard what it holds, since it
would otherwise send it as it closes.

It is told so by `__scheduleRetry`, if there was a pass to take back.  A write that throws
takes the pass back itself, before it calls `__scheduleRetry`, which then finds none: the
socket sends all it holds as it closes, and the queue sends it again on the next link.  And
after `onMessage` the loop of `__read` goes on without a look at whether the callback
closed the channel.

## Main results

* `carries_of_smooth`: every state of a run is as promised, if a write that throws is the
  first to an empty socket, or leaves its socket unconnected, and `onMessage` does not close
  a channel that has another whole message to read.
* `sent_twice_and_heard_closed`: two runs that are not so.
-/

namespace CrossByte

namespace Cluster

open Bytes NodeChannel
open WrappingInt (wrap wrap_wrap_add wrap_wrap_sub wrap_natCast_eq_iff)

variable {s : NodeChannel} {sent : List (ℕ × Message)} {out moving : List Message} {m : Message}
  {frame : Frame} {e : Event}

/-! ## The promise -/

def Piece.bytes : Piece → List Byte
  | .header m => FrameCodec.header m.payload.length
  | .body m => m.payload

/-- What messages look like on the wires of their links. -/
def writtenOut (sent : List (ℕ × Message)) : List (ℕ × Piece) :=
  sent.flatMap fun x => x.2.pieces.map (x.1, ·)

/-- The bytes that went on a link. -/
def NodeChannel.wireBytes (s : NodeChannel) (link : ℕ) : List Byte :=
  (s.wire.filter (·.1 = link)).flatMap fun x => x.2.bytes

/-- The messages that went on a link. -/
def onLink (sent : List (ℕ × Message)) (link : ℕ) : List Message :=
  (sent.filter (·.1 = link)).map Prod.snd

/-- What the channel promises. -/
structure Carries (s : NodeChannel) : Prop where
  /-- Messages went whole, each once; while the channel is open the others wait, each once; and the
  peer's reader gives those that went on its link. -/
  once : ∃ sent, s.wire = writtenOut sent ∧ (sent.map Prod.snd).Nodup ∧
    (∀ x ∈ sent, x.2 ∈ s.handed) ∧ s.handed.Nodup ∧
    (s.closed = false → (sent.map Prod.snd ++ s.pass ++ s.queue).Perm s.handed) ∧
    ∀ link size chunks, (∀ m ∈ onLink sent link, m.payload.length ≤ size ∧
        m.payload.length < 2 ^ 32) → chunks.flatten = s.wireBytes link →
      FrameCodec.drainAll size [] chunks = (onLink sent link).map (·.payload)
  /-- `bufferedAmount` is what is queued, exactly as long as an `Int` counts it. -/
  buffered : s.queuedBytes = bytesOf s.queue ↔ bytesOf s.queue < 2 ^ 31
  /-- After `close` has returned there are no callbacks. -/
  silent : ∀ pre post, s.log = pre ++ Event.closed :: post → post = []

/-- The write throws, and leaves the socket unconnected. -/
def Outcome.Severs (o : Outcome) : Prop :=
  o = .throwsHeader false ∨ o = .throwsBody false ∨ o = .throwsFlush false

/-- The condition on a turn: a write throws only in `send`, as the first to an empty socket or
leaving the socket unconnected; and `onMessage` does not return to a closed channel that has another
whole message, or a length past the limit, to read. -/
def Smooth (s : NodeChannel) : Turn → Prop
  | .send _ outcome => s.up → s.closed = false →
      outcome = .held ∨ outcome = .flushed ∨ outcome.Severs ∨
        s.output = [] ∧ ∃ c, outcome = .throwsHeader c
  | .linkUp outcomes => ∀ o ∈ outcomes, o = .held ∨ o = .flushed
  | .returns => s.stack.head? = some .read → s.closed →
      FrameCodec.next s.maxMessageSize s.buffer = .wait
  | _ => True

/-! ## The invariant -/

/-- The channel has been closed and `close` has returned. -/
def NodeChannel.Finished (s : NodeChannel) : Prop := Event.closed ∈ s.log

/-- The invariant, with the messages that went, those that the socket holds, and what is on its way
from one place to another. -/
structure Inv (s : NodeChannel) (sent : List (ℕ × Message)) (out moving : List Message) :
    Prop where
  wire : s.wire = writtenOut sent
  output : s.output = out.flatMap Message.pieces
  up : s.up = true → out = s.pass ∧ s.socket.isSome ∧ s.closed = false
  bare : s.socket = none → out = []
  down : s.up = false → s.pass = [] ∨ Frame.close ∈ s.stack
  idle : s.up = false → out ≠ [] → Frame.retry true ∈ s.stack ∨ Frame.close ∈ s.stack
  retry : ∀ b, Frame.retry b ∈ s.stack → s.up = false ∧ s.pass = [] ∧ (b = false → out = [])
  closing : Frame.close ∈ s.stack → s.closed = true ∧ s.up = false ∧ ¬ s.Finished ∧
    ∃ st, s.stack = .close :: st ∧ Frame.close ∉ st
  flush : Frame.flush ∉ s.stack
  read : Frame.read ∉ s.stack.dropLast
  held : s.pass ≠ [] → s.passQueued = true
  bytes : s.queuedBytes = wrap (bytesOf s.queue)
  ids : s.handed.map Message.id = List.range s.handed.length
  all : ¬ s.Finished → (sent.map Prod.snd ++ s.pass ++ s.queue ++ moving).Perm s.handed
  part : out.Subperm (s.pass ++ s.queue)
  closed : s.closed = true → s.Finished ∨ Frame.close ∈ s.stack
  finished : s.Finished → s.closed = true ∧ s.up = false ∧ s.socket = none ∧
    (sent.map Prod.snd).Subperm s.handed ∧
    ∃ pre, s.log = pre ++ [Event.closed] ∧ Event.closed ∉ pre

theorem bytesOf_append (l l' : List Message) : bytesOf (l ++ l') = bytesOf l + bytesOf l' := by
  simp [bytesOf]

theorem wrap_bytesOf_nil : 0 = wrap (bytesOf []) := by simp [bytesOf, wrap]

theorem countAll_wrap (n : ℤ) (l : List Message) : countAll (wrap n) l = wrap (n + bytesOf l) := by
  induction l generalizing n with
  | nil => simp [countAll, bytesOf]
  | cons m l ih =>
    have hstep : countAll (wrap n) (m :: l) = countAll (wrap (n + m.payload.length)) l := by
      simp [countAll]
    rw [hstep, ih]
    simp [bytesOf, add_assoc]

theorem writtenOut_append (l l' : List (ℕ × Message)) :
    writtenOut (l ++ l') = writtenOut l ++ writtenOut l' := List.flatMap_append

theorem writtenOut_map (link : ℕ) (out : List Message) :
    writtenOut (out.map (link, ·)) = (out.flatMap Message.pieces).map (link, ·) := by
  simp [writtenOut, List.flatMap_map, List.map_flatMap]

section

variable (h : Inv s sent out moving)

include h

theorem Inv.not_finished (hc : s.closed = false) : ¬ s.Finished := by
  intro hf
  have := (h.finished hf).1
  simp [hc] at this

theorem Inv.open_up (hu : s.up = true) : ¬ s.Finished :=
  h.not_finished (h.up hu).2.2

theorem Inv.not_closing (hc : s.closed = false) : Frame.close ∉ s.stack := by
  intro hm
  have := (h.closing hm).1
  simp [hc] at this

theorem Inv.no_retry (hu : s.up = true) (b : Bool) : Frame.retry b ∉ s.stack := by
  intro hm
  have := (h.retry b hm).1
  simp [hu] at this

/-- Between callbacks, a link that is not up holds nothing. -/
theorem Inv.out_nil (hst : s.stack = []) (hu : s.up = false) : out = [] := by
  by_contra hne
  simpa [hst] using h.idle hu hne

/-- The invariant reads neither the buffer of the reader nor whether the socket is connected. -/
theorem Inv.unread (c : Bool) (bytes : List Byte) :
    Inv { s with connected := c, buffer := bytes } sent out moving :=
  { h with }

end

theorem finished_of_await (he : e ≠ .closed) (h : (s.await e frame).Finished) : s.Finished := by
  obtain hm | hm := List.mem_append.1 h
  · exact hm
  · exact absurd (List.mem_singleton.1 hm).symm he

theorem mem_dropLast_of_tail {f g : Frame} {st : List Frame} (h : f ∈ st.dropLast) :
    f ∈ (g :: st).dropLast := by
  cases st with
  | nil => cases h
  | cons a st => exact List.mem_cons_of_mem _ h

theorem mem_dropLast_cons {f g : Frame} {st : List Frame} (h : f ∈ (g :: st).dropLast) :
    f = g ∨ f ∈ st.dropLast := by
  cases st with
  | nil => cases h
  | cons a st =>
    exact List.mem_cons.1 h

theorem Inv.await (h : Inv s sent out moving) (hc : s.closed = false) (he : e ≠ .closed)
    (hf : frame = .limit ∨ frame = .up ∨ frame = .read ∧ s.stack = []) :
    Inv (s.await e frame) sent out moving := by
  have hnf := h.not_finished hc
  have hnc := h.not_closing hc
  have hfin : ¬ (s.await e frame).Finished := fun hm => hnf (finished_of_await he hm)
  have hold : ∀ f, f ∈ (s.await e frame).stack → f = frame ∨ f ∈ s.stack := fun f hm =>
    List.mem_cons.1 hm
  have hclose : Frame.close ∉ (s.await e frame).stack := by
    intro hm
    obtain rfl | hm := hold _ hm
    · simp at hf
    · exact hnc hm
  refine { h with
      down := fun hu => ?_, idle := fun hu ho => ?_, retry := fun b hm => ?_,
      closing := fun hm => absurd hm hclose, flush := fun hm => ?_, read := fun hm => ?_,
      all := fun _ => h.all hnf, closed := fun hcl => ?_, finished := fun hm => absurd hm hfin }
  · exact .inl ((h.down hu).resolve_right hnc)
  · exact .inl (List.mem_cons_of_mem _ ((h.idle hu ho).resolve_right hnc))
  · obtain rfl | hm := hold _ hm
    · simp at hf
    · exact h.retry b hm
  · obtain rfl | hm := hold _ hm
    · simp at hf
    · exact h.flush hm
  · obtain rfl | hm := mem_dropLast_cons hm
    · obtain hf | hf | ⟨-, hs⟩ := hf
      · cases hf
      · cases hf
      · rw [NodeChannel.await, hs] at hm
        cases hm
    · exact h.read hm
  · have hcl' : s.closed = true := hcl
    simp [hc] at hcl'

theorem Inv.pop {st : List Frame} (h : Inv s sent out moving) (hs : s.stack = frame :: st)
    (hne : frame ≠ .close) (hr : frame = .retry true → out = []) :
    Inv { s with stack := st } sent out moving := by
  have hnc : Frame.close ∉ s.stack := by
    intro hm
    obtain ⟨-, -, -, st', hst', -⟩ := h.closing hm
    rw [hs] at hst'
    exact hne (List.cons.inj hst').1
  have hsub : ∀ f, f ∈ st → f ∈ s.stack := fun f hm => hs ▸ List.mem_cons_of_mem _ hm
  refine { h with
      down := fun hu => .inl ((h.down hu).resolve_right hnc), idle := fun hu ho => ?_,
      retry := fun b hm => h.retry b (hsub _ hm), closing := fun hm => absurd (hsub _ hm) hnc,
      flush := fun hm => h.flush (hsub _ hm), read := fun hm => ?_, closed := fun hcl => ?_ }
  · have hm := (h.idle hu ho).resolve_right hnc
    rw [hs] at hm
    obtain hm | hm := List.mem_cons.1 hm
    · exact absurd (hr hm.symm) ho
    · exact .inl hm
  · refine h.read ?_
    rw [hs]
    exact mem_dropLast_of_tail hm
  · exact .inl ((h.closed hcl).resolve_right hnc)

/-! ## Links that fail -/

theorem pieces_eq_nil {l : List Message} (h : l.flatMap Message.pieces = []) : l = [] := by
  cases l with
  | nil => rfl
  | cons m l =>
    rw [List.flatMap_cons, Message.pieces] at h
    split at h <;> simp at h

theorem requeuePass_nil (h : s.pass = []) : s.requeuePass = s := by
  cases s
  simp only at h
  simp [requeuePass, countAll, h]

/-- A socket that discards what it holds, or holds nothing. -/
theorem closeSocket_eq (h : Inv s sent out moving) (hp : s.pass = []) {b : Bool}
    (hb : b = false → out = []) :
    ∃ c, s.closeSocket b = { s with socket := none, connected := c, output := [] } := by
  have hout : b = false → s.output = [] := fun hf => by
    rw [h.output, hb hf]
    rfl
  have hbare : s.socket = none → s.output = [] := fun hs => by
    rw [h.output, h.bare hs]
    rfl
  obtain ⟨dials, closed, up, socket, connected⟩ := s
  dsimp only at hp hout hbare
  subst hp
  cases socket with
  | none => exact ⟨connected, by simp [closeSocket, hbare rfl]⟩
  | some link =>
    refine ⟨false, ?_⟩
    cases b with
    | true => simp [closeSocket, countAll]
    | false => simp [closeSocket, countAll, hout rfl]

theorem Inv.retryRest (h : Inv s sent out []) (hu : s.up = false) (hp : s.pass = []) {b : Bool}
    (hb : b = false → out = []) : Inv (s.retryRest b) sent [] [] := by
  obtain ⟨c, hc⟩ := closeSocket_eq h hp hb
  have hinv : ∀ r, Inv { s with socket := none, connected := c, output := [], retryAt := r }
      sent [] [] := fun r =>
    { h with
        output := rfl, up := fun hup => absurd (hu.symm.trans hup) (by simp), bare := fun _ => rfl,
        idle := fun _ ho => absurd rfl ho, retry := fun b hm => ⟨hu, hp, fun _ => rfl⟩,
        part := List.nil_subperm,
        finished := fun hf => ⟨(h.finished hf).1, hu, rfl, (h.finished hf).2.2.2⟩ }
  rw [NodeChannel.retryRest, hc]
  split
  · exact hinv s.retryAt
  · exact hinv true

/-- The rest of a retry has nothing to do with the stack. -/
theorem retryRest_stack (s : NodeChannel) (st : List Frame) (b : Bool) :
    ({ s with stack := st } : NodeChannel).retryRest b = { s.retryRest b with stack := st } ∧
      (s.retryRest b).stack = s.stack := by
  obtain ⟨dials, closed, up, socket⟩ := s
  cases socket <;> cases closed <;> cases dials <;> exact ⟨rfl, rfl⟩

/-- A link fails: what the pass wrote goes back to the queue. -/
theorem Inv.scheduleRetry (h : Inv { s with passQueued := true } sent out [])
    (hnc : Frame.close ∉ s.stack) (hidle : s.up = false → out = []) :
    ∃ out', Inv s.scheduleRetry sent out' [] := by
  rw [NodeChannel.scheduleRetry]
  split
  · next hu =>
    obtain ⟨hout, hsock, hcl⟩ := h.up hu
    have hnf := h.open_up hu
    refine ⟨out, h.wire, h.output, nofun, h.bare, fun _ => .inl rfl, fun _ ho => ?_, fun b hm => ?_,
      fun hm => ?_, fun hm => ?_, fun hm => ?_, fun hne => absurd rfl hne, ?_, h.ids,
      fun _ => ?_, ?_,
      fun hc => ?_, fun hf => ?_⟩
    · have hp : s.pass ≠ [] := fun he => ho (hout.trans he)
      left
      simp [NodeChannel.await, hp]
    · obtain hm | hm := List.mem_cons.1 hm
      · refine ⟨rfl, rfl, fun hb => ?_⟩
        have hb' : decide (s.pass ≠ []) = false := by
          rw [← hb]
          exact (Frame.retry.inj hm).symm
        exact hout.trans (by simpa using hb')
      · exact absurd hm (h.no_retry hu b)
    · exact absurd ((List.mem_cons.1 hm).resolve_left nofun) hnc
    · exact h.flush ((List.mem_cons.1 hm).resolve_left nofun)
    · obtain hm | hm := mem_dropLast_cons hm
      · cases hm
      · exact h.read hm
    · have hb : s.queuedBytes = wrap (bytesOf s.queue) := h.bytes
      simp [NodeChannel.await, requeuePass, bytesOf_append, hb, countAll_wrap]
    · have hall := h.all hnf
      refine List.Perm.trans ?_ hall
      simp only [NodeChannel.await, requeuePass, List.append_nil, List.append_assoc]
      exact List.Perm.append_left _ List.perm_append_comm
    · have hpart := h.part
      refine hpart.trans (List.Perm.subperm ?_)
      exact List.perm_append_comm
    · have hc' : s.closed = true := hc
      have hcl' : s.closed = false := hcl
      simp [hcl'] at hc'
    · exact absurd (finished_of_await (by simp) hf) hnf
  · next hu =>
    have hu : s.up = false := Bool.eq_false_of_not_eq_true hu
    have hp : s.pass = [] := (h.down hu).resolve_right hnc
    obtain rfl := hidle hu
    have hs : Inv s sent [] [] :=
      { h with held := fun hne => absurd hp hne }
    rw [requeuePass_nil hp]
    exact ⟨[], hs.retryRest hu hp fun _ => rfl⟩

/-! ## Closing -/

/-- `close` has run to its end: the socket may have sent what it held, and nothing is kept. -/
theorem Inv.closeRest (hw : s.wire = writtenOut sent) (ho : s.output = out.flatMap Message.pieces)
    (hbare : s.socket = none → out = []) (hu : s.up = false) (hc : s.closed = true)
    (hnf : ¬ s.Finished) (hnc : Frame.close ∉ s.stack)
    (hflush : Frame.flush ∉ s.stack) (hread : Frame.read ∉ s.stack.dropLast)
    (hids : s.handed.map Message.id = List.range s.handed.length)
    (hall : (sent.map Prod.snd ++ s.pass ++ s.queue).Perm s.handed)
    (hpart : out.Subperm (s.pass ++ s.queue)) : ∃ sent', Inv s.closeRest sent' [] [] := by
  have hsub : (sent.map Prod.snd ++ out).Subperm s.handed := by
    refine List.Subperm.trans ?_ hall.subperm
    rw [List.append_assoc]
    exact (List.subperm_append_left _).2 hpart
  -- what went when the socket closed, and that nothing is left of it
  obtain ⟨sent', hw', hs', hsock, hout, hrest⟩ : ∃ sent', (s.closeSocket false).wire =
      writtenOut sent' ∧ (sent'.map Prod.snd).Subperm s.handed ∧
        (s.closeSocket false).socket = none ∧
      (s.closeSocket false).output = [] ∧
      (s.closeSocket false).up = s.up ∧ (s.closeSocket false).closed = s.closed ∧
      (s.closeSocket false).stack = s.stack ∧ (s.closeSocket false).handed = s.handed ∧
      (s.closeSocket false).log = s.log := by
    have hfirst : (sent.map Prod.snd).Subperm s.handed :=
      (List.sublist_append_left _ _).subperm.trans hsub
    rw [closeSocket]
    cases hs : s.socket with
    | none =>
      refine ⟨sent, hw, hfirst, hs, ?_, rfl, rfl, rfl, rfl, rfl⟩
      rw [ho, hbare hs]
      rfl
    | some link =>
      by_cases hcon : s.connected = true
      · refine ⟨sent ++ out.map (link, ·), ?_, ?_, rfl, rfl, rfl, rfl, rfl, rfl, rfl⟩
        · rw [writtenOut_append, writtenOut_map, ← ho, ← hw]
          simp [hcon]
        · simpa [Function.comp_def] using hsub
      · refine ⟨sent, ?_, hfirst, rfl, rfl, rfl, rfl, rfl, rfl, rfl⟩
        simp [hcon, hw]
  obtain ⟨hup', hcl', hst', hha', hlog'⟩ := hrest
  refine ⟨sent', ?_⟩
  rw [NodeChannel.closeRest]
  have hnc' : Frame.close ∉ (s.closeSocket false).stack := hst' ▸ hnc
  refine ⟨hw', hout, fun hup => ?_, fun _ => rfl, fun _ => .inl rfl, fun _ ho => absurd rfl ho,
    fun b _ => ⟨hup'.trans hu, rfl, fun _ => rfl⟩, fun hm => absurd hm hnc', ?_, ?_,
    fun hne => absurd rfl hne, wrap_bytesOf_nil, ?_, fun hf => ?_, List.nil_subperm,
    fun _ => .inl ?_,
    fun _ => ⟨hcl'.trans hc, hup'.trans hu, hsock, ?_, s.log, ?_, hnf⟩⟩
  · have hup1 : (s.closeSocket false).up = true := hup
    rw [hup', hu] at hup1
    cases hup1
  · rw [hst']
    exact hflush
  · rw [hst']
    exact hread
  · rw [hha']
    exact hids
  · exact absurd (List.mem_append_right _ (List.mem_singleton.2 rfl)) hf
  · exact List.mem_append_right _ (List.mem_singleton.2 rfl)
  · rw [hha']
    exact hs'
  · rw [hlog']

theorem Inv.close (h : Inv s sent out []) : ∃ sent' out', Inv s.close sent' out' [] := by
  rw [NodeChannel.close]
  split
  · exact ⟨sent, out, h⟩
  · next hc =>
    have hc : s.closed = false := by simpa using hc
    have hnf := h.not_finished hc
    have hnc := h.not_closing hc
    dsimp only
    split
    · next hu =>
      refine ⟨sent, out, h.wire, h.output, nofun, h.bare, fun _ => .inr List.mem_cons_self,
        fun _ _ => .inr List.mem_cons_self, fun b hm => ?_,
        fun _ => ⟨rfl, rfl, fun hf => ?_, s.stack,
          rfl, hnc⟩, fun hm => ?_, fun hm => ?_, h.held, h.bytes, h.ids, fun _ => h.all hnf, h.part,
        fun _ => .inr List.mem_cons_self, fun hf => ?_⟩
      · exact absurd ((List.mem_cons.1 hm).resolve_left nofun) (h.no_retry hu b)
      · exact absurd (finished_of_await (by simp) hf) hnf
      · exact h.flush ((List.mem_cons.1 hm).resolve_left nofun)
      · obtain hm | hm := mem_dropLast_cons hm
        · cases hm
        · exact h.read hm
      · exact absurd (finished_of_await (by simp) hf) hnf
    · next hu =>
      have hu : s.up = false := by simpa using hu
      have hall := h.all hnf
      rw [List.append_nil] at hall
      obtain ⟨sent', hs'⟩ := Inv.closeRest (s := { s with closed := true, dials := false }) h.wire
        h.output h.bare hu rfl hnf hnc h.flush h.read h.ids hall h.part
      exact ⟨sent', [], hs'⟩

/-! ## Writing -/

theorem Inv.hand (h : Inv s sent out []) (hc : s.closed = false) (payload : List Byte) :
    Inv { s with handed := s.handed ++ [⟨s.handed.length, payload⟩] } sent out
      [⟨s.handed.length, payload⟩] := by
  refine { h with
      ids := ?_, all := fun hf => ?_, finished := fun hf => absurd hf (h.not_finished hc) }
  · simp [h.ids, List.range_succ]
  · have hall := h.all hf
    rw [List.append_nil] at hall
    exact hall.append_right _

section

variable (h : Inv s sent out [m])

include h

theorem Inv.enqueue : Inv (s.enqueue m) sent out [] := by
  refine { h with bytes := ?_, all := fun hf => ?_, part := ?_ }
  · have hb := h.bytes
    simp [NodeChannel.enqueue, bytesOf, hb]
  · have hall := h.all hf
    simpa [NodeChannel.enqueue, List.append_assoc] using hall
  · refine h.part.trans (List.Sublist.subperm ?_)
    exact List.Sublist.append_left (List.sublist_append_left _ _) _

theorem Inv.hold (hu : s.up = true) : Inv (s.hold m) sent (out ++ [m]) [] := by
  obtain ⟨hout, hsock, hcl⟩ := h.up hu
  refine { h with
      output := ?_, up := fun _ => ⟨by rw [hout]; rfl, hsock, hcl⟩, bare := fun hs => ?_,
      down := fun hd => ?_, idle := fun hd => ?_, retry := fun b hm => ?_, held := fun _ => rfl,
      all := fun hf => ?_, part := ?_ }
  · have ho := h.output
    simp [NodeChannel.hold, ho]
  · have hs' : s.socket = none := hs
    simp [hs'] at hsock
  · have hd' : s.up = false := hd
    simp [hu] at hd'
  · have hd' : s.up = false := hd
    simp [hu] at hd'
  · exact absurd hm (h.no_retry hu b)
  · have hall := h.all hf
    refine List.Perm.trans ?_ hall
    simp only [NodeChannel.hold, List.append_nil, List.append_assoc]
    refine List.Perm.append_left _ (List.Perm.append_left _ ?_)
    exact List.perm_append_comm
  · rw [hout]
    exact (List.sublist_append_left _ _).subperm

theorem Inv.sendOutput {link : ℕ} (hu : s.up = true) (hq : s.passQueued = false) :
    Inv ({ s with output := s.output ++ m.pieces }.sendOutput link)
      (sent ++ [(link, m)]) [] [] := by
  have hp : s.pass = [] := by
    by_contra hne
    exact absurd (h.held hne) (by simp [hq])
  obtain ⟨hout, hsock, hcl⟩ := h.up hu
  have hout : out = [] := hout.trans hp
  have hnf := h.open_up hu
  refine ⟨?_, rfl, fun _ => ⟨hp.symm, hsock, hcl⟩, fun _ => rfl, fun _ => .inl hp,
    fun _ ho => absurd rfl ho, fun b hm => ?_, h.closing, h.flush, h.read, h.held, h.bytes, h.ids,
    fun hf => ?_, List.nil_subperm, h.closed, fun hf => absurd hf hnf⟩
  · rw [writtenOut_append, ← h.wire]
    have ho : s.output = [] := by rw [h.output, hout]; rfl
    simp [NodeChannel.sendOutput, ho, writtenOut]
  · exact absurd hm (h.no_retry hu b)
  · have hall := h.all hf
    refine List.Perm.trans ?_ hall
    simp only [NodeChannel.sendOutput, List.map_append, List.map_cons, List.map_nil,
      List.append_nil,
      List.append_assoc]
    refine List.Perm.append_left _ ?_
    have hcomm : ([m] ++ (s.pass ++ s.queue)).Perm (s.pass ++ s.queue ++ [m]) :=
      List.perm_append_comm
    simpa only [List.append_assoc] using hcomm

theorem Inv.write (hu : s.up = true) {o : Outcome} (ho : o = .held ∨ o = .flushed) :
    ∃ sent' out', Inv (s.write m o) sent' out' [] ∧ (s.write m o).up = true := by
  obtain rfl | rfl := ho
  · exact ⟨_, _, h.hold hu, hu⟩
  · rw [NodeChannel.write]
    split
    · exact ⟨_, _, h.hold hu, hu⟩
    · next hq =>
      split
      · next hs =>
        have := (h.up hu).2.1
        simp [hs] at this
      · exact ⟨_, _, h.sendOutput hu (by simpa using hq), hu⟩

end

theorem Inv.queued (h : Inv s sent out moving) :
    Inv { s with passQueued := true } sent out moving :=
  { h with held := fun _ => rfl }

/-- A write that throws, with nothing that the socket will send. -/
theorem Inv.writeFailed (h : Inv s sent out [m]) (hu : s.up = true) {c : Bool} {held : List Piece}
    (hc : c = true → held = []) :
    ∃ out', Inv ({ s with output := held }.writeFailed m c) sent out' [] := by
  obtain ⟨-, hsock, hcl⟩ := h.up hu
  have hnot : ¬ s.up = false := by simp [hu]
  have hempty : (if c then held else []) = [] := by
    split
    · exact hc ‹_›
    · rfl
  rw [NodeChannel.writeFailed, hempty]
  refine Inv.scheduleRetry ?_ (h.not_closing hcl) fun _ => (rfl : ([] : List _) = [])
  exact { h with
      output := rfl, up := fun _ => ⟨rfl, hsock, hcl⟩, bare := fun _ => rfl,
      down := fun hd => absurd hd hnot, idle := fun hd => absurd hd hnot,
      retry := fun b hm => absurd hm (h.no_retry hu b), held := fun hne => absurd rfl hne,
      bytes := by
        have hb := h.bytes
        simp [NodeChannel.enqueue, requeuePass, hb, countAll_wrap, bytesOf, add_assoc]
      all := fun hf => by
        refine List.Perm.trans ?_ (h.all hf)
        simp only [NodeChannel.enqueue, requeuePass, List.append_nil, List.append_assoc]
        refine List.Perm.append_left _ ?_
        rw [← List.append_assoc, ← List.append_assoc]
        exact List.perm_append_comm.append_right _
      part := List.nil_subperm }

theorem Inv.severs (h : Inv s sent out [m]) (hu : s.up = true) {o : Outcome} (ho : o.Severs) :
    ∃ out', Inv (s.write m o) sent out' [] := by
  obtain rfl | rfl | rfl := ho
  · show ∃ out', Inv ({ s with output := s.output }.writeFailed m false) sent out' []
    exact h.writeFailed hu nofun
  · exact h.writeFailed hu nofun
  · rw [NodeChannel.write]
    split
    · exact ⟨_, h.hold hu⟩
    · exact h.writeFailed hu nofun

theorem Inv.enforceQueueLimit (h : Inv s sent out []) (hc : s.closed = false) :
    Inv s.enforceQueueLimit sent out [] := by
  rw [NodeChannel.enforceQueueLimit]
  split
  · exact h
  · exact h.await hc (by simp) (.inl rfl)

theorem Inv.send (h : Inv s sent out []) (payload : List Byte) (o : Outcome)
    (hok : Smooth s (.send payload o)) : ∃ sent' out', Inv (s.send payload o) sent' out' [] := by
  rw [NodeChannel.send]
  split
  · exact ⟨_, _, h⟩
  · next hc =>
    have hc : s.closed = false := by simpa using hc
    have hh := h.hand hc payload
    dsimp only
    split
    · next hu =>
      obtain ho | ho | ho | ⟨hout, c, rfl⟩ := hok hu hc
      · obtain ⟨sent', out', hi, -⟩ := hh.write hu (.inl ho)
        exact ⟨sent', out', hi⟩
      · obtain ⟨sent', out', hi, -⟩ := hh.write hu (.inr ho)
        exact ⟨sent', out', hi⟩
      · exact ⟨sent, hh.severs hu ho⟩
      · exact ⟨sent, hh.writeFailed hu fun _ => hout⟩
    · exact ⟨_, _, hh.enqueue.enforceQueueLimit hc⟩

/-! ## The queue, when a link comes up -/

theorem Inv.dequeue {rest : List Message} (h : Inv s sent out []) (hu : s.up = true)
    (hq : s.queue = m :: rest) : Inv (s.dequeue m rest) sent out [m] := by
  refine { h with bytes := ?_, all := fun hf => ?_, part := ?_ }
  · have hb := h.bytes
    rw [hq] at hb
    simp [NodeChannel.dequeue, hb, bytesOf]
  · have hall := h.all hf
    rw [hq, List.append_nil] at hall
    refine List.Perm.trans ?_ hall
    simp only [List.append_assoc]
    exact List.Perm.append_left _ (List.Perm.append_left _ List.perm_append_comm)
  · rw [(h.up hu).1]
    exact (List.sublist_append_left _ _).subperm

theorem headD_ok {os : List Outcome} (h : ∀ o ∈ os, o = .held ∨ o = .flushed) :
    os.headD .held = .held ∨ os.headD .held = .flushed := by
  cases os with
  | nil => exact .inl rfl
  | cons o os => exact h o List.mem_cons_self

theorem Inv.flushLoop : ∀ (n : ℕ) {os : List Outcome} {s : NodeChannel} {sent : List (ℕ × Message)}
    {out : List Message}, (∀ o ∈ os, o = .held ∨ o = .flushed) → Inv s sent out [] → s.up = true →
    ∃ sent' out', Inv (NodeChannel.flushLoop n os s) sent' out' [] ∧
      (NodeChannel.flushLoop n os s).up = true
  | 0, _, _, _, _, _, h, hu => ⟨_, _, h, hu⟩
  | n + 1, os, s, sent, out, hos, h, hu => by
    rw [NodeChannel.flushLoop, if_pos hu]
    split
    · exact ⟨_, _, h, hu⟩
    · next m rest hq =>
      obtain ⟨sent', out', hi, hu'⟩ := (h.dequeue hu hq).write hu (headD_ok hos)
      exact Inv.flushLoop n (fun o ho => hos o (List.mem_of_mem_tail ho)) hi hu'

theorem Inv.markUp (h : Inv s sent out []) (hst : s.stack = []) (hs : s.socket.isSome)
    {os : List Outcome} (hos : ∀ o ∈ os, o = .held ∨ o = .flushed) :
    ∃ sent' out', Inv (s.markUp os) sent' out' [] := by
  rw [NodeChannel.markUp]
  split
  · exact ⟨_, _, h⟩
  · next hno =>
    rw [not_or, Bool.not_eq_true, Bool.not_eq_true] at hno
    obtain ⟨hu, hc⟩ := hno
    have hp : s.pass = [] := (h.down hu).resolve_right (by simp [hst])
    have hout := h.out_nil hst hu
    have hup : Inv { s with up := true, connected := true, buffer := [] } sent out [] :=
      { h with
          up := fun _ => ⟨hout.trans hp.symm, hs, hc⟩, down := nofun, idle := nofun,
          retry := fun b hm => by simp [hst] at hm, closing := fun hm => by simp [hst] at hm,
          finished := fun hf => absurd hf (h.not_finished hc) }
    obtain ⟨sent', out', hi, hu'⟩ := Inv.flushLoop s.queue.length hos hup rfl
    rw [if_pos hu']
    refine ⟨sent', out', Inv.await ?_ (hi.up hu').2.2 (by simp) (.inr (.inl rfl))⟩
    refine { hi with bytes := ?_ }
    have hb := hi.bytes
    split
    · next hq =>
      rw [hq]
      exact wrap_bytesOf_nil
    · exact hb

/-! ## Turns -/

section

variable (h : Inv s sent out [])

include h

theorem Inv.readRest (hst : s.stack = [])
    (hok : s.closed = true → FrameCodec.next s.maxMessageSize s.buffer = .wait) :
    ∃ out', Inv s.readRest sent out' [] := by
  rw [NodeChannel.readRest]
  split
  · exact ⟨_, h⟩
  · exact h.queued.scheduleRetry (by simp [hst]) (h.out_nil hst)
  · next payload rest hn =>
    have hc : s.closed = false := by
      by_contra hcl
      rw [hok (by simpa using hcl)] at hn
      cases hn
    exact ⟨out, (h.unread s.connected rest).await hc (by simp) (.inr (.inr ⟨rfl, hst⟩))⟩

theorem Inv.returns (hok : Smooth s .returns) : ∃ sent' out', Inv s.returns sent' out' [] := by
  rw [NodeChannel.returns]
  cases hs : s.stack with
  | nil => exact ⟨_, _, h⟩
  | cons frame st =>
    have hmem : frame ∈ s.stack := hs ▸ List.mem_cons_self
    cases frame with
    | retry b =>
      obtain ⟨hu, hp, hb⟩ := h.retry b hmem
      have hi := h.retryRest hu hp hb
      obtain ⟨hpop, hstack⟩ := retryRest_stack s st b
      refine ⟨sent, [], ?_⟩
      show Inv (({ s with stack := st } : NodeChannel).retryRest b) sent [] []
      rw [hpop]
      exact hi.pop (hstack.trans hs) (by simp) fun _ => rfl
    | close =>
      obtain ⟨hc, hu, hnf, st', hst', hnc⟩ := h.closing hmem
      obtain ⟨-, rfl⟩ := List.cons.inj (hs.symm.trans hst')
      have hall := h.all hnf
      rw [List.append_nil] at hall
      have hread : Frame.read ∉ st.dropLast := fun hm => h.read (by
        rw [hs]
        exact mem_dropLast_of_tail hm)
      obtain ⟨sent', hi⟩ := Inv.closeRest (s := { s with stack := st }) h.wire h.output h.bare hu hc
        hnf hnc (fun hm => h.flush (hs ▸ List.mem_cons_of_mem _ hm)) hread h.ids hall h.part
      exact ⟨sent', [], hi⟩
    | limit => exact (h.pop hs (by simp) (by simp)).close
    | flush => exact absurd hmem h.flush
    | up => exact ⟨_, _, h.pop hs (by simp) (by simp)⟩
    | read =>
      have hst : st = [] := by
        cases st with
        | nil => rfl
        | cons a st => exact absurd (by rw [hs]; exact List.mem_cons_self) h.read
      obtain ⟨out', hi⟩ := (h.pop hs (by simp) (by simp)).readRest hst
        (hok (by rw [hs]; rfl))
      exact ⟨sent, out', hi⟩

theorem Inv.flushPass (hst : s.stack = []) (thrown : Option Bool) :
    ∃ sent' out', Inv (s.flushPass thrown) sent' out' [] := by
  have hdown : s.pass ≠ [] → s.up = true := by
    intro hne
    by_contra hu
    exact hne ((h.down (by simpa using hu)).resolve_right (by simp [hst]))
  have hquiet : s.pass = [] → Inv { s with passQueued := false } sent out [] := fun hp =>
    { h with held := fun hne => absurd hp hne }
  rw [NodeChannel.flushPass]
  dsimp only
  split
  · next hs =>
    refine ⟨_, _, hquiet ?_⟩
    by_contra hne
    have := (h.up (hdown hne)).2.1
    simp [hs] at this
  · next link hs =>
    split
    · next hp => exact ⟨_, _, hquiet hp⟩
    · next hp =>
      have hu := hdown hp
      obtain ⟨hout, hsock, hc⟩ := h.up hu
      have hnf := h.not_finished hc
      cases thrown with
      | none =>
        refine ⟨sent ++ s.pass.map (link, ·), [], ?_, rfl, fun _ => ⟨rfl, hsock, hc⟩, fun _ => rfl,
          fun _ => .inl rfl, fun _ ho => absurd rfl ho, fun b hm => ?_, h.closing, h.flush, h.read,
          fun hne => absurd rfl hne, h.bytes, h.ids, fun hf => ?_, List.nil_subperm, h.closed,
          fun hf => absurd hf hnf⟩
        · rw [writtenOut_append, writtenOut_map, ← hout, ← h.output, ← h.wire]
          rfl
        · exact absurd hm (h.no_retry hu b)
        · have hall := h.all hf
          simpa [NodeChannel.sendOutput, Function.comp_def] using hall
      | some c =>
        obtain ⟨out', hi⟩ := Inv.scheduleRetry (s := { s with passQueued := false, connected := c })
          (h.queued.unread c s.buffer) (by simp [hst]) (h.out_nil hst)
        exact ⟨sent, out', hi⟩

theorem Inv.poll (hst : s.stack = []) : Inv s.poll sent out [] := by
  rw [NodeChannel.poll]
  split
  · exact h
  · next hno =>
    simp only [not_or, Bool.not_eq_true] at hno
    obtain ⟨hc, hu, -⟩ := hno
    have hout := h.out_nil hst hu
    exact { h with
        output := by rw [hout]; rfl, up := fun hup => absurd (hu.symm.trans hup) (by simp),
        bare := fun _ => hout, finished := fun hf => absurd hf (h.not_finished hc) }

theorem Inv.linkFails (hst : s.stack = []) (c : Bool) :
    ∃ out', Inv ({ s with connected := c } : NodeChannel).scheduleRetry sent out' [] :=
  Inv.scheduleRetry (s := { s with connected := c }) (h.queued.unread c s.buffer) (by simp [hst])
    (h.out_nil hst)

theorem Inv.step (a : Turn) (hok : Smooth s a) : ∃ sent' out', Inv (s.step a) sent' out' [] := by
  cases a with
  | send payload o => exact h.send payload o hok
  | close => exact h.close
  | returns => exact h.returns hok
  | linkUp os =>
    rw [NodeChannel.step]
    split
    · next hs => exact h.markUp hs.1 hs.2 hok
    · exact ⟨_, _, h⟩
  | arrives bytes =>
    rw [NodeChannel.step]
    split
    · next hst =>
      rw [NodeChannel.read]
      split
      · exact ⟨_, _, h⟩
      · next hs =>
        have hb := h.unread s.connected (s.buffer ++ bytes)
        obtain ⟨out', hi⟩ := hb.readRest hst fun hc => by
          -- a closed channel has no socket, unless it is in the middle of closing
          obtain hf | hm := h.closed hc
          · exact absurd (h.finished hf).2.2.1 hs
          · simp [hst] at hm
        exact ⟨sent, out', hi⟩
    · exact ⟨_, _, h⟩
  | linkFails c =>
    rw [NodeChannel.step]
    split
    · next hst =>
      obtain ⟨out', hi⟩ := h.linkFails hst (c && s.connected)
      exact ⟨sent, out', hi⟩
    · exact ⟨_, _, h⟩
  | passEnds thrown =>
    rw [NodeChannel.step]
    split
    · next hst => exact h.flushPass hst thrown
    · exact ⟨_, _, h⟩
  | poll =>
    rw [NodeChannel.step]
    split
    · next hst => exact ⟨_, _, h.poll hst⟩
    · exact ⟨_, _, h⟩

end

/-! ## Runs -/

theorem wireBytes_writtenOut (link : ℕ) : ∀ sent : List (ℕ × Message),
    ((writtenOut sent).filter (·.1 = link)).flatMap (fun x => x.2.bytes) =
      ((onLink sent link).map (·.payload)).flatMap FrameCodec.encode
  | [] => rfl
  | (l, m) :: sent => by
    have ih := wireBytes_writtenOut link sent
    have hcons : writtenOut ((l, m) :: sent) = m.pieces.map (l, ·) ++ writtenOut sent := rfl
    rw [hcons, List.filter_append, List.flatMap_append, ih]
    by_cases hl : l = link
    · have hon : onLink ((l, m) :: sent) link = m :: onLink sent link := by simp [onLink, hl]
      have hall : (m.pieces.map (l, ·)).filter (·.1 = link) = m.pieces.map (l, ·) := by
        simp [hl]
      rw [hon, hall, List.map_cons]
      congr 1
      rw [Message.pieces, FrameCodec.encode]
      split
      · next he => simp [Piece.bytes, he]
      · simp [Piece.bytes]
    · have hon : onLink ((l, m) :: sent) link = onLink sent link := by simp [onLink, hl]
      have hnone : (m.pieces.map (l, ·)).filter (·.1 = link) = [] := by
        simp [hl]
      rw [hon, hnone]
      rfl

theorem Inv.carries (h : Inv s sent out []) : Carries s := by
  have hnodup : s.handed.Nodup := by
    refine List.Nodup.of_map Message.id ?_
    rw [h.ids]
    exact List.nodup_range
  have hsub : (sent.map Prod.snd).Subperm s.handed := by
    by_cases hf : s.Finished
    · exact (h.finished hf).2.2.2.1
    · refine List.Subperm.trans ?_ (h.all hf).subperm
      rw [List.append_nil, List.append_assoc]
      exact (List.sublist_append_left _ _).subperm
  refine ⟨⟨sent, h.wire, ?_, fun x hx => ?_, hnodup, fun hc => ?_,
    fun link size chunks hall hch => ?_⟩,
    by rw [h.bytes, wrap_natCast_eq_iff], fun pre post hlog => ?_⟩
  · obtain ⟨l, hl, hs⟩ := hsub
    exact hl.nodup_iff.1 (hs.nodup hnodup)
  · exact hsub.subset (List.mem_map_of_mem hx)
  · simpa using h.all (h.not_finished hc)
  · rw [NodeChannel.wireBytes, h.wire, wireBytes_writtenOut] at hch
    refine FrameCodec.drainAll_encode (fun p hp => ?_) hch FrameCodec.drain_nil
    obtain ⟨m, hm, rfl⟩ := List.mem_map.1 hp
    exact hall m hm
  · -- the return of `close` is the last thing in the log
    have hf : s.Finished := by
      rw [NodeChannel.Finished, hlog]
      simp
    obtain ⟨-, -, -, -, pre', hpre', hno⟩ := h.finished hf
    rw [hlog] at hpre'
    rcases Runs.split_concat hpre'.symm with ⟨-, -, rfl⟩ | ⟨post', -, rfl⟩
    · rfl
    · simp at hno

theorem Inv.new (dials : Bool) (size queued : ℕ) (throws : Bool) :
    Inv (NodeChannel.new dials size queued throws) [] [] [] :=
  ⟨rfl, rfl, nofun, fun _ => rfl, fun _ => .inl rfl, fun _ ho => absurd rfl ho,
    nofun, nofun, List.not_mem_nil,
    List.not_mem_nil, fun hne => absurd rfl hne, wrap_bytesOf_nil, rfl, fun _ => List.Perm.refl _,
    List.nil_subperm, nofun, nofun⟩

/-- The message that a piece begins. -/
def Piece.begins : Piece → Option Message
  | .header m => some m
  | .body _ => none

end Cluster

end CrossByte
