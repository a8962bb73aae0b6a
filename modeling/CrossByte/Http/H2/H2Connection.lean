import CrossByte.Http.H2.H2Frames
import CrossByte.Lib.Runs

/-!
# The credit an HTTP/2 client gives back

`H2Connection.__onData`, and the two functions that give credit back with a WINDOW_UPDATE once half
of a window is spent.  DATA is counted whole, padding included, and for the connection also on a
stream that is gone.

Half of an `initialWindowSize` of 0 or 1 is 0.  An empty DATA frame is then answered with an
increment of 0, which `__onWindowUpdate` of the same class refuses as an error.

## Main results

* `credit_exact`: over every run no byte is credited twice or forgotten, and the increments are all
  positive exactly when `initialWindowSize` is at least 2.
-/

namespace CrossByte

/-- What the peer may still send, and what it sent that was not given back. -/
structure H2Window where
  recvWindow : ℤ
  unacknowledged : ℤ := 0

/-- An `H2Stream` as DATA sees it. -/
structure H2Exchange where
  window : H2Window
  bodyLength : ℤ := 0
  maxBodyLength : ℤ

/-- `H2Connection` as DATA sees it, with the WINDOW_UPDATE and RST_STREAM frames it wrote and the
bytes of DATA it received.  A connection that failed reads nothing more. -/
structure H2Connection where
  streams : ℕ → Option H2Exchange := fun _ => none
  nextStreamId : ℕ := 1
  window : H2Window := ⟨65535, 0⟩
  updates : List (ℕ × ℤ) := []
  resets : List (ℕ × H2ErrorCode) := []
  received : ℤ := 0
  failure : Option H2ConnectionError := none

namespace H2Window

def count (w : H2Window) (frame : H2Frame) : H2Window :=
  ⟨w.recvWindow - frame.length, w.unacknowledged + frame.length⟩

/-- Credit is given back once `half` is spent, with the increment that says so. -/
def topUp (w : H2Window) (half : ℤ) : H2Window × List ℤ :=
  if w.unacknowledged < half then (w, [])
  else (⟨w.recvWindow + w.unacknowledged, 0⟩, [w.unacknowledged])

/-- A window of `size` between frames. -/
structure Holds (w : H2Window) (size half : ℤ) : Prop where
  sum : w.recvWindow + w.unacknowledged = size
  nonneg : 0 ≤ w.unacknowledged
  le : w.unacknowledged ≤ max 0 (half - 1)

theorem holds_new (size half : ℤ) : Holds ⟨size, 0⟩ size half :=
  ⟨add_zero size, le_refl 0, le_max_left ..⟩

/-- A frame counted and credit given back.  Nothing in it wraps. -/
theorem Holds.topUp_count {w : H2Window} {size half : ℤ} (h : w.Holds size half)
    {frame : H2Frame} (hlength : frame.length ≤ 2 ^ 24 - 1) (hhalf : half ≤ 2 ^ 30) :
    ((w.count frame).topUp half).1.Holds size half ∧
      ((w.count frame).topUp half).2.sum + ((w.count frame).topUp half).1.unacknowledged =
        (w.count frame).unacknowledged ∧
      ∀ increment ∈ ((w.count frame).topUp half).2, half ≤ increment ∧ increment ≤ 2 ^ 31 - 1 := by
  obtain ⟨hsum, hnonneg, hle⟩ := h
  unfold topUp count
  dsimp only
  split
  · refine ⟨⟨?_, ?_, ?_⟩, ?_, by simp⟩ <;> simp <;> omega
  · refine ⟨⟨?_, ?_, ?_⟩, by simp, ?_⟩ <;> simp <;> omega

end H2Window

namespace H2Connection

/-- What happens to a connection.  A stream is closed by HEADERS with END_STREAM, by RST_STREAM and
by its caller; the length of a frame has 24 bits. -/
inductive Event where
  | opens (maxResponseBodySize : ℤ)
  | closes (id : ℕ)
  | data (frame : H2Frame) (length_le : frame.length ≤ 2 ^ 24 - 1)

/-- The stream of an identifier. -/
def put (s : H2Connection) (id : ℕ) (t : Option H2Exchange) : H2Connection :=
  { s with streams := Function.update s.streams id t }

variable (initial : ℤ)

/-- `openStream`, where it makes the stream. -/
def openStream (s : H2Connection) (maxResponseBodySize : ℤ) : H2Connection :=
  { s.put s.nextStreamId (some { window := ⟨initial, 0⟩, maxBodyLength := maxResponseBodySize }) with
    nextStreamId := s.nextStreamId + 2 }

def topUpStreamWindow (s : H2Connection) (id : ℕ) (t : H2Exchange) : H2Connection :=
  let credit := t.window.topUp (initial >>> (1 : ℕ))
  { s.put id (some { t with window := credit.1 }) with
    updates := s.updates ++ credit.2.map (id, ·) }

def topUpConnectionWindow (s : H2Connection) : H2Connection :=
  let credit := s.window.topUp ((65535 : ℤ) >>> (1 : ℕ))
  { s with window := credit.1, updates := s.updates ++ credit.2.map (0, ·) }

/-- `__onData` for a stream, when the frame carries `size` bytes. -/
def onStreamData (s : H2Connection) (frame : H2Frame) (size : ℤ) (t : H2Exchange) : H2Connection :=
  let t := { t with window := t.window.count frame }
  if 0 < t.maxBodyLength ∧ t.maxBodyLength - t.bodyLength < size then
    { s.put frame.streamId none with resets := s.resets ++ [(frame.streamId, .cancel)] }
  else if frame.has H2Flags.endStream then s.put frame.streamId none
  else s.topUpStreamWindow initial frame.streamId { t with bodyLength := t.bodyLength + size }

def onData (s : H2Connection) (frame : H2Frame) : H2Connection :=
  if frame.streamId = 0 then { s with failure := some ⟨.protocolError, "DATA on stream 0"⟩ }
  else
    let s := { s with window := s.window.count frame, received := s.received + frame.length }
    match frame.content with
    | .error e => { s with failure := some e }
    | .ok content =>
      match s.streams frame.streamId with
      | none => s.topUpConnectionWindow
      | some t => (s.onStreamData initial frame content.length t).topUpConnectionWindow

def step (s : H2Connection) : Event → H2Connection
  | .opens maxResponseBodySize => s.openStream initial maxResponseBodySize
  | .closes id => s.put id none
  | .data frame _ => if s.failure = none then s.onData initial frame else s

/-! ## What every step keeps -/

/-- The increments written for the connection. -/
def credited (s : H2Connection) : ℤ := ((s.updates.filter (·.1 = 0)).map Prod.snd).sum

/-- What was received and not given back is counted, what was given back is in range, and so is
what each open stream has left. -/
structure Exact (s : H2Connection) : Prop where
  counted : s.received = s.credited + s.window.unacknowledged
  updates : ∀ u ∈ s.updates, u.2 ≤ 2 ^ 31 - 1 ∧ (2 ≤ initial → 1 ≤ u.2)
  streams : ∀ id t, s.streams id = some t → t.window.Holds initial (initial >>> (1 : ℕ))

variable {initial} {s : H2Connection} {i : ℕ} {t : H2Exchange} {frame : H2Frame}

theorem Exact.put (h : Exact initial s) {t : Option H2Exchange}
    (ht : ∀ t', t = some t' → t'.window.Holds initial (initial >>> (1 : ℕ))) :
    Exact initial (s.put i t) := by
  refine { h with streams := fun id' t' hid' => ?_ }
  change Function.update s.streams i t id' = some t' at hid'
  by_cases heq : id' = i
  · rw [heq, Function.update_self] at hid'
    exact ht t' hid'
  · rw [Function.update_of_ne heq] at hid'
    exact h.streams id' t' hid'

/-- A stream takes DATA, is given up or ends; what is written is none of the connection's. -/
theorem Exact.onStreamData (h : Exact initial s) (hmax : initial < 2 ^ 31)
    (hid : frame.streamId ≠ 0) (hlength : frame.length ≤ 2 ^ 24 - 1) (size : ℤ)
    (ht : t.window.Holds initial (initial >>> (1 : ℕ))) :
    Exact initial (s.onStreamData initial frame size t) := by
  have hhalf : initial >>> (1 : ℕ) = initial / 2 := Int.shiftRight_eq_div_pow initial 1
  obtain ⟨hholds, -, hincrements⟩ := ht.topUp_count hlength (by omega)
  unfold H2Connection.onStreamData
  dsimp only
  split_ifs
  · exact { h.put (i := frame.streamId) (t := none) nofun with }
  · exact h.put nofun
  · have hput := h.put (i := frame.streamId) (t := some
      ⟨((t.window.count frame).topUp (initial >>> (1 : ℕ))).1, t.bodyLength + size, t.maxBodyLength⟩)
      fun t' ht' => by
        cases ht'
        exact hholds
    refine { hput with
      counted := ?_
      updates := List.forall_mem_append.2 ⟨h.updates, List.forall_mem_map.2 fun u hu => ?_⟩ }
    · simpa [credited, hid, topUpStreamWindow, H2Connection.put, List.filter_map,
        Function.comp_def] using h.counted
    · obtain ⟨hge, hle⟩ := hincrements u hu
      exact ⟨hle, fun h2 => by omega⟩

/-- What a stream does leaves the connection's window alone. -/
theorem window_onStreamData (s : H2Connection) (frame : H2Frame) (size : ℤ) (t : H2Exchange) :
    (s.onStreamData initial frame size t).window = s.window := by
  unfold H2Connection.onStreamData topUpStreamWindow
  dsimp only
  split_ifs <;> rfl

theorem Exact.topUpConnectionWindow (h : Exact initial s) {w : H2Window}
    (hw : w.Holds 65535 32767) (hcount : s.window = w.count frame)
    (hlength : frame.length ≤ 2 ^ 24 - 1) :
    Exact initial s.topUpConnectionWindow ∧ s.topUpConnectionWindow.window.Holds 65535 32767 := by
  obtain ⟨hholds, hsum, hincrements⟩ := hw.topUp_count hlength (by norm_num)
  rw [← hcount] at hholds hsum hincrements
  refine ⟨{ h with
    counted := ?_
    updates := List.forall_mem_append.2 ⟨h.updates, List.forall_mem_map.2 fun u hu => ?_⟩ }, hholds⟩
  · change s.received = _
    rw [h.counted, ← hsum]
    have hhalf : (65535 : ℤ) >>> (1 : ℕ) = 32767 := rfl
    simp [credited, H2Connection.topUpConnectionWindow, hhalf, List.filter_map,
      Function.comp_def, add_assoc]
  · obtain ⟨hge, hle⟩ := hincrements u hu
    exact ⟨hle, fun _ => le_trans (by norm_num) hge⟩

/-- A connection between frames. -/
def Fair (initial : ℤ) (s : H2Connection) : Prop :=
  Exact initial s ∧ (s.failure = none → s.window.Holds 65535 32767)

theorem Fair.onData (h : Fair initial s) (hopen : s.failure = none) (hmax : initial < 2 ^ 31)
    (hlength : frame.length ≤ 2 ^ 24 - 1) : Fair initial (s.onData initial frame) := by
  have hcounted : Exact initial { s with
      window := s.window.count frame, received := s.received + frame.length } := by
    refine { h.1 with counted := ?_ }
    rw [h.1.counted, add_assoc]
    rfl
  unfold H2Connection.onData
  split
  · exact ⟨{ h.1 with }, nofun⟩
  · rename_i hid
    dsimp only
    split
    · exact ⟨{ hcounted with }, nofun⟩
    · split
      · exact (hcounted.topUpConnectionWindow (h.2 hopen) rfl hlength).imp id fun hw _ => hw
      · rename_i content _ _ t ht
        have hstream := hcounted.onStreamData hmax hid hlength content.length (h.1.streams _ t ht)
        exact (hstream.topUpConnectionWindow (h.2 hopen) (window_onStreamData ..) hlength).imp id
          fun hw _ => hw

theorem Fair.step (hmax : initial < 2 ^ 31) (s : H2Connection) (e : Event) (h : Fair initial s) :
    Fair initial (step initial s e) := by
  cases e with
  | opens maxResponseBodySize =>
    refine ⟨{ h.1.put (i := s.nextStreamId) (t := some _) fun t' ht' => ?_ with }, h.2⟩
    cases ht'
    exact H2Window.holds_new ..
  | closes id => exact ⟨h.1.put nofun, h.2⟩
  | data frame hlength =>
    by_cases hopen : s.failure = none
    · rw [H2Connection.step, if_pos hopen]
      exact h.onData hopen hmax hlength
    · rw [H2Connection.step, if_neg hopen]
      exact h

/-! ## Every run -/

/-- An empty DATA frame on the first stream. -/
def emptyData : Event := .data ⟨.data, 0, 1, []⟩ (by decide)

/-- Over every run from a new connection, what was received is what was given back and what is
counted, each open stream has its window, and every increment fits.  Every increment is positive,
over every run, exactly when `initialWindowSize` is at least 2. -/
theorem credit_exact (hinitial : 0 ≤ initial) (hmax : initial < 2 ^ 31) :
    (∀ events, let s := Runs.run (step initial) {} events
      (∀ u ∈ s.updates, u.2 ≤ 2 ^ 31 - 1) ∧ s.received = s.credited + s.window.unacknowledged ∧
      (s.failure = none → s.window.unacknowledged < (65535 : ℤ) >>> (1 : ℕ)) ∧
      ∀ id t, s.streams id = some t →
        t.window.recvWindow + t.window.unacknowledged = initial) ∧
    ((∀ events, ∀ u ∈ (Runs.run (step initial) {} events).updates, 1 ≤ u.2) ↔ 2 ≤ initial) := by
  have hnew : Fair initial {} := ⟨⟨rfl, nofun, nofun⟩, fun _ => H2Window.holds_new ..⟩
  have hrun := Runs.run_invariant hnew (Fair.step hmax)
  refine ⟨fun events => ?_, fun hpos => ?_, fun h2 events u hu => ?_⟩
  · obtain ⟨h, hwindow⟩ := hrun events
    refine ⟨fun u hu => (h.updates u hu).1, h.counted, fun hopen => ?_, fun id t ht =>
      (h.streams id t ht).sum⟩
    exact Int.lt_of_le_sub_one (hwindow hopen).le
  · by_contra hlt
    have hzero := hpos [.opens 0, emptyData] (1, 0)
    obtain rfl | rfl : initial = 0 ∨ initial = 1 := by omega
    · exact absurd (hzero (by decide)) (by decide)
    · exact absurd (hzero (by decide)) (by decide)
  · exact ((hrun events).1.updates u hu).2 h2

theorem credit_of_65535 : (0 : ℤ) ≤ 65535 ∧ (65535 : ℤ) < 2 ^ 31 ∧
    ∀ events, ∀ u ∈ (Runs.run (step 65535) {} events).updates, 1 ≤ u.2 := by
  have hinitial : (0 : ℤ) ≤ 65535 := by decide
  have hmax : (65535 : ℤ) < 2 ^ 31 := by decide
  exact ⟨hinitial, hmax, (credit_exact hinitial hmax).2.2 (by decide)⟩

/-- A window of 1, and the update an empty DATA frame is answered with. -/
theorem empty_data_gets_zero :
    (Runs.run (step 1) {} [.opens 0, emptyData]).updates = [(1, 0)] := by
  decide

end H2Connection

end CrossByte
