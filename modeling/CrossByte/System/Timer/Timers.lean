import CrossByte.System.Timer.TimerHeapLife
import CrossByte.System.Timer.TimerWheelPasses

/-!
# What the two schedulers promise

Both schedulers promise that a timer lives until it has run or been cleared, that a node
carries one timer at a time, and that a handle whose timer is over does nothing.  The promises
are about the books and the log alone (`Lively`, `Faithful`), so they are read off `Sound` once
and hold of either scheduler in every run that is steady, the passes that callbacks run among
them.

They fail without that.  A callback that moves its own timer and pauses it, in either order,
leaves the node both paused and to be queued: `__settle` looks at `rearmed` first and queues
it, and the next pass finds it not enabled and retires it.  Cleared lazily in between, it is
retired as a paused node is, at once, and becomes a spare that is still queued; the next timer
armed takes the node and queues it again.  On the wheel there is a second way: a timer cleared
lazily and then resumed is linked a second time, where the heap's `enqueue` moves it, and the heap
calls a timer that was cleared.  On the heap a third way is a pass that a callback runs
(`TimerHeap.held_node_recycled_twice`).

## Main results

* `lively_of_steady`: a timer lives until it has run or been cleared;
* `paused_timer_is_lost`: one that was moved and paused by its callback does not;
* `faithful_of_steady`: a node carries one timer at a time, and a stale handle is inert;
* `node_is_placed_twice`: the node of a live timer can be in two places;
* `cleared_timer_is_called`: a timer cleared lazily and then resumed is called, on the heap.
-/

namespace CrossByte

namespace TimerBook

/-- One of four, and no other. -/
def ExactlyOne (p q r t : Prop) : Prop :=
  p ∧ ¬ q ∧ ¬ r ∧ ¬ t ∨ ¬ p ∧ q ∧ ¬ r ∧ ¬ t ∨ ¬ p ∧ ¬ q ∧ r ∧ ¬ t ∨ ¬ p ∧ ¬ q ∧ ¬ r ∧ t

/-- The node carries a live timer. -/
def Carries (b : TimerBook) (n : ℕ) : Prop := ∃ h, b.table h = some n

/-- The node's timer is over, and its callback is running or the pass holds it back. -/
def Awaits (b : TimerBook) (deferred : List ℕ) (n : ℕ) : Prop :=
  (b.nodes n).handle = none ∧ ((b.nodes n).firing = true ∨ n ∈ deferred)

/-- A node carries one timer at a time: every node made is in one place, no node is a spare
twice, a node is queued or held back once, and only one that is live is queued, the handles of
two timers differ unless the count of handles has gone round between them, and a callback called
is that of the timer last armed under the handle passed. -/
structure Faithful (b : TimerBook) (queued : Multiset ℕ) (deferred : List ℕ) : Prop where
  one : ∀ n < b.made,
    ExactlyOne (b.Carries n) (n ∈ b.spare) (b.Awaits deferred n) (n ∈ b.dropped)
  spare : b.spare.Nodup
  placed : (queued + deferred).Nodup
  queued : ∀ n ∈ queued, b.Carries n
  carries : ∀ g h n, b.table g = some n → b.table h = some n → g = h
  apart : ∀ before between after h m n (i j : ℚ) c d,
    b.log = before ++ .armed h m i c :: (between ++ .armed h n j d :: after) →
      m + handleCount ≤ n
  called : ∀ before after handle callback held,
    b.log = before ++ .ran handle callback held :: after →
    ∃ h, handle = some h ∧ callback = ((TimerLives.of before).life h).callback

variable {b : TimerBook} {placed : Multiset ℕ} {held : ℕ → Prop} {deferred : List ℕ}

theorem Sound.one (hs : Sound b placed held) (hheld : ∀ n, n ∈ deferred ↔ held n) {n : ℕ}
    (hn : n < b.made) :
    ExactlyOne (b.Carries n) (n ∈ b.spare) (b.Awaits deferred n) (n ∈ b.dropped) := by
  have hdisjoint : n ∈ b.spare → n ∈ b.dropped → False := fun h1 h2 =>
    List.disjoint_of_nodup_append hs.bin h1 h2
  have hbinned := hs.binned n
  rw [List.mem_append] at hbinned
  cases hhandle : (b.nodes n).handle with
  | some h =>
    have hbin : ¬ (n ∈ b.spare ∨ n ∈ b.dropped) := fun hbin => by
      cases hhandle.symm.trans (hbinned.1 hbin).2.1
    have hawaits : ¬ b.Awaits deferred n := fun hawaits => by
      cases hhandle.symm.trans hawaits.1
    exact .inl ⟨⟨h, hs.named n h hhandle⟩, fun h => hbin (.inl h), hawaits, fun h => hbin (.inr h)⟩
  | none =>
    have hcarries : ¬ b.Carries n := fun ⟨h, hh⟩ => by
      cases hhandle.symm.trans (hs.live h n hh).2
    by_cases hawaits : (b.nodes n).firing = true ∨ n ∈ deferred
    · have hbin : ¬ (n ∈ b.spare ∨ n ∈ b.dropped) := fun hbin => by
        obtain ⟨-, -, hfiring, hfree⟩ := hbinned.1 hbin
        rcases hawaits with h | h
        · cases hfiring.symm.trans h
        · exact hfree ((hheld n).1 h)
      exact .inr (.inr (.inl ⟨hcarries, fun h => hbin (.inl h), ⟨hhandle, hawaits⟩,
        fun h => hbin (.inr h)⟩))
    · have hnot : ¬ b.Awaits deferred n := fun h => hawaits h.2
      rw [not_or, Bool.not_eq_true, hheld n] at hawaits
      rcases hbinned.2 ⟨hn, hhandle, hawaits⟩ with hspare | hdropped
      · exact .inr (.inl ⟨hcarries, hspare, hnot, hdisjoint hspare⟩)
      · exact .inr (.inr (.inr ⟨hcarries, fun h => hdisjoint h hdropped, hnot, hdropped⟩))

theorem Sound.faithful (hs : Sound b placed held) (hheld : ∀ n, n ∈ deferred ↔ held n)
    (hdeferred : deferred.Nodup) (hapart : ∀ n ∈ placed, ¬ held n) :
    Faithful b placed deferred where
  one _ hn := hs.one hheld hn
  spare := (List.nodup_append.1 hs.bin).1
  placed := by
    rw [Multiset.nodup_add]
    refine ⟨hs.nodup, Multiset.coe_nodup.2 hdeferred, ?_⟩
    rw [Multiset.disjoint_left]
    exact fun hn hmem => hapart _ hn ((hheld _).1 hmem)
  queued _ hn := hs.exists_of_mem hn
  carries g h n hg hh := by
    have h1 := (hs.live g n hg).2
    rw [(hs.live h n hh).2] at h1
    exact (Option.some.inj h1).symm
  apart before between after h m n i j c d hlog := by
    have htold := hs.told
    rw [hlog] at htold
    exact htold.armed_apart
  called before after handle callback held hlog := by
    have htold := hs.told
    rw [hlog] at htold
    obtain ⟨h, hhandle, hcallback, -⟩ := htold.allows
    exact ⟨h, hhandle, hcallback⟩

end TimerBook

/-! ## Lives -/

/-- The handle does nothing: every call of the heap with it returns false and changes nothing. -/
def TimerHeap.Inert (s : TimerHeap) (h : ℕ) : Prop :=
  ∀ (immediate enabled : Bool) (policy : ResumePolicy) (time dt : ℚ),
    s.clear h immediate = (false, s) ∧ s.reschedule h time = (false, s) ∧
      s.delay h dt = (false, s) ∧ s.setEnabledBy h enabled policy time = (false, s)

/-- The same of the wheel. -/
def TimerWheel.Inert (s : TimerWheel) (h : ℕ) : Prop :=
  ∀ (immediate enabled : Bool) (policy : ResumePolicy) (time dt : ℚ),
    s.clear h immediate = (false, s) ∧ s.reschedule h time = (false, s) ∧
      s.delay h dt = (false, s) ∧ s.setEnabledBy h enabled policy time = (false, s)

theorem TimerHeap.inert_of_table {s : TimerHeap} {h : ℕ} (hh : s.book.table h = none) :
    s.Inert h := by
  intro immediate enabled policy time dt
  unfold TimerHeap.clear TimerHeap.reschedule TimerHeap.delay TimerHeap.setEnabledBy
  rw [hh]
  exact ⟨rfl, rfl, rfl, rfl⟩

theorem TimerWheel.inert_of_table {s : TimerWheel} {h : ℕ} (hh : s.book.table h = none) :
    s.Inert h := by
  intro immediate enabled policy time dt
  unfold TimerWheel.clear TimerWheel.reschedule TimerWheel.delay TimerWheel.setEnabledBy
  rw [hh]
  exact ⟨rfl, rfl, rfl, rfl⟩

/-- The log has the timer last armed under the handle, if any, ended: run to its end, cleared, or
cleared lazily and dropped. -/
def TimerBook.Over (b : TimerBook) (h : ℕ) : Prop :=
  ((TimerLives.of b.log).life h).live = false ∧ ((TimerLives.of b.log).life h).lapsing = false

/-- **A node carries one timer at a time and a stale handle is inert**, in both schedulers, in
every run in which no callback moves its own timer while that is paused or pauses it once it has
moved or resumed it, no timer is resumed that was cleared lazily or that the heap holds back, and
none is called that it holds back. -/
theorem faithful_of_steady (onHeap onWheel : List PassTurn) :
    ((∀ e ∈ (TimerHeap.run onHeap).book.log, e.SteadyOnHeap) →
      (TimerHeap.run onHeap).book.Faithful (TimerHeap.run onHeap).queue.nodes
        (TimerHeap.run onHeap).deferred ∧
      ∀ h, (TimerHeap.run onHeap).book.Over h → (TimerHeap.run onHeap).Inert h) ∧
    ((∀ e ∈ (PassingWheel.run onWheel).wheel.book.log, e.SteadyOnWheel) →
      (PassingWheel.run onWheel).wheel.book.Faithful
        (PassingWheel.run onWheel).wheel.places.all [] ∧
      ∀ h, (PassingWheel.run onWheel).wheel.book.Over h →
        (PassingWheel.run onWheel).wheel.Inert h) := by
  refine ⟨fun hlog => ?_, fun hlog => ?_⟩
  · have hs := TimerHeap.run_inOrder onHeap (TimerHeap.Separately.steadily hlog)
    have hapart := TimerHeap.run_apart onHeap hlog
    refine ⟨hs.sound.faithful hs.deferred hs.nodup fun n hn hheld => ?_, fun h hover => ?_⟩
    · exact absurd ((hapart n hn).symm.trans hheld) Bool.false_ne_true
    · exact TimerHeap.inert_of_table (hs.sound.ended h hover.1 hover.2)
  · have hs := (PassingWheel.run_inOrder onWheel hlog).order
    refine ⟨hs.sound.faithful (fun n => ?_) List.nodup_nil fun n _ => id, fun h hover => ?_⟩
    · exact iff_of_false List.not_mem_nil id
    · exact TimerWheel.inert_of_table (hs.sound.ended h hover.1 hover.2)

/-- A callback clears its own timer, arms another and runs a pass, in which a timer that was
cleared lazily is dropped and the new one, on the heap, runs. -/
def clearedOnHeap : List PassTurn :=
  [.call (.setTimeout 1 7), .call (.setTimeout 2 9), .call (.clear 1 false), .begin 1 none false,
    .next false, .call (.clear 0 true), .call (.setTimeout 0 8), .begin 1 none false, .next false,
    .returns false, .next false, .next false, .returns false, .next false]

def clearedOnWheel : List PassTurn :=
  [.call (.setTimeout (1 / 1000) 7), .call (.setTimeout (2 / 1000) 9), .call (.clear 1 false),
    .begin (1 / 1000) none false, .next false, .next false, .call (.clear 0 true),
    .call (.setTimeout 0 8), .begin (1 / 1000) none false, .next false, .next false, .next false]

theorem faithful_of_cleared :
    ((TimerHeap.run clearedOnHeap).book.Faithful (TimerHeap.run clearedOnHeap).queue.nodes
        (TimerHeap.run clearedOnHeap).deferred ∧ (TimerHeap.run clearedOnHeap).Inert 0 ∧
        (TimerHeap.run clearedOnHeap).Inert 1) ∧
      ((PassingWheel.run clearedOnWheel).wheel.book.Faithful
        (PassingWheel.run clearedOnWheel).wheel.places.all [] ∧
        (PassingWheel.run clearedOnWheel).wheel.Inert 0 ∧
        (PassingWheel.run clearedOnWheel).wheel.Inert 1) := by
  have hheap := (faithful_of_steady clearedOnHeap clearedOnWheel).1 (by decide +kernel)
  have hwheel := (faithful_of_steady clearedOnHeap clearedOnWheel).2 (by decide +kernel)
  exact ⟨⟨hheap.1, hheap.2 0 ⟨by decide +kernel, by decide +kernel⟩,
      hheap.2 1 ⟨by decide +kernel, by decide +kernel⟩⟩,
    hwheel.1, hwheel.2 0 ⟨by decide +kernel, by decide +kernel⟩,
    hwheel.2 1 ⟨by decide +kernel, by decide +kernel⟩⟩

/-- A timer that its callback moved and paused is cleared lazily, and another is armed. -/
def rearmedOnHeap : TimerHeap :=
  TimerHeap.run [.call (.setTimeout 1 7), .begin 1 none false, .next false,
    .call (.reschedule 0 2), .call (.setEnabled 0 false .keepPhase 0), .returns false, .next false,
    .call (.clear 0 false), .call (.setTimeout 5 8)]

/-- A timer is cleared lazily and resumed. -/
def resumedOnWheel : TimerWheel :=
  (PassingWheel.run [.call (.setTimeout (1 / 1000) 7), .call (.clear 0 false),
    .call (.setEnabled 0 true .fromNow (5 / 1000))]).wheel

/-- The node of a live timer is in two places of the heap, and in two buckets of the wheel. -/
theorem node_is_placed_twice :
    (rearmedOnHeap.book.table 1 = some 0 ∧ rearmedOnHeap.queue.length = 2 ∧
      (rearmedOnHeap.queue.table.slots 0).node = 0 ∧
      (rearmedOnHeap.queue.table.slots 1).node = 0) ∧
    (resumedOnWheel.book.table 0 = some 0 ∧ resumedOnWheel.places.buckets 1 = [0] ∧
      resumedOnWheel.places.buckets 5 = [0]) := by
  decide +kernel

/-- On the heap a timer that was cleared lazily and resumed is called, though it is over. -/
theorem cleared_timer_is_called :
    let before := TimerHeap.run [.call (.setTimeout 1 7), .call (.clear 0 false),
      .call (.setEnabled 0 true .fromNow 0)]
    ((TimerLives.of before.book.log).life 0).live = false ∧
      ((before.step (.begin 1 none false)).step (.next false)).running = [0] := by
  decide +kernel

end CrossByte
