import CrossByte.System.Timer.TimerWheelLife

/-!
# Passes that callbacks run, on the wheel

`TimerWheel.advanceBy` runs a pass through, its callbacks making calls only.  Here the pass is cut
at each turn, as that of the heap is: `begin` is `advanceBy` up to its loop, each `next` is one turn
of the loop of `advanceBy` or of `__fireBucket`, up to the callback, and `returns` is what follows
the callback.  In between the callback has the wheel, and may run a pass of its own.

What a pass has to itself are the tick it walks to, the ticks it has walked and the bucket it is
in, which is no longer the bucket at the cursor once a callback's pass has walked on.  The fields
`__fired`, `__maxFires`, `__checkAt`, `__partial` and `__cutShort` are the wheel's, and a callback's
pass leaves its own values in them.

## Main results

* `run_inOrder`: in every steady run the wheel is in order, and the callbacks that are running are
  those of different nodes.
-/

namespace CrossByte

open TimerBook Function

/-- The locals of an `advanceBy` under way: the bucket is the one `__fireBucket` was called for,
and `calling` the node whose callback it has called. -/
structure WheelPass where
  target : ℕ
  walked : ℕ := 0
  bucket : Option ℕ
  calling : Option ℕ := none

/-- A wheel and the passes under way, the innermost first. -/
structure PassingWheel where
  wheel : TimerWheel := {}
  passes : List WheelPass := []

namespace PassingWheel

/-- The nodes whose callbacks are running, the innermost first. -/
def running (s : PassingWheel) : List ℕ := s.passes.filterMap (·.calling)

/-- Whether the owner or a callback has the wheel, and not a pass. -/
def free (s : PassingWheel) : Bool := s.passes.head?.all (·.calling.isSome)

/-- `advanceBy` up to its loop: a bucket left unfinished is gone on with first. -/
def begin (s : PassingWheel) (dt : ℚ) (maxFires : Option ℤ) (budget : Bool) : PassingWheel :=
  let w := s.wheel.begin dt maxFires budget [] []
  { wheel := w
    passes :=
      { target := TimerWheel.targetOf w.now
        bucket := if w.unfinished then some w.cursor else none } :: s.passes }

/-- One turn of the loop of `advanceBy`, or the end of it. -/
def walk (s : PassingWheel) (p : WheelPass) (rest : List WheelPass) : PassingWheel :=
  if s.wheel.tick < p.target then
    if bucketCount ≤ p.walked ∧ bucketCount ≤ p.target - s.wheel.tick then
      { s with wheel := s.wheel.skip p.target }
    else
      let w := s.wheel.turn
      { wheel := w, passes := { p with walked := p.walked + 1, bucket := some w.cursor } :: rest }
  else { s with passes := rest }

/-- One turn of the loop of `__fireBucket`, up to the callback, or the end of it. -/
def fireNext (s : PassingWheel) (p : WheelPass) (rest : List WheelPass) (index : ℕ) (late : Bool) :
    PassingWheel :=
  match s.wheel.places.buckets index with
  | [] =>
    { wheel := { s.wheel with unfinished := false }, passes := { p with bucket := none } :: rest }
  | n :: _ =>
    let checked := { s.wheel with late := [late] }.checkLimits
    if checked.1 then
      { wheel := { checked.2 with unfinished := true, cutShort := true }, passes := rest }
    else
      let w := checked.2.unlinkFrom index n
      if !(w.node n).enabled then { s with wheel := w.retire n }
      else { wheel := w.startFiring n, passes := { p with calling := some n } :: rest }

def next (s : PassingWheel) (p : WheelPass) (rest : List WheelPass) (late : Bool) : PassingWheel :=
  match p.bucket with
  | none => s.walk p rest
  | some index => s.fireNext p rest index late

/-- The callback of `n` is back, and its timer is settled. -/
def settled (s : PassingWheel) (p : WheelPass) (rest : List WheelPass) (n : ℕ) : PassingWheel :=
  let w := { s.wheel with fired := s.wheel.fired + 1 }.set n
    { s.wheel.node n with firing := false }
  { wheel := w.settle n, passes := { p with calling := none } :: rest }

/-- `__fail` leaves the pass if there is no `onError`. -/
def returns (s : PassingWheel) (p : WheelPass) (rest : List WheelPass) (n : ℕ) (throws : Bool) :
    PassingWheel :=
  let s := s.settled p rest n
  if throws && !s.wheel.onError then
    { wheel := { s.wheel with unfinished := true }, passes := rest }
  else s

/-- One turn.  What cannot happen when it is told, such as a call while a pass has the wheel,
does nothing. -/
def step (s : PassingWheel) : PassTurn → PassingWheel
  | .call c => if s.free then { s with wheel := s.wheel.perform c } else s
  | .begin dt maxFires budget => if s.free then s.begin dt maxFires budget else s
  | .next late =>
    match s.passes with
    | [] => s
    | p :: rest => if p.calling = none then s.next p rest late else s
  | .returns throws =>
    match s.passes with
    | [] => s
    | p :: rest =>
      match p.calling with
      | none => s
      | some n => s.returns p rest n throws
  | .onError handler => { s with wheel := { s.wheel with onError := handler } }

def run (turns : List PassTurn) : PassingWheel := Runs.run step {} turns

/-! ## The wheel stays in order -/

/-- The wheel is in order, and those that are running are different nodes being called. -/
structure InOrder (s : PassingWheel) : Prop where
  order : s.wheel.InOrder
  apart : s.running.Nodup
  called : ∀ n ∈ s.running, (s.wheel.node n).firing = true

/-- The log goes on, and the wheel stays in order while everything is steady. -/
def Keeps (s s' : PassingWheel) : Prop :=
  s.wheel.book.log <+: s'.wheel.book.log ∧ (InOrder s → s'.wheel.Steadily → InOrder s')

variable {s s' s'' : PassingWheel} {w : TimerWheel} {passes rest : List WheelPass} {p : WheelPass}
  {n index : ℕ}

theorem inOrder_new : InOrder {} := ⟨TimerWheel.inOrder_new, List.nodup_nil, nofun⟩

theorem Keeps.refl (s : PassingWheel) : Keeps s s := ⟨List.prefix_rfl, fun hs _ => hs⟩

theorem Keeps.trans (h : Keeps s s') (h' : Keeps s' s'') : Keeps s s'' :=
  ⟨h.1.trans h'.1, fun hs hsteady =>
    h'.2 (h.2 hs fun e he => hsteady e (h'.1.subset he)) hsteady⟩

/-- The same callbacks are running, on a wheel that went on. -/
theorem keeps_of_goes (hw : s.wheel.Goes w) (hpasses : passes.filterMap (·.calling) = s.running) :
    Keeps s { wheel := w, passes := passes } := by
  refine ⟨hw.1, fun hs hsteady => ?_⟩
  obtain ⟨horder, hfiring⟩ := hw.2 hs.order hsteady
  refine ⟨horder, ?_, fun m hm => ?_⟩
  · change (passes.filterMap (·.calling)).Nodup
    rw [hpasses]
    exact hs.apart
  · change m ∈ passes.filterMap (·.calling) at hm
    rw [hpasses] at hm
    exact hfiring m (hs.called m hm)

/-- A pass that calls nothing may leave the stack. -/
theorem running_of_passes (hpasses : s.passes = p :: rest) (hp : p.calling = none) :
    rest.filterMap (·.calling) = s.running := by
  unfold running
  rw [hpasses, List.filterMap_cons_none hp]

/-- Or go on with other locals. -/
theorem running_of_head {p' : WheelPass} (hpasses : s.passes = p :: rest) (hp : p.calling = none)
    (hp' : p'.calling = none) : (p' :: rest).filterMap (·.calling) = s.running := by
  rw [List.filterMap_cons_none hp']
  exact running_of_passes hpasses hp

theorem running_of_calling (hpasses : s.passes = p :: rest) (hp : p.calling = some n) :
    s.running = n :: rest.filterMap (·.calling) := by
  unfold running
  rw [hpasses, List.filterMap_cons_some hp]

theorem admitOverflow_goes (w : TimerWheel) : w.Goes w.admitOverflow := by
  have hbook : w.admitOverflow.book = w.book := (TimerWheel.foldl_link_book _ _).1
  have hkeeps := TimerWheel.admitOverflow_keeps w
  refine ⟨hkeeps.1, fun hw hsteady => ⟨hkeeps.2 hw hsteady, fun m hm => ?_⟩⟩
  unfold TimerWheel.node
  rw [hbook]
  exact hm

theorem turn_goes (w : TimerWheel) : w.Goes w.turn := by
  have hturned : w.Goes { w with tick := w.tick + 1, cursor := (w.cursor + 1) % bucketCount } :=
    TimerWheel.goes_of_eq rfl rfl
  unfold TimerWheel.turn
  dsimp only
  split
  · exact hturned.trans (admitOverflow_goes _)
  · exact hturned

theorem skip_goes (w : TimerWheel) (target : ℕ) : w.Goes (w.skip target) := by
  have hskipped : w.Goes
      { w with tick := w.tick + (target - w.tick) / bucketCount * bucketCount } :=
    TimerWheel.goes_of_eq rfl rfl
  exact hskipped.trans (admitOverflow_goes _)

theorem reap_goes (hn : n ∈ w.places.buckets index) (henabled : (w.node n).enabled = false) :
    w.Goes ((w.unlinkFrom index n).retire n) := by
  have hkeeps := TimerWheel.reap_keeps hn henabled
  exact ⟨hkeeps.1, fun hw hsteady =>
    ⟨hkeeps.2 hw hsteady, fun m hm => (retire_firing w.book n false m).trans hm⟩⟩

theorem checkLimits_goes (w : TimerWheel) :
    w.Goes w.checkLimits.2 ∧ w.checkLimits.2.places = w.places := by
  unfold TimerWheel.checkLimits
  split
  · split <;> exact ⟨TimerWheel.goes_of_eq rfl rfl, rfl⟩
  · exact ⟨.refl w, rfl⟩

/-- **A callback is called**: its node was in a bucket, so it is not one of those running. -/
theorem startFiring_keeps (hpasses : s.passes = p :: rest) (hp : p.calling = none)
    (hn : n ∈ s.wheel.places.buckets index) {p' : WheelPass} :
    Keeps s { wheel := (s.wheel.unlinkFrom index n).startFiring n,
              passes := { p' with calling := some n } :: rest } := by
  refine ⟨List.prefix_append _ _, fun hs _ => ?_⟩
  obtain ⟨horder, hfiring⟩ := hs.order.startFiring hn
  have hrunning := running_of_passes hpasses hp
  have hnot : n ∉ s.running := fun hmem => hs.order.sound.not_mem_of_firing (hs.called n hmem)
    (hs.order.unlinkedFrom hn).2.2.2.2
  refine ⟨horder, ?_, fun m hm => ?_⟩
  · change (n :: rest.filterMap (·.calling)).Nodup
    rw [hrunning]
    exact List.nodup_cons.2 ⟨hnot, hs.apart⟩
  · change m ∈ n :: rest.filterMap (·.calling) at hm
    rw [hrunning] at hm
    rcases List.mem_cons.1 hm with rfl | hm
    · exact hfiring
    · have hmn : m ≠ n := fun h => hnot (h ▸ hm)
      exact (congrArg TimerNode.firing (update_of_ne hmn _ s.wheel.book.nodes)).trans
        (hs.called m hm)

theorem settle_firing (w : TimerWheel) (n m : ℕ) :
    ((w.settle n).node m).firing = (w.node m).firing := by
  rw [TimerWheel.settle_eq]
  exact settleWith_rule (Q := fun w' : TimerWheel => (w'.node m).firing = (w.node m).firing)
    fun b' _ hfiring => ⟨hfiring m, hfiring m⟩

/-- **A callback returns**, and those outside it are still running. -/
theorem settled_keeps (hpasses : s.passes = p :: rest) (hp : p.calling = some n) :
    Keeps s (s.settled p rest n) := by
  let w : TimerWheel := { s.wheel with fired := s.wheel.fired + 1 }
  let back : TimerWheel := w.set n { s.wheel.node n with firing := false }
  have hlog : s.wheel.book.log <+: (back.settle n).book.log := TimerWheel.settle_log back n
  refine ⟨hlog, fun hs _ => ?_⟩
  have hrunning := running_of_calling hpasses hp
  have hapart := hs.apart
  rw [hrunning, List.nodup_cons] at hapart
  have hfiring : (s.wheel.node n).firing = true :=
    hs.called n (by rw [hrunning]; exact List.mem_cons_self)
  have hw : w.InOrder := ⟨hs.order.sound, hs.order.lined⟩
  refine ⟨hw.settle hfiring, hapart.2, fun m hm => ?_⟩
  have hm' : m ∈ rest.filterMap (·.calling) := hm
  have hmn : m ≠ n := fun h => hapart.1 (h ▸ hm')
  have hstill : (back.node m).firing = (s.wheel.node m).firing :=
    congrArg TimerNode.firing (update_of_ne hmn _ s.wheel.book.nodes)
  refine (settle_firing back n m).trans (hstill.trans (hs.called m ?_))
  rw [hrunning]
  exact List.mem_cons_of_mem n hm'

theorem walk_keeps (hpasses : s.passes = p :: rest) (hp : p.calling = none) :
    Keeps s (s.walk p rest) := by
  unfold walk
  split
  · split
    · exact keeps_of_goes (skip_goes s.wheel p.target) rfl
    · exact keeps_of_goes (turn_goes s.wheel) (running_of_head hpasses hp hp)
  · exact keeps_of_goes (.refl s.wheel) (running_of_passes hpasses hp)

theorem fireNext_keeps (hpasses : s.passes = p :: rest) (hp : p.calling = none) (index : ℕ)
    (late : Bool) : Keeps s (s.fireNext p rest index late) := by
  unfold fireNext
  split
  · exact keeps_of_goes (TimerWheel.goes_of_eq rfl rfl) (running_of_head hpasses hp hp)
  · rename_i n _ hbucket
    let w : TimerWheel := { s.wheel with late := [late] }
    obtain ⟨hgoes, hplaces⟩ := checkLimits_goes w
    have hread : s.wheel.Goes w := TimerWheel.goes_of_eq rfl rfl
    have hchecked := hread.trans hgoes
    have hn : n ∈ w.checkLimits.2.places.buckets index := by
      rw [hplaces]
      change n ∈ s.wheel.places.buckets index
      rw [hbucket]
      exact List.mem_cons_self
    dsimp only
    split
    · exact keeps_of_goes (hchecked.trans (TimerWheel.goes_of_eq rfl rfl))
        (running_of_passes hpasses hp)
    · split
      · rename_i henabled
        rw [Bool.not_eq_true'] at henabled
        exact keeps_of_goes (hchecked.trans (reap_goes hn henabled)) rfl
      · have hlimits : Keeps s { s with wheel := w.checkLimits.2 } := keeps_of_goes hchecked rfl
        exact hlimits.trans (startFiring_keeps (s := { s with wheel := w.checkLimits.2 })
          hpasses hp hn)

theorem next_keeps (hpasses : s.passes = p :: rest) (hp : p.calling = none) (late : Bool) :
    Keeps s (s.next p rest late) := by
  unfold next
  split
  · exact walk_keeps hpasses hp
  · exact fireNext_keeps hpasses hp _ late

theorem returns_keeps (hpasses : s.passes = p :: rest) (hp : p.calling = some n) (throws : Bool) :
    Keeps s (s.returns p rest n throws) := by
  have hsettled := settled_keeps hpasses hp
  unfold returns
  dsimp only
  split
  · exact hsettled.trans (keeps_of_goes (TimerWheel.goes_of_eq rfl rfl) rfl)
  · exact hsettled

theorem begin_keeps (s : PassingWheel) (dt : ℚ) (maxFires : Option ℤ) (budget : Bool) :
    Keeps s (s.begin dt maxFires budget) :=
  keeps_of_goes (TimerWheel.goes_of_eq rfl rfl) rfl

/-- **Every turn keeps the wheel in order**, whoever runs the pass. -/
theorem step_keeps (s : PassingWheel) (turn : PassTurn) : Keeps s (s.step turn) := by
  cases turn with
  | call c =>
    unfold step
    dsimp only
    split
    · exact keeps_of_goes (TimerWheel.perform_goes s.wheel c) rfl
    · exact .refl s
  | begin dt maxFires budget =>
    unfold step
    dsimp only
    split
    · exact begin_keeps s dt maxFires budget
    · exact .refl s
  | next late =>
    unfold step
    dsimp only
    split
    · exact .refl s
    · rename_i p rest hpasses
      split
      · rename_i hp
        exact next_keeps hpasses hp late
      · exact .refl s
  | returns throws =>
    unfold step
    dsimp only
    split
    · exact .refl s
    · rename_i p rest hpasses
      split
      · exact .refl s
      · rename_i n hp
        exact returns_keeps hpasses hp throws
  | onError handler => exact keeps_of_goes (TimerWheel.goes_of_eq rfl rfl) rfl

/-- **A run keeps the wheel in order**, if everything in it is steady. -/
theorem run_inOrder (turns : List PassTurn) (hsteady : (run turns).wheel.Steadily) :
    InOrder (run turns) := by
  have hkeeps : Keeps {} (run turns) := by
    refine Runs.run_invariant (P := Keeps {}) (.refl _) (fun s turn hs => ?_) turns
    exact hs.trans (step_keeps s turn)
  exact hkeeps.2 inOrder_new hsteady

/-! ## A callback's pass and the bucket outside it -/

/-- A timer is fired at tick 1; its callback advances the clock by a tenth of a second and arms a
timer of 412 ms, for tick 513, which goes to bucket 1. -/
def firedAhead : List PassTurn :=
  [.call (.setTimeout (1 / 1000) 7), .begin (1 / 1000) none false, .next false, .next false] ++
    .begin (1 / 10) none false :: List.replicate 201 (.next false) ++
    [.call (.setTimeout (412 / 1000) 8), .returns false, .next false]

/-- The pass outside is still in bucket 1, and fires the new timer at tick 101. -/
theorem fired_ahead_of_its_time :
    (run firedAhead).wheel.runs = [(1 / 1000, 0, 1), (513 / 1000, 101, 101)] := by
  decide +kernel

end PassingWheel

end CrossByte
