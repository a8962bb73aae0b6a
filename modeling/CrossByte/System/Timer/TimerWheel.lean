import CrossByte.System.Timer.TimerBook

/-!
# The timing wheel

`crossbyte._internal.system.timer.wheel.TimerWheel` as the code computes it: ticks of
`RESOLUTION`, a ring of `BUCKETS` lists walked one tick at a time, and an overflow list for
what lies beyond the ring, put into the ring anew each time the cursor comes round to bucket
zero.

Times are exact numbers and the two rounding allowances are zero.  A bucket is the list of
its nodes from head to tail, and so is the overflow; `bucketOf` is the nodes' field `bucket`,
`none` for `-1`.  A pass that starts is told what its callbacks will do: `answers` has, for
each callback called, the calls it makes and whether it throws, and `late` the readings of the
clock against the budget.  A callback does not itself run a pass.  A limit on the fires of a
pass of `none` is the default, which no pass comes to.

Three fields are read by nothing: `armedAt` is the tick at which a node was last armed, moved
or resumed, `links` has the due time and the tick of every arming, and `runs` the due time, the
tick armed at and the tick of every callback called.
-/

namespace CrossByte

inductive TimerCall
  | setTimeout (delay : ℚ) (callback : ℕ)
  | setInterval (delay interval : ℚ) (callback : ℕ)
  | clear (handle : ℕ) (immediate : Bool)
  | reschedule (handle : ℕ) (time : ℚ)
  | delay (handle : ℕ) (dt : ℚ)
  | setEnabled (handle : ℕ) (enabled : Bool) (policy : ResumePolicy) (time : ℚ)
  deriving DecidableEq

/-- What a callback does when it is called. -/
structure TimerAnswer where
  calls : List TimerCall := []
  throws : Bool := false
  deriving DecidableEq

/-- What the owner of a scheduler does: a call, a pass, or setting or taking off `onError`. -/
inductive TimerTurn
  | call (c : TimerCall)
  | advance (dt : ℚ) (maxFires : Option ℤ) (budget : Bool) (answers : List TimerAnswer)
      (late : List Bool)
  | onError (handler : Bool)
  deriving DecidableEq

/-- What happens to a scheduler, with the turns of a pass told apart: a call, of the owner or of
the callback that runs, a pass of either, the next turn of the innermost pass, the return of its
callback, or setting or taking off `onError`. -/
inductive PassTurn
  | call (c : TimerCall)
  | begin (dt : ℚ) (maxFires : Option ℤ) (budget : Bool)
  | next (late : Bool)
  | returns (throws : Bool)
  | onError (handler : Bool)
  deriving DecidableEq

def checkDelay (delay : ℚ) : ℚ := if 0 < delay then delay else 0

/-- Whether `fired` fires are as many as a limit allows. -/
def limitReached (limit : Option ℤ) (fired : ℤ) : Bool :=
  match limit with
  | none => false
  | some most => decide (most ≤ fired)

def budgetStride : ℤ := 32

/-- The next count of fires at which the limits are looked at, `stride` on from `fired`. -/
def checkNext (maxFires : Option ℤ) (fired : ℤ) : Option ℤ :=
  if limitReached maxFires (fired + budgetStride) then maxFires else some (fired + budgetStride)

/-- The ring of buckets and the overflow list. -/
structure WheelPlaces where
  buckets : ℕ → List ℕ := fun _ => []
  overflow : List ℕ := []
  bucketOf : ℕ → Option ℕ := fun _ => none

structure TimerWheel where
  book : TimerBook := {}
  places : WheelPlaces := {}
  cursor : ℕ := 0
  tick : ℕ := 0
  now : ℚ := 0
  /-- `__partial`. -/
  unfinished : Bool := false
  cutShort : Bool := false
  fired : ℤ := 0
  checkAt : Option ℤ := none
  maxFires : Option ℤ := none
  onError : Bool := false
  answers : List TimerAnswer := []
  late : List Bool := []
  armedAt : ℕ → ℕ := fun _ => 0
  links : List (ℚ × ℕ) := []
  runs : List (ℚ × ℕ × ℕ) := []

/-- `BUCKETS`.  Proofs use that it is 512 only where they say so. -/
@[irreducible] def bucketCount : ℕ := 512

theorem bucketCount_eq : bucketCount = 512 := by
  unfold bucketCount
  rfl

theorem bucketCount_pos : 0 < bucketCount := by
  rw [bucketCount_eq]
  decide

namespace WheelPlaces

/-- `__link`, for a node due `ticks` ticks from the cursor. -/
def link (p : WheelPlaces) (cursor : ℕ) (ticks : ℤ) (n : ℕ) : WheelPlaces :=
  if (bucketCount : ℤ) ≤ ticks then
    { p with bucketOf := Function.update p.bucketOf n none, overflow := p.overflow ++ [n] }
  else
    let index := (cursor + ticks.toNat) % bucketCount
    { p with
      bucketOf := Function.update p.bucketOf n (some index)
      buckets := Function.update p.buckets index (p.buckets index ++ [n]) }

def unlinkFrom (p : WheelPlaces) (index n : ℕ) : WheelPlaces :=
  { p with
    bucketOf := Function.update p.bucketOf n none
    buckets := Function.update p.buckets index ((p.buckets index).erase n) }

def unlink (p : WheelPlaces) (n : ℕ) : WheelPlaces :=
  match p.bucketOf n with
  | some index => p.unlinkFrom index n
  | none => { p with overflow := p.overflow.erase n }

end WheelPlaces

namespace TimerWheel

def resolution : ℚ := 1 / 1000

def node (s : TimerWheel) (n : ℕ) : TimerNode := s.book.nodes n

def set (s : TimerWheel) (n : ℕ) (t : TimerNode) : TimerWheel := { s with book := s.book.set n t }

def note (s : TimerWheel) (e : TimerEvent) : TimerWheel := { s with book := s.book.note e }

def retire (s : TimerWheel) (n : ℕ) : TimerWheel := { s with book := s.book.retire n false }

def recycle (s : TimerWheel) (n : ℕ) : TimerWheel := { s with book := s.book.recycle n }

/-- The number of ticks from the cursor to the one at or after `time`, at least one. -/
def ticksTo (s : TimerWheel) (time : ℚ) : ℤ := max 1 ⌈(time - s.tick * resolution) / resolution⌉

def link (s : TimerWheel) (n : ℕ) : TimerWheel :=
  { s with places := s.places.link s.cursor (s.ticksTo (s.node n).time) n }

/-- The node is linked as it is armed, moved, resumed or due again. -/
def arm (s : TimerWheel) (n : ℕ) : TimerWheel :=
  { s.link n with
    armedAt := Function.update s.armedAt n s.tick
    links := s.links ++ [((s.node n).time, s.tick)] }

def unlinkFrom (s : TimerWheel) (index n : ℕ) : TimerWheel :=
  { s with places := s.places.unlinkFrom index n }

def unlink (s : TimerWheel) (n : ℕ) : TimerWheel := { s with places := s.places.unlink n }

/-- `__create`: the handle, or none for the error of a full table. -/
def create (s : TimerWheel) (time interval : ℚ) (callback : ℕ) : Option ℕ × TimerWheel :=
  match s.book.create time interval callback with
  | none => (none, s)
  | some (handle, n, book) => (some handle, { s with book := book }.arm n)

def setTimeout (s : TimerWheel) (delay : ℚ) (callback : ℕ) : Option ℕ × TimerWheel :=
  s.create (s.now + checkDelay delay) 0 callback

/-- An interval that is not above zero is refused by `checkInterval`. -/
def setInterval (s : TimerWheel) (delay interval : ℚ) (callback : ℕ) : Option ℕ × TimerWheel :=
  if 0 < interval then s.create (s.now + checkDelay delay) interval callback else (none, s)

def clear (s : TimerWheel) (handle : ℕ) (immediate : Bool) : Bool × TimerWheel :=
  match s.book.table handle with
  | none => (false, s)
  | some n =>
    let s := s.note (.cleared handle immediate)
    if immediate then (true, (s.unlink n).retire n)
    else if (s.node n).isPaused then (true, s.retire n)
    else (true, s.set n { s.node n with enabled := false })

def reschedule (s : TimerWheel) (handle : ℕ) (time : ℚ) : Bool × TimerWheel :=
  match s.book.table handle with
  | none => (false, s)
  | some n =>
    let t := s.node n
    let s := s.note (.moved handle t.firing t.isPaused)
    if t.firing then (true, s.set n { t with time := time, rearmed := true })
    else
      let s := (s.set n { t with time := time }).unlink n
      if t.enabled && !t.isPaused then (true, s.arm n) else (true, s)

def delay (s : TimerWheel) (handle : ℕ) (dt : ℚ) : Bool × TimerWheel :=
  match s.book.table handle with
  | none => (false, s)
  | some n => if dt < 0 then (false, s) else s.reschedule handle ((s.node n).time + dt)

def setEnabledBy (s : TimerWheel) (handle : ℕ) (enabled : Bool) (policy : ResumePolicy)
    (time : ℚ) : Bool × TimerWheel :=
  match s.book.table handle with
  | none => (false, s)
  | some n =>
    let t := s.node n
    if t.enabled = enabled then (true, s)
    else
      let at' := if time ≠ 0 then time else s.now
      if !enabled then
        let s := s.note (.paused handle t.firing t.rearmed)
        (true, (s.set n { t with enabled := false, pausedAt := some at' }).unlink n)
      else
        let s := s.note (.resumed handle t.isPaused false)
        if t.firing then (true, s.set n { t.resume policy at' with rearmed := true })
        else (true, (s.set n (t.resume policy at')).arm n)

def perform (s : TimerWheel) : TimerCall → TimerWheel
  | .setTimeout delay callback => (s.setTimeout delay callback).2
  | .setInterval delay interval callback => (s.setInterval delay interval callback).2
  | .clear handle immediate => (s.clear handle immediate).2
  | .reschedule handle time => (s.reschedule handle time).2
  | .delay handle dt => (s.delay handle dt).2
  | .setEnabled handle enabled policy time => (s.setEnabledBy handle enabled policy time).2

/-! ## A pass -/

/-- The limits of a pass, looked at before a fire: whether they stop it. -/
def checkLimits (s : TimerWheel) : Bool × TimerWheel :=
  if limitReached s.checkAt s.fired then
    if limitReached s.maxFires s.fired || s.late.headD false then (true, s)
    else (false, { s with late := s.late.tail, checkAt := checkNext s.maxFires s.fired })
  else (false, s)

/-- The node's callback is about to be called. -/
def startFiring (s : TimerWheel) (n : ℕ) : TimerWheel :=
  let t := s.node n
  { (s.note (.ran t.handle t.callback false)).set n { t with firing := true, rearmed := false } with
    runs := s.runs ++ [(t.time, s.armedAt n, s.tick)] }

/-- The callback: its calls, one after the other. -/
def callback (s : TimerWheel) : Bool × TimerWheel :=
  let answer := s.answers.headD {}
  (answer.throws, answer.calls.foldl perform { s with answers := s.answers.tail })

/-- What becomes of a timer once its callback has returned. -/
def settle (s : TimerWheel) (n : ℕ) : TimerWheel :=
  let t := s.node n
  match t.handle with
  | none => s.recycle n
  | some handle =>
    let s := s.note (.returned handle)
    if t.rearmed then s.arm n
    else if t.enabled && decide (0 < t.interval) then
      (s.set n { t with time := t.time + t.interval }).arm n
    else if t.enabled || !t.isPaused then s.retire n
    else s

/-- A node off its bucket is fired; whether the callback threw. -/
def fire (s : TimerWheel) (n : ℕ) : Bool × TimerWheel :=
  let called := (s.startFiring n).callback
  let s := called.2
  let s := { s with fired := s.fired + 1 }.set n { s.node n with firing := false }
  (called.1, s.settle n)

/-- `__fireBucket` and `__fail`: whether an exception left the pass.  Fuel as long as the
bucket is enough, since nothing is linked into the bucket at the cursor. -/
def fireBucket (index : ℕ) : ℕ → TimerWheel → Bool × TimerWheel
  | 0, s => (false, { s with unfinished := false })
  | fuel + 1, s =>
    match s.places.buckets index with
    | [] => (false, { s with unfinished := false })
    | n :: _ =>
      let checked := s.checkLimits
      if checked.1 then (false, { checked.2 with unfinished := true })
      else
        let s := checked.2.unlinkFrom index n
        if !(s.node n).enabled then fireBucket index fuel (s.retire n)
        else
          let fired := s.fire n
          if fired.1 && !fired.2.onError then (true, { fired.2 with unfinished := true })
          else fireBucket index fuel fired.2

def admitOverflow (s : TimerWheel) : TimerWheel :=
  s.places.overflow.foldl link { s with places := { s.places with overflow := [] } }

def turn (s : TimerWheel) : TimerWheel :=
  let s := { s with tick := s.tick + 1, cursor := (s.cursor + 1) % bucketCount }
  if s.cursor = 0 then s.admitOverflow else s

/-- Whole revolutions are skipped. -/
def skip (s : TimerWheel) (target : ℕ) : TimerWheel :=
  { s with tick := s.tick + (target - s.tick) / bucketCount * bucketCount }.admitOverflow

/-- The loop of `advanceBy`.  Every turn of it takes at least one tick, so as much fuel as
there are ticks to go is enough. -/
def walk (target : ℕ) : ℕ → ℕ → TimerWheel → TimerWheel
  | 0, _, s => s
  | fuel + 1, walked, s =>
    if s.tick < target then
      if bucketCount ≤ walked ∧ bucketCount ≤ target - s.tick then
        walk target fuel walked (s.skip target)
      else
        let s := s.turn
        let fired := s.fireBucket s.cursor (s.places.buckets s.cursor).length
        if fired.1 then fired.2
        else if fired.2.unfinished then { fired.2 with cutShort := true }
        else walk target fuel (walked + 1) fired.2
    else s

/-- The tick a clock has reached. -/
def targetOf (now : ℚ) : ℕ := ⌊now / resolution⌋₊

/-- What a pass sets before it walks. -/
def begin (s : TimerWheel) (dt : ℚ) (maxFires : Option ℤ) (budget : Bool)
    (answers : List TimerAnswer) (late : List Bool) : TimerWheel :=
  { s with
    now := s.now + dt
    cutShort := false
    fired := 0
    maxFires := maxFires
    checkAt := if budget then checkNext maxFires 0 else maxFires
    answers := answers
    late := late }

def advanceBy (s : TimerWheel) (dt : ℚ) (maxFires : Option ℤ) (budget : Bool)
    (answers : List TimerAnswer) (late : List Bool) : TimerWheel :=
  let s := s.begin dt maxFires budget answers late
  let target := targetOf s.now
  if s.unfinished then
    let fired := s.fireBucket s.cursor (s.places.buckets s.cursor).length
    if fired.1 then fired.2
    else if fired.2.unfinished then { fired.2 with cutShort := true }
    else walk target (target - fired.2.tick) 0 fired.2
  else walk target (target - s.tick) 0 s

def step (s : TimerWheel) : TimerTurn → TimerWheel
  | .call c => s.perform c
  | .advance dt maxFires budget answers late => s.advanceBy dt maxFires budget answers late
  | .onError handler => { s with onError := handler }

def run (turns : List TimerTurn) : TimerWheel := Runs.run step {} turns

end TimerWheel

end CrossByte
