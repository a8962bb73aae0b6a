import CrossByte.Lib.Runs

/-!
# What both timer schedulers keep of their timers

`TimerHeap` and `TimerWheel` order their timers differently and keep them alike: nodes that
carry one timer after another, a table from the live handles to their nodes, a count the
handles are taken from, and a list of spare nodes.  This module is that part: the fields
`TimerNode` and `WheelNode` share, `__newHandle`, `retire` and `__recycle`, which the two
classes have word for word, and the part of `createTimer` and `__create` before the node is
queued.

A node is a number; `nodes` gives the fields behind it.  `TimerHandle.INVALID` is `none`, and
so is a `pausedAt` of NaN.  The callbacks are numbered too: a node holds the number of its
own.  `TimerTable` is the map it implements.

The log records what happened, in order.  `TimerLife` reads from it what became of one
handle: this is the life a timer should have, told without any node.  `Sound` connects the
two, and the lemmas after it are the steps both schedulers are made of:

* `Sound.arm`: a new timer;
* `Sound.touch`: one timer's fields change;
* `Sound.retire`: one timer ends;
* `Sound.recycle`: the callback of a timer that has ended returns.

Where the nodes are queued is a parameter here, the multiset `placed`, and so is which nodes
a pass of the heap holds back, `held`.
-/

namespace CrossByte

open Function

/-- How a paused timer goes on. -/
inductive ResumePolicy
  | keepPhase
  | fromNow
  deriving DecidableEq

/-- The fields `TimerNode` and `WheelNode` share. -/
structure TimerNode where
  handle : Option ℕ := none
  time : ℚ := 0
  interval : ℚ := 0
  enabled : Bool := true
  firing : Bool := false
  rearmed : Bool := false
  pausedAt : Option ℚ := none
  callback : Option ℕ := none
  deriving DecidableEq

namespace TimerNode

def isPaused (t : TimerNode) : Bool := t.pausedAt.isSome

/-- `new` and `rearm`, which leave the same node. -/
def rearm (handle : ℕ) (time interval : ℚ) (callback : ℕ) : TimerNode :=
  { handle := some handle, time := time, interval := interval, callback := some callback }

def release (t : TimerNode) : TimerNode := { t with callback := none, pausedAt := none }

/-- The part of `setEnabledBy` that both schedulers have: how a resumed timer's time is set. -/
def resume (t : TimerNode) (policy : ResumePolicy) (at' : ℚ) : TimerNode :=
  match policy with
  | .keepPhase =>
    match t.pausedAt with
    | some paused => { t with enabled := true, time := t.time + (at' - paused), pausedAt := none }
    | none => { t with enabled := true }
  | .fromNow =>
    { t with
      enabled := true
      time := if 0 < t.interval then at' + t.interval else at'
      pausedAt := none }

end TimerNode

/-- What happened to a timer.  The flags are those of its node when it happened. -/
inductive TimerEvent
  /-- Armed: the handle given, the count it was taken from, the interval, the callback. -/
  | armed (handle count : ℕ) (interval : ℚ) (callback : ℕ)
  | cleared (handle : ℕ) (immediate : Bool)
  /-- Moved by `reschedule` or `delay`. -/
  | moved (handle : ℕ) (firing paused : Bool)
  | paused (handle : ℕ) (firing rearmed : Bool)
  | resumed (handle : ℕ) (paused held : Bool)
  /-- A callback was called, with this handle. -/
  | ran (handle callback : Option ℕ) (held : Bool)
  /-- A callback returned, its timer not over by then. -/
  | returned (handle : ℕ)
  /-- The handle was taken off the table. -/
  | retired (handle : ℕ)
  deriving DecidableEq

/-! ## The life of a timer -/

/-- What became of the timer last armed under a handle. -/
structure TimerLife where
  /-- Armed, and neither cleared nor run to its end. -/
  live : Bool := false
  /-- Cleared, but not at once, and still on the table. -/
  lapsing : Bool := false
  paused : Bool := false
  /-- It runs once. -/
  once : Bool := false
  /-- Moved, paused or resumed since its callback was called. -/
  touched : Bool := false
  callback : Option ℕ := none
  deriving DecidableEq

/-- The lives under all handles, and the count the next handle is taken from, or a later
one. -/
structure TimerLives where
  life : ℕ → TimerLife := fun _ => {}
  counted : ℕ := 0

namespace TimerLife

/-- What an event makes of the life under handle `h`. -/
def after (h : ℕ) (l : TimerLife) : TimerEvent → TimerLife
  | .armed g _ interval callback =>
    if g = h then { live := true, once := decide (interval ≤ 0), callback := some callback } else l
  | .cleared g immediate => if g = h then { l with live := false, lapsing := !immediate } else l
  | .moved g _ _ => if g = h then { l with touched := true } else l
  | .paused g _ _ => if g = h then { l with paused := true, touched := true } else l
  | .resumed g _ _ => if g = h then { l with paused := false, touched := true } else l
  | .ran g _ _ => if g = some h then { l with touched := false } else l
  | .returned g => if g = h ∧ l.once ∧ !l.touched then { l with live := false } else l
  | .retired g => if g = h then { l with lapsing := false } else l

end TimerLife

/-- `MAX_HANDLE` and one: the number of handles. -/
def handleCount : ℕ := 2 ^ 31

namespace TimerLives

def step (s : TimerLives) (e : TimerEvent) : TimerLives where
  life h := (s.life h).after h e
  counted :=
    match e with
    | .armed _ count _ _ => count + 1
    | _ => s.counted

/-- What may be told of a timer: handles are counted up, and a callback called is that of a
timer which was armed under the handle passed, is not over and is not paused. -/
def Allows (s : TimerLives) : TimerEvent → Prop
  | .armed h count _ _ => s.counted ≤ count ∧ h = count % handleCount
  | .ran handle callback _ => ∃ h, handle = some h ∧ callback = (s.life h).callback ∧
      (s.life h).paused = false ∧ ((s.life h).live = true ∨ (s.life h).lapsing = true)
  | _ => True

/-- The lives a log tells. -/
def of (log : List TimerEvent) : TimerLives := Runs.run step {} log

/-- Every event of the log was allowed when it happened. -/
def Told (log : List TimerEvent) : Prop := Runs.Along step Allows {} log

theorem of_concat (log : List TimerEvent) (e : TimerEvent) : of (log ++ [e]) = (of log).step e :=
  Runs.run_concat log e

theorem told_concat (log : List TimerEvent) (e : TimerEvent) :
    Told (log ++ [e]) ↔ Told log ∧ (of log).Allows e := Runs.along_concat log e

variable {before : List TimerEvent}

/-- An event in a log that is told was allowed there. -/
theorem Told.allows {after : List TimerEvent} {e : TimerEvent} (h : Told (before ++ e :: after)) :
    (of before).Allows e :=
  (((Runs.along_append before (e :: after)).1 h).2).1

theorem counted_mono (s : TimerLives) (log : List TimerEvent) (h : Runs.Along step Allows s log) :
    s.counted ≤ (Runs.run step s log).counted := by
  induction log generalizing s with
  | nil => exact le_rfl
  | cons e log ih =>
    refine le_trans ?_ (ih _ h.2)
    cases e with
    | armed g count interval callback => exact h.1.1.trans (Nat.le_succ count)
    | _ => exact le_rfl

/-- **Two timers under one handle are a whole count of handles apart.** -/
theorem Told.armed_apart {between after : List TimerEvent} {h m n : ℕ} {i j : ℚ} {a b : ℕ}
    (hlog : Told (before ++ .armed h m i a :: (between ++ .armed h n j b :: after))) :
    m + handleCount ≤ n := by
  have hm := hlog.allows
  have hrest := ((Runs.along_append _ _).1 hlog).2.2
  have hn := ((Runs.along_append _ _).1 hrest).2.1
  have hle := counted_mono _ _ ((Runs.along_append _ _).1 hrest).1
  obtain ⟨-, hhm⟩ := hm
  obtain ⟨hcn, hhn⟩ := hn
  have hlt : m < n := Nat.lt_of_succ_le (hle.trans hcn)
  have hmod : m % handleCount = n % handleCount := hhm.symm.trans hhn
  have hdvd : handleCount ∣ n - m := (Nat.modEq_iff_dvd' hlt.le).1 hmod
  have := Nat.le_of_dvd (by omega) hdvd
  omega

end TimerLives

namespace TimerEvent

/-- The event is about the timer under `h`, which was armed before. -/
def About (h : ℕ) : TimerEvent → Prop
  | .armed _ _ _ _ => False
  | .cleared g _ | .moved g _ _ | .paused g _ _ | .resumed g _ _ | .returned g | .retired g => g = h
  | .ran g _ _ => g = some h

theorem About.after_ne {h g : ℕ} {e : TimerEvent} (he : e.About h) (hg : g ≠ h) (l : TimerLife) :
    l.after g e = l := by
  cases e with
  | armed => exact he.elim
  | ran g' _ _ =>
    obtain rfl : g' = some h := he
    exact if_neg fun heq => hg (Option.some.inj heq).symm
  | returned g' =>
    obtain rfl : g' = h := he
    exact if_neg fun heq => hg heq.1.symm
  | cleared g' | moved g' | paused g' | resumed g' | retired g' =>
    obtain rfl : g' = h := he
    exact if_neg hg.symm

theorem About.counted {h : ℕ} {e : TimerEvent} (he : e.About h) (s : TimerLives) :
    (s.step e).counted = s.counted := by
  cases e with
  | armed => exact he.elim
  | _ => rfl

/-- A callback neither moves its own timer while that is paused nor pauses it once it has
moved or resumed it, and none is called whose node a pass holds back. -/
def Steady : TimerEvent → Prop
  | .moved _ firing parked => ¬ (firing = true ∧ parked = true)
  | .paused _ firing rearmed => ¬ (firing = true ∧ rearmed = true)
  | .ran _ _ held => held = false
  | _ => True

instance : DecidablePred Steady
  | .moved _ firing parked => inferInstanceAs (Decidable (¬ (firing = true ∧ parked = true)))
  | .paused _ firing rearmed => inferInstanceAs (Decidable (¬ (firing = true ∧ rearmed = true)))
  | .ran _ _ held => inferInstanceAs (Decidable (held = false))
  | .armed .. | .cleared .. | .resumed .. | .returned _ | .retired _ => instDecidableTrue

end TimerEvent

/-! ## The book -/

/-- The nodes, the table of the live timers, the count of handles, and the spare nodes.
`dropped`, `counted` and `log` are read by nothing: the nodes let go of, the count of the
handles with those passed over and not reduced, and what happened. -/
structure TimerBook where
  nodes : ℕ → TimerNode := fun _ => {}
  made : ℕ := 0
  table : ℕ → Option ℕ := fun _ => none
  size : ℕ := 0
  nextHandle : ℕ := 0
  handlesWrapped : Bool := false
  spare : List ℕ := []
  dropped : List ℕ := []
  counted : ℕ := 0
  log : List TimerEvent := []

open scoped List

namespace TimerBook

def maxTimers : ℕ := 2 ^ 19

def spareLimit : ℕ := 4096

def set (b : TimerBook) (n : ℕ) (t : TimerNode) : TimerBook :=
  { b with nodes := Function.update b.nodes n t }

def note (b : TimerBook) (e : TimerEvent) : TimerBook := { b with log := b.log ++ [e] }

def recycle (b : TimerBook) (n : ℕ) : TimerBook :=
  let b := b.set n (b.nodes n).release
  if b.spare.length < spareLimit then { b with spare := n :: b.spare }
  else { b with dropped := n :: b.dropped }

/-- `retire` and `__retire`; `held` is the node's flag of that name, which the wheel's nodes
do not have. -/
def retire (b : TimerBook) (n : ℕ) (held : Bool) : TimerBook :=
  match (b.nodes n).handle with
  | none => b
  | some h =>
    if (b.table h).isSome then
      let b := { b with
        table := Function.update b.table h none, size := b.size - 1
        log := b.log ++ [TimerEvent.retired h] }
      let b := b.set n { b.nodes n with handle := none }
      if !(b.nodes n).firing && !held then b.recycle n else b
    else b

/-- The loop of `__newHandle`, past the handles still held; beside the handle goes the count
of them, not reduced.  Fuel `size` is enough. -/
def passHeld (b : TimerBook) : ℕ → ℕ × ℕ → ℕ × ℕ
  | 0, at' => at'
  | fuel + 1, (handle, count) =>
    if (b.table handle).isSome then b.passHeld fuel ((handle + 1) % handleCount, count + 1)
    else (handle, count)

/-- `__newHandle`, before the count goes on. -/
def newHandle (b : TimerBook) : ℕ × ℕ :=
  if b.handlesWrapped then b.passHeld b.size (b.nextHandle, b.counted)
  else (b.nextHandle, b.counted)

/-- `__nextHandle`, once `handle` is given. -/
def passed (b : TimerBook) (handle count : ℕ) : TimerBook :=
  { b with
    nextHandle := (handle + 1) % handleCount
    handlesWrapped := b.handlesWrapped || (handle + 1) % handleCount = 0
    counted := count + 1 }

/-- A spare node, or a new one. -/
def takeNode (b : TimerBook) : ℕ × TimerBook :=
  match b.spare with
  | n :: spare => (n, { b with spare := spare })
  | [] => (b.made, { b with made := b.made + 1, spare := [] })

/-- `createTimer` and `__create` up to the queue: the handle and the node, or the error. -/
def create (b : TimerBook) (time interval : ℚ) (callback : ℕ) : Option (ℕ × ℕ × TimerBook) :=
  if maxTimers ≤ b.size then none
  else
    let given := b.newHandle
    let b := b.passed given.1 given.2
    let taken := b.takeNode
    let b := taken.2.set taken.1 (.rearm given.1 time interval callback)
    let b := { b with table := Function.update b.table given.1 (some taken.1), size := b.size + 1 }
    some (given.1, taken.1, b.note (.armed given.1 given.2 interval callback))

@[simp] theorem set_nodes (b : TimerBook) (n : ℕ) (t : TimerNode) :
    (b.set n t).nodes = update b.nodes n t := rfl

/-! ## The books in order -/

/-- The life agrees with the node that carries it. -/
structure Fits (l : TimerLife) (t : TimerNode) : Prop where
  live : l.live = true ∨ l.lapsing = true
  paused : l.paused = t.isPaused
  once : l.once = decide (t.interval ≤ 0)
  callback : t.callback = l.callback
  stopped : t.enabled = false → t.isPaused = true ∨ l.lapsing = true
  parked : t.isPaused = true → t.enabled = false
  lapsed : l.lapsing = true → l.live = false
  touched : t.firing = true → (l.touched = true ↔ t.rearmed = true ∨ t.isPaused = true)
  rearmed : t.firing = true → t.rearmed = true → t.isPaused = false

variable {rearmed : Bool} {held' : ℕ → Prop} {log' : List TimerEvent} {count : ℕ}

namespace Fits

variable {l : TimerLife} {t : TimerNode}

/-- Cleared lazily. -/
theorem lapse (hf : Fits l t) :
    Fits { l with live := false, lapsing := true } { t with enabled := false } :=
  { hf with live := .inr rfl, stopped := fun _ => .inr rfl, parked := fun _ => rfl,
            lapsed := fun _ => rfl }

theorem move (hf : Fits l t) (hfiring : t.firing = false) (time : ℚ) :
    Fits { l with touched := true } { t with time := time } :=
  { hf with touched := fun h => absurd (hfiring.symm.trans h) Bool.false_ne_true }

theorem move_firing (hf : Fits l t) (hpaused : t.isPaused = false) (time : ℚ) :
    Fits { l with touched := true } { t with time := time, rearmed := true } :=
  { hf with touched := fun _ => iff_of_true rfl (.inl rfl), rearmed := fun _ _ => hpaused }

theorem pause (hf : Fits l t) (hsteady : ¬ (t.firing = true ∧ t.rearmed = true)) (at' : ℚ) :
    Fits { l with paused := true, touched := true }
      { t with enabled := false, pausedAt := some at' } :=
  { hf with
    paused := rfl
    stopped := fun _ => .inl rfl
    parked := fun _ => rfl
    touched := fun _ => iff_of_true rfl (.inr rfl)
    rearmed := fun hfiring hrearmed => absurd ⟨hfiring, hrearmed⟩ hsteady }

theorem resume_fields (t : TimerNode) (policy : ResumePolicy) (at' : ℚ) :
    (t.resume policy at').isPaused = false ∧ (t.resume policy at').enabled = true ∧
      (t.resume policy at').interval = t.interval ∧ (t.resume policy at').callback = t.callback ∧
      (t.resume policy at').firing = t.firing ∧ (t.resume policy at').handle = t.handle := by
  cases policy with
  | keepPhase =>
    cases hpaused : t.pausedAt <;> simp [TimerNode.resume, TimerNode.isPaused, hpaused]
  | fromNow => simp [TimerNode.resume, TimerNode.isPaused]

theorem resume (hf : Fits l t) (policy : ResumePolicy) (at' : ℚ)
    (hrearmed : t.firing = true → rearmed = true) :
    Fits { l with paused := false, touched := true }
      { t.resume policy at' with rearmed := rearmed } := by
  obtain ⟨hpaused, henabled, hinterval, hcallback, hfiring, -⟩ := resume_fields t policy at'
  exact
    { live := hf.live
      paused := hpaused.symm
      once := hf.once.trans (by rw [hinterval])
      callback := hcallback.trans hf.callback
      stopped := fun h => absurd (henabled.symm.trans h) (by decide)
      parked := fun h => absurd (hpaused.symm.trans h) Bool.false_ne_true
      lapsed := hf.lapsed
      touched := fun h => iff_of_true rfl (.inl (hrearmed (hfiring.symm.trans h)))
      rearmed := fun _ _ => hpaused }

theorem call (hf : Fits l t) (hpaused : t.isPaused = false) :
    Fits { l with touched := false } { t with firing := true, rearmed := false } :=
  { hf with
    touched := fun _ => iff_of_false Bool.false_ne_true fun h =>
      h.elim Bool.false_ne_true fun h => absurd (hpaused.symm.trans h) Bool.false_ne_true
    rearmed := fun _ h => absurd h Bool.false_ne_true }

/-- Its callback has returned. -/
theorem rest (hf : Fits l t) (time : ℚ) : Fits l { t with firing := false, time := time } :=
  { hf with touched := nofun, rearmed := nofun }

/-- A timer is retired when its callback has returned only if it was cleared lazily, or runs
once and was left alone. -/
theorem finished (hf : Fits l t) (hfiring : t.firing = true) (hrearmed : ¬ t.rearmed = true)
    (hagain : ¬ (t.enabled && decide (0 < t.interval)) = true)
    (hend : (t.enabled || !t.isPaused) = true) :
    l.live = false ∨ l.once = true ∧ l.touched = false := by
  cases henabled : t.enabled with
  | false =>
    rw [henabled, Bool.false_or, Bool.not_eq_true'] at hend
    refine .inl (hf.lapsed ((hf.stopped henabled).resolve_left fun hpaused => ?_))
    cases hend.symm.trans hpaused
  | true =>
    rw [henabled, Bool.true_and, decide_eq_true_iff] at hagain
    refine .inr ⟨hf.once.trans (decide_eq_true (not_lt.1 hagain)), ?_⟩
    rw [← Bool.not_eq_true]
    intro htouched
    rcases (hf.touched hfiring).1 htouched with hre | hpaused
    · exact hrearmed hre
    · cases (hf.parked hpaused).symm.trans henabled

end Fits

/-- The books are in order, with the nodes of `placed` queued and those of `held` held back. -/
structure Sound (b : TimerBook) (placed : Multiset ℕ) (held : ℕ → Prop) : Prop where
  live : ∀ h n, b.table h = some n → n < b.made ∧ (b.nodes n).handle = some h
  named : ∀ n h, (b.nodes n).handle = some h → b.table h = some n
  sized : ∃ S : Finset ℕ, S.card = b.size ∧ ∀ h, h ∈ S ↔ (b.table h).isSome
  nodup : placed.Nodup
  placed : ∀ n ∈ placed, (∃ h, (b.nodes n).handle = some h) ∧ (b.nodes n).firing = false ∧
    (b.nodes n).isPaused = false
  bin : (b.spare ++ b.dropped).Nodup
  binned : ∀ n, n ∈ b.spare ++ b.dropped ↔
    n < b.made ∧ (b.nodes n).handle = none ∧ (b.nodes n).firing = false ∧ ¬ held n
  unmade : ∀ n, b.made ≤ n → (b.nodes n).firing = false ∧ ¬ held n
  fits : ∀ h n, b.table h = some n → Fits ((TimerLives.of b.log).life h) (b.nodes n)
  alive : ∀ h, ((TimerLives.of b.log).life h).live = true → (b.table h).isSome
  ended : ∀ h, ((TimerLives.of b.log).life h).live = false →
    ((TimerLives.of b.log).life h).lapsing = false → b.table h = none
  told : TimerLives.Told b.log
  counted : (TimerLives.of b.log).counted ≤ b.counted
  next : b.nextHandle = b.counted % handleCount
  wrapped : b.handlesWrapped = true ↔ handleCount ≤ b.counted
  early : b.counted < handleCount → ∀ h, (b.table h).isSome → h < b.counted

theorem sound_new : Sound {} 0 fun _ => False where
  live _ _ h := by cases h
  named _ _ h := by cases h
  sized := ⟨∅, rfl, fun _ => by simp⟩
  nodup := Multiset.nodup_zero
  placed _ h := absurd h (Multiset.notMem_zero _)
  bin := List.nodup_nil
  binned n := by simp
  unmade _ _ := ⟨rfl, id⟩
  fits _ _ h := by cases h
  alive _ h := by cases h
  ended _ _ _ := rfl
  told := trivial
  counted := le_rfl
  next := rfl
  wrapped := by simp [handleCount]
  early _ _ h := by cases h

variable {b : TimerBook} {placed : Multiset ℕ} {held : ℕ → Prop} {h n : ℕ} {e : TimerEvent}

variable {b' : TimerBook} {t : TimerNode} {log : List TimerEvent} {m g callback : ℕ}
  {time interval : ℚ}

section

variable (hs : Sound b placed held)

include hs

theorem Sound.exists_of_mem (hn : n ∈ placed) : ∃ h, b.table h = some n := by
  obtain ⟨⟨h, hh⟩, -⟩ := hs.placed n hn
  exact ⟨h, hs.named n h hh⟩

theorem Sound.le {placed' : Multiset ℕ} (hle : placed' ≤ placed) : Sound b placed' held :=
  { hs with
    nodup := Multiset.nodup_of_le hle hs.nodup
    placed := fun n hn => hs.placed n (Multiset.mem_of_le hle hn) }

/-- A live node that is neither called nor paused may be queued. -/
theorem Sound.place (hh : b.table h = some n) (hn : n ∉ placed)
    (hfiring : (b.nodes n).firing = false) (hpaused : (b.nodes n).isPaused = false) :
    Sound b (n ::ₘ placed) held :=
  { hs with
    nodup := Multiset.nodup_cons.2 ⟨hn, hs.nodup⟩
    placed := fun m hm => by
      rcases Multiset.mem_cons.1 hm with rfl | hm
      · exact ⟨⟨h, (hs.live h m hh).2⟩, hfiring, hpaused⟩
      · exact hs.placed m hm }

/-- A live node may be held back, and one held back let go. -/
theorem Sound.hold (heq : ∀ m, (b.nodes m).handle = none → (held' m ↔ held m)) :
    Sound b placed held' :=
  { hs with
    binned := fun m => by
      rw [hs.binned m]
      refine and_congr_right fun _ => and_congr_right fun hnone => and_congr_right fun _ => ?_
      rw [heq m hnone]
    unmade := fun m hm => by
      refine ⟨(hs.unmade m hm).1, fun hheld => (hs.unmade m hm).2 ((heq m ?_).1 hheld)⟩
      cases hh : (b.nodes m).handle with
      | none => rfl
      | some h => exact absurd (hs.live h m (hs.named m h hh)).1 (by omega) }

theorem Sound.table_ne (hh : b.table h = some n) (hg : b.table g = some m) (hne : g ≠ h) :
    m ≠ n := by
  rintro rfl
  have h1 := (hs.live h m hh).2
  rw [(hs.live g m hg).2] at h1
  exact hne (Option.some.inj h1)

theorem Sound.not_binned (hh : b.table h = some n) : n ∉ b.spare ++ b.dropped := fun hm => by
  cases ((hs.binned n).1 hm).2.1.symm.trans (hs.live h n hh).2

end

/-- What an event about one handle leaves of the lives under the others. -/
theorem life_note_ne (he : e.About h) (hg : g ≠ h) (log : List TimerEvent) :
    (TimerLives.of (log ++ [e])).life g = (TimerLives.of log).life g := by
  rw [TimerLives.of_concat]
  exact he.after_ne hg _

theorem life_note (log : List TimerEvent) (e : TimerEvent) (h : ℕ) :
    (TimerLives.of (log ++ [e])).life h = ((TimerLives.of log).life h).after h e := by
  rw [TimerLives.of_concat]
  rfl

theorem after_cleared (l : TimerLife) (h : ℕ) (immediate : Bool) :
    l.after h (.cleared h immediate) = { l with live := false, lapsing := !immediate } := if_pos rfl

theorem after_moved (l : TimerLife) (h : ℕ) (firing parked : Bool) :
    l.after h (.moved h firing parked) = { l with touched := true } := if_pos rfl

theorem after_paused (l : TimerLife) (h : ℕ) (firing rearmed : Bool) :
    l.after h (.paused h firing rearmed) = { l with paused := true, touched := true } := if_pos rfl

theorem after_resumed (l : TimerLife) (h : ℕ) (parked held : Bool) :
    l.after h (.resumed h parked held) = { l with paused := false, touched := true } := if_pos rfl

theorem after_ran (l : TimerLife) (h : ℕ) (callback : Option ℕ) (back : Bool) :
    l.after h (.ran (some h) callback back) = { l with touched := false } := if_pos rfl

/-- A timer that is due again, or was touched, is not over when its callback returns. -/
theorem after_returned_of_ne (l : TimerLife) (h : ℕ) (hl : l.once = false ∨ l.touched = true) :
    l.after h (.returned h) = l := by
  refine if_neg fun hover => ?_
  rcases hl with hl | hl
  · cases hl.symm.trans hover.2.1
  · exact absurd hover.2.2 (by rw [hl]; decide)

theorem after_returned_live (l : TimerLife) (h : ℕ)
    (hl : l.live = false ∨ l.once = true ∧ l.touched = false) :
    (l.after h (.returned h)).live = false := by
  unfold TimerLife.after
  dsimp only
  split
  · rfl
  · rename_i hnot
    refine hl.resolve_right fun hover => hnot ⟨rfl, hover.1, ?_⟩
    rw [hover.2]
    rfl

/-- The log goes on by what is told of the timer under `h`, if anything. -/
def Tells (h : ℕ) (log log' : List TimerEvent) : Prop :=
  log' = log ∨ ∃ e : TimerEvent, e.About h ∧ (TimerLives.of log).Allows e ∧ log' = log ++ [e]

theorem Tells.of_about (he : e.About h) (hallows : (TimerLives.of b.log).Allows e) :
    Tells h b.log (b.log ++ [e]) := .inr ⟨e, he, hallows, rfl⟩

theorem Tells.life_ne (ht : Tells h log log') (hg : g ≠ h) :
    (TimerLives.of log').life g = (TimerLives.of log).life g := by
  rcases ht with rfl | ⟨e, he, -, rfl⟩
  · rfl
  · exact life_note_ne he hg log

theorem Tells.told (ht : Tells h log log') (hlog : TimerLives.Told log) : TimerLives.Told log' := by
  rcases ht with rfl | ⟨e, -, hallows, rfl⟩
  · exact hlog
  · exact (TimerLives.told_concat log e).2 ⟨hlog, hallows⟩

theorem Tells.counted (ht : Tells h log log') :
    (TimerLives.of log').counted = (TimerLives.of log).counted := by
  rcases ht with rfl | ⟨e, he, -, rfl⟩
  · rfl
  · rw [TimerLives.of_concat, he.counted]

section

variable (hs : Sound b placed held)

include hs

/-- **One node and one entry of the table are written**: the node carries the timer of the entry,
or the entry is empty and the node's timer over. -/
theorem Sound.write (entry : Option ℕ) (size : ℕ) (hmade : n < b.made)
    (hown : ∀ g, b.table g = some n → g = h) (hfree : ∀ m, b.table h = some m → m = n)
    (hcarry : entry = some n ∧ t.handle = some h ∧ Fits ((TimerLives.of log).life h) t ∨
      entry = none ∧ t.handle = none ∧ ((TimerLives.of log).life h).live = false)
    (hsized : ∃ S : Finset ℕ, S.card = size ∧ ∀ g, g ∈ S ↔ (update b.table h entry g).isSome)
    (hplaced : n ∈ placed → t.handle = some h ∧ t.firing = false ∧ t.isPaused = false)
    (hbin : n ∉ b.spare ++ b.dropped) (hbin' : t.handle = none → held' n)
    (hheld : ∀ m, m ≠ n → (held' m ↔ held m))
    (hlife : ∀ g, g ≠ h → (TimerLives.of log).life g = (TimerLives.of b.log).life g)
    (htold : TimerLives.Told log) (hcounted : (TimerLives.of log).counted ≤ b.counted)
    (hearly : entry.isSome → b.counted < handleCount → h < b.counted) :
    Sound { b with nodes := update b.nodes n t, table := update b.table h entry, size := size
                   log := log } placed held' := by
  set b' : TimerBook := { b with
    nodes := update b.nodes n t, table := update b.table h entry, size := size, log := log }
  have hself : b'.nodes n = t := update_self ..
  have hother : ∀ m, m ≠ n → b'.nodes m = b.nodes m := fun m hm => update_of_ne hm ..
  have hentry : b'.table h = entry := update_self ..
  have htable : ∀ g, g ≠ h → b'.table g = b.table g := fun g hg => update_of_ne hg ..
  -- an entry is that of `h`, or as it was and another node's
  have hcases : ∀ g m, b'.table g = some m →
      g = h ∧ m = n ∧ t.handle = some h ∧ Fits ((TimerLives.of log).life h) t ∨
        g ≠ h ∧ m ≠ n ∧ b.table g = some m := by
    intro g m hg
    by_cases hgh : g = h
    · rw [hgh, hentry] at hg
      rcases hcarry with ⟨rfl, hcarry⟩ | ⟨rfl, -⟩
      · exact .inl ⟨hgh, (Option.some.inj hg).symm, hcarry⟩
      · cases hg
    · rw [htable g hgh] at hg
      exact .inr ⟨hgh, fun hmn => hgh (hown g (hmn ▸ hg)), hg⟩
  refine { hs with live := ?_, named := ?_, sized := hsized, placed := ?_, binned := ?_
                   unmade := ?_, fits := ?_, alive := ?_, ended := ?_, told := htold
                   counted := hcounted, early := ?_ }
  · intro g m hg
    rcases hcases g m hg with ⟨rfl, rfl, hhandle, -⟩ | ⟨-, hmn, hg'⟩
    · exact ⟨hmade, hself ▸ hhandle⟩
    · exact hother m hmn ▸ hs.live g m hg'
  · intro m g hg
    by_cases hmn : m = n
    · rw [hmn, hself] at hg
      rcases hcarry with ⟨rfl, hhandle, -⟩ | ⟨-, hnone, -⟩
      · obtain rfl : h = g := Option.some.inj (hhandle.symm.trans hg)
        rw [hentry, hmn]
      · cases hnone.symm.trans hg
    · rw [hother m hmn] at hg
      have hgm := hs.named m g hg
      rw [htable g fun hgh => hmn (hfree m (hgh ▸ hgm))]
      exact hgm
  · intro m hm
    by_cases hmn : m = n
    · subst hmn
      rw [hself]
      exact ⟨⟨h, (hplaced hm).1⟩, (hplaced hm).2⟩
    · rw [hother m hmn]
      exact hs.placed m hm
  · intro m
    by_cases hmn : m = n
    · subst hmn
      rw [hself]
      exact iff_of_false hbin fun hm => hm.2.2.2 (hbin' hm.2.1)
    · rw [hother m hmn, hheld m hmn]
      exact hs.binned m
  · intro m hm
    have hmn : m ≠ n := fun heq => absurd hmade (Nat.not_lt.2 (heq ▸ hm))
    rw [hother m hmn, hheld m hmn]
    exact hs.unmade m hm
  · intro g m hg
    rcases hcases g m hg with ⟨rfl, rfl, -, hfits⟩ | ⟨hgh, hmn, hg'⟩
    · exact hself ▸ hfits
    · rw [hother m hmn]
      exact (hlife g hgh).symm ▸ hs.fits g m hg'
  · intro g hg
    by_cases hgh : g = h
    · subst hgh
      rw [hentry]
      rcases hcarry with ⟨rfl, -⟩ | ⟨-, -, hover⟩
      · rfl
      · cases hover.symm.trans hg
    · rw [htable g hgh]
      exact hs.alive g (hlife g hgh ▸ hg)
  · intro g hlive hlapsing
    by_cases hgh : g = h
    · subst hgh
      rw [hentry]
      rcases hcarry with ⟨-, -, hfits⟩ | ⟨hnone, -⟩
      · rcases hfits.live with h1 | h1
        · cases hlive.symm.trans h1
        · cases hlapsing.symm.trans h1
      · exact hnone
    · rw [htable g hgh]
      exact hs.ended g (hlife g hgh ▸ hlive) (hlife g hgh ▸ hlapsing)
  · intro hlt g hg
    by_cases hgh : g = h
    · subst hgh
      exact hearly (hentry ▸ hg) hlt
    · rw [htable g hgh] at hg
      exact hs.early hlt g hg

/-- **The fields of one timer's node change**, and the log may tell it. -/
theorem Sound.touch (hh : b.table h = some n) (hlog : Tells h b.log log)
    (hhandle : t.handle = some h) (hfits : Fits ((TimerLives.of log).life h) t)
    (hplaced : n ∈ placed → t.firing = false ∧ t.isPaused = false) :
    Sound { b.set n t with log := log } placed held := by
  have hsame : update b.table h (some n) = b.table := by rw [← hh, update_eq_self]
  have hwrite := hs.write (some n) b.size (hs.live h n hh).1
    (fun g hg => by_contra fun hgh => hs.table_ne hh hg hgh rfl)
    (fun m hm => Option.some.inj (hm.symm.trans hh)) (.inl ⟨rfl, hhandle, hfits⟩)
    (hsame.symm ▸ hs.sized) (fun hm => ⟨hhandle, hplaced hm⟩) (hs.not_binned hh)
    (fun hnone => by cases hnone.symm.trans hhandle) (fun _ _ => Iff.rfl)
    (fun g hg => hlog.life_ne hg) (hlog.told hs.told) (hlog.counted.trans_le hs.counted)
    fun _ hlt => hs.early hlt h (hh ▸ rfl)
  rwa [hsame] at hwrite

/-- Only whether a node whose timer is over is held back matters, and only while its
callback is not running. -/
theorem Sound.hold_ended
    (heq : ∀ m, (b.nodes m).handle = none → (b.nodes m).firing = false → (held' m ↔ held m))
    (hunmade : ∀ m, b.made ≤ m → ¬ held' m) : Sound b placed held' :=
  { hs with
    binned := fun m => by
      rw [hs.binned m]
      refine and_congr_right fun _ => and_congr_right fun hnone => and_congr_right fun hf => ?_
      rw [heq m hnone hf]
    unmade := fun m hm => ⟨(hs.unmade m hm).1, hunmade m hm⟩ }

/-- The node of a timer that is over may be written, as long as it is not in the bin; it then
counts as held back. -/
theorem Sound.set_ended (hmade : n < b.made) (hhandle : (b.nodes n).handle = none)
    (hbin : n ∉ b.spare ++ b.dropped) (ht : t.handle = none) :
    Sound (b.set n t) placed fun m => held m ∨ m = n := by
  obtain ⟨S, hcard, hS⟩ := hs.sized
  -- a handle that is in no use, for the entry that is written as it was
  obtain ⟨h, hh⟩ := Infinite.exists_notMem_finset S
  have hnone : b.table h = none := by rwa [hS, Option.isSome_iff_ne_none, not_not] at hh
  have hsame : update b.table h none = b.table := by rw [← hnone, update_eq_self]
  have hwrite := hs.write (h := h) none b.size hmade
    (fun g hg => by cases hhandle.symm.trans (hs.live g n hg).2)
    (fun m hm => by cases hnone.symm.trans hm) (.inr ⟨rfl, ht, ?_⟩) (hsame.symm ▸ ⟨S, hcard, hS⟩)
    (fun hm => ?_) hbin (fun _ => .inr rfl) (fun m hm => or_iff_left hm) (fun _ _ => rfl) hs.told
    hs.counted nofun
  · rwa [hsame] at hwrite
  · by_contra hlive
    have := hs.alive h (Bool.eq_true_of_not_eq_false hlive)
    rw [hnone] at this
    cases this
  · obtain ⟨⟨g, hg⟩, -⟩ := hs.placed n hm
    cases hhandle.symm.trans hg

end

theorem Sound.binNode (hs : Sound b placed fun m => held m ∨ m = n) (hmade : n < b.made)
    (hhandle : (b.nodes n).handle = none) (hfiring : (b.nodes n).firing = false)
    (hheld : ¬ held n) {spare dropped : List ℕ}
    (hbin : spare ++ dropped ~ n :: (b.spare ++ b.dropped)) :
    Sound { b with spare := spare, dropped := dropped } placed held := by
  have hnot : n ∉ b.spare ++ b.dropped := fun hn => ((hs.binned n).1 hn).2.2.2 (.inr rfl)
  refine { hs with bin := ?_, binned := ?_, unmade := ?_ }
  · exact hbin.nodup_iff.2 (List.nodup_cons.2 ⟨hnot, hs.bin⟩)
  · intro m
    rw [hbin.mem_iff, List.mem_cons, hs.binned m]
    by_cases hmn : m = n
    · subst hmn
      exact iff_of_true (.inl rfl) ⟨hmade, hhandle, hfiring, hheld⟩
    · simp [hmn]
  · exact fun m hm => ⟨(hs.unmade m hm).1, fun hheld' => (hs.unmade m hm).2 (.inl hheld')⟩

/-- **The node of a timer that is over is recycled.** -/
theorem Sound.recycle (hs : Sound b placed fun m => held m ∨ m = n) (hmade : n < b.made)
    (hhandle : (b.nodes n).handle = none) (hfiring : (b.nodes n).firing = false)
    (hheld : ¬ held n) : Sound (b.recycle n) placed held := by
  have hnot : n ∉ b.spare ++ b.dropped := fun hn => ((hs.binned n).1 hn).2.2.2 (.inr rfl)
  have hset : Sound (b.set n (b.nodes n).release) placed fun m => held m ∨ m = n := by
    have hset' := hs.set_ended (t := (b.nodes n).release) hmade hhandle hnot hhandle
    refine hset'.hold_ended (fun m _ _ => ?_) fun m hm => ?_
    · rw [or_assoc, or_self]
    · exact (hs.unmade m hm).2
  have hself : (b.set n (b.nodes n).release).nodes n = (b.nodes n).release :=
    update_self ..
  unfold TimerBook.recycle
  dsimp only
  split <;> refine hset.binNode hmade (by rw [hself]; exact hhandle)
    (by rw [hself]; exact hfiring) hheld ?_
  · exact List.Perm.refl _
  · exact List.perm_middle

theorem Sound.returned (hs : Sound b placed held) (hmade : n < b.made)
    (hhandle : (b.nodes n).handle = none) (hfiring : (b.nodes n).firing = true)
    (hheld : ¬ held n) :
    Sound ((b.set n { b.nodes n with firing := false }).recycle n) placed held := by
  have hnot : n ∉ b.spare ++ b.dropped := fun hn => by
    cases hfiring.symm.trans ((hs.binned n).1 hn).2.2.1
  have hself : (b.set n { b.nodes n with firing := false }).nodes n =
      { b.nodes n with firing := false } := update_self ..
  have hset := hs.set_ended (t := { b.nodes n with firing := false }) hmade hhandle hnot hhandle
  refine hset.recycle hmade ?_ ?_ hheld
  · rw [hself]
    exact hhandle
  · rw [hself]

/-- The table without `h`, whose node loses its handle. -/
def struck (b : TimerBook) (h n : ℕ) : TimerBook :=
  { b.set n { b.nodes n with handle := none } with
    table := Function.update b.table h none, size := b.size - 1, log := b.log ++ [.retired h] }

/-- **A timer ends**: its node counts as held back until it is seen to. -/
theorem Sound.struck (hs : Sound b placed held) (hh : b.table h = some n) (hn : n ∉ placed)
    (hlog : Tells h b.log log) (hover : ((TimerLives.of log).life h).live = false) :
    Sound ({ b with log := log }.struck h n) placed fun m => held m ∨ m = n := by
  have habout : TimerEvent.About h (.retired h) := rfl
  have hover' : ((TimerLives.of (log ++ [.retired h])).life h).live = false := by
    rw [life_note]
    exact (congrArg TimerLife.live (if_pos rfl)).trans hover
  have hcounted : (TimerLives.of (log ++ [.retired h])).counted ≤ b.counted := by
    rw [TimerLives.of_concat, habout.counted]
    exact hlog.counted.trans_le hs.counted
  refine hs.write _ _ (hs.live h n hh).1
    (fun g hg => by_contra fun hgh => hs.table_ne hh hg hgh rfl)
    (fun m hm => Option.some.inj (hm.symm.trans hh)) (.inr ⟨rfl, rfl, hover'⟩) ?_
    (fun hm => absurd hm hn) (hs.not_binned hh) (fun _ => .inr rfl) (fun m hm => or_iff_left hm)
    (fun g hg => (life_note_ne habout hg log).trans (hlog.life_ne hg))
    ((TimerLives.told_concat log _).2 ⟨hlog.told hs.told, trivial⟩) hcounted nofun
  obtain ⟨S, hcard, hS⟩ := hs.sized
  refine ⟨S.erase h, ?_, fun g => ?_⟩
  · rw [Finset.card_erase_of_mem ((hS h).2 (by rw [hh]; rfl)), hcard]
  · rw [Finset.mem_erase]
    by_cases hgh : g = h
    · rw [hgh]
      simp
    · rw [update_of_ne hgh, hS g]
      exact and_iff_right hgh

/-- **`retire`.** -/
theorem Sound.retire (hs : Sound b placed held) (hh : b.table h = some n) (hn : n ∉ placed)
    (hlog : Tells h b.log log) (hover : ((TimerLives.of log).life h).live = false) {keep : Bool}
    (hkeep : keep = true ↔ held n) :
    Sound ({ b with log := log }.retire n keep) placed held := by
  have hstruck := hs.struck hh hn hlog hover
  have hhandle := (hs.live h n hh).2
  have hmade := (hs.live h n hh).1
  have hself : ({ b with log := log }.struck h n).nodes n = { b.nodes n with handle := none } :=
    update_self ..
  have heq : { b with log := log }.retire n keep =
      if !(b.nodes n).firing && !keep then ({ b with log := log }.struck h n).recycle n
      else { b with log := log }.struck h n := by
    unfold TimerBook.retire
    rw [hhandle]
    dsimp only
    rw [if_pos (by rw [hh]; rfl)]
    change (if !(({ b with log := log }.struck h n).nodes n).firing && !keep then _ else _) = _
    rw [hself]
    rfl
  rw [heq]
  split
  · rename_i hfree
    rw [Bool.and_eq_true, Bool.not_eq_true', Bool.not_eq_true'] at hfree
    refine hstruck.recycle hmade (by rw [hself]) ?_ fun hheld => ?_
    · rw [hself]
      exact hfree.1
    · cases hfree.2.symm.trans (hkeep.2 hheld)
  · rename_i hbusy
    refine hstruck.hold_ended (fun m _ hf => ⟨.inl, ?_⟩) fun m hm hheld => (hs.unmade m hm).2 hheld
    rintro (hheld | rfl)
    · exact hheld
    · rw [hself] at hf
      rw [show (b.nodes m).firing = false from hf] at hbusy
      refine hkeep.1 ?_
      cases keep with
      | true => rfl
      | false => exact absurd rfl hbusy

/-! ## What is told of a timer -/

section

variable (hs : Sound b placed held)

include hs

theorem Sound.not_mem_of_firing (hf : (b.nodes n).firing = true) :
    n ∉ placed := fun hmem => absurd ((hs.placed n hmem).2.1.symm.trans hf) Bool.false_ne_true

theorem Sound.not_mem_of_paused (hp : (b.nodes n).isPaused = true) :
    n ∉ placed := fun hmem => absurd ((hs.placed n hmem).2.2.symm.trans hp) Bool.false_ne_true

section

variable (hh : b.table h = some n)

include hh

theorem Sound.tell (he : e.About h) (hallows : (TimerLives.of b.log).Allows e)
    (hhandle : t.handle = some h) (hfits : Fits (((TimerLives.of b.log).life h).after h e) t)
    (hplaced : n ∈ placed → t.firing = false ∧ t.isPaused = false) :
    Sound { b.set n t with log := b.log ++ [e] } placed held :=
  hs.touch hh (.of_about he hallows) hhandle (by rw [life_note]; exact hfits) hplaced

theorem Sound.cleared (hn : n ∉ placed) (immediate : Bool) {keep : Bool}
    (hkeep : keep = true ↔ held n) :
    Sound ({ b with log := b.log ++ [TimerEvent.cleared h immediate] }.retire n keep) placed held :=
  hs.retire hh hn (.of_about (e := .cleared h immediate) rfl trivial)
    (by rw [life_note, after_cleared]) hkeep

theorem Sound.lapsed :
    Sound { b.set n { b.nodes n with enabled := false } with
      log := b.log ++ [.cleared h false] } placed held := by
  refine hs.tell (e := .cleared h false) hh rfl trivial (hs.live h n hh).2 ?_ fun hmem => (hs.placed n hmem).2
  rw [after_cleared]
  exact (hs.fits h n hh).lapse

theorem Sound.moved_firing (hf : (b.nodes n).firing = true)
    (hsteady : TimerEvent.Steady (.moved h (b.nodes n).firing (b.nodes n).isPaused)) (time : ℚ) :
    Sound { b.set n { b.nodes n with time := time, rearmed := true } with
      log := b.log ++ [.moved h (b.nodes n).firing (b.nodes n).isPaused] } placed held := by
  refine hs.tell (e := .moved h _ _) hh rfl trivial (hs.live h n hh).2 ?_
    fun hmem => absurd hmem (hs.not_mem_of_firing hf)
  rw [after_moved]
  exact (hs.fits h n hh).move_firing (by simpa [TimerEvent.Steady, hf] using hsteady) time

theorem Sound.moved (hf : (b.nodes n).firing = false) (time : ℚ) :
    Sound { b.set n { b.nodes n with time := time } with
      log := b.log ++ [.moved h (b.nodes n).firing (b.nodes n).isPaused] } placed held := by
  refine hs.tell (e := .moved h _ _) hh rfl trivial (hs.live h n hh).2 ?_ fun hmem => (hs.placed n hmem).2
  rw [after_moved]
  exact (hs.fits h n hh).move hf time

theorem Sound.paused (hn : n ∉ placed)
    (hsteady : TimerEvent.Steady (.paused h (b.nodes n).firing (b.nodes n).rearmed)) (at' : ℚ) :
    Sound { b.set n { b.nodes n with enabled := false, pausedAt := some at' } with
      log := b.log ++ [.paused h (b.nodes n).firing (b.nodes n).rearmed] } placed held := by
  refine hs.tell (e := .paused h _ _) hh rfl trivial (hs.live h n hh).2 ?_ fun hmem => absurd hmem hn
  rw [after_paused]
  exact (hs.fits h n hh).pause hsteady at'

theorem Sound.resumed (policy : ResumePolicy) (at' : ℚ) (parked back : Bool)
    (hrearmed : (b.nodes n).firing = true → rearmed = true) :
    Sound { b.set n { (b.nodes n).resume policy at' with rearmed := rearmed } with
      log := b.log ++ [.resumed h parked back] } placed held := by
  obtain ⟨hres, -, -, -, hfire, hhand⟩ := Fits.resume_fields (b.nodes n) policy at'
  refine hs.tell (e := .resumed h parked back) hh rfl trivial (hhand.trans (hs.live h n hh).2) ?_
    fun hmem => ⟨hfire.trans (hs.placed n hmem).2.1, hres⟩
  rw [after_resumed]
  exact (hs.fits h n hh).resume policy at' hrearmed

end

theorem Sound.called (hhandle : (b.nodes n).handle = some h) (hn : n ∉ placed)
    (hp : (b.nodes n).isPaused = false) (back : Bool) :
    Sound { b.set n { b.nodes n with firing := true, rearmed := false } with
      log := b.log ++ [.ran (b.nodes n).handle (b.nodes n).callback back] } placed held := by
  have hh := hs.named n h hhandle
  have hfits := hs.fits h n hh
  refine hs.tell (e := .ran _ _ back) hh hhandle
    ⟨h, hhandle, hfits.callback, hfits.paused.trans hp, hfits.live⟩ hhandle ?_
    fun hmem => absurd hmem hn
  rw [hhandle, after_ran]
  exact hfits.call hp

/-- Its callback has returned, and it is due again or was touched: but for `time` and the end of the
callback its node is left as it is. -/
theorem Sound.rested (hh : b.table h = some n) (hn : n ∉ placed)
    (hkeep : ((TimerLives.of b.log).life h).once = false ∨
      ((TimerLives.of b.log).life h).touched = true)
    (time : ℚ) :
    Sound { b.set n { b.nodes n with firing := false, time := time } with
      log := b.log ++ [.returned h] } placed held := by
  refine hs.tell (e := .returned h) hh rfl trivial (hs.live h n hh).2 ?_ fun hmem => absurd hmem hn
  rw [after_returned_of_ne _ _ hkeep]
  exact (hs.fits h n hh).rest time

theorem Sound.finished (hh : b.table h = some n) (hn : n ∉ placed) (hf : (b.nodes n).firing = true)
    (hrearmed : ¬ (b.nodes n).rearmed = true)
    (hagain : ¬ ((b.nodes n).enabled && decide (0 < (b.nodes n).interval)) = true)
    (hend : ((b.nodes n).enabled || !(b.nodes n).isPaused) = true) {keep : Bool}
    (hkeep : keep = true ↔ held n) :
    Sound ({ b.set n { b.nodes n with firing := false } with
      log := b.log ++ [TimerEvent.returned h] }.retire n keep) placed held := by
  have hfits := hs.fits h n hh
  have hrest := hs.touch (t := { b.nodes n with firing := false }) hh (.inl rfl) (hs.live h n hh).2
    (hfits.rest (b.nodes n).time) fun hmem => absurd hmem hn
  refine hrest.retire hh hn (.of_about (e := .returned h) rfl trivial) ?_ hkeep
  rw [life_note]
  exact after_returned_live _ _ (hfits.finished hf hrearmed hagain hend)

end

/-! ## Arming -/

/-- The handle the loop of `__newHandle` comes to is counted as it is, and no lower count. -/
theorem passHeld_count (b : TimerBook) (fuel handle count : ℕ)
    (hcount : handle = count % handleCount) :
    (b.passHeld fuel (handle, count)).1 = (b.passHeld fuel (handle, count)).2 % handleCount ∧
      count ≤ (b.passHeld fuel (handle, count)).2 := by
  induction fuel generalizing handle count with
  | zero => exact ⟨hcount, le_rfl⟩
  | succ fuel ih =>
    unfold passHeld
    split
    · have hnext : (handle + 1) % handleCount = (count + 1) % handleCount := by
        rw [hcount, Nat.mod_add_mod]
      obtain ⟨h1, h2⟩ := ih _ _ hnext
      exact ⟨h1, by omega⟩
    · exact ⟨hcount, le_rfl⟩

/-- If the loop ends at a handle that is held, it passed `fuel` others that are. -/
theorem passHeld_held (b : TimerBook) (fuel handle count : ℕ) (hhandle : handle < handleCount)
    (hheld : (b.table (b.passHeld fuel (handle, count)).1).isSome) :
    ∀ i ≤ fuel, (b.table ((handle + i) % handleCount)).isSome := by
  induction fuel generalizing handle count with
  | zero =>
    intro i hi
    obtain rfl : i = 0 := by omega
    rw [Nat.add_zero, Nat.mod_eq_of_lt hhandle]
    exact hheld
  | succ fuel ih =>
    unfold passHeld at hheld
    split at hheld
    · rename_i hfirst
      have hrest := ih _ _ (Nat.mod_lt _ (by decide)) hheld
      intro i hi
      rcases Nat.eq_zero_or_pos i with rfl | hpos
      · rw [Nat.add_zero, Nat.mod_eq_of_lt hhandle]
        exact hfirst
      · have h1 := hrest (i - 1) (by omega)
        rw [Nat.mod_add_mod] at h1
        rwa [show handle + 1 + (i - 1) = handle + i by omega] at h1
    · rename_i hfree
      exact absurd hheld hfree

/-- **The handle given is held by no timer**, is the count reduced, and the count only grows. -/
theorem Sound.newHandle (hs : Sound b placed held) (hroom : b.size < maxTimers) :
    b.table b.newHandle.1 = none ∧ b.newHandle.1 = b.newHandle.2 % handleCount ∧
      b.counted ≤ b.newHandle.2 ∧ (b.counted < handleCount → b.newHandle.2 = b.counted) := by
  unfold TimerBook.newHandle
  cases hwrapped : b.handlesWrapped with
  | false =>
    have hlt : b.counted < handleCount := by
      by_contra hge
      cases hwrapped.symm.trans (hs.wrapped.2 (not_lt.1 hge))
    refine ⟨?_, hs.next, le_rfl, fun _ => rfl⟩
    by_contra hsome
    have hearly := hs.early hlt b.nextHandle (Option.isSome_iff_ne_none.2 hsome)
    rw [hs.next, Nat.mod_eq_of_lt hlt] at hearly
    exact lt_irrefl _ hearly
  | true =>
    obtain ⟨hcount, hle⟩ := passHeld_count b b.size b.nextHandle b.counted hs.next
    refine ⟨?_, hcount, hle, fun hlt => absurd (hs.wrapped.1 hwrapped) (Nat.not_le.2 hlt)⟩
    by_contra hsome
    have hnext : b.nextHandle < handleCount := by
      rw [hs.next]
      exact Nat.mod_lt _ (by decide)
    have hall := passHeld_held b b.size b.nextHandle b.counted hnext
      (Option.isSome_iff_ne_none.2 hsome)
    -- one more handle held than the table holds
    obtain ⟨S, hcard, hS⟩ := hs.sized
    have hinj : Set.InjOn (fun i => (b.nextHandle + i) % handleCount)
        (Finset.range (b.size + 1) : Set ℕ) := by
      intro i hi j hj hij
      have hi' := Finset.mem_range.1 (Finset.mem_coe.1 hi)
      have hj' := Finset.mem_range.1 (Finset.mem_coe.1 hj)
      have hsmall : maxTimers < handleCount := by decide
      have hmod : i % handleCount = j % handleCount := Nat.ModEq.add_left_cancel' _ hij
      rwa [Nat.mod_eq_of_lt (by omega), Nat.mod_eq_of_lt (by omega)] at hmod
    have hsub : (Finset.range (b.size + 1)).image
        (fun i => (b.nextHandle + i) % handleCount) ⊆ S := by
      intro g hg
      obtain ⟨i, hi, rfl⟩ := Finset.mem_image.1 hg
      exact (hS _).2 (hall i (by have := Finset.mem_range.1 hi; omega))
    have hle := Finset.card_le_card hsub
    rw [Finset.card_image_of_injOn hinj, Finset.card_range] at hle
    omega

theorem Sound.passed (hs : Sound b placed held) {handle : ℕ}
    (hhandle : handle = count % handleCount) (hle : b.counted ≤ count)
    (hearly : b.counted < handleCount → count = b.counted) :
    Sound (b.passed handle count) placed held := by
  refine { hs with counted := ?_, next := ?_, wrapped := ?_, early := ?_ }
  · exact hs.counted.trans (hle.trans (Nat.le_succ count))
  · change (handle + 1) % handleCount = (count + 1) % handleCount
    rw [hhandle, Nat.mod_add_mod]
  · change (b.handlesWrapped || decide ((handle + 1) % handleCount = 0)) = true ↔
      handleCount ≤ count + 1
    rw [Bool.or_eq_true, decide_eq_true_iff, hs.wrapped, hhandle, Nat.mod_add_mod]
    constructor
    · rintro (hwrapped | hzero)
      · omega
      · exact Nat.le_of_dvd (Nat.succ_pos count) (Nat.dvd_of_mod_eq_zero hzero)
    · intro hge
      by_cases hlt : b.counted < handleCount
      · obtain heq : count + 1 = handleCount := by omega
        exact .inr (by rw [heq, Nat.mod_self])
      · exact .inl (not_lt.1 hlt)
  · intro hlt g hg
    have hlt' : count + 1 < handleCount := hlt
    exact (hs.early (by omega) g hg).trans_le (hle.trans (Nat.le_succ count))

/-- The node taken for a new timer is in no other use. -/
theorem Sound.takeNode (hs : Sound b placed held) :
    Sound b.takeNode.2 placed (fun m => held m ∨ m = b.takeNode.1) ∧
      b.takeNode.1 < b.takeNode.2.made ∧ (b.takeNode.2.nodes b.takeNode.1).handle = none ∧
      ¬ held b.takeNode.1 ∧ b.takeNode.2.log = b.log ∧ b.takeNode.2.counted = b.counted ∧
      b.takeNode.2.table = b.table := by
  unfold TimerBook.takeNode
  cases hspare : b.spare with
  | nil =>
    have hnew := hs.unmade b.made le_rfl
    refine ⟨?_, Nat.lt_succ_self _, ?_, hnew.2, rfl, rfl, rfl⟩
    · refine { hs with live := ?_, bin := ?_, binned := ?_, unmade := ?_ }
      · exact fun g m hg => ⟨(hs.live g m hg).1.trans (Nat.lt_succ_self _), (hs.live g m hg).2⟩
      · have hbin := hs.bin
        rw [hspare] at hbin
        exact hbin
      · intro m
        have hm := hs.binned m
        rw [hspare] at hm
        refine hm.trans ?_
        change _ ↔ m < b.made + 1 ∧ (b.nodes m).handle = none ∧ (b.nodes m).firing = false ∧
          ¬ (held m ∨ m = b.made)
        constructor
        · rintro ⟨hm, hhandle, hfiring, hheld⟩
          exact ⟨by omega, hhandle, hfiring, fun h => h.elim hheld (by omega)⟩
        · rintro ⟨hm, hhandle, hfiring, hheld⟩
          exact ⟨by have : m ≠ b.made := fun h => hheld (.inr h)
                    omega, hhandle, hfiring, fun h => hheld (.inl h)⟩
      · intro m hm
        have hm' : b.made + 1 ≤ m := hm
        have hne : m ≠ b.made := by omega
        exact ⟨(hs.unmade m (by omega)).1, fun h => h.elim (hs.unmade m (by omega)).2 hne⟩
    · cases hhandle : (b.nodes b.made).handle with
      | none => rfl
      | some g => exact absurd (hs.live g b.made (hs.named _ g hhandle)).1 (lt_irrefl _)
  | cons n spare =>
    have hmem : n ∈ b.spare ++ b.dropped := by
      rw [hspare]
      exact List.mem_cons_self
    obtain ⟨hmade, hhandle, -, hheld⟩ := (hs.binned n).1 hmem
    refine ⟨?_, hmade, hhandle, hheld, rfl, rfl, rfl⟩
    have hbin := hs.bin
    rw [hspare, List.cons_append, List.nodup_cons] at hbin
    refine { hs with bin := hbin.2, binned := ?_, unmade := ?_ }
    · intro m
      have hm := hs.binned m
      rw [hspare, List.cons_append] at hm
      by_cases hmn : m = n
      · subst hmn
        exact iff_of_false hbin.1 fun h => h.2.2.2 (.inr rfl)
      · simpa [hmn] using hm
    · intro m hm
      refine ⟨(hs.unmade m hm).1, fun h => h.elim (hs.unmade m hm).2 ?_⟩
      rintro rfl
      exact absurd hmade (Nat.not_lt.2 hm)

theorem Sound.carry (hs : Sound b placed fun m => held m ∨ m = n) (hmade : n < b.made)
    (hhandle : (b.nodes n).handle = none) (hh : b.table h = none) (time interval : ℚ) (callback : ℕ)
    (hcount : (TimerLives.of b.log).counted ≤ count) (hmod : h = count % handleCount)
    (hcounted : b.counted = count + 1) :
    Sound ({ b.set n (.rearm h time interval callback) with
      table := update b.table h (some n), size := b.size + 1 }.note
        (.armed h count interval callback)) placed held := by
  have hlives : TimerLives.of (b.log ++ [.armed h count interval callback]) =
      (TimerLives.of b.log).step (.armed h count interval callback) := TimerLives.of_concat ..
  have hlife : (TimerLives.of (b.log ++ [.armed h count interval callback])).life h =
      { live := true, once := decide (interval ≤ 0), callback := some callback } := by
    rw [hlives]
    exact if_pos rfl
  have htold := (TimerLives.told_concat b.log (.armed h count interval callback)).2
    ⟨hs.told, hcount, hmod⟩
  refine hs.write (t := .rearm h time interval callback) (some n) _ hmade (fun g hg => ?_)
    (fun m hm => ?_) (.inl ⟨rfl, rfl, hlife ▸ ?_⟩) ?_ (fun hm => ?_)
    (fun hm => ((hs.binned n).1 hm).2.2.2 (.inr rfl)) nofun (fun m hm => (or_iff_left hm).symm)
    (fun g hg => ?_) htold (hlives ▸ hcounted.ge) fun _ hlt => ?_
  · cases hhandle.symm.trans (hs.live g n hg).2
  · cases hh.symm.trans hm
  · exact ⟨.inl rfl, rfl, rfl, rfl, nofun, nofun, nofun, nofun, nofun⟩
  · obtain ⟨S, hcard, hS⟩ := hs.sized
    have hnot : h ∉ S := fun hmem => by
      have := (hS h).1 hmem
      rw [hh] at this
      cases this
    refine ⟨insert h S, Finset.card_insert_of_notMem hnot ▸ hcard ▸ rfl, fun g => ?_⟩
    by_cases hgh : g = h
    · rw [hgh]
      simp
    · rw [update_of_ne hgh, ← hS g]
      simp [hgh]
  · obtain ⟨⟨g, hg⟩, -⟩ := hs.placed n hm
    cases hhandle.symm.trans hg
  · exact hlives ▸ if_neg hg.symm
  · rw [hmod, Nat.mod_eq_of_lt (by omega)]
    exact (Nat.lt_succ_self count).trans_eq hcounted.symm

/-- **A timer is armed**: its node carries it alone, and is in no queue yet. -/
theorem Sound.arm (hs : Sound b placed held)
    (hc : b.create time interval callback = some (h, n, b')) :
    Sound b' placed held ∧ b'.table h = some n ∧ n ∉ placed ∧
      b'.nodes n = .rearm h time interval callback ∧ ¬ held n := by
  unfold TimerBook.create at hc
  split at hc
  · cases hc
  rename_i hroom
  obtain ⟨hfree, hmod, hle, hearly⟩ := hs.newHandle (not_le.1 hroom)
  have hpassed := hs.passed hmod hle hearly
  obtain ⟨htaken, hmade, hnone, hheld, hlog, hcounted, htable⟩ := hpassed.takeNode
  obtain ⟨rfl, rfl, rfl⟩ := hc
  have hcount : (TimerLives.of (b.passed b.newHandle.1 b.newHandle.2).takeNode.2.log).counted ≤
      b.newHandle.2 := by
    rw [hlog]
    exact hs.counted.trans hle
  have hcarry := htaken.carry hmade hnone (by rw [htable]; exact hfree) time interval callback
    hcount hmod hcounted
  refine ⟨hcarry, update_self .., fun hmem => ?_, update_self .., hheld⟩
  obtain ⟨⟨g, hg⟩, -⟩ := htaken.placed _ hmem
  cases hnone.symm.trans hg

/-! ## What the book keeps of a running callback -/

@[simp] theorem recycle_log (b : TimerBook) (n : ℕ) : (b.recycle n).log = b.log := by
  unfold TimerBook.recycle
  dsimp only
  split <;> rfl

/-- `retire` tells of no more than the handle taken off the table. -/
theorem retire_log (b : TimerBook) (n : ℕ) (keep : Bool) :
    (b.retire n keep).log = b.log ∨ ∃ h, (b.retire n keep).log = b.log ++ [.retired h] := by
  unfold TimerBook.retire
  split
  · exact .inl rfl
  · rename_i h _
    split
    · refine .inr ⟨h, ?_⟩
      dsimp only
      split
      · rw [recycle_log]
        rfl
      · rfl
    · exact .inl rfl

theorem log_prefix_retire (b : TimerBook) (n : ℕ) (keep : Bool) :
    b.log <+: (b.retire n keep).log := by
  rcases retire_log b n keep with hlog | ⟨h, hlog⟩ <;> rw [hlog]
  exact List.prefix_append _ _

theorem mem_retire_log {b : TimerBook} {n : ℕ} {keep : Bool} {e : TimerEvent}
    (he : e ∈ (b.retire n keep).log) : e ∈ b.log ∨ ∃ h, e = .retired h := by
  rcases retire_log b n keep with hlog | ⟨h, hlog⟩ <;> rw [hlog] at he
  · exact .inl he
  · rcases List.mem_append.1 he with he | he
    · exact .inl he
    · exact .inr ⟨h, List.mem_singleton.1 he⟩

theorem set_firing (b : TimerBook) (n m : ℕ) (ht : t.firing = (b.nodes n).firing) :
    ((b.set n t).nodes m).firing = (b.nodes m).firing := by
  by_cases hmn : m = n
  · subst hmn
    rw [set_nodes, update_self, ht]
  · rw [set_nodes, update_of_ne hmn]

theorem recycle_firing (b : TimerBook) (n m : ℕ) :
    ((b.recycle n).nodes m).firing = (b.nodes m).firing := by
  unfold TimerBook.recycle
  dsimp only
  split <;> exact set_firing b n m rfl

theorem retire_firing (b : TimerBook) (n : ℕ) (keep : Bool) (m : ℕ) :
    ((b.retire n keep).nodes m).firing = (b.nodes m).firing := by
  unfold TimerBook.retire
  split
  · rfl
  · split
    · dsimp only
      split
      · rw [recycle_firing]
        exact set_firing _ n m rfl
      · exact set_firing _ n m rfl
    · rfl

/-! ## The end of a callback -/

section Settle

variable {σ : Type} {rest arm : TimerBook → σ} {keep : Bool} {Q : σ → Prop}

/-- `__settle`, where `arm` arms the node and `rest` does not. -/
def settleWith (rest arm : TimerBook → σ) (b : TimerBook) (n : ℕ) (keep : Bool) : σ :=
  let t := b.nodes n
  match t.handle with
  | none => rest (b.recycle n)
  | some handle =>
    let b := b.note (.returned handle)
    if t.rearmed then arm b
    else if t.enabled && decide (0 < t.interval) then
      arm (b.set n { t with time := t.time + t.interval })
    else if t.enabled || !t.isPaused then rest (b.retire n keep)
    else rest b

/-- The log goes on, and what runs is the same. -/
theorem settleWith_rule (hQ : ∀ b' : TimerBook, b.log <+: b'.log →
      (∀ m, (b'.nodes m).firing = (b.nodes m).firing) → Q (rest b') ∧ Q (arm b')) :
    Q (settleWith rest arm b n keep) := by
  unfold settleWith
  dsimp only
  split
  · exact (hQ _ (by rw [recycle_log]) (recycle_firing b n)).1
  · rename_i handle _
    have hlog : b.log <+: (b.note (.returned handle)).log := List.prefix_append _ _
    split_ifs
    · exact (hQ _ hlog fun _ => rfl).2
    · refine (hQ _ ?_ fun m => set_firing (b.note (.returned handle)) n m ?_).2
      · exact hlog
      · rfl
    · refine (hQ _ ?_ (retire_firing (b.note (.returned handle)) n keep)).1
      exact hlog.trans (log_prefix_retire _ n keep)
    · exact (hQ _ hlog fun _ => rfl).1

/-- The callback of `n` is over: the books are sound, and a node that is armed may be. -/
theorem Sound.settles (hs : Sound b placed held) (hfiring : (b.nodes n).firing = true)
    (hheld : ¬ held n) (hkeep : keep = true ↔ held n)
    (hrest : ∀ b', Sound b' placed held →
      (∀ m, (b'.nodes m).firing = true ↔ m ≠ n ∧ (b.nodes m).firing = true) → Q (rest b'))
    (harm : ∀ b' h, Sound b' placed held →
      (∀ m, (b'.nodes m).firing = true ↔ m ≠ n ∧ (b.nodes m).firing = true) →
      b'.table h = some n → (b'.nodes n).firing = false → (b'.nodes n).isPaused = false →
      Q (arm b')) :
    Q (settleWith rest arm (b.set n { b.nodes n with firing := false }) n keep) := by
  have hn := hs.not_mem_of_firing hfiring
  have hmade : n < b.made := by
    by_contra hge
    cases (hs.unmade n (not_lt.1 hge)).1.symm.trans hfiring
  have hnode : (b.set n { b.nodes n with firing := false }).nodes n =
      { b.nodes n with firing := false } := update_self ..
  have hquiet : ∀ t : TimerNode, t.firing = false →
      ∀ m, ((b.set n t).nodes m).firing = true ↔ m ≠ n ∧ (b.nodes m).firing = true := by
    intro t ht m
    by_cases hmn : m = n
    · rw [hmn, set_nodes, update_self, ht]
      exact iff_of_false Bool.false_ne_true fun h => h.1 rfl
    · rw [set_nodes, update_of_ne hmn]
      exact (and_iff_right hmn).symm
  unfold settleWith
  rw [hnode]
  dsimp only
  split
  · rename_i hhandle
    refine hrest _ (hs.returned hmade hhandle hfiring hheld) fun m => ?_
    rw [recycle_firing]
    exact hquiet _ rfl m
  · rename_i handle hhandle
    have hh := hs.named n handle hhandle
    have hfits := hs.fits handle n hh
    have hagain : ∀ time, ((TimerLives.of b.log).life handle).once = false ∨
        ((TimerLives.of b.log).life handle).touched = true → (b.nodes n).isPaused = false →
        Q (arm ((b.note (.returned handle)).set n
          { b.nodes n with firing := false, time := time })) := by
      intro time htouched hpaused
      have hnode' : ((b.note (.returned handle)).set n
          { b.nodes n with firing := false, time := time }).nodes n =
          { b.nodes n with firing := false, time := time } := update_self ..
      refine harm _ handle (hs.rested hh hn htouched time) (hquiet _ rfl) hh ?_ ?_
      · rw [hnode']
      · rw [hnode']
        exact hpaused
    split
    · rename_i hrearmed
      exact hagain (b.nodes n).time (.inr ((hfits.touched hfiring).2 (.inl hrearmed)))
        (hfits.rearmed hfiring hrearmed)
    · rename_i hrearmed
      split
      · rename_i hdue
        rw [Bool.and_eq_true, decide_eq_true_iff] at hdue
        have hpaused : (b.nodes n).isPaused = false := by
          rw [← Bool.not_eq_true]
          exact fun hpaused => by cases (hfits.parked hpaused).symm.trans hdue.1
        have hset : ((b.set n { b.nodes n with firing := false }).note (.returned handle)).set n
            { b.nodes n with firing := false, time := (b.nodes n).time + (b.nodes n).interval } =
            (b.note (.returned handle)).set n { b.nodes n with
              firing := false, time := (b.nodes n).time + (b.nodes n).interval } := by
          simp only [TimerBook.set, TimerBook.note, update_idem]
        rw [hset]
        refine hagain ((b.nodes n).time + (b.nodes n).interval) (.inl ?_) hpaused
        rw [hfits.once]
        exact decide_eq_false (not_le.2 hdue.2)
      · rename_i hdue
        split
        · rename_i hend
          refine hrest _ (hs.finished hh hn hfiring hrearmed hdue hend hkeep) fun m => ?_
          rw [retire_firing]
          exact hquiet _ rfl m
        · rename_i hend
          rw [Bool.or_eq_true, not_or, Bool.not_eq_true, Bool.not_eq_true,
            Bool.not_eq_false'] at hend
          exact hrest _ (hs.rested hh hn (.inr ((hfits.touched hfiring).2 (.inr hend.2)))
            (b.nodes n).time) (hquiet _ rfl)

end Settle

section

variable (hc : b.create time interval callback = some (h, n, b'))

include hc

theorem create_eq :
    (∃ count, b'.log = b.log ++ [.armed h count interval callback]) ∧
      b'.nodes = update b.nodes n (.rearm h time interval callback) ∧
      b'.table = update b.table h (some n) := by
  unfold TimerBook.create at hc
  split at hc
  · cases hc
  obtain ⟨rfl, rfl, rfl⟩ := hc
  have htaken : (b.passed b.newHandle.1 b.newHandle.2).takeNode.2.nodes = b.nodes ∧
      (b.passed b.newHandle.1 b.newHandle.2).takeNode.2.table = b.table ∧
      (b.passed b.newHandle.1 b.newHandle.2).takeNode.2.log = b.log := by
    unfold TimerBook.takeNode
    split <;> exact ⟨rfl, rfl, rfl⟩
  refine ⟨⟨b.newHandle.2, ?_⟩, ?_, ?_⟩
  · exact congrArg (· ++ [_]) htaken.2.2
  · exact congrArg (update · _ _) htaken.1
  · exact congrArg (update · _ _) htaken.2.1

theorem create_log_eq :
    ∃ count, b'.log = b.log ++ [.armed h count interval callback] := (create_eq hc).1

theorem create_log : b.log <+: b'.log := by
  obtain ⟨count, heq⟩ := create_log_eq hc
  exact ⟨_, heq.symm⟩

theorem create_nodes_ne (hm : m ≠ n) : b'.nodes m = b.nodes m := by
  rw [(create_eq hc).2.1, update_of_ne hm]

theorem create_firing (hm : (b'.nodes m).firing = true) : (b.nodes m).firing = true := by
  by_cases hmn : m = n
  · rw [(create_eq hc).2.1, hmn, update_self] at hm
    cases hm
  · rwa [create_nodes_ne hc hmn] at hm

end

/-- Arming touches no node whose callback is running. -/
theorem Sound.create_nodes (hs : Sound b placed held)
    (hc : b.create time interval callback = some (h, n, b')) (hm : (b.nodes m).firing = true) :
    b'.nodes m = b.nodes m := by
  refine create_nodes_ne hc fun hmn => ?_
  unfold TimerBook.create at hc
  split at hc
  · cases hc
  obtain ⟨rfl, rfl, rfl⟩ := hc
  have hidle : (b.nodes (b.passed b.newHandle.1 b.newHandle.2).takeNode.1).firing = false := by
    unfold TimerBook.takeNode
    cases hspare : (b.passed b.newHandle.1 b.newHandle.2).spare with
    | nil => exact (hs.unmade b.made le_rfl).1
    | cons n spare =>
      have hspare' : b.spare = n :: spare := hspare
      exact ((hs.binned n).1 (by rw [hspare']; exact List.mem_cons_self)).2.2.1
  rw [hmn, hidle] at hm
  cases hm

/-! ## What ending a timer leaves of the rest -/

theorem recycle_nodes_ne (b : TimerBook) (hm : m ≠ n) : (b.recycle n).nodes m = b.nodes m := by
  unfold TimerBook.recycle
  dsimp only
  split <;> exact update_of_ne hm ..

theorem retire_nodes_ne (b : TimerBook) (keep : Bool) (hm : m ≠ n) :
    (b.retire n keep).nodes m = b.nodes m := by
  unfold TimerBook.retire
  split
  · rfl
  · split
    · dsimp only
      split
      · rw [recycle_nodes_ne _ hm]
        exact update_of_ne hm ..
      · exact update_of_ne hm ..
    · rfl

@[simp] theorem recycle_table (b : TimerBook) (n : ℕ) : (b.recycle n).table = b.table := by
  unfold TimerBook.recycle
  dsimp only
  split <;> rfl

/-- A timer that ends leaves the table, and the others stay. -/
theorem Sound.retire_table (hs : Sound b placed held) (hh : b.table h = some n)
    (log : List TimerEvent) (keep : Bool)
    (hg : ({ b with log  := log }.retire n keep).table g = some m) :
    b.table g = some m ∧ m ≠ n := by
  have htable : ({ b with log := log }.retire n keep).table = update b.table h none := by
    unfold TimerBook.retire
    rw [(hs.live h n hh).2]
    dsimp only
    rw [if_pos (by rw [hh]; rfl)]
    split
    · rw [recycle_table]
      rfl
    · rfl
  rw [htable] at hg
  by_cases hgh : g = h
  · rw [hgh, update_self] at hg
    cases hg
  · rw [update_of_ne hgh] at hg
    exact ⟨hg, hs.table_ne hh hg hgh⟩

/-- No node is paused. -/
def Unpaused (b : TimerBook) : Prop := ∀ n, (b.nodes n).isPaused = false

theorem Unpaused.set (hb : b.Unpaused) (n : ℕ) (ht : t.isPaused = false) :
    (b.set n t).Unpaused := by
  intro m
  by_cases hmn : m = n
  · rw [hmn, set_nodes, update_self]
    exact ht
  · rw [set_nodes, update_of_ne hmn]
    exact hb m

theorem Unpaused.recycle (hb : b.Unpaused) (n : ℕ) : (b.recycle n).Unpaused := by
  unfold TimerBook.recycle
  dsimp only
  split <;> exact hb.set n rfl

theorem Unpaused.retire (hb : b.Unpaused) (n : ℕ) (keep : Bool) : (b.retire n keep).Unpaused := by
  unfold TimerBook.retire
  split
  · exact hb
  · split
    · dsimp only
      split
      · refine Unpaused.recycle ?_ n
        exact Unpaused.set hb n (t := { b.nodes n with handle := none }) (hb n)
      · exact Unpaused.set hb n (t := { b.nodes n with handle := none }) (hb n)
    · exact hb

theorem create_table (hc : b.create time interval callback = some (h, n, b'))
    (hg : b'.table g = some m) (hm : m ≠ n) : b.table g = some m := by
  rw [(create_eq hc).2.2] at hg
  by_cases hgh : g = h
  · rw [hgh, update_self] at hg
    exact absurd (Option.some.inj hg).symm hm
  · rwa [update_of_ne hgh] at hg

end TimerBook

end CrossByte
