import CrossByte.Lib.FinSum
import CrossByte.Lib.Runs

/-!
# ConnectionPool

The pool of `crossbyte/db/ConnectionPool.hx`, shared by any number of threads.
The pool's state is read and written under its lock only, while `factory`,
`validate`, `reset`, `rollback` and `close` run outside it.  A call is therefore a
few sections under the lock, and `Phase` says between which two of them a thread
is.  One turn is one section, or one call of a hook with what came of it, so that
a list of turns is an interleaving at the granularity of the lock.

`withConnection` is `acquire`, the turns of its body, and `release`; a hook that
calls the pool again is another thread doing so, since the lock is not held.

Two things are kept that the pool itself does not: who was lent what and has not
returned it (`hands`), and the connections lent and closed, in order (`events`).

## Main results

* `Accounts.step`, `accounts_run`: in every interleaving each connection opened is
  in one place, `created` counts what it says, and nothing happens to a
  connection after it was closed.
-/

namespace CrossByte

/-- The options the pool decides by. -/
structure PoolOptions where
  maxSize : ℤ
  /-- A `validate` hook was given. -/
  validates : Bool
  /-- A `reset` hook was given. -/
  resets : Bool
  one_le_maxSize : 1 ≤ maxSize

namespace ConnectionPool

/-- Where a thread is between two sections under the lock. -/
inductive Phase
  /-- In no call of the pool. -/
  | away
  /-- In `acquire`, counted as waiting, at `__wake.wait`. -/
  | waiting
  /-- In `acquire`, about to look again. -/
  | looking
  /-- In `__tryTake`, running `validate` on a connection taken off `__idle`. -/
  | validating (c : ℕ)
  /-- In `__tryTake`, with the unfit connection closed and not yet counted off. -/
  | unfit
  /-- In `__tryTake`, running `factory` with a slot reserved. -/
  | opening
  /-- In `__release`, running `rollback` and `reset`. -/
  | resetting (c : ℕ)
  /-- Past the last section, with connections to pass to `__closeConnection`. -/
  | closing (cs : List ℕ)
  deriving DecidableEq

/-- What happened to a connection. -/
inductive Event (τ : Type*)
  | lent (t : τ) (c : ℕ)
  | closed (c : ℕ)
  deriving DecidableEq

/-- One section under the lock, or one hook that returned. -/
inductive Turn (τ : Type*)
  /-- `acquire`: its first look at the pool, or the next. -/
  | acquire (t : τ)
  /-- `__wake.wait` returned true. -/
  | woken (t : τ)
  /-- `__wake.wait` returned false. -/
  | slept (t : τ)
  /-- The deadline of `acquire` passed. -/
  | timedOut (t : τ)
  /-- `validate` answered, or threw (false). -/
  | validated (t : τ) (healthy : Bool)
  /-- The section after an unfit connection was closed. -/
  | countOff (t : τ)
  /-- `factory` returned a new connection, or threw or returned null (false). -/
  | opened (t : τ) (ok : Bool)
  /-- `release` of a connection that has a transaction `open`, or has not. -/
  | release (t : τ) (c : ℕ) ( open_ : Bool)
  /-- `rollback` and `reset` are done; whether the connection is reusable. -/
  | resetDone (t : τ) (reusable : Bool)
  | discard (t : τ) (c : ℕ)
  | close (t : τ)
  /-- `__closeConnection` of the next connection to close. -/
  | closeConnection (t : τ)

end ConnectionPool

open ConnectionPool

/-- The pool and the threads in it.  Connections are numbered as `factory` opens them; a number
not reached yet stands for a connection of another pool. -/
structure ConnectionPool (τ : Type*) where
  options : PoolOptions
  /-- `__idle`, the last pushed first. -/
  idle : List ℕ
  created : ℤ
  out : List ℕ
  reserving : ℤ
  closed : Bool
  waiting : ℕ
  wake : ℕ
  opened : ℕ
  phase : τ → Phase
  hands : List (τ × ℕ)
  events : List (Event τ)

namespace ConnectionPool

variable {τ : Type*} [DecidableEq τ]

def new (options : PoolOptions) : ConnectionPool τ where
  options
  idle := []
  created := 0
  out := []
  reserving := 0
  closed := false
  waiting := 0
  wake := 0
  opened := 0
  phase := fun _ => .away
  hands := []
  events := []

/-- Thread `t` goes on to `p`. -/
def goTo (s : ConnectionPool τ) (t : τ) (p : Phase) : ConnectionPool τ :=
  { s with phase := Function.update s.phase t p }

/-- `__freed`: one waiting `acquire` is woken. -/
def freed (s : ConnectionPool τ) : ConnectionPool τ :=
  { s with
    waiting := s.waiting - 1
    wake := if 0 < s.waiting then s.wake + 1 else s.wake }

def unwait (s : ConnectionPool τ) : ConnectionPool τ :=
  { s with waiting := s.waiting - 1 }

/-- `__out.push(c)`, and `acquire` returns `c` to `t`. -/
def lend (s : ConnectionPool τ) (t : τ) (c : ℕ) : ConnectionPool τ :=
  { s.goTo t .away with
    out := s.out ++ [c]
    hands := (t, c) :: s.hands
    events := s.events ++ [.lent t c] }

/-- `__tryTake` from the head of its loop, with the lock held. -/
def take (s : ConnectionPool τ) (t : τ) : ConnectionPool τ :=
  match s.idle with
  | c :: rest =>
    if s.options.validates then { s.goTo t (.validating c) with idle := rest }
    else { s with idle := rest }.lend t c
  | [] =>
    if s.options.maxSize ≤ s.created then { s.goTo t .waiting with waiting := s.waiting + 1 }
    else { s.goTo t .opening with created := s.created + 1, reserving := s.reserving + 1 }

/-- `__tryTake`; it throws on a closed pool. -/
def tryTake (s : ConnectionPool τ) (t : τ) : ConnectionPool τ :=
  if s.closed then s.goTo t .away else s.take t

/-- A connection taken off the books, for `t` to close outside the lock. -/
def retire (s : ConnectionPool τ) (t : τ) (c : ℕ) : ConnectionPool τ :=
  { s.goTo t (.closing [c]) with created := s.created - 1 }.freed

/-- The last section of `__release`. -/
def giveBack (s : ConnectionPool τ) (t : τ) (c : ℕ) (reusable : Bool) : ConnectionPool τ :=
  if s.closed ∨ reusable = false then { s with out := s.out.erase c }.retire t c
  else { s.goTo t .away with out := s.out.erase c, idle := c :: s.idle }.freed

/-- The caller hands `c` to the pool, and has it no more. -/
def handIn (s : ConnectionPool τ) (t : τ) (c : ℕ) : ConnectionPool τ :=
  { s with hands := s.hands.erase (t, c) }

/-- `__release`, its first section. -/
def release (s : ConnectionPool τ) (t : τ) (c : ℕ) ( open_ : Bool) : ConnectionPool τ :=
  if c ∈ s.out then
    -- `open` is null on a closed pool
    if (open_ || s.options.resets) && !s.closed then s.goTo t (.resetting c)
    else s.giveBack t c true
  else s

def discard (s : ConnectionPool τ) (t : τ) (c : ℕ) : ConnectionPool τ :=
  if c ∈ s.out then { s with out := s.out.erase c }.retire t c
  else if c ∈ s.idle then { s with idle := s.idle.erase c }.retire t c
  else s

def close (s : ConnectionPool τ) (t : τ) : ConnectionPool τ :=
  if s.closed then s
  else
    { s.goTo t (.closing s.idle.reverse) with
      closed := true
      idle := []
      created := s.created - s.idle.length
      waiting := 0
      wake := s.wake + s.waiting }

/-- `c` is passed to `__closeConnection`. -/
def logClosed (s : ConnectionPool τ) (c : ℕ) : ConnectionPool τ :=
  { s with events := s.events ++ [.closed c] }

/-- One turn; one its thread is not at changes nothing. -/
def step (s : ConnectionPool τ) : Turn τ → ConnectionPool τ
  | .acquire t =>
    match s.phase t with
    | .away | .looking => s.tryTake t
    | _ => s
  | .woken t =>
    match s.phase t with
    | .waiting => if 0 < s.wake then { s.goTo t .looking with wake := s.wake - 1 } else s
    | _ => s
  | .slept t =>
    match s.phase t with
    | .waiting => s.unwait.goTo t .looking
    | _ => s
  | .timedOut t =>
    match s.phase t with
    | .waiting => s.unwait.goTo t .away
    | _ => s
  | .validated t healthy =>
    match s.phase t with
    | .validating c => if healthy then s.lend t c else (s.logClosed c).goTo t .unfit
    | _ => s
  | .countOff t =>
    match s.phase t with
    | .unfit => ({ s with created := s.created - 1 }.freed.goTo t .looking).tryTake t
    | _ => s
  | .opened t ok =>
    match s.phase t with
    | .opening =>
      if ok then { s with reserving := s.reserving - 1, opened := s.opened + 1 }.lend t s.opened
      else { s.goTo t .away with
        created := s.created - 1, reserving := s.reserving - 1 }.freed
    | _ => s
  | .release t c open_ =>
    match s.phase t with
    | .away => (s.handIn t c).release t c open_
    | _ => s
  | .resetDone t reusable =>
    match s.phase t with
    | .resetting c => if c ∈ s.out then s.giveBack t c reusable else s.goTo t .away
    | _ => s
  | .discard t c =>
    match s.phase t with
    | .away => (s.handIn t c).discard t c
    | _ => s
  | .close t =>
    match s.phase t with
    | .away => s.close t
    | _ => s
  | .closeConnection t =>
    match s.phase t with
    | .closing (c :: cs) => (s.logClosed c).goTo t (.closing cs)
    | .closing [] => s.goTo t .away
    | _ => s

/-! ## The books -/

/-- Whether a thread in this phase has one of the pool's slots: for a connection being validated
or opened. -/
def Phase.slot : Phase → ℤ
  | .validating _ | .unfit | .opening => 1
  | _ => 0

/-- Whether a thread in this phase is opening a connection. -/
def Phase.opens : Phase → ℤ
  | .opening => 1
  | _ => 0

/-- How often a thread in this phase has `c` off the pool's lists. -/
def Phase.has (c : ℕ) : Phase → ℤ
  | .validating d => if d = c then 1 else 0
  | .closing cs => cs.count c
  | _ => 0

@[simp] theorem Phase.slot_eq :
    away.slot = 0 ∧ waiting.slot = 0 ∧ looking.slot = 0 ∧ unfit.slot = 1 ∧ opening.slot = 1 ∧
      (∀ c, (validating c).slot = 1) ∧ (∀ c, (resetting c).slot = 0) ∧
      ∀ cs, (closing cs).slot = 0 := by
  simp [slot]

@[simp] theorem Phase.opens_eq :
    away.opens = 0 ∧ waiting.opens = 0 ∧ looking.opens = 0 ∧ unfit.opens = 0 ∧
      opening.opens = 1 ∧ (∀ c, (validating c).opens = 0) ∧ (∀ c, (resetting c).opens = 0) ∧
      ∀ cs, (closing cs).opens = 0 := by
  simp [opens]

@[simp] theorem Phase.has_eq (c : ℕ) :
    away.has c = 0 ∧ waiting.has c = 0 ∧ looking.has c = 0 ∧ unfit.has c = 0 ∧
      opening.has c = 0 ∧ (∀ d, (validating d).has c = if d = c then 1 else 0) ∧
      (∀ d, (resetting d).has c = 0) ∧ ∀ cs, (closing cs).has c = cs.count c := by
  simp [has]

section Totals

variable {ι : Type*} [Fintype ι]

/-- A measure of a phase, over all threads. -/
def total (f : Phase → ℤ) (phase : ι → Phase) : ℤ := ∑ t, f (phase t)

theorem le_total {f : Phase → ℤ} (hf : ∀ p, 0 ≤ f p) (phase : ι → Phase) (t : ι) :
    f (phase t) ≤ total f phase :=
  FinSum.le_sum (f := fun x => f (phase x)) (fun x => hf (phase x)) t

theorem total_nonneg {f : Phase → ℤ} (hf : ∀ p, 0 ≤ f p) (phase : ι → Phase) :
    0 ≤ total f phase :=
  Finset.sum_nonneg fun t _ => hf (phase t)

theorem total_update [DecidableEq ι] (f : Phase → ℤ) (phase : ι → Phase) (t : ι) (p : Phase) :
    total f (Function.update phase t p) = total f phase + (f p - f (phase t)) := by
  have h := FinSum.sum_eq_of_differ (f := fun x => f (phase x))
    (g := fun x => f (Function.update phase t p x)) (i := t) (fun x hx => by simp [hx])
  simpa [total] using h

end Totals

theorem Phase.has_nonneg (c : ℕ) (p : Phase) : 0 ≤ p.has c := by
  cases p with
  | validating d => simp only [Phase.has]; split <;> omega
  | closing cs => exact Int.natCast_nonneg _
  | _ => exact le_rfl

section Log

variable {ι : Type*}

/-- Nothing happens to a connection after it was closed. -/
def ClosedLast (events : List (Event ι)) : Prop :=
  ∀ before after c, events = before ++ .closed c :: after →
    .closed c ∉ after ∧ ∀ t, .lent t c ∉ after

theorem ClosedLast.append {events : List (Event ι)} (h : ClosedLast events) {e : Event ι} {c : ℕ}
    (he : e = .closed c ∨ ∃ t, e = .lent t c) (hc : .closed c ∉ events) :
    ClosedLast (events ++ [e]) := by
  intro before after d hd
  rcases Runs.split_concat hd with ⟨-, -, rfl⟩ | ⟨after', rfl, hev⟩
  · simp
  · have hd' : Event.closed d ∈ events := by rw [hev]; simp
    have hne : d ≠ c := by rintro rfl; exact hc hd'
    obtain ⟨h₁, h₂⟩ := h before after' d hev
    rcases he with rfl | ⟨t, rfl⟩ <;> simp [h₁, h₂, hne]

end Log

/-- A thread in this phase has no slot, and no connection off the pool's lists. -/
def Phase.Free : Phase → Prop
  | .away | .waiting | .looking | .resetting _ => True
  | _ => False

variable [Fintype τ]

/-- One for each of the first `n` connections. -/
def opened01 (n c : ℕ) : ℤ := if c < n then 1 else 0

/-- How many places `c` is in: idle, out, with a thread, or closed. -/
def places (s : ConnectionPool τ) (c : ℕ) : ℤ :=
  s.idle.count c + s.out.count c + total (Phase.has c) s.phase + s.events.count (.closed c)

/-- The pool's books are in order. -/
structure Accounts (s : ConnectionPool τ) : Prop where
  created : s.created = s.idle.length + s.out.length + total Phase.slot s.phase
  le_maxSize : s.created ≤ s.options.maxSize
  reserving : s.reserving = total Phase.opens s.phase
  places : ∀ c, s.places c = opened01 s.opened c
  idle : s.closed = true → s.idle = []
  closedLast : ClosedLast s.events

theorem accounts_new (options : PoolOptions) : Accounts (new options : ConnectionPool τ) where
  created := by simp [new, total]
  le_maxSize := le_trans Int.one_nonneg options.one_le_maxSize
  reserving := by simp [new, total]
  places c := by simp [new, places, total, opened01]
  idle _ := rfl
  closedLast before after c h := by simp [new] at h

/-! ## One section at a time -/

variable {s : ConnectionPool τ} {t : τ} {c : ℕ} {p : Phase}

/-- A connection in a place of the pool has been opened, and is in no other place. -/
theorem Accounts.opened_of_places (h : Accounts s) (hc : 0 < s.places c) : c < s.opened := by
  by_contra hlt
  have := h.places c
  rw [opened01] at this
  omega

theorem Accounts.places_le_one (h : Accounts s) (c : ℕ) : s.places c ≤ 1 := by
  rw [h.places c, opened01]
  split <;> omega

theorem Accounts.not_closed (h : Accounts s)
    (hc : c ∈ s.idle ∨ c ∈ s.out ∨ 0 < (s.phase t).has c) : .closed c ∉ s.events := by
  intro hev
  have hle := h.places_le_one c
  have hnon := total_nonneg (Phase.has_nonneg c) s.phase
  have hev' := List.count_pos_iff.2 hev
  simp only [ConnectionPool.places] at hle
  rcases hc with hc | hc | hc
  · have := List.count_pos_iff.2 hc
    omega
  · have := List.count_pos_iff.2 hc
    omega
  · have := le_total (Phase.has_nonneg c) s.phase t
    omega

theorem Phase.Free.measures (hp : p.Free) : p.slot = 0 ∧ p.opens = 0 ∧ ∀ c, p.has c = 0 := by
  cases p <;> simp_all [Phase.Free]

section

variable (h : Accounts s)

include h

/-- One thread goes on to `p`, and the lists and the counts change to match. -/
theorem Accounts.shift {s' : ConnectionPool τ} (t : τ) (p : Phase)
    (hphase : s'.phase = Function.update s.phase t p) (hoptions : s'.options = s.options)
    (hcreated : s'.created + (s.idle.length + s.out.length + (s.phase t).slot) =
      s.created + (s'.idle.length + s'.out.length + p.slot))
    (hmax : s'.created ≤ s.options.maxSize)
    (hreserving : s'.reserving + (s.phase t).opens = s.reserving + p.opens)
    (hplaces : ∀ c, s'.idle.count c + s'.out.count c + p.has c + s'.events.count (.closed c) +
      opened01 s.opened c = s.idle.count c + s.out.count c + (s.phase t).has c +
      s.events.count (.closed c) + opened01 s'.opened c)
    (hidle : s'.closed = true → s'.idle = []) (hlast : ClosedLast s'.events) : Accounts s' where
  created := by
    have := h.created
    rw [hphase, total_update]
    omega
  le_maxSize := hoptions ▸ hmax
  reserving := by
    have := h.reserving
    rw [hphase, total_update]
    omega
  places c := by
    have hc := h.places c
    have := hplaces c
    rw [ConnectionPool.places] at hc ⊢
    rw [hphase, total_update]
    omega
  idle := hidle
  closedLast := hlast

theorem Accounts.goTo (hp : (s.phase t).Free) (hq : p.Free) : Accounts (s.goTo t p) := by
  obtain ⟨hs, ho, hh⟩ := hp.measures
  obtain ⟨hs', ho', hh'⟩ := hq.measures
  refine h.shift t p rfl rfl ?_ h.le_maxSize ?_ (fun d => ?_) h.idle h.closedLast
  · simp [ConnectionPool.goTo, hs, hs']
  · simp [ConnectionPool.goTo, ho, ho']
  · simp [ConnectionPool.goTo, hh, hh']

/-- Waking and counting waiters is no matter of the books. -/
theorem Accounts.of_waiters (waiting wake : ℕ) :
    Accounts { s with waiting := waiting, wake := wake } :=
  { h with }

theorem Accounts.freed : Accounts s.freed := h.of_waiters _ _

theorem Accounts.unwait : Accounts s.unwait := h.of_waiters _ _

/-- A connection is lent: one taken off `idle`, one found healthy, or a new one. -/
theorem Accounts.lend_idle (hp : (s.phase t).Free) {rest : List ℕ} (hidle : s.idle = c :: rest)
    (hcl : s.closed = false) : Accounts ({ s with idle := rest }.lend t c) := by
  obtain ⟨hs, ho, hh⟩ := hp.measures
  have hmem : c ∈ s.idle := by rw [hidle]; exact List.mem_cons_self
  refine h.shift t .away rfl rfl ?_ h.le_maxSize ?_ (fun d => ?_) ?_ ?_
  · simp [lend, ConnectionPool.goTo, hs, hidle]
    ring
  · simp [lend, ConnectionPool.goTo, ho]
  · simp [lend, ConnectionPool.goTo, hh, hidle, List.count_cons]
    ring
  · intro hcl'
    exact absurd (hcl.symm.trans hcl') (by simp)
  · exact h.closedLast.append (.inr ⟨t, rfl⟩) (h.not_closed (t := t) (.inl hmem))

theorem Accounts.lend_validated (hp : s.phase t = .validating c) : Accounts (s.lend t c) := by
  refine h.shift t .away rfl rfl ?_ h.le_maxSize ?_ (fun d => ?_) h.idle ?_
  · simp [lend, ConnectionPool.goTo, hp]
    ring
  · simp [lend, ConnectionPool.goTo, hp]
  · simp [lend, ConnectionPool.goTo, hp, List.count_singleton]
    ring
  · exact h.closedLast.append (.inr ⟨t, rfl⟩)
      (h.not_closed (t := t) (.inr (.inr (by simp [hp]))))

theorem Accounts.lend_opened (hp : s.phase t = .opening) :
    Accounts ({ s with
      reserving := s.reserving - 1, opened := s.opened + 1 }.lend t s.opened) := by
  have hnew : s.places s.opened = 0 := by rw [h.places, opened01, if_neg (lt_irrefl _)]
  refine h.shift t .away rfl rfl ?_ h.le_maxSize ?_ (fun d => ?_) h.idle ?_
  · simp [lend, ConnectionPool.goTo, hp]
    ring
  · simp [lend, ConnectionPool.goTo, hp]
  · simp [lend, ConnectionPool.goTo, hp, List.count_singleton, opened01]
    split_ifs <;> omega
  · refine h.closedLast.append (.inr ⟨t, rfl⟩) fun hev => ?_
    have := List.count_pos_iff.2 hev
    have hnon := total_nonneg (Phase.has_nonneg s.opened) s.phase
    simp only [ConnectionPool.places] at hnew
    omega

theorem Accounts.take (hp : (s.phase t).Free) (hcl : s.closed = false) : Accounts (s.take t) := by
  obtain ⟨hs, ho, hh⟩ := hp.measures
  cases hidle : s.idle with
  | cons d rest =>
    by_cases hv : s.options.validates
    · simp only [ConnectionPool.take, hidle, if_pos hv]
      refine h.shift t (.validating d) rfl rfl ?_ h.le_maxSize ?_ (fun e => ?_) ?_ h.closedLast
      · simp [ConnectionPool.goTo, hs, hidle]
        ring
      · simp [ConnectionPool.goTo, ho]
      · simp [ConnectionPool.goTo, hh, hidle, List.count_cons]
        ring
      · intro hcl'
        exact absurd (hcl.symm.trans hcl') (by simp)
    · simp only [ConnectionPool.take, hidle, if_neg hv]
      exact h.lend_idle hp hidle hcl
  | nil =>
    by_cases hm : s.options.maxSize ≤ s.created
    · simp only [ConnectionPool.take, hidle, if_pos hm]
      exact (h.goTo hp (p := .waiting) trivial).of_waiters _ _
    · simp only [ConnectionPool.take, hidle, if_neg hm]
      refine h.shift t .opening rfl rfl ?_ (Int.not_le.1 hm) ?_ (fun e => ?_) (fun _ => hidle)
        h.closedLast
      · simp [ConnectionPool.goTo, hs]
        ring
      · simp [ho]
      · simp [ConnectionPool.goTo, hh]

theorem Accounts.tryTake (hp : (s.phase t).Free) : Accounts (s.tryTake t) := by
  by_cases hcl : s.closed = true
  · simp only [ConnectionPool.tryTake, if_pos hcl]
    exact h.goTo hp trivial
  · simp only [ConnectionPool.tryTake, if_neg hcl]
    exact h.take hp (by simpa using hcl)

/-- A connection on one of the pool's lists leaves it, for its thread to close. -/
theorem Accounts.retire {idle out : List ℕ} (hp : (s.phase t).Free)
    (hcount : ∀ d, (idle.count d + out.count d : ℤ) + (if c = d then 1 else 0) =
      s.idle.count d + s.out.count d)
    (hlen : (idle.length + out.length : ℤ) + 1 = s.idle.length + s.out.length)
    (hidle : s.closed = true → idle = []) :
    Accounts ({ s with idle := idle, out := out }.retire t c) := by
  obtain ⟨hs, ho, hh⟩ := hp.measures
  have hmax := h.le_maxSize
  refine Accounts.freed (h.shift t (.closing [c]) rfl rfl ?_ ?_ ?_ (fun d => ?_) hidle h.closedLast)
  · simp [ConnectionPool.goTo]
    omega
  · simp
    omega
  · simp [ConnectionPool.goTo, ho]
  · have hd := hcount d
    simp [ConnectionPool.goTo, hh, List.count_singleton]
    omega

end

theorem count_erase_add {l : List ℕ} (hc : c ∈ l) (d : ℕ) :
    ((l.erase c).count d : ℤ) + (if c = d then 1 else 0) = l.count d := by
  rw [(List.perm_cons_erase hc).count_eq d, List.count_cons]
  simp only [beq_iff_eq]
  split <;> push_cast <;> ring

section

variable (h : Accounts s)

include h

theorem Accounts.retire_out (hp : (s.phase t).Free) (hc : c ∈ s.out) :
    Accounts ({ s with out := s.out.erase c }.retire t c) := by
  refine Accounts.retire h hp (fun d => ?_) ?_ h.idle
  · have := count_erase_add hc d
    omega
  · have := List.length_erase_add_one hc
    omega

theorem Accounts.retire_idle (hp : (s.phase t).Free) (hc : c ∈ s.idle) :
    Accounts ({ s with idle := s.idle.erase c }.retire t c) := by
  refine Accounts.retire h hp (fun d => ?_) ?_ fun hcl => ?_
  · have := count_erase_add hc d
    omega
  · have := List.length_erase_add_one hc
    omega
  · rw [h.idle hcl] at hc
    cases hc

theorem Accounts.giveBack (hp : (s.phase t).Free) (hc : c ∈ s.out) (reusable : Bool) :
    Accounts (s.giveBack t c reusable) := by
  by_cases hr : s.closed ∨ reusable = false
  · simp only [ConnectionPool.giveBack, if_pos hr]
    exact h.retire_out hp hc
  simp only [ConnectionPool.giveBack, if_neg hr]
  obtain ⟨hs, ho, hh⟩ := hp.measures
  have hlen := List.length_erase_add_one hc
  refine Accounts.freed (h.shift t .away rfl rfl ?_ h.le_maxSize ?_ (fun d => ?_)
    (fun hcl => absurd (Or.inl hcl) hr) h.closedLast)
  · simp [ConnectionPool.goTo, hs]
    omega
  · simp [ConnectionPool.goTo, ho]
  · have hd := count_erase_add hc d
    simp [ConnectionPool.goTo, hh, List.count_cons]
    omega

theorem Accounts.handIn (t : τ) (c : ℕ) : Accounts (s.handIn t c) :=
  { h with }

theorem Accounts.release (hp : (s.phase t).Free) (c : ℕ) ( open_ : Bool) :
    Accounts (s.release t c open_) := by
  by_cases hc : c ∈ s.out
  · by_cases ho : ((open_ || s.options.resets) && !s.closed) = true
    · simp only [ConnectionPool.release, if_pos hc, if_pos ho]
      exact h.goTo hp trivial
    · simp only [ConnectionPool.release, if_pos hc, if_neg ho]
      exact h.giveBack hp hc true
  · simpa only [ConnectionPool.release, if_neg hc] using h

theorem Accounts.discard (hp : (s.phase t).Free) (c : ℕ) : Accounts (s.discard t c) := by
  by_cases hc : c ∈ s.out
  · simp only [ConnectionPool.discard, if_pos hc]
    exact h.retire_out hp hc
  · by_cases hi : c ∈ s.idle
    · simp only [ConnectionPool.discard, if_neg hc, if_pos hi]
      exact h.retire_idle hp hi
    · simpa only [ConnectionPool.discard, if_neg hc, if_neg hi] using h

theorem Accounts.close (hp : (s.phase t).Free) : Accounts (s.close t) := by
  by_cases hcl : s.closed = true
  · simpa only [ConnectionPool.close, if_pos hcl] using h
  simp only [ConnectionPool.close, if_neg hcl]
  obtain ⟨hs, ho, hh⟩ := hp.measures
  have hmax := h.le_maxSize
  refine h.shift t (.closing s.idle.reverse) rfl rfl ?_ ?_ ?_ (fun d => ?_) (fun _ => rfl)
    h.closedLast
  · simp [ConnectionPool.goTo, hs]
    ring
  · simp
    omega
  · simp [ConnectionPool.goTo, ho]
  · simp [ConnectionPool.goTo, hh]
    ring

/-- A thread closes a connection it has off the lists. -/
theorem Accounts.logClosed (hslot : (s.phase t).slot = p.slot)
    (hopens : (s.phase t).opens = p.opens)
    (hhas : ∀ d, (s.phase t).has d = p.has d + if c = d then 1 else 0) :
    Accounts ((s.logClosed c).goTo t p) := by
  refine h.shift t p rfl rfl ?_ h.le_maxSize ?_ (fun d => ?_) h.idle ?_
  · simp [ConnectionPool.logClosed, ConnectionPool.goTo, hslot]
  · simp [ConnectionPool.logClosed, ConnectionPool.goTo, hopens]
  · simp [ConnectionPool.logClosed, ConnectionPool.goTo, hhas, List.count_singleton]
    ring
  · refine h.closedLast.append (.inl rfl) (h.not_closed (t := t) (.inr (.inr ?_)))
    have := Phase.has_nonneg c p
    rw [hhas c]
    omega

/-- The books of an unfit connection, or of one that could not be opened, are put right. -/
theorem Accounts.countOff (hp : s.phase t = .unfit) :
    Accounts ({ s with created := s.created - 1 }.freed.goTo t .looking) := by
  have hmax := h.le_maxSize
  refine h.shift t .looking rfl rfl ?_ ?_ ?_ (fun d => ?_) h.idle h.closedLast
  · simp [ConnectionPool.freed, ConnectionPool.goTo, hp]
  · simp [ConnectionPool.freed, ConnectionPool.goTo]
    omega
  · simp [ConnectionPool.freed, ConnectionPool.goTo, hp]
  · simp [ConnectionPool.freed, ConnectionPool.goTo, hp]

theorem Accounts.notOpened (hp : s.phase t = .opening) :
    Accounts ({ s.goTo t .away with
      created := s.created - 1, reserving := s.reserving - 1 }.freed) := by
  have hmax := h.le_maxSize
  refine Accounts.freed (h.shift t .away rfl rfl ?_ ?_ ?_ (fun d => ?_) h.idle h.closedLast)
  · simp [ConnectionPool.goTo, hp]
  · simp
    omega
  · simp [hp]
  · simp [ConnectionPool.goTo, hp]

end

/-! ## Every interleaving -/

theorem Accounts.step (h : Accounts s) (a : Turn τ) : Accounts (s.step a) := by
  cases a with
  | acquire t =>
    simp only [ConnectionPool.step]
    split
    · exact h.tryTake (by simp_all [Phase.Free])
    · exact h.tryTake (by simp_all [Phase.Free])
    · exact h
  | woken t =>
    simp only [ConnectionPool.step]
    split
    · split
      · exact (h.goTo (by simp_all [Phase.Free]) (p := .looking) trivial).of_waiters _ _
      · exact h
    · exact h
  | slept t | timedOut t =>
    simp only [ConnectionPool.step]
    split
    · next hp => exact h.unwait.goTo (by simp [ConnectionPool.unwait, hp, Phase.Free]) trivial
    · exact h
  | validated t healthy =>
    simp only [ConnectionPool.step]
    split
    · next c hp =>
      split
      · exact h.lend_validated hp
      · exact h.logClosed (by simp [hp]) (by simp [hp]) (by simp [hp])
    · exact h
  | countOff t =>
    simp only [ConnectionPool.step]
    split
    · next hp =>
      exact (h.countOff hp).tryTake (by simp [ConnectionPool.goTo, Phase.Free])
    · exact h
  | opened t ok =>
    simp only [ConnectionPool.step]
    split
    · next hp =>
      split
      · exact h.lend_opened hp
      · exact h.notOpened hp
    · exact h
  | release t c open_ =>
    simp only [ConnectionPool.step]
    split
    · next hp =>
      exact (h.handIn t c).release (by simp [ConnectionPool.handIn, hp, Phase.Free]) c open_
    · exact h
  | resetDone t reusable =>
    simp only [ConnectionPool.step]
    split
    · next c hp =>
      split
      · next hc => exact h.giveBack (by simp [hp, Phase.Free]) hc reusable
      · exact h.goTo (by simp [hp, Phase.Free]) trivial
    · exact h
  | discard t c =>
    simp only [ConnectionPool.step]
    split
    · next hp => exact (h.handIn t c).discard (by simp [ConnectionPool.handIn, hp, Phase.Free]) c
    · exact h
  | close t =>
    simp only [ConnectionPool.step]
    split
    · next hp => exact h.close (by simp [hp, Phase.Free])
    · exact h
  | closeConnection t =>
    simp only [ConnectionPool.step]
    split
    · next c cs hp =>
      exact h.logClosed (by simp [hp]) (by simp [hp]) (by simp [hp, List.count_cons])
    · next hp =>
      refine h.shift t .away rfl rfl ?_ h.le_maxSize ?_ (fun d => ?_) h.idle h.closedLast
      · simp [ConnectionPool.goTo, hp]
      · simp [ConnectionPool.goTo, hp]
      · simp [ConnectionPool.goTo, hp]
    · exact h

theorem accounts_run (options : PoolOptions) (l : List (Turn τ)) :
    Accounts (Runs.run ConnectionPool.step (new options) l) :=
  Runs.run_invariant (accounts_new options) (fun _ a h => h.step a) l

end ConnectionPool

end CrossByte
