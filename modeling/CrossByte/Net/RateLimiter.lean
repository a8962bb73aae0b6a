import CrossByte.Db.Kv.KVKeys
import CrossByte.Lib.Revisions
import CrossByte.Lib.Runs

/-!
# Limiters on one shared store

`RateLimiter` given a `KVRateLimitStore` keeps the bucket of a key in a `KVStore`: a check reads
its clock and the bucket, works out what the bucket holds now, and writes it back, less its cost,
if nobody wrote it meanwhile.  After a write now and then, and in `removeExpired`, the store looks
at a page of buckets and removes the ones full again at the revisions it saw them at; then it purges
the tombstones of a minute ago.

A `Turn` is one reading of a clock or one call of the `KVStore`, of any check or sweep of any
process, so a list of turns is any interleaving.  Tokens and times are rationals.  Nothing is
asked of the clocks.  Where a sweep's page begins and ends is up to the turn: the cursor kept
between sweeps decides no more than that.

## Main results

* `Sound`: what a bucket holds is paid for, and a bucket removed was full.
* `limits_together`: the requests allowed on one bucket cost no more than its capacity and what
  it gained between their readings of the clock, each of them paid once, if no bucket is made by a
  check whose clock is behind the time an earlier one was full, and no tombstone is purged whose
  revisions are still held.
* `same_seconds_twice`: without that, with one clock for everyone, a check that found no bucket
  writes one after another's came and went, and the seconds since its reading count again.
-/

namespace CrossByte

namespace RateLimiter

/-! ## Buckets -/

/-- A limiter's capacity and period. -/
structure Limits where
  maxRequests : ℕ
  perSeconds : ℚ
  one_le_maxRequests : 1 ≤ maxRequests
  perSeconds_pos : 0 < perSeconds

def Limits.refillPerSecond (l : Limits) : ℚ := l.maxRequests / l.perSeconds

theorem Limits.refillPerSecond_pos (l : Limits) : 0 < l.refillPerSecond := by
  have h : (0 : ℚ) < l.maxRequests := by exact_mod_cast l.one_le_maxRequests
  exact div_pos h l.perSeconds_pos

/-- The value of a bucket's record: its tokens, when they were counted, and when it is full. -/
structure Bucket where
  tokens : ℚ
  updatedAt : ℚ
  fullAt : ℚ
  deriving DecidableEq

/-- The buckets in the store, by the keys of their records. -/
abbrev Buckets := Revisions.Cells Text Bucket ℚ

def plainKeyMost : ℕ := 200

/-- `__plain`: whether a key is kept as it is. -/
def plain (key : Text) : Bool :=
  key.length ≤ plainKeyMost && key.head? ≠ some 0x23 &&
    key.all fun code => 0x20 ≤ code.val && code.val ≤ 0x7E

/-- `__bucketKey`, with the store's prefix and the hash of a key in hexadecimal. -/
def bucketKey (pfx : Text) (sha256 : Text → Text) (key : Option Text) : Text :=
  let key := key.getD []
  pfx ++ [0x62, 0x2F] ++ if plain key then key else 0x23 :: sha256 key

/-- What a check works out of the bucket it read: the tokens there are now, and the time they are
counted at, which never goes back. -/
def Limits.refilled (l : Limits) (now : ℚ) : Option (Bucket × ℕ) → ℚ × ℚ
  | none => (l.maxRequests, now)
  | some (b, _) =>
    if b.updatedAt < now then
      (min l.maxRequests (b.tokens + (now - b.updatedAt) * l.refillPerSecond), now)
    else (b.tokens, b.updatedAt)

/-- The bucket a check writes. -/
def Limits.spent (l : Limits) (now : ℚ) (read : Option (Bucket × ℕ)) (cost : ℕ) : Bucket :=
  let left := (l.refilled now read).1 - cost
  let counted := (l.refilled now read).2
  ⟨left, counted, counted + (l.maxRequests - left) / l.refillPerSecond⟩

/-! ## Checks and sweeps -/

/-- The calls that check a key. -/
inductive Call
  | tryAcquire
  | consume
  | secondsUntil

/-- Where a check is in `__stored`, with the attempts it has after this one. -/
inductive Phase
  /-- About to read the clock. -/
  | starting (attempts : ℕ)
  /-- About to read the bucket. -/
  | timed (attempts : ℕ) (now : ℚ)
  /-- About to write it. -/
  | writing (attempts : ℕ) (now : ℚ) (read : Option (Bucket × ℕ))
  | done (allowed : Bool)
  /-- A check that does not spend has what it asked for. -/
  | peeked (tokens : ℚ)
  deriving DecidableEq

/-- A check of the bucket at `place`. -/
structure Check where
  place : Text
  cost : ℕ
  spend : Bool
  phase : Phase

def storeAttempts : ℕ := 16

/-- A check about to make its first attempt. -/
def Check.stored (place : Text) (cost : ℕ) (spend : Bool) : Check :=
  ⟨place, cost, spend, .starting (storeAttempts - 1)⟩

/-- The check a call makes; none if it throws, or answers, without one. -/
def Call.check (l : Limits) (place : Text) (cost : ℕ) : Call → Option Check
  | .tryAcquire =>
    if cost < 1 then none
    else if l.maxRequests < cost then some ⟨place, cost, true, .done false⟩
    else some (.stored place cost true)
  | .consume =>
    if cost < 1 then none
    else if l.maxRequests < cost then some (.stored place 1 false)
    else some (.stored place cost true)
  | .secondsUntil =>
    if cost < 1 ∨ l.maxRequests < cost then none else some (.stored place cost false)

/-- What a sweep keeps of a record of its page. -/
structure Item where
  place : Text
  revision : ℕ
  fullAt : ℚ

/-- A sweep: the clock it judges by, once read, and what is left of its page. -/
structure Sweep where
  time : Option ℚ
  page : List Item

/-- A request allowed: the check, what it cost, and the clock it had read. -/
structure Spend where
  check : ℕ
  place : Text
  cost : ℕ
  now : ℚ
  deriving DecidableEq

/-- The store, the checks and sweeps under way or over, and what happened: the requests allowed,
and the buckets removed with the times they were full at. -/
structure State where
  buckets : Buckets
  checks : ℕ → Option Check
  sweeps : ℕ → Option Sweep
  spends : List Spend
  removed : List (Text × ℚ)

def State.new : State := ⟨fun _ => none, fun _ => none, fun _ => none, [], []⟩

/-- What happens next: a call, a reading of a clock, or a call of the store, which has a clock of
its own for the times of its records. -/
inductive Turn
  | start (i : ℕ) (call : Call) (key : Option Text) (cost : ℕ)
  | clock (i : ℕ) (now : ℚ)
  | read (i : ℕ)
  | write (i : ℕ) (storeNow : ℚ)
  | scan (j : ℕ) (keys : List Text)
  | judge (j : ℕ) (now : ℚ)
  | remove (j : ℕ) (storeNow : ℚ)
  | purge (now : ℚ)

namespace State

variable (l : Limits) (s : State)

/-- Check `i` is now `c`. -/
def withCheck (i : ℕ) (c : Check) : State :=
  { s with checks := Function.update s.checks i (some c) }

/-- Sweep `j` is now `w`. -/
def withSweep (j : ℕ) (w : Sweep) : State :=
  { s with sweeps := Function.update s.sweeps j (some w) }

/-- The bucket read: a check that does not spend is over, and one it has too few tokens for. -/
def read (i : ℕ) (c : Check) (attempts : ℕ) (now : ℚ) : State :=
  let found := Revisions.live s.buckets c.place
  let tokens := (l.refilled now found).1
  let phase : Phase :=
    if ¬ c.spend then .peeked tokens
    else if tokens < c.cost then .done false
    else .writing attempts now found
  s.withCheck i { c with phase }

/-- The bucket written, or another attempt, or the last one made. -/
def write (i : ℕ) (c : Check) (attempts : ℕ) (now : ℚ) (found : Option (Bucket × ℕ))
    (storeNow : ℚ) : State :=
  match Revisions.compareAndSet s.buckets c.place (l.spent now found c.cost)
      (Revisions.expected found) storeNow with
  | some buckets =>
    let s' := s.withCheck i { c with phase := .done true }
    { s' with buckets, spends := s.spends ++ [⟨i, c.place, c.cost, now⟩] }
  | none =>
    let phase : Phase :=
      match attempts with
      | 0 => .done false
      | attempts + 1 => .starting attempts
    s.withCheck i { c with phase }

def page (keys : List Text) : List Item :=
  keys.filterMap fun k => (Revisions.live s.buckets k).map fun p => ⟨k, p.2, p.1.fullAt⟩

/-- `__removeFull`, for one record of the page. -/
def remove (j : ℕ) (time : ℚ) (item : Item) (rest : List Item) (storeNow : ℚ) : State :=
  let s' := s.withSweep j ⟨some time, rest⟩
  if item.fullAt ≤ time then
    match Revisions.compareAndDelete s.buckets item.place item.revision storeNow with
    | some buckets => { s' with buckets, removed := (item.place, item.fullAt) :: s.removed }
    | none => s'
  else s'

variable (pfx : Text) (sha256 : Text → Text)

/-- One turn; one that is nobody's is none. -/
def step (s : State) : Turn → State
  | .start i call key cost =>
    match s.checks i, call.check l (bucketKey pfx sha256 key) cost with
    | none, some c => s.withCheck i c
    | _, _ => s
  | .clock i now =>
    match s.checks i with
    | some ⟨place, cost, spend, .starting attempts⟩ =>
      s.withCheck i ⟨place, cost, spend, .timed attempts now⟩
    | _ => s
  | .read i =>
    match s.checks i with
    | some ⟨place, cost, spend, .timed attempts now⟩ =>
      s.read l i ⟨place, cost, spend, .timed attempts now⟩ attempts now
    | _ => s
  | .write i storeNow =>
    match s.checks i with
    | some ⟨place, cost, spend, .writing attempts now found⟩ =>
      s.write l i ⟨place, cost, spend, .writing attempts now found⟩ attempts now found storeNow
    | _ => s
  | .scan j keys =>
    match s.sweeps j with
    | some ⟨_, _ :: _⟩ => s
    | _ => s.withSweep j ⟨none, s.page keys⟩
  | .judge j now =>
    match s.sweeps j with
    | some ⟨none, page⟩ => s.withSweep j ⟨some now, page⟩
    | _ => s
  | .remove j storeNow =>
    match s.sweeps j with
    | some ⟨some time, item :: rest⟩ => s.remove j time item rest storeNow
    | _ => s
  | .purge now => { s with buckets := Revisions.purge s.buckets (now - 60) }

/-! ## What is claimed of a run -/

/-- The requests allowed on a bucket. -/
def spendsAt (k : Text) : List Spend := s.spends.filter (·.place = k)

/-- What the requests allowed on a bucket cost. -/
def costAt (k : Text) : ℚ := ((s.spendsAt k).map fun e => (e.cost : ℚ)).sum

/-- What a check has spent. -/
def spentBy (i : ℕ) : List Spend := s.spends.filter (·.check = i)

/-- A check between its read and its write, or a sweep with its page, holds a revision of `k`. -/
def Holds (k : Text) : Prop :=
  (∃ i cost spend attempts now p,
    s.checks i = some ⟨k, cost, spend, .writing attempts now (some p)⟩) ∨
  ∃ j w, s.sweeps j = some w ∧ ∃ item ∈ w.page, item.place = k

/-- If check `i` found no bucket, and is to make one, it has read a clock not behind the time at
which any bucket removed from there was full. -/
def InTime (i : ℕ) : Prop :=
  match s.checks i with
  | some ⟨place, _, _, .writing _ now none⟩ =>
    Revisions.live s.buckets place = none → ∀ f ∈ s.removed, f.1 = place → f.2 ≤ now
  | _ => True

instance (i : ℕ) : Decidable (s.InTime i) := by
  unfold InTime
  split <;> infer_instance

/-- A bucket is made in time, and a purge takes no tombstone of a key whose revisions are held. -/
def Safe : Turn → Prop
  | .write i _ => s.InTime i
  | .purge now =>
    ∀ k c, s.buckets k = some c → Revisions.Outdated (now - 60) c → ¬ s.Holds k
  | _ => True

end State

/-! ## What is paid for -/

section Paid

variable {l : Limits} {s s' : State} {e : Spend} {k : Text} {b : Bucket}

theorem spendsAt_append_self (h : s'.spends = s.spends ++ [e]) :
    s'.spendsAt e.place = s.spendsAt e.place ++ [e] := by
  simp [State.spendsAt, h]

theorem spendsAt_append_ne (h : s'.spends = s.spends ++ [e]) (hk : k ≠ e.place) :
    s'.spendsAt k = s.spendsAt k := by
  simp [State.spendsAt, h, hk.symm]

theorem costAt_congr (h : s'.spendsAt k = s.spendsAt k) : s'.costAt k = s.costAt k := by
  rw [State.costAt, State.costAt, h]

theorem costAt_append_self (h : s'.spends = s.spends ++ [e]) :
    s'.costAt e.place = s.costAt e.place + e.cost := by
  simp [State.costAt, spendsAt_append_self h]

/-- What the requests allowed on a bucket cost is no more than it can have held and gained since,
up to the time it counts its tokens at, less the tokens it has. -/
structure Backs (l : Limits) (s : State) (k : Text) (b : Bucket) : Prop where
  tokens_nonneg : 0 ≤ b.tokens
  fullAt : b.fullAt = b.updatedAt + (l.maxRequests - b.tokens) / l.refillPerSecond
  counted : ∃ e ∈ s.spendsAt k, e.now = b.updatedAt
  cost : ∀ first, (∀ e ∈ s.spendsAt k, first ≤ e.now) →
    s.costAt k ≤ l.maxRequests + l.refillPerSecond * (b.updatedAt - first) - b.tokens

/-- Where there is no bucket there was none, or the last one had gained what was spent by the time
it was full. -/
def Repaid (l : Limits) (s : State) (k : Text) : Prop :=
  s.spendsAt k = [] ∨ ∃ full, (k, full) ∈ s.removed ∧
    ∀ first, (∀ e ∈ s.spendsAt k, first ≤ e.now) → s.costAt k ≤ l.refillPerSecond * (full - first)

/-- The requests allowed on a bucket cost no more than its capacity and what it gains between the
first and the last of their readings. -/
def Within (l : Limits) (s : State) (k : Text) : Prop :=
  ∀ first last, first ≤ last → (∀ e ∈ s.spendsAt k, first ≤ e.now ∧ e.now ≤ last) →
    s.costAt k ≤ l.maxRequests + l.refillPerSecond * (last - first)

theorem Backs.congr (h : Backs l s k b) (hs : s'.spendsAt k = s.spendsAt k) : Backs l s' k b where
  tokens_nonneg := h.tokens_nonneg
  fullAt := h.fullAt
  counted := hs ▸ h.counted
  cost first hfirst := by
    rw [costAt_congr hs]
    exact h.cost first (hs ▸ hfirst)

theorem Repaid.congr (h : Repaid l s k) (hs : s'.spendsAt k = s.spendsAt k)
    (hr : s.removed ⊆ s'.removed) : Repaid l s' k := by
  rcases h with h | ⟨full, hfull, hcost⟩
  · exact .inl (hs.trans h)
  · refine .inr ⟨full, hr hfull, fun first hfirst => ?_⟩
    rw [costAt_congr hs]
    exact hcost first (hs ▸ hfirst)

theorem Within.congr (h : Within l s k) (hs : s'.spendsAt k = s.spendsAt k) : Within l s' k := by
  intro first last hle hbetween
  rw [costAt_congr hs]
  exact h first last hle (hs ▸ hbetween)

theorem Backs.within (h : Backs l s k b) : Within l s k := by
  intro first last _ hbetween
  obtain ⟨e, he, hnow⟩ := h.counted
  have hlast : b.updatedAt ≤ last := hnow ▸ (hbetween e he).2
  calc s.costAt k
      ≤ l.maxRequests + l.refillPerSecond * (b.updatedAt - first) - b.tokens :=
        h.cost first fun e he => (hbetween e he).1
    _ ≤ l.maxRequests + l.refillPerSecond * (b.updatedAt - first) := by
        linarith [h.tokens_nonneg]
    _ ≤ l.maxRequests + l.refillPerSecond * (last - first) := by
        have := mul_le_mul_of_nonneg_left (sub_le_sub_right hlast first) l.refillPerSecond_pos.le
        linarith

/-- By the time it is full a bucket has gained what was spent. -/
theorem Backs.full (h : Backs l s k b) {first : ℚ} (hfirst : ∀ e ∈ s.spendsAt k, first ≤ e.now) :
    s.costAt k ≤ l.refillPerSecond * (b.fullAt - first) := by
  have hrate := l.refillPerSecond_pos.ne'
  calc s.costAt k
      ≤ l.maxRequests + l.refillPerSecond * (b.updatedAt - first) - b.tokens := h.cost first hfirst
    _ = l.refillPerSecond * (b.fullAt - first) := by
        rw [h.fullAt]
        field_simp
        ring

/-! ### What a write leaves -/

variable {now : ℚ} {found : Option (Bucket × ℕ)} {cost : ℕ}

/-- The tokens a check finds in a bucket are those it had and at most what it gained since. -/
theorem refilled_some_le (r : ℕ) : (l.refilled now (some (b, r))).1 ≤
    b.tokens + l.refillPerSecond * ((l.refilled now (some (b, r))).2 - b.updatedAt) := by
  simp only [Limits.refilled]
  split
  · rw [mul_comm l.refillPerSecond]
    exact min_le_right _ _
  · simp

theorem refilled_some_counted (r : ℕ) :
    (l.refilled now (some (b, r))).2 = now ∨ (l.refilled now (some (b, r))).2 = b.updatedAt := by
  simp only [Limits.refilled]
  split
  · exact .inl rfl
  · exact .inr rfl

/-- A request allowed, of what a check found, leaves a bucket that is paid for if what was found
was. -/
theorem backs_spent (hs : s'.spends = s.spends ++ [e])
    (henough : e.cost ≤ (l.refilled e.now found).1)
    (hcounted : (l.refilled e.now found).2 = e.now ∨
      ∃ e' ∈ s.spendsAt e.place, e'.now = (l.refilled e.now found).2)
    (hcost : ∀ first, (∀ e' ∈ s.spendsAt e.place, first ≤ e'.now) → first ≤ e.now →
      s.costAt e.place ≤ l.maxRequests +
        l.refillPerSecond * ((l.refilled e.now found).2 - first) - (l.refilled e.now found).1) :
    Backs l s' e.place (l.spent e.now found e.cost) where
  tokens_nonneg := sub_nonneg.2 henough
  fullAt := rfl
  counted := by
    rw [spendsAt_append_self hs]
    rcases hcounted with h | ⟨e', he', h⟩
    · exact ⟨e, by simp, h.symm⟩
    · exact ⟨e', by simp [he'], h⟩
  cost first hfirst := by
    rw [spendsAt_append_self hs] at hfirst
    have := hcost first (fun e' he' => hfirst e' (by simp [he'])) (hfirst e (by simp))
    rw [costAt_append_self hs]
    simp only [Limits.spent]
    linarith

theorem Backs.spend {r : ℕ} (h : Backs l s e.place b) (hs : s'.spends = s.spends ++ [e])
    (henough : e.cost ≤ (l.refilled e.now (some (b, r))).1) :
    Backs l s' e.place (l.spent e.now (some (b, r)) e.cost) := by
  refine backs_spent hs henough ?_ fun first hfirst _ => ?_
  · refine (refilled_some_counted r).imp_right fun hc => ?_
    rw [hc]
    exact h.counted
  · have hcost := h.cost first hfirst
    have hle : (l.refilled e.now (some (b, r))).1 ≤
        b.tokens + l.refillPerSecond * ((l.refilled e.now (some (b, r))).2 - b.updatedAt) :=
      refilled_some_le r
    linarith

/-- There was no bucket, and none is removed that was full later than the clock says. -/
theorem Repaid.spend (h : Repaid l s e.place) (hs : s'.spends = s.spends ++ [e])
    (henough : e.cost ≤ (l.refilled e.now none).1)
    (hbehind : ∀ f ∈ s.removed, f.1 = e.place → f.2 ≤ e.now) :
    Backs l s' e.place (l.spent e.now none e.cost) := by
  refine backs_spent hs henough (.inl rfl) fun first hfirst hnow => ?_
  have hrate := l.refillPerSecond_pos.le
  suffices s.costAt e.place ≤ l.refillPerSecond * (e.now - first) by
    simpa [Limits.refilled] using this
  rcases h with h | ⟨full, hfull, hcost⟩
  · rw [State.costAt, h]
    exact mul_nonneg hrate (sub_nonneg.2 hnow)
  · have hle : full ≤ e.now := hbehind _ hfull rfl
    exact (hcost first hfirst).trans
      (mul_le_mul_of_nonneg_left (sub_le_sub_right hle first) hrate)

end Paid

/-! ## What every turn keeps -/

/-- What a check has spent: its cost once if it is allowed, and else nothing. -/
def Settles (spent : List Spend) (i : ℕ) : Option Check → Prop
  | some ⟨place, cost, _, .done true⟩ => ∃ now, spent = [⟨i, place, cost, now⟩]
  | _ => spent = []

/-- A check about to write has enough, of a bucket its revision still names. -/
def Reads (l : Limits) (m : Buckets) (c : Check) : Prop :=
  ∀ attempts now found, c.phase = .writing attempts now found →
    c.cost ≤ (l.refilled now found).1 ∧ ∀ b r, found = some (b, r) → Revisions.Names m c.place r b

/-- The records of a page are buckets their revisions still name. -/
def Pages (m : Buckets) (page : List Item) : Prop :=
  ∀ item ∈ page, ∃ b, Revisions.Names m item.place item.revision b ∧ b.fullAt = item.fullAt

/-- The state of the limiters between turns. -/
structure Sound (l : Limits) (s : State) : Prop where
  counted : Revisions.Counted s.buckets
  backs : ∀ k b r, Revisions.live s.buckets k = some (b, r) → Backs l s k b
  repaid : ∀ k, Revisions.live s.buckets k = none → Repaid l s k
  within : ∀ k, Within l s k
  reads : ∀ i c, s.checks i = some c → Reads l s.buckets c
  pages : ∀ j w, s.sweeps j = some w → Pages s.buckets w.page
  settles : ∀ i, Settles (s.spentBy i) i (s.checks i)

section Steps

variable {l : Limits} {s : State} {i j : ℕ} {c : Check} {w : Sweep}

@[simp] theorem checks_withCheck_self : (s.withCheck i c).checks i = some c :=
  Function.update_self ..

theorem checks_withCheck_ne {i' : ℕ} (h : i' ≠ i) : (s.withCheck i c).checks i' = s.checks i' :=
  Function.update_of_ne h ..

theorem Sound.new : Sound l .new where
  counted _ _ h := nomatch h
  backs _ _ _ h := nomatch h
  repaid _ _ := .inl rfl
  within k first last hle _ := by
    have h : (0 : ℚ) ≤ l.refillPerSecond * (last - first) :=
      mul_nonneg l.refillPerSecond_pos.le (sub_nonneg.2 hle)
    have hcost : State.new.costAt k = 0 := rfl
    positivity
  reads _ _ h := nomatch h
  pages _ _ h := nomatch h
  settles _ := rfl

theorem Reads.of_phase {m : Buckets}
    (h : ∀ attempts now found, c.phase ≠ .writing attempts now found) : Reads l m c :=
  fun attempts now found hc => absurd hc (h attempts now found)

theorem Sound.withCheck (h : Sound l s) (hreads : Reads l s.buckets c)
    (hsettles : Settles (s.spentBy i) i (some c)) : Sound l (s.withCheck i c) where
  counted := h.counted
  backs k b r hlive := (h.backs k b r hlive).congr rfl
  repaid := h.repaid
  within := h.within
  reads i' c' hc' := by
    by_cases hi : i' = i
    · subst hi
      obtain rfl : c = c' := by simpa using hc'
      exact hreads
    · exact h.reads i' c' (checks_withCheck_ne hi ▸ hc')
  pages := h.pages
  settles i' := by
    by_cases hi : i' = i
    · subst hi
      rw [checks_withCheck_self]
      exact hsettles
    · rw [checks_withCheck_ne hi]
      exact h.settles i'

theorem Sound.withSweep (h : Sound l s) (hpage : Pages s.buckets w.page) :
    Sound l (s.withSweep j w) where
  counted := h.counted
  backs k b r hlive := (h.backs k b r hlive).congr rfl
  repaid := h.repaid
  within := h.within
  reads := h.reads
  pages j' w' hw' := by
    by_cases hj : j' = j
    · subst hj
      obtain rfl : w = w' := by simpa [State.withSweep] using hw'
      exact hpage
    · exact h.pages j' w' (by simpa [State.withSweep, hj] using hw')
  settles := h.settles

theorem Sound.spentBy_eq_nil (h : Sound l s) (hc : s.checks i = some c)
    (hphase : c.phase ≠ .done true) : s.spentBy i = [] := by
  have hsettles := h.settles i
  rw [hc] at hsettles
  unfold Settles at hsettles
  split at hsettles
  · rename_i heq
    obtain rfl := Option.some.inj heq
    exact absurd rfl hphase
  · exact hsettles

theorem Sound.goOn (h : Sound l s) (hspent : s.spentBy i = []) (hreads : Reads l s.buckets c)
    (hnext : c.phase ≠ .done true) : Sound l (s.withCheck i c) := by
  refine h.withCheck hreads ?_
  unfold Settles
  split
  · rename_i heq
    obtain rfl := Option.some.inj heq
    exact absurd rfl hnext
  · exact hspent

/-! ### Checks -/

variable {attempts : ℕ} {found : Option (Bucket × ℕ)}

theorem Sound.read (h : Sound l s) {now : ℚ} (hc : s.checks i = some c)
    (hphase : c.phase = .timed attempts now) : Sound l (s.read l i c attempts now) := by
  refine h.goOn (h.spentBy_eq_nil hc (by simp [hphase])) ?_ ?_
  · intro attempts' now' found' hwriting
    split_ifs at hwriting with hspend hcost
    obtain ⟨rfl, rfl, rfl⟩ := Phase.writing.inj hwriting
    exact ⟨not_lt.1 hcost, fun b r hfound => h.counted.names hfound⟩
  · split_ifs <;> simp

theorem Sound.spend (h : Sound l s) {s' : State} {now storeNow : ℚ} (hc : s.checks i = some c)
    (hphase : c.phase = .writing attempts now found)
    (hat : Revisions.expected (Revisions.live s.buckets c.place) = Revisions.expected found)
    (hbehind : found = none → Revisions.live s.buckets c.place = none →
      ∀ f ∈ s.removed, f.1 = c.place → f.2 ≤ now)
    (hs' : s' = { s with
      buckets := Revisions.put s.buckets c.place (some (l.spent now found c.cost)) storeNow
      checks := Function.update s.checks i (some { c with phase := .done true })
      spends := s.spends ++ [⟨i, c.place, c.cost, now⟩] }) : Sound l s' := by
  obtain ⟨henough, hnames⟩ := h.reads i c hc attempts now found hphase
  set e : Spend := ⟨i, c.place, c.cost, now⟩ with he
  have hs : s'.spends = s.spends ++ [e] := by rw [hs']
  have hne : ∀ {k}, k ≠ c.place → s'.spendsAt k = s.spendsAt k := spendsAt_append_ne hs
  have hback : Backs l s' c.place (l.spent now found c.cost) := by
    cases found with
    | none =>
      have hnone := h.counted.expected_eq_zero_iff.1 hat
      exact (h.repaid _ hnone).spend hs henough (hbehind rfl hnone)
    | some p =>
      have hlive := (hnames p.1 p.2 rfl).live_of_expected hat
      exact (h.backs _ _ _ hlive).spend hs henough
  have hspent : s.spentBy i = [] := h.spentBy_eq_nil hc (by simp [hphase])
  have hbuckets : s'.buckets =
      Revisions.put s.buckets c.place (some (l.spent now found c.cost)) storeNow := by rw [hs']
  have hchecks : s'.checks = Function.update s.checks i (some { c with phase := .done true }) := by
    rw [hs']
  constructor
  case counted => exact hbuckets ▸ h.counted.put
  case backs =>
    intro k b r hlive
    rw [hbuckets] at hlive
    by_cases hk : k = c.place
    · subst hk
      obtain ⟨rfl, -⟩ : l.spent now found c.cost = b ∧ _ := by simpa using hlive
      exact hback
    · rw [Revisions.live_put_ne hk] at hlive
      exact (h.backs k b r hlive).congr (hne hk)
  case repaid =>
    intro k hlive
    rw [hbuckets] at hlive
    by_cases hk : k = c.place
    · subst hk
      simp at hlive
    · rw [Revisions.live_put_ne hk] at hlive
      exact (h.repaid k hlive).congr (hne hk) (by rw [hs']; exact List.Subset.refl _)
  case within =>
    intro k
    by_cases hk : k = c.place
    · exact hk ▸ hback.within
    · exact (h.within k).congr (hne hk)
  case reads =>
    intro i' c' hc'
    rw [hchecks] at hc'
    by_cases hi : i' = i
    · subst hi
      obtain rfl : { c with phase := .done true } = c' := by simpa using hc'
      exact .of_phase (by simp)
    · rw [Function.update_of_ne hi] at hc'
      intro attempts' now' found' hphase'
      obtain ⟨hle, hnames'⟩ := h.reads i' c' hc' attempts' now' found' hphase'
      exact ⟨hle, fun b r hfound => hbuckets ▸ (hnames' b r hfound).put⟩
  case pages =>
    intro j w hw item hitem
    obtain ⟨b, hb, hfull⟩ := h.pages j w (by rw [hs'] at hw; exact hw) item hitem
    exact ⟨b, hbuckets ▸ hb.put, hfull⟩
  case settles =>
    intro i'
    rw [hchecks]
    by_cases hi : i' = i
    · subst hi
      rw [Function.update_self]
      refine ⟨now, ?_⟩
      rw [State.spentBy, hs, List.filter_append, ← State.spentBy, hspent]
      simp [he]
    · rw [Function.update_of_ne hi]
      have : s'.spentBy i' = s.spentBy i' := by
        simp [State.spentBy, hs, he, Ne.symm hi]
      rw [this]
      exact h.settles i'

theorem Sound.write (h : Sound l s) {now storeNow : ℚ} (hc : s.checks i = some c)
    (hphase : c.phase = .writing attempts now found)
    (hbehind : found = none → Revisions.live s.buckets c.place = none →
      ∀ f ∈ s.removed, f.1 = c.place → f.2 ≤ now) :
    Sound l (s.write l i c attempts now found storeNow) := by
  unfold State.write Revisions.compareAndSet
  split
  · rename_i buckets hset
    split at hset
    · rename_i hat
      exact h.spend hc hphase hat hbehind (by rw [← Option.some.inj hset]; rfl)
    · cases hset
  · refine h.goOn (h.spentBy_eq_nil hc (by simp [hphase])) (.of_phase ?_) ?_
    · cases attempts <;> simp
    · cases attempts <;> simp

/-! ### Sweeps -/

section

variable (h : Sound l s)

include h

theorem Sound.page (keys : List Text) : Pages s.buckets (s.page keys) := by
  intro item hitem
  obtain ⟨k, -, hk⟩ := List.mem_filterMap.1 hitem
  obtain ⟨⟨b, r⟩, hlive, rfl⟩ := Option.map_eq_some_iff.1 hk
  exact ⟨b, h.counted.names hlive, rfl⟩

/-- A bucket removed at the revision it was seen full at. -/
theorem Sound.delete {s' : State} {item : Item} {b : Bucket} {storeNow : ℚ}
    (hnames : Revisions.Names s.buckets item.place item.revision b) (hfull : b.fullAt = item.fullAt)
    (hlive : ∃ b, Revisions.live s.buckets item.place = some (b, item.revision))
    (hs' : s' = { s with
      buckets := Revisions.put s.buckets item.place none storeNow
      removed := (item.place, item.fullAt) :: s.removed }) : Sound l s' := by
  obtain ⟨b', hlive⟩ := hlive
  obtain rfl : b' = b := hnames.eq_of_live hlive
  have hback := h.backs _ _ _ hlive
  subst hs'
  constructor
  case counted => exact h.counted.put
  case backs =>
    intro k b r hk
    by_cases hplace : k = item.place
    · subst hplace
      simp at hk
    · rw [Revisions.live_put_ne hplace] at hk
      exact (h.backs k b r hk).congr rfl
  case repaid =>
    intro k hk
    by_cases hplace : k = item.place
    · refine .inr ⟨item.fullAt, by simp [hplace], fun first hfirst => ?_⟩
      rw [← hfull]
      subst hplace
      exact hback.full hfirst
    · rw [Revisions.live_put_ne hplace] at hk
      exact (h.repaid k hk).congr rfl (List.subset_cons_self _ _)
  case within => exact h.within
  case reads =>
    intro i c hc attempts now found hphase
    obtain ⟨hle, hnames⟩ := h.reads i c hc attempts now found hphase
    exact ⟨hle, fun b r hfound => (hnames b r hfound).put⟩
  case pages =>
    intro j w hw item' hitem
    obtain ⟨b, hb, hf⟩ := h.pages j w hw item' hitem
    exact ⟨b, hb.put, hf⟩
  case settles => exact h.settles

theorem Sound.remove {time storeNow : ℚ} {item : Item} {rest : List Item}
    (hw : s.sweeps j = some ⟨some time, item :: rest⟩) :
    Sound l (s.remove j time item rest storeNow) := by
  have hpage := h.pages j _ hw
  have hrest : Sound l (s.withSweep j ⟨some time, rest⟩) :=
    h.withSweep fun item' hitem => hpage item' (List.mem_cons_of_mem _ hitem)
  unfold State.remove
  split
  · split
    · rename_i buckets hdelete
      obtain ⟨hlive, rfl⟩ := Revisions.compareAndDelete_eq_some hdelete
      obtain ⟨b, hnames, hfull⟩ := hpage item List.mem_cons_self
      exact hrest.delete hnames hfull hlive rfl
    · exact hrest
  · exact hrest

theorem Sound.purge {before : ℚ}
    (hheld : ∀ k c, s.buckets k = some c → Revisions.Outdated before c → ¬ s.Holds k) :
    Sound l { s with buckets := Revisions.purge s.buckets before } := by
  constructor
  case counted => exact h.counted.purge
  case backs =>
    intro k b r hlive
    rw [Revisions.live_purge] at hlive
    exact (h.backs k b r hlive).congr rfl
  case repaid =>
    intro k hlive
    rw [Revisions.live_purge] at hlive
    exact (h.repaid k hlive).congr rfl (List.Subset.refl _)
  case within => exact h.within
  case reads =>
    intro i c hc attempts now found hphase
    obtain ⟨hle, hnames⟩ := h.reads i c hc attempts now found hphase
    refine ⟨hle, fun b r hfound => (hnames b r hfound).purge fun slot hslot hold => ?_⟩
    obtain ⟨place, cost, spend, phase⟩ := c
    obtain rfl : phase = .writing attempts now found := hphase
    subst hfound
    exact hheld place slot hslot hold (.inl ⟨i, cost, spend, attempts, now, _, hc⟩)
  case pages =>
    intro j w hw item hitem
    obtain ⟨b, hb, hf⟩ := h.pages j w hw item hitem
    exact ⟨b, hb.purge fun slot hslot hold =>
      hheld item.place slot hslot hold (.inr ⟨j, w, hw, item, hitem, rfl⟩), hf⟩
  case settles => exact h.settles

theorem Sound.start {call : Call} {place : Text} {cost : ℕ} (hi : s.checks i = none)
    (hc : call.check l place cost = some c) : Sound l (s.withCheck i c) := by
  have hspent : s.spentBy i = [] := by simpa [hi, Settles] using h.settles i
  have hphase : c.phase = .done false ∨ ∃ attempts, c.phase = .starting attempts := by
    cases call <;> simp only [Call.check] at hc <;> split_ifs at hc <;>
      obtain rfl := Option.some.inj hc <;> simp [Check.stored]
  refine h.goOn hspent (.of_phase ?_) ?_ <;>
    rcases hphase with hphase | ⟨attempts, hphase⟩ <;> simp [hphase]

end

/-- **Every turn that meets the condition keeps the state sound.** -/
theorem Sound.step (pfx : Text) (sha256 : Text → Text) (h : Sound l s) (t : Turn) (ht : s.Safe t) :
    Sound l (s.step l pfx sha256 t) := by
  cases t with
  | start i call key cost =>
    rw [State.step]
    split
    · rename_i hi hc
      exact h.start hi hc
    · exact h
  | clock i now =>
    rw [State.step]
    split
    · rename_i hc
      exact h.goOn (h.spentBy_eq_nil hc (by simp)) (.of_phase (by simp)) (by simp)
    · exact h
  | read i =>
    rw [State.step]
    split
    · rename_i hc
      exact h.read hc rfl
    · exact h
  | write i storeNow =>
    rw [State.step]
    split
    · rename_i hc
      refine h.write hc rfl ?_
      rintro rfl
      simpa [State.Safe, State.InTime, hc] using ht
    · exact h
  | scan j keys =>
    rw [State.step]
    split
    · exact h
    · exact h.withSweep (h.page keys)
  | judge j now =>
    rw [State.step]
    split
    · rename_i page hw
      exact h.withSweep (h.pages j ⟨none, page⟩ hw)
    · exact h
  | remove j storeNow =>
    rw [State.step]
    split
    · rename_i hw
      exact h.remove hw
    · exact h
  | purge now => exact h.purge ht

/-! ### What a turn does to the buckets -/

/-- A turn allows a request and takes its cost from the tokens its bucket has by the reading of its
clock; or it allows none and leaves the buckets as they are, but for one that a sweep removes. -/
def Pays (l : Limits) (s : State) (t : Turn) (s' : State) : Prop :=
  (∃ e b r, s'.spends = s.spends ++ [e] ∧ Revisions.live s'.buckets e.place = some (b, r) ∧
    b.tokens = (l.refilled e.now (Revisions.live s.buckets e.place)).1 - e.cost ∧
    0 ≤ b.tokens ∧ ∀ k ≠ e.place, Revisions.live s'.buckets k = Revisions.live s.buckets k) ∨
  s'.spends = s.spends ∧ ∀ k, Revisions.live s'.buckets k = Revisions.live s.buckets k ∨
    (∃ j storeNow, t = .remove j storeNow) ∧ Revisions.live s'.buckets k = none

theorem Pays.of_eq {s' : State} {t : Turn} (hspends : s'.spends = s.spends)
    (hbuckets : s'.buckets = s.buckets) : Pays l s t s' :=
  .inr ⟨hspends, fun k => .inl (by rw [hbuckets])⟩

theorem Sound.pays_write (h : Sound l s) {t : Turn} {now storeNow : ℚ} (hc : s.checks i = some c)
    (hphase : c.phase = .writing attempts now found) :
    Pays l s t (s.write l i c attempts now found storeNow) := by
  obtain ⟨henough, hnames⟩ := h.reads i c hc attempts now found hphase
  unfold State.write Revisions.compareAndSet
  split
  · rename_i buckets hset
    split at hset
    · rename_i hat
      obtain rfl := Option.some.inj hset
      have hfound : Revisions.live s.buckets c.place = found := by
        cases found with
        | none => exact h.counted.expected_eq_zero_iff.1 hat
        | some p => exact (hnames p.1 p.2 rfl).live_of_expected hat
      refine .inl ⟨_, _, _, rfl, Revisions.live_put_self, ?_, sub_nonneg.2 henough,
        fun k hk => Revisions.live_put_ne hk⟩
      rw [hfound]
      rfl
    · cases hset
  · exact .of_eq rfl rfl

theorem pays_remove {time storeNow : ℚ} {item : Item} {rest : List Item} :
    Pays l s (.remove j storeNow) (s.remove j time item rest storeNow) := by
  unfold State.remove
  split
  · split
    · rename_i buckets hdelete
      obtain ⟨-, rfl⟩ := Revisions.compareAndDelete_eq_some hdelete
      refine .inr ⟨rfl, fun k => ?_⟩
      by_cases hk : k = item.place
      · exact .inr ⟨⟨j, storeNow, rfl⟩, by rw [hk]; exact Revisions.live_put_self⟩
      · exact .inl (Revisions.live_put_ne hk)
    · exact .of_eq rfl rfl
  · exact .of_eq rfl rfl

/-- **Only a request allowed takes tokens**, and it takes its cost. -/
theorem Sound.pays (h : Sound l s) (pfx : Text) (sha256 : Text → Text) (t : Turn) :
    Pays l s t (s.step l pfx sha256 t) := by
  cases t with
  | write i storeNow =>
    rw [State.step]
    split
    · rename_i hc
      exact h.pays_write hc rfl
    · exact .of_eq rfl rfl
  | remove j storeNow =>
    rw [State.step]
    split
    · exact pays_remove
    · exact .of_eq rfl rfl
  | purge now => exact .inr ⟨rfl, fun k => .inl Revisions.live_purge⟩
  | start | clock | read | scan | judge =>
    rw [State.step]
    split <;> exact .of_eq rfl rfl

end Steps

/-! ## The results -/

/-- What the requests allowed on a bucket cost is bounded by its capacity and what it gains between
the first and the last of their readings; a check allowed has spent its cost once, and any other
nothing; and every turn of the run took from a bucket just what it allowed. -/
theorem limits_together (l : Limits) (pfx : Text) (sha256 : Text → Text) (turns : List Turn)
    (hsafe : Runs.Along (State.step l pfx sha256) State.Safe .new turns) :
    let s := Runs.run (State.step l pfx sha256) .new turns
    (∀ key first last, first ≤ last →
      (∀ e ∈ s.spendsAt (bucketKey pfx sha256 key), first ≤ e.now ∧ e.now ≤ last) →
      s.costAt (bucketKey pfx sha256 key) ≤
        l.maxRequests + l.refillPerSecond * (last - first)) ∧
    (∀ i c, s.checks i = some c → c.phase = .done true →
      ∃ now, s.spentBy i = [⟨i, c.place, c.cost, now⟩]) ∧
    (∀ i c, s.checks i = some c → c.phase ≠ .done true → s.spentBy i = []) ∧
    (∀ e ∈ s.spends, ∃ c, s.checks e.check = some c ∧ c.phase = .done true ∧
      c.place = e.place ∧ c.cost = e.cost) ∧
    ∀ before t after, turns = before ++ t :: after →
      let s := Runs.run (State.step l pfx sha256) .new before
      Pays l s t (s.step l pfx sha256 t) := by
  intro s
  have hsound : ∀ {turns}, Runs.Along (State.step l pfx sha256) State.Safe .new turns →
      Sound l (Runs.run (State.step l pfx sha256) .new turns) :=
    Runs.run_invariant_along Sound.new fun _ t hs ht => hs.step pfx sha256 t ht
  have h : Sound l s := hsound hsafe
  refine ⟨fun key => h.within _, fun i c hc hphase => ?_, fun i c hc => h.spentBy_eq_nil hc,
    fun e he => ?_, fun before t after hturns => ?_⟩
  · obtain ⟨place, cost, spend, phase⟩ := c
    obtain rfl : phase = .done true := hphase
    have hsettles := h.settles i
    rwa [hc] at hsettles
  · have hmem : e ∈ s.spentBy e.check := List.mem_filter.2 ⟨he, by simp⟩
    have hsettles := h.settles e.check
    unfold Settles at hsettles
    split at hsettles
    · rename_i place cost spend heq
      obtain ⟨now, hspent⟩ := hsettles
      have heq' : e = ⟨e.check, place, cost, now⟩ := by simpa [hspent] using hmem
      exact ⟨_, heq, rfl, (congrArg Spend.place heq').symm, (congrArg Spend.cost heq').symm⟩
    · rw [hsettles] at hmem
      cases hmem
  · rw [hturns, Runs.along_append] at hsafe
    exact (hsound hsafe.1).pays pfx sha256 t

/-- Ten requests in ten seconds. -/
def tenInTen : Limits := ⟨10, 10, by decide, by norm_num⟩

/-- Where the bucket of the empty key is, under no prefix. -/
def emptyPlace : Text := bucketKey [] id none

/-- A check's turns, all but the last. -/
def checkUpTo (i cost : ℕ) (now : ℚ) : List Turn :=
  [.start i .tryAcquire none cost, .clock i now, .read i]

/-- A sweep of the one bucket. -/
def sweepAt (now : ℚ) : List Turn := [.scan 0 [emptyPlace], .judge 0 now, .remove 0 now]

/-- All is spent, the bucket is swept when it is full again, and all is spent again. -/
def spentTwice : List Turn :=
  checkUpTo 0 10 0 ++ [.write 0 0] ++ sweepAt 10 ++ checkUpTo 1 10 10 ++ [.write 1 10]

theorem spentTwice_within :
    (Runs.run (State.step tenInTen [] id) .new spentTwice).costAt emptyPlace = 20 ∧
    (Runs.run (State.step tenInTen [] id) .new spentTwice).costAt emptyPlace ≤
      tenInTen.maxRequests + tenInTen.refillPerSecond * (10 - 0) := by
  refine ⟨by decide +kernel, (limits_together tenInTen [] id spentTwice ?_).1 none 0 10
    (by norm_num) (by decide +kernel)⟩
  refine ⟨trivial, trivial, trivial, ?_, trivial, trivial, trivial, trivial, trivial, trivial, ?_,
    trivial⟩
  all_goals
    unfold State.Safe
    decide +kernel

/-- The readings of clocks in a run. -/
def readings (turns : List Turn) : List ℚ :=
  turns.filterMap fun
    | .clock _ now | .judge _ now | .purge now => some now
    | _ => none

/-- A check finds no bucket; before it writes, another spends all of one, which is full again ten
seconds later and is swept.  Its write then counts from its own reading. -/
def raced : List Turn :=
  checkUpTo 0 10 0 ++ checkUpTo 1 10 0 ++ [.write 1 0] ++ sweepAt 10 ++ [.write 0 10] ++
    checkUpTo 2 10 10 ++ [.write 2 10]

theorem same_seconds_twice :
    (readings raced).Pairwise (· ≤ ·) ∧ (∀ t ∈ readings raced, 0 ≤ t ∧ t ≤ 10) ∧
    (Runs.run (State.step tenInTen [] id) .new raced).costAt emptyPlace = 30 ∧
    ¬ (Runs.run (State.step tenInTen [] id) .new raced).costAt emptyPlace ≤
      tenInTen.maxRequests + tenInTen.refillPerSecond * (10 - 0) := by
  decide +kernel

end RateLimiter
end CrossByte
