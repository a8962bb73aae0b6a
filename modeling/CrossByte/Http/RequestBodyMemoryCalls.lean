import CrossByte.Http.RequestBodyMemoryServe

/-!
# The calls for body room, one by one

`Standing l` is what holds of a memory between calls whatever its callers do: its queue is the list
`l`, empty when there is no limit, served in order, and `used` is not negative.  Each theorem here
says what one call does to it, to the first waiter's want of room (`Starved`), and to the books and
the chains.

`cancel` is the one call that may leave a waiter first that could be served: it serves only when
the waiter it takes out had been given something.  `LeavesRoom` is when that happens.
-/

namespace CrossByte


namespace RequestBodyMemory

variable {W : Type} {m : RequestBodyMemory W} {l : List W} {w x : W} {held lost bytes want : ℤ}
  {links : List (Option W)} {now : W → Prop}

/-- What holds between calls. -/
structure Standing (m : RequestBodyMemory W) (l : List W) : Prop where
  lined : m.Lined l
  tickets : m.Tickets l
  opens : m.cap ≤ 0 → l = []
  used_nonneg : 0 ≤ m.used

theorem standing_new (limit floor : ℤ) : (new W limit floor).Standing [] where
  lined := lined_new limit floor
  tickets := tickets_new limit floor
  opens _ := rfl
  used_nonneg := le_refl 0

/-- The fields of the limit and the bytes held are no part of the queue. -/
theorem Standing.setUsed (h : m.Standing l) {used : ℤ} (hused : 0 ≤ used) (a : Bool) (b : Bool) :
    ({ m with
      used
      account := { m.account with clamped := a, pastLimit := b } } : RequestBodyMemory W).Standing l
    where
  lined := ⟨h.lined.queue, h.lined.queued, h.lined.want_pos⟩
  tickets := h.tickets.congr rfl rfl rfl
  opens := h.opens
  used_nonneg := hused

theorem Starved.of_used_le {m' : RequestBodyMemory W} (h : m.Starved l)
    (hcap : m'.cap = m.cap) (hused : m.used ≤ m'.used)
    (hwant : ∀ w ∈ l, (m'.waiters w).want = (m.waiters w).want) : m'.Starved l := by
  intro w hw
  have hin : w ∈ l := List.mem_of_mem_head? hw
  have := h w hw
  rw [hwant w hin]
  omega

/-- What every call keeps: its queue is a list again, and those it has to tell are on a chain of
their own. -/
structure Call (m m' : RequestBodyMemory W) (link : Option W) (l : List W) : Prop where
  standing : m'.Standing l
  chained : ∀ {links}, m.Chained links → m'.Chained (link :: links)
  told : ∀ {now}, m.Told now → m'.Told now

theorem Standing.noCall (h : m.Standing l) : m.Call m none l := ⟨h, chained_none.2, id⟩

/-! ## Room let go -/

theorem letGo_used (hu : bytes ≤ m.used) : m.letGo bytes = { m with used := m.used - bytes } := by
  unfold letGo
  rw [if_neg (by omega)]

theorem Standing.letGo (h : m.Standing l) (bytes : ℤ) : (m.letGo bytes).Standing l := by
  unfold RequestBodyMemory.letGo
  split
  · exact h.setUsed (le_refl 0) true m.account.pastLimit
  · rename_i hu
    exact h.setUsed (not_lt.1 hu) m.account.clamped m.account.pastLimit

theorem letGo_waiters (m : RequestBodyMemory W) (bytes : ℤ) :
    (m.letGo bytes).waiters = m.waiters ∧ (m.letGo bytes).cap = m.cap ∧
    (m.letGo bytes).account.told = m.account.told := by
  unfold letGo
  split <;> exact ⟨rfl, rfl, rfl⟩

theorem letGo_nonpos (hu : 0 ≤ m.used) (hb : bytes ≤ 0) : m.used ≤ (m.letGo bytes).used := by
  unfold letGo
  rw [if_neg (by omega)]
  simp only
  omega

theorem Chained.letGo (h : m.Chained links) : (m.letGo bytes).Chained links := by
  have hw := (letGo_waiters m bytes).1
  refine h.congr ?_ fun w => by rw [hw]
  ext1 w
  exact congrArg (fun f => (f w).nextToTell) hw

theorem Told.letGo (h : m.Told now) : (m.letGo bytes).Told now := by
  obtain ⟨hw, -, htold⟩ := letGo_waiters m bytes
  intro x hx
  rw [hw] at hx
  rw [hw, htold]
  exact h x hx

/-! ## `charge`, and another limit -/

theorem Standing.charge (h : m.Standing l) (bytes : ℤ) :
    m.Call (m.charge bytes) none l ∧ (m.Starved l → (m.charge bytes).Starved l) ∧
      (m.charge bytes).cap = m.cap := by
  unfold RequestBodyMemory.charge
  split
  · exact ⟨h.noCall, id, rfl⟩
  · refine ⟨⟨h.setUsed (by have := h.used_nonneg; omega) m.account.clamped m.account.pastLimit,
      fun hc => chained_none.2 (hc.congr rfl fun _ => rfl), id⟩, fun hs => ?_, rfl⟩
    exact hs.of_used_le rfl (by simp only; omega) fun _ _ => rfl

/-- A memory under another limit. -/
def limited (m : RequestBodyMemory W) (limit floor : ℤ) : RequestBodyMemory W :=
  { m with limit, floor, cap := capOf limit floor }

theorem Standing.limited (h : m.Standing l) {limit floor : ℤ} (hcap : 0 < capOf limit floor) :
    (m.limited limit floor).Standing l where
  lined := ⟨h.lined.queue, h.lined.queued, h.lined.want_pos⟩
  tickets := h.tickets.congr rfl rfl rfl
  opens hno := absurd hno (not_le.2 hcap)
  used_nonneg := h.used_nonneg

/-! ## `take` -/

theorem given_bounds (hwant : 0 < want) (m : RequestBodyMemory W) (w : W) :
    0 ≤ m.given want w ∧ m.given want w ≤ want ∧
      (0 < m.cap → 0 < m.given want w → m.used + m.given want w ≤ m.cap) ∧
      (0 < m.cap → m.given want w < want → m.cap - (m.used + m.given want w) ≤ 0 ∨
        m.head ≠ none ∨ (m.waiters w).queued = true) ∧
      (m.cap ≤ 0 → m.given want w = want) ∧ (0 < m.cap → m.head ≠ none → m.given want w = 0) := by
  unfold given
  split
  · split
    · rename_i hfree
      dsimp only
      split
      · split
        · exact ⟨by omega, by omega, fun _ _ => by omega, fun _ _ => .inl (by omega),
            fun h => absurd h (by omega), fun _ h => absurd hfree.1 h⟩
        · exact ⟨by omega, by omega, fun _ _ => by omega, fun _ h => absurd h (by omega),
            fun h => absurd h (by omega), fun _ h => absurd hfree.1 h⟩
      · exact ⟨by omega, by omega, fun _ h => absurd h (by omega), fun _ _ => .inl (by omega),
          fun h => absurd h (by omega), fun _ h => absurd hfree.1 h⟩
    · rename_i hbusy
      refine ⟨by omega, by omega, fun _ h => absurd h (by omega), fun _ _ => .inr ?_,
        fun h => absurd h (by omega), fun _ _ => rfl⟩
      by_cases hhead : m.head = none
      · exact .inr (by simpa [hhead] using hbusy)
      · exact .inl hhead
  · rename_i hcap
    exact ⟨by omega, by omega, fun h => absurd h hcap, fun h => absurd h hcap, fun _ => rfl,
      fun h => absurd h hcap⟩

/-- What `take` writes before it queues the waiter. -/
def counted (m : RequestBodyMemory W) (given : ℤ) : RequestBodyMemory W :=
  { m with
    used := m.used + given
    account := { m.account with
      pastLimit := m.account.pastLimit ||
        (decide (0 < given) && decide (0 < m.cap) && decide (m.cap < m.used + given)) } }

section Books

variable [Fintype W]

section

variable (h : m.Books held lost)

include h

theorem Books.letGo_held (bytes : ℤ) (hle : bytes ≤ held) :
    (m.letGo bytes).Books (held - bytes) lost := by
  have hsum : 0 ≤ ∑ w, (m.waiters w).granted := Finset.sum_nonneg fun w _ => h.granted_nonneg w
  have hbal := h.balance
  have hlost := h.lost_nonneg
  rw [letGo_used (by omega)]
  exact { h with balance := by simp only; omega, held_nonneg := by omega }

theorem Books.letGo_lost (hle : bytes ≤ lost) (hpos : 0 ≤ bytes) :
    (m.letGo bytes).Books held (lost - bytes) := by
  have hsum : 0 ≤ ∑ w, (m.waiters w).granted := Finset.sum_nonneg fun w _ => h.granted_nonneg w
  have hbal := h.balance
  have hheld := h.held_nonneg
  have hsmall := h.small
  rw [letGo_used (by omega)]
  exact
    { h with
      balance := by simp only; omega
      lost_nonneg := by omega
      small := by simp only; omega }

theorem Books.counted {given : ℤ} (hgiven : 0 ≤ given)
    (hlimit : 0 < m.cap → 0 < given → m.used + given ≤ m.cap) :
    (m.counted given).Books (held + given) lost where
  balance := by
    have := h.balance
    change m.used + given = _
    have hw : ∑ w, ((m.counted given).waiters w).granted = ∑ w, (m.waiters w).granted := rfl
    omega
  granted_nonneg := h.granted_nonneg
  held_nonneg := by have := h.held_nonneg; omega
  lost_nonneg := h.lost_nonneg
  small := h.small
  clamped := h.clamped
  pastLimit := by
    change (m.account.pastLimit || _) = false
    rw [h.pastLimit]
    by_cases hpos : 0 < given
    · by_cases hcap : 0 < m.cap
      · simp [not_lt.2 (hlimit hcap hpos)]
      · simp [hcap]
    · simp [hpos]

theorem Books.charge (bytes : ℤ) : (m.charge bytes).Books (held + max bytes 0) lost := by
  unfold RequestBodyMemory.charge
  split
  · rename_i hb
    rwa [max_eq_right hb, add_zero]
  · rename_i hb
    have hbal := h.balance
    have hheld := h.held_nonneg
    exact { h with balance := by simp only; omega, held_nonneg := by omega }

end

end Books

variable [DecidableEq W]

theorem take_eq (hwant : 0 < want) (m : RequestBodyMemory W) (w : W) :
    m.take want w =
      if m.given want w < want ∧ (m.waiters w).queued = false then
        (m.given want w, (m.counted (m.given want w)).enqueue w (want - m.given want w))
      else (m.given want w, m.counted (m.given want w)) := by
  rw [take, if_neg (by omega)]
  rfl

theorem enqueue_granted (m : RequestBodyMemory W) (w : W) (want : ℤ) (x : W) :
    ((m.enqueue w want).waiters x).granted = (m.waiters x).granted :=
  enqueue_apply (fun y => y.granted) (fun _ => rfl) (fun _ _ => rfl) x

theorem enqueue_toTell (m : RequestBodyMemory W) (w : W) (want : ℤ) (x : W) :
    ((m.enqueue w want).waiters x).toTell = (m.waiters x).toTell :=
  enqueue_apply (fun y => y.toTell) (fun _ => rfl) (fun _ _ => rfl) x

theorem Chained.enqueue (h : m.Chained links) (w : W) (want : ℤ) :
    (m.enqueue w want).Chained links := by
  refine h.congr ?_ (enqueue_toTell m w want)
  ext1 x
  exact enqueue_apply (fun y => y.nextToTell) (fun _ => rfl) (fun _ _ => rfl) x

theorem Told.enqueue (h : m.Told now) (w : W) (want : ℤ) : (m.enqueue w want).Told now := by
  intro x hx
  rw [enqueue_granted] at hx
  rw [enqueue_toTell]
  exact h x hx

theorem Standing.take (h : m.Standing l) (want : ℤ) (w : W) :
    ∃ l', m.Call (m.take want w).2 none l' ∧ (m.Starved l → (m.take want w).2.Starved l') ∧
      (m.take want w).2.cap = m.cap := by
  rcases le_or_gt want 0 with hwant | hwant
  · rw [RequestBodyMemory.take, if_pos hwant]
    exact ⟨l, h.noCall, id, rfl⟩
  · obtain ⟨h0, hle, -, hshort, hall, -⟩ := given_bounds hwant m w
    rw [take_eq hwant]
    have hcounted : (m.counted (m.given want w)).Standing l :=
      h.setUsed (by have := h.used_nonneg; omega) m.account.clamped _
    have hchained : ∀ {links}, m.Chained links → (m.counted (m.given want w)).Chained links :=
      fun hc => hc.congr rfl fun _ => rfl
    split
    · rename_i hless
      have hw : w ∉ l := fun hin => by
        rw [(h.lined.queued w).2 hin] at hless
        exact absurd hless.2 (by simp)
      have hrest : 0 < want - m.given want w := by omega
      obtain ⟨hlined, hwants⟩ := hcounted.lined.enqueue hw hrest
      obtain ⟨hused, hcap⟩ :=
        enqueue_used (m.counted (m.given want w)) w (want - m.given want w)
      have hcap0 : 0 < m.cap := by
        by_contra hno
        omega
      refine ⟨l ++ [w], ⟨⟨hlined, hcounted.tickets.enqueue hw _, fun hc => ?_, ?_⟩,
        fun hc => chained_none.2 ((hchained hc).enqueue w _),
        fun ht => Told.enqueue (m := m.counted (m.given want w)) ht w _⟩, fun hs => ?_, hcap⟩
      · rw [hcap] at hc
        exact absurd hc (not_le.2 hcap0)
      · rw [hused]
        exact hcounted.used_nonneg
      · intro x hx
        rw [hcap, hused, hwants]
        change m.cap - (m.used + m.given want w) < _
        cases l with
        | nil =>
          -- the queue was empty, so it is for want of room that the waiter joins it
          have hx : x = w := by simpa using hx.symm
          rw [if_pos hx]
          have hpos := least_pos hrest
          rcases hshort hcap0 hless.1 with hroom | hhead | hq
          · omega
          · exact absurd h.lined.queue.head_eq hhead
          · rw [hq] at hless; exact absurd hless.2 (by simp)
        | cons y l =>
          have hxy : x = y := by simpa using hx.symm
          subst hxy
          have hne : x ≠ w := fun he => hw (he ▸ List.mem_cons_self)
          rw [if_neg hne]
          have := hs x rfl
          change _ < least (m.waiters x).want
          omega
    · refine ⟨l, ⟨hcounted, fun hc => chained_none.2 (hchained hc), id⟩, fun hs => ?_, rfl⟩
      refine (?_ : (m.counted (m.given want w)).Starved _)
      exact hs.of_used_le rfl
        (by change m.used ≤ m.used + _; omega) fun _ _ => rfl

theorem take_nonneg (m : RequestBodyMemory W) (want : ℤ) (w : W) : 0 ≤ (m.take want w).1 := by
  rcases le_or_gt want 0 with hwant | hwant
  · rw [take, if_pos hwant]
  · obtain ⟨h0, -⟩ := given_bounds hwant m w
    rw [take_eq hwant]
    split <;> exact h0

/-- With a limit and others queued, `take` gives nothing. -/
theorem take_eq_zero (hcap : 0 < m.cap) (hhead : m.head ≠ none) (want : ℤ) (w : W) :
    (m.take want w).1 = 0 := by
  rcases le_or_gt want 0 with hwant | hwant
  · rw [take, if_pos hwant]
  · obtain ⟨-, -, -, -, -, hzero⟩ := given_bounds hwant m w
    rw [take_eq hwant]
    split <;> exact hzero hcap hhead

/-! ## `collect` -/

theorem Standing.collect (h : m.Standing l) (w : W) : (m.modify w collected).Standing l where
  lined := h.lined.modify (fun _ => rfl) (fun _ => rfl) fun _ => rfl
  tickets := h.tickets.congr rfl rfl rfl
  opens := h.opens
  used_nonneg := h.used_nonneg

theorem collected_granted (m : RequestBodyMemory W) (w x : W) :
    ((m.modify w collected).waiters x).granted = if x = w then 0 else (m.waiters x).granted := by
  by_cases hx : x = w
  · subst hx; simp [collected]
  · rw [modify_of_ne hx, if_neg hx]

theorem Chained.collect (h : m.Chained links) (w : W) : (m.modify w collected).Chained links :=
  h.congr (nextToTell_modify_same fun _ => rfl) (modify_apply (fun y => y.toTell) fun _ => rfl)

theorem Told.collect (h : m.Told now) (w : W) : (m.modify w collected).Told now := by
  intro x hx
  rw [collected_granted] at hx
  by_cases hxw : x = w
  · rw [if_pos hxw] at hx; exact absurd rfl hx
  · rw [if_neg hxw] at hx
    rw [modify_of_ne hxw]
    exact h x hx

variable [Fintype W]

/-! ## Room given -/

theorem serve_nil (h : m.Lined []) : m.serve = (m, none) := by
  have hhead : m.head = none := h.queue.head_eq
  unfold serve
  cases Fintype.card W with
  | zero => rfl
  | succ n => rw [serveLoop, hhead]

/-- `__serve` leaves the first waiter short. -/
theorem Standing.serve (h : m.Standing l) :
    ∃ l', m.serve.1.Standing l' ∧ m.serve.1.Starved l' ∧ m.Served m.serve.1 m.serve.2 l' ∧
      (m.cap < 2 ^ 31 → ∀ {held lost}, m.Books held lost → m.serve.1.Books held lost) := by
  obtain ⟨l', hlined, hstarved, hserved, hnil, hbooks⟩ := serve_spec h.lined h.tickets
  refine ⟨l', ⟨hlined, hserved.tickets, fun hcap => ?_, h.used_nonneg.trans hserved.used_le⟩,
    hstarved, hserved, fun hlt held lost hb => ?_⟩
  · rw [hserved.cap] at hcap
    exact hnil (h.opens hcap)
  · rcases lt_or_ge 0 m.cap with hcap | hcap
    · exact hbooks hcap hlt hb
    · have hl := h.opens hcap
      subst hl
      rw [serve_nil h.lined]
      exact hb

/-! ## `release` -/

theorem Standing.release (h : m.Standing l) (bytes : ℤ) :
    ∃ l', m.Call (m.release bytes).1 (m.release bytes).2 l' ∧
      (m.Starved l → (m.release bytes).1.Starved l') ∧ (m.release bytes).1.cap = m.cap := by
  unfold RequestBodyMemory.release
  split
  · exact ⟨l, h.noCall, id, rfl⟩
  · obtain ⟨l', hstanding, hstarved, hserved, -⟩ := (h.letGo bytes).serve
    exact ⟨l', ⟨hstanding, fun hc => hserved.chained hc.letGo, fun ht => hserved.told ht.letGo⟩,
      fun _ => hstarved, hserved.cap.trans (letGo_waiters _ _).2.1⟩

theorem Books.release_held (hs : m.Standing l) (hcap : m.cap < 2 ^ 31) (h : m.Books held lost)
    (hle : bytes ≤ held) : (m.release bytes).1.Books (held - max bytes 0) lost := by
  unfold RequestBodyMemory.release
  split
  · rename_i hb
    rwa [max_eq_right hb, sub_zero]
  · rename_i hb
    obtain ⟨l', -, -, -, hbooks⟩ := (hs.letGo bytes).serve
    rw [max_eq_left (not_le.1 hb).le]
    exact hbooks (by rwa [(letGo_waiters _ _).2.1]) (h.letGo_held bytes hle)

theorem Books.release_lost (hs : m.Standing l) (hcap : m.cap < 2 ^ 31) (h : m.Books held lost)
    (hle : bytes ≤ lost) (hpos : 0 < bytes) : (m.release bytes).1.Books held (lost - bytes) := by
  unfold RequestBodyMemory.release
  rw [if_neg (not_le.2 hpos)]
  obtain ⟨l', -, -, -, hbooks⟩ := (hs.letGo bytes).serve
  exact hbooks (by rwa [(letGo_waiters _ _).2.1]) (h.letGo_lost hle hpos.le)

/-! ## `collect` and `take` in the books -/

theorem sum_collected (m : RequestBodyMemory W) (w : W) :
    ∑ x, ((m.modify w collected).waiters x).granted =
      ∑ x, (m.waiters x).granted - (m.waiters w).granted := by
  have hdiffer := FinSum.sum_eq_of_differ (f := fun x => (m.waiters x).granted)
    (g := fun x => ((m.modify w collected).waiters x).granted) (i := w) fun x hx => by
      rw [collected_granted, if_neg hx]
  rw [hdiffer, collected_granted, if_pos rfl]
  omega

theorem Books.collect (h : m.Books held lost) (w : W) (held' lost' : ℤ) (hheld : held ≤ held')
    (hlost : lost ≤ lost') (hsum : held' + lost' = held + lost + (m.waiters w).granted) :
    (m.modify w collected).Books held' lost' := by
  have hbal := h.balance
  have hsmall := h.small
  have h0 := h.held_nonneg
  have h1 := h.lost_nonneg
  have hsum' := sum_collected m w
  refine ⟨?_, fun x => ?_, by omega, by omega, ?_, h.clamped, h.pastLimit⟩
  · change m.used = _
    omega
  · rw [collected_granted]
    split
    · exact le_refl 0
    · exact h.granted_nonneg x
  · omega

theorem Books.enqueue (h : m.Books held lost) (w : W) (want : ℤ) :
    (m.enqueue w want).Books held lost :=
  h.congr (enqueue_used m w want).1 (enqueue_granted m w want) rfl rfl

theorem Books.take (h : m.Books held lost) (want : ℤ) (w : W) :
    (m.take want w).2.Books (held + (m.take want w).1) lost := by
  rcases le_or_gt want 0 with hwant | hwant
  · rw [RequestBodyMemory.take, if_pos hwant]
    rwa [add_zero]
  · obtain ⟨h0, -, hlimit, -⟩ := given_bounds hwant m w
    have hcounted := h.counted h0 hlimit
    rw [take_eq hwant]
    split
    · exact hcounted.enqueue w _
    · exact hcounted

/-! ## `cancel` -/

/-- The waiter cancelled is the first, it has been given nothing, and there is room for the one
after it. -/
def LeavesRoom (m : RequestBodyMemory W) (w : W) : Prop :=
  m.head = some w ∧ (m.waiters w).granted ≤ 0 ∧
    (m.next w).any (fun v => decide (least (m.waiters v).want ≤ m.cap - m.used)) = true

instance (m : RequestBodyMemory W) (w : W) : Decidable (m.LeavesRoom w) :=
  inferInstanceAs (Decidable (_ ∧ _ ∧ _))

/-- A waiter out of the queue, if it was in it: how `cancel` begins. -/
def leave (m : RequestBodyMemory W) (w : W) : RequestBodyMemory W :=
  if (m.waiters w).queued then m.unlink w else m

theorem cancel_eq (m : RequestBodyMemory W) (w : W) :
    m.cancel w =
      if 0 < ((m.leave w).waiters w).granted then
        (((m.leave w).modify w collected).letGo ((m.leave w).waiters w).granted).serve
      else (((m.leave w).modify w collected).letGo ((m.leave w).waiters w).granted, none) := rfl

theorem Standing.leave (h : m.Standing l) (w : W) :
    ∃ l', (m.leave w).Standing l' ∧ m.Unlinked (m.leave w) w ∧
      (¬ m.LeavesRoom w → (m.waiters w).granted ≤ 0 → m.Starved l → (m.leave w).Starved l') := by
  unfold RequestBodyMemory.leave
  split
  · rename_i hqueued
    obtain ⟨p, q, rfl⟩ := List.append_of_mem ((h.lined.queued w).1 hqueued)
    obtain ⟨hlined, hu⟩ := h.lined.unlink
    have hsub : (p ++ q).Sublist (p ++ w :: q) :=
      (List.Sublist.refl p).append (List.sublist_cons_self w q)
    refine ⟨p ++ q, ⟨hlined, (h.tickets.sublist hsub).congr (by rw [hu.account])
      (by rw [hu.account]) (by rw [hu.account]), fun hcap => ?_, hu.used ▸ h.used_nonneg⟩, hu,
      fun hroom hgranted hs v hv => ?_⟩
    · rw [hu.cap] at hcap
      exact absurd (h.opens hcap) (by simp)
    · have hnodup := h.lined.queue.nodup
      rw [hu.cap, hu.used]
      cases p with
      | nil =>
        -- the first one leaves: the second is first now
        cases q with
        | nil => cases hv
        | cons y q =>
          have hvy : v = y := by simpa using hv.symm
          subst hvy
          have hne : v ≠ w := fun he => by simp [he] at hnodup
          rw [hu.want v hne]
          have hlinked := h.lined.queue.linked
          by_contra hno
          refine hroom ⟨hlinked.first_eq, hgranted, ?_⟩
          have hnext : m.next w = some v := hlinked.2.first_eq
          rw [hnext, Option.any_some, decide_eq_true_eq]
          exact not_lt.1 hno
      | cons y p =>
        have hvy : v = y := by simpa using hv.symm
        subst hvy
        have hne : v ≠ w := fun he => by simp [he] at hnodup
        rw [hu.want v hne]
        exact hs v rfl
  · exact ⟨l, h, ⟨rfl, rfl, rfl, fun _ => rfl, fun _ => rfl, rfl, fun _ _ => rfl⟩,
      fun _ _ hs => hs⟩

theorem Standing.cancel (h : m.Standing l) (w : W) :
    ∃ l', m.Call (m.cancel w).1 (m.cancel w).2 l' ∧
      (¬ m.LeavesRoom w → m.Starved l → (m.cancel w).1.Starved l') ∧
      (m.cancel w).1.cap = m.cap := by
  obtain ⟨l₁, hstanding, hu, hstarved⟩ := h.leave w
  have hafter := (hstanding.collect w).letGo ((m.leave w).waiters w).granted
  have hcap : (((m.leave w).modify w collected).letGo ((m.leave w).waiters w).granted).cap = m.cap :=
    (letGo_waiters _ _).2.1.trans hu.cap
  have hchained : ∀ {links}, m.Chained links →
      (((m.leave w).modify w collected).letGo ((m.leave w).waiters w).granted).Chained links :=
    fun hc => ((hc.congr hu.nextToTell hu.toTell).collect w).letGo
  have htold : ∀ {now}, m.Told now →
      (((m.leave w).modify w collected).letGo ((m.leave w).waiters w).granted).Told now :=
    fun ht => (Told.collect (m := m.leave w) (ht.congr hu.granted hu.toTell (by rw [hu.account]))
      w).letGo
  rw [cancel_eq]
  split
  · obtain ⟨l', hserve, hfirst, hserved, -⟩ := hafter.serve
    exact ⟨l', ⟨hserve, fun hc => hserved.chained (hchained hc),
      fun ht => hserved.told (htold ht)⟩, fun _ _ => hfirst, hserved.cap.trans hcap⟩
  · rename_i hnone
    refine ⟨l₁, ⟨hafter, fun hc => chained_none.2 (hchained hc), htold⟩, fun hroom hs => ?_, hcap⟩
    have hgranted := hu.granted w
    refine Starved.of_used_le (hstarved hroom (by omega) hs) (letGo_waiters _ _).2.1 ?_ fun x _ => ?_
    · have := hstanding.used_nonneg
      have hle := letGo_nonpos (m := (m.leave w).modify w collected) this (not_lt.1 hnone)
      exact hle
    · rw [(letGo_waiters _ _).1]
      exact modify_apply (f := collected) (fun y => y.want) (fun _ => rfl) x

theorem Books.cancel (hs : m.Standing l) (hcap : m.cap < 2 ^ 31) (h : m.Books held lost) (w : W) :
    (m.cancel w).1.Books held lost := by
  obtain ⟨l₁, hstanding, hu, -⟩ := hs.leave w
  have hleft : (m.leave w).Books held lost :=
    h.congr hu.used hu.granted (by rw [hu.account]) (by rw [hu.account])
  have hcollected := hleft.collect w (held + ((m.leave w).waiters w).granted) lost
    (by have := hleft.granted_nonneg w; omega) (le_refl _) (by omega)
  have hafter := hcollected.letGo_held ((m.leave w).waiters w).granted
    (by have := h.held_nonneg; omega)
  rw [add_sub_cancel_right] at hafter
  rw [cancel_eq]
  split
  · obtain ⟨l', -, -, -, hbooks⟩ :=
      ((hstanding.collect w).letGo ((m.leave w).waiters w).granted).serve
    refine hbooks ?_ hafter
    rw [(letGo_waiters _ _).2.1]
    exact hu.cap ▸ hcap
  · exact hafter

/-! ## `configure` -/

theorem configure_eq (m : RequestBodyMemory W) (limit floor : ℤ) :
    m.configure limit floor =
      if capOf limit floor ≤ 0 then (m.limited limit floor).drainAll
      else if capOf limit floor > m.cap ∨ m.cap ≤ 0 then (m.limited limit floor).serve
      else (m.limited limit floor, none) := rfl

theorem Standing.configure (h : m.Standing l) (limit floor : ℤ) :
    ∃ l', m.Call (m.configure limit floor).1 (m.configure limit floor).2 l' ∧
      (m.Starved l → (m.configure limit floor).1.Starved l') ∧
      (m.configure limit floor).1.cap = capOf limit floor := by
  have hchained : ∀ {links}, m.Chained links → (m.limited limit floor).Chained links :=
    fun hc => hc.congr rfl fun _ => rfl
  rw [configure_eq]
  split
  · have hlined : (m.limited limit floor).Lined l :=
      ⟨h.lined.queue, h.lined.queued, h.lined.want_pos⟩
    obtain ⟨hempty, hserved, -⟩ := drainAll_spec hlined (h.tickets.congr rfl rfl rfl)
    exact ⟨[], ⟨⟨hempty, hserved.tickets, fun _ => rfl, h.used_nonneg.trans hserved.used_le⟩,
      fun hc => hserved.chained (hchained hc), fun ht => hserved.told ht⟩, fun _ => starved_nil,
      hserved.cap⟩
  · rename_i hcap
    have hlimited := h.limited (not_le.1 hcap)
    split
    · obtain ⟨l', hserve, hfirst, hserved, -⟩ := hlimited.serve
      exact ⟨l', ⟨hserve, fun hc => hserved.chained (hchained hc), fun ht => hserved.told ht⟩,
        fun _ => hfirst, hserved.cap⟩
    · refine ⟨l, ⟨hlimited, fun hc => chained_none.2 (hchained hc), id⟩, fun hs v hv => ?_, rfl⟩
      have := hs v hv
      change capOf limit floor - m.used < least (m.waiters v).want
      omega

/-- `configure` keeps the books, unless it lifts the limit and gives more than an `Int` holds. -/
theorem Books.configure (hs : m.Standing l) (h : m.Books held lost) {limit floor : ℤ}
    (hlt : capOf limit floor < 2 ^ 31)
    (hsum : capOf limit floor ≤ 0 →
      ∑ w, (m.waiters w).granted + lost + (l.map fun w => (m.waiters w).want).sum < 2 ^ 31) :
    (m.configure limit floor).1.Books held lost := by
  have hlimited : (m.limited limit floor).Books held lost := h.congr rfl (fun _ => rfl) rfl rfl
  rw [configure_eq]
  split
  · rename_i hcap
    have hlined : (m.limited limit floor).Lined l :=
      ⟨hs.lined.queue, hs.lined.queued, hs.lined.want_pos⟩
    obtain ⟨-, -, hbooks⟩ := drainAll_spec hlined (hs.tickets.congr rfl rfl rfl)
    exact hbooks hcap hlimited (hsum hcap)
  · rename_i hcap
    split
    · obtain ⟨l', -, -, -, hbooks⟩ := (hs.limited (not_le.1 hcap)).serve
      exact hbooks hlt hlimited
    · exact hlimited

end RequestBodyMemory

end CrossByte
