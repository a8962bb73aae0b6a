import CrossByte.Http.RequestBodyMemory
import CrossByte.Lib.FinSum

/-!
# The queue for body room

What the calls of `RequestBodyMemory` do to its queue.  `Lined l` says that the links of the code
are the list `l`, that `queued` is set for exactly those on it, and that tickets go up along it and
were served in order.  Every call keeps it for some list.

`serve_rule` and `drain_rule` are how anything else is proved of the two loops: it is enough that
one grant to the first waiter keeps it.
-/

namespace CrossByte

open LinkedQueue
open WrappingInt (wrap)

namespace RequestBodyMemory

variable {W : Type} {m : RequestBodyMemory W} {l : List W} {w x : W}
  {f : BodyRoomWaiter W → BodyRoomWaiter W} {link : Option W}

/-! ## The queue as a list -/

/-- The queue is the list `l`. -/
structure Lined (m : RequestBodyMemory W) (l : List W) : Prop where
  queue : Queue m.next m.head m.tail l
  queued : ∀ w, (m.waiters w).queued = true ↔ w ∈ l
  want_pos : ∀ w ∈ l, 0 < (m.waiters w).want

theorem lined_new (limit floor : ℤ) : (new W limit floor).Lined [] :=
  ⟨queue_nil, fun w => by simp [new], nofun⟩

theorem Lined.length_le [Fintype W] (h : m.Lined l) : l.length ≤ Fintype.card W :=
  h.queue.nodup.length_le_card

theorem Lined.queue_eq [Fintype W] (h : m.Lined l) : m.queue = l :=
  h.queue.linked.follow_eq h.length_le

/-- The first waiter cannot be served. -/
def Starved (m : RequestBodyMemory W) (l : List W) : Prop :=
  ∀ w ∈ l.head?, m.cap - m.used < least (m.waiters w).want

theorem starved_nil : m.Starved [] := fun _ h => by cases h

variable [DecidableEq W]

/-! ## Writing a waiter -/

@[simp] theorem modify_self : (m.modify w f).waiters w = f (m.waiters w) := Function.update_self ..

theorem modify_of_ne (h : x ≠ w) : (m.modify w f).waiters x = m.waiters x :=
  Function.update_of_ne h ..

variable {β : Sort*} {p q : List W} {want n : ℤ} {fuel : ℕ}
  {P : RequestBodyMemory W → Option W → List W → Prop}

theorem modify_apply (g : BodyRoomWaiter W → β) (hg : ∀ y, g (f y) = g y) (x : W) :
    g ((m.modify w f).waiters x) = g (m.waiters x) := by
  by_cases h : x = w
  · subst h; rw [modify_self, hg]
  · rw [modify_of_ne h]

theorem next_modify (a : Option W) (hf : ∀ y, (f y).next = a) :
    (m.modify w f).next = Function.update m.next w a := by
  ext1 x
  by_cases h : x = w
  · subst h; simp [next, hf]
  · simp [next, modify_of_ne h, h]

theorem next_modify_same (hf : ∀ y, (f y).next = y.next) : (m.modify w f).next = m.next := by
  ext1 x
  exact modify_apply (fun y => y.next) hf x

theorem nextToTell_modify_same (hf : ∀ y, (f y).nextToTell = y.nextToTell) :
    (m.modify w f).nextToTell = m.nextToTell := by
  ext1 x
  exact modify_apply (fun y => y.nextToTell) hf x

theorem Lined.modify (h : m.Lined l) (hnext : ∀ y, (f y).next = y.next)
    (hqueued : ∀ y, (f y).queued = y.queued) (hwant : ∀ y, (f y).want = y.want) :
    (m.modify w f).Lined l where
  queue := by
    rw [next_modify_same hnext]
    exact h.queue
  queued x := by
    rw [modify_apply (fun y => y.queued) hqueued]
    exact h.queued x
  want_pos x hx := by
    rw [modify_apply (fun y => y.want) hwant]
    exact h.want_pos x hx

/-! ## Leaving the queue -/

theorem linkPast_apply (g : BodyRoomWaiter W → β) (hnext : ∀ y a, g { y with next := a } = g y)
    (previous after : Option W) (x : W) :
    g ((m.linkPast previous after).waiters x) = g (m.waiters x) := by
  cases previous with
  | none => rfl
  | some b => exact modify_apply (f := fun y => { y with next := after }) g (fun y => hnext y _) x

/-- A field of another waiter than the one cut out, its link apart. -/
theorem cutOut_apply_ne (g : BodyRoomWaiter W → β) (hnext : ∀ y a, g { y with next := a } = g y)
    (previous : Option W) (hx : x ≠ w) : g ((m.cutOut w previous).waiters x) = g (m.waiters x) :=
  (congrArg g (modify_of_ne hx)).trans (linkPast_apply g hnext previous _ x)

/-- A field that is no part of the queue stays as it was. -/
theorem cutOut_apply (g : BodyRoomWaiter W → β) (hd : ∀ y, g (dismissed y) = g y)
    (hnext : ∀ y a, g { y with next := a } = g y) (previous : Option W) (x : W) :
    g ((m.cutOut w previous).waiters x) = g (m.waiters x) :=
  (modify_apply g hd x).trans (linkPast_apply g hnext previous _ x)

/-- What `__unlink` leaves as it was. -/
structure Unlinked (m m' : RequestBodyMemory W) (w : W) : Prop where
  used : m'.used = m.used
  cap : m'.cap = m.cap
  account : m'.account = m.account
  granted : ∀ x, (m'.waiters x).granted = (m.waiters x).granted
  toTell : ∀ x, (m'.waiters x).toTell = (m.waiters x).toTell
  nextToTell : m'.nextToTell = m.nextToTell
  want : ∀ x, x ≠ w → (m'.waiters x).want = (m.waiters x).want

theorem unlinked_cutOut (previous : Option W) : m.Unlinked (m.cutOut w previous) w where
  used := by cases previous <;> rfl
  cap := by cases previous <;> rfl
  account := by cases previous <;> rfl
  granted := cutOut_apply (fun y => y.granted) (fun _ => rfl) (fun _ _ => rfl) previous
  toTell := cutOut_apply (fun y => y.toTell) (fun _ => rfl) (fun _ _ => rfl) previous
  nextToTell := by
    ext1 x
    exact cutOut_apply (fun y => y.nextToTell) (fun _ => rfl) (fun _ _ => rfl) previous x
  want _ hx := cutOut_apply_ne (fun y => y.want) (fun _ _ => rfl) previous hx

/-- With what stands before it linked past it, a waiter is off the list. -/
theorem Queue.cutOut (h : Queue m.next m.head m.tail (p ++ w :: q)) :
    Queue (m.cutOut w p.getLast?).next (m.cutOut w p.getLast?).head (m.cutOut w p.getLast?).tail
      (p ++ q) := by
  rcases List.eq_nil_or_concat p with rfl | ⟨p', b, hp⟩
  · rw [RequestBodyMemory.cutOut, next_modify none fun _ => rfl]
    exact h.unlink_head
  · have hlast : p.getLast? = some b := by simp [hp]
    rw [hlast, RequestBodyMemory.cutOut, next_modify none fun _ => rfl]
    have hpast : ({ m.linkPast (some b) (m.waiters w).next with
        tail := if m.tail = some w then some b else m.tail } : RequestBodyMemory W).next =
          Function.update m.next b (m.next w) :=
      next_modify (f := fun y => { y with next := (m.waiters w).next }) (m.next w) fun _ => rfl
    rw [hpast]
    exact h.unlink_after (by simpa using hp)

/-! ## Joining the queue -/

theorem linkLast_apply (g : BodyRoomWaiter W → β) (hnext : ∀ y a, g { y with next := a } = g y)
    (x : W) : g ((m.linkLast w).waiters x) = g (m.waiters x) := by
  unfold linkLast
  cases m.tail with
  | none => rfl
  | some t => exact modify_apply (f := fun y => { y with next := some w }) g (fun y => hnext y _) x

/-- A field that is no part of the queue stays as it was. -/
theorem enqueue_apply (g : BodyRoomWaiter W → β) (hw : ∀ y, g (waiting want y) = g y)
    (hnext : ∀ y a, g { y with next := a } = g y) (x : W) :
    g ((m.enqueue w want).waiters x) = g (m.waiters x) :=
  (linkLast_apply g hnext x).trans (modify_apply g hw x)

theorem enqueue_used (m : RequestBodyMemory W) (w : W) (want : ℤ) :
    (m.enqueue w want).used = m.used ∧ (m.enqueue w want).cap = m.cap := by
  unfold enqueue linkLast
  split <;> exact ⟨rfl, rfl⟩

theorem Queue.linkLast (h : Queue m.next m.head m.tail l) (hw : w ∉ l) (want : ℤ) :
    Queue ((m.modify w (waiting want)).linkLast w).next
      ((m.modify w (waiting want)).linkLast w).head
      ((m.modify w (waiting want)).linkLast w).tail (l ++ [w]) := by
  have hnext : (m.modify w (waiting want)).next = Function.update m.next w none :=
    next_modify none fun _ => rfl
  unfold RequestBodyMemory.linkLast
  split
  · rename_i htail
    rw [show m.tail = none from htail] at h
    obtain ⟨rfl, hsingle⟩ := h.single w
    rw [← hnext] at hsingle
    exact hsingle
  · rename_i t htail
    rw [show m.tail = some t from htail] at h
    have hpush := h.push hw
    rw [← hnext, ← next_modify (f := fun y => { y with next := some w }) (some w) fun _ => rfl]
      at hpush
    exact hpush

theorem Lined.enqueue (h : m.Lined l) (hw : w ∉ l) (hwant : 0 < want) :
    (m.enqueue w want).Lined (l ++ [w]) ∧
      ∀ x, ((m.enqueue w want).waiters x).want = if x = w then want else (m.waiters x).want := by
  have hmem : ∀ x, x ∈ l ++ [w] ↔ x = w ∨ x ∈ l := by
    intro x
    rw [List.mem_append, List.mem_singleton, or_comm]
  have hfield : ∀ {β : Type} (g : BodyRoomWaiter W → β) (_ : ∀ y a, g { y with next := a } = g y) x,
      g ((m.enqueue w want).waiters x) =
        if x = w then g (waiting want (m.waiters w)) else g (m.waiters x) := by
    intro β g hnext x
    refine (linkLast_apply g hnext x).trans ?_
    by_cases hx : x = w
    · subst hx; rw [modify_self, if_pos rfl]
    · rw [modify_of_ne hx, if_neg hx]
  have hwants := hfield (fun y => y.want) fun _ _ => rfl
  refine ⟨⟨?_, fun x => ?_, fun x hx => ?_⟩, hwants⟩
  · exact Queue.linkLast h.queue hw want
  · rw [hmem, hfield (fun y => y.queued) (fun _ _ => rfl) x]
    by_cases hx : x = w
    · simp [hx, waiting]
    · rw [if_neg hx, h.queued]
      exact ⟨.inr, fun hin => hin.resolve_left hx⟩
  · rw [hwants x]
    by_cases hxw : x = w
    · rw [if_pos hxw]; exact hwant
    · rw [if_neg hxw]
      exact h.want_pos x (((hmem x).1 hx).resolve_left hxw)

/-! ## Room given -/

/-- `grant`, before the waiter leaves the queue. -/
def credited (m : RequestBodyMemory W) (w : W) (g : ℤ) : RequestBodyMemory W :=
  { m.modify w fun x => { x with granted := wrap (x.granted + g) } with
    used := m.used + g
    account := { m.account with
      pastLimit := m.account.pastLimit || (decide (0 < m.cap) && decide (m.cap < m.used + g))
      served := m.account.served ++ [m.account.ticket w]
      told := Function.update m.account.told w false } }

/-- A field that is not `granted` stays as it was. -/
theorem credited_apply (g : BodyRoomWaiter W → β) (hg : ∀ y a, g { y with granted := a } = g y)
    (x : W) : g ((m.credited w n).waiters x) = g (m.waiters x) :=
  modify_apply (f := fun y => { y with granted := wrap (y.granted + n) }) g (fun y => hg y _) x

@[simp] theorem credited_self :
    ((m.credited w n).waiters w).granted = wrap ((m.waiters w).granted + n) := by
  simp [credited]

theorem credited_of_ne (hx : x ≠ w) : (m.credited w n).waiters x = m.waiters x :=
  Function.update_of_ne hx _ m.waiters

theorem Lined.credited (h : m.Lined l) (w : W) (g : ℤ) : (m.credited w g).Lined l where
  queue := by
    have hnext : (m.credited w g).next = m.next := by
      ext1 x
      exact credited_apply (fun y => y.next) (fun _ _ => rfl) x
    rw [hnext]
    exact h.queue
  queued x := by
    rw [credited_apply (fun y => y.queued) (fun _ _ => rfl)]
    exact h.queued x
  want_pos x hx := by
    rw [credited_apply (fun y => y.want) (fun _ _ => rfl)]
    exact h.want_pos x hx

variable [Fintype W]

/-- `__unlink` takes a queued waiter out, and nothing else changes. -/
theorem Lined.unlink (h : m.Lined (p ++ w :: q)) :
    (m.unlink w).Lined (p ++ q) ∧ m.Unlinked (m.unlink w) w := by
  obtain ⟨hqueue, hqueued, hwant⟩ := h
  have hsplit := List.nodup_append.1 hqueue.nodup
  have hwp : w ∉ p := fun hin => hsplit.2.2 w hin w List.mem_cons_self rfl
  have hwq : w ∉ q := (List.nodup_cons.1 hsplit.2.1).1
  have hlen : p.length ≤ Fintype.card W := hsplit.1.length_le_card
  have hmem : ∀ x, x ∈ p ++ q ↔ x ≠ w ∧ x ∈ p ++ w :: q := by
    intro x
    simp only [List.mem_append, List.mem_cons]
    constructor
    · rintro (hx | hx)
      · exact ⟨fun he => hwp (he ▸ hx), .inl hx⟩
      · exact ⟨fun he => hwq (he ▸ hx), .inr (.inr hx)⟩
    · rintro ⟨hne, hx | hx | hx⟩
      · exact .inl hx
      · exact absurd hx hne
      · exact .inr hx
  have hcut : m.unlink w = m.cutOut w p.getLast? := by
    rw [RequestBodyMemory.unlink, hqueue.linked.walk_eq hwp hlen none, Option.or_none]
  have hunlinked := unlinked_cutOut (m := m) (w := w) p.getLast?
  rw [hcut]
  refine ⟨⟨Queue.cutOut hqueue, fun x => ?_, fun x hx => ?_⟩, hunlinked⟩
  · rw [hmem]
    by_cases hx : x = w
    · subst hx; simp [RequestBodyMemory.cutOut, dismissed]
    · rw [cutOut_apply_ne (fun y => y.queued) (fun _ _ => rfl) p.getLast? hx, hqueued]
      exact ⟨fun hin => ⟨hx, hin⟩, fun hin => hin.2⟩
  · obtain ⟨hne, hin⟩ := (hmem x).1 hx
    rw [hunlinked.want x hne]
    exact hwant x hin

/-! ## One turn of the loops -/

/-- What giving `g` to the first waiter does, but for the links. -/
structure Turn (m m' : RequestBodyMemory W) (w : W) (g : ℤ) : Prop where
  used : m'.used = m.used + g
  cap : m'.cap = m.cap
  granted_self : (m'.waiters w).granted = wrap ((m.waiters w).granted + g)
  granted : ∀ x, x ≠ w → (m'.waiters x).granted = (m.waiters x).granted
  want : ∀ x, x ≠ w → (m'.waiters x).want = (m.waiters x).want
  clamped : m'.account.clamped = m.account.clamped
  pastLimit : m'.account.pastLimit =
    (m.account.pastLimit || (decide (0 < m.cap) && decide (m.cap < m.used + g)))
  ticket : m'.account.ticket = m.account.ticket
  nextTicket : m'.account.nextTicket = m.account.nextTicket
  served : m'.account.served = m.account.served ++ [m.account.ticket w]
  told : m'.account.told = Function.update m.account.told w false

theorem grant_eq (m : RequestBodyMemory W) (w : W) (g : ℤ) :
    m.grant w g = (m.credited w g).unlink w := rfl

theorem Lined.grant (h : m.Lined (w :: l)) (g : ℤ) :
    (m.grant w g).Lined l ∧ m.Turn (m.grant w g) w g ∧
      (m.grant w g).nextToTell = m.nextToTell ∧
      ∀ x, ((m.grant w g).waiters x).toTell = (m.waiters x).toTell := by
  obtain ⟨hlined, hu⟩ := (h.credited w g).unlink (p := []) (q := l)
  rw [grant_eq]
  refine ⟨hlined, ?_, ?_, fun x => ?_⟩
  · exact
      { used := hu.used
        cap := hu.cap
        granted_self := (hu.granted w).trans credited_self
        granted := fun x hx =>
          (hu.granted x).trans (congrArg BodyRoomWaiter.granted (credited_of_ne hx))
        want := fun x hx =>
          (hu.want x hx).trans (credited_apply (fun y => y.want) (fun _ _ => rfl) x)
        clamped := by rw [hu.account]; rfl
        pastLimit := by rw [hu.account]; rfl
        ticket := by rw [hu.account]; rfl
        nextTicket := by rw [hu.account]; rfl
        served := by rw [hu.account]; rfl
        told := by rw [hu.account]; rfl }
  · rw [hu.nextToTell]
    ext1 x
    exact credited_apply (fun y => y.nextToTell) (fun _ _ => rfl) x
  · rw [hu.toTell]
    exact credited_apply (fun y => y.toTell) (fun _ _ => rfl) x

/-- One turn of a loop: room given, and the waiter put on the chain. -/
def turn (m : RequestBodyMemory W) (link : Option W) (w : W) (g : ℤ) :
    RequestBodyMemory W × Option W :=
  (m.grant w g).chain link w

theorem Lined.turn (h : m.Lined (w :: l)) (link : Option W) (g : ℤ) :
    (m.turn link w g).1.Lined l ∧ m.Turn (m.turn link w g).1 w g := by
  obtain ⟨hlined, ht, -, -⟩ := h.grant g
  unfold RequestBodyMemory.turn chain
  split
  · exact ⟨hlined, ht⟩
  · have hgranted := modify_apply (m := m.grant w g) (w := w) (f := onChain link)
      (fun y => y.granted) fun _ => rfl
    have hwant := modify_apply (m := m.grant w g) (w := w) (f := onChain link)
      (fun y => y.want) fun _ => rfl
    refine ⟨hlined.modify (f := onChain link) (fun _ => rfl) (fun _ => rfl) fun _ => rfl, ?_⟩
    exact
      { ht with
        granted_self := (hgranted w).trans ht.granted_self
        granted := fun x hx => (hgranted x).trans (ht.granted x hx)
        want := fun x hx => (hwant x).trans (ht.want x hx) }

/-! ## The loops -/

/-- What `__serve` gives the first waiter. -/
def share (m : RequestBodyMemory W) (w : W) : ℤ :=
  if m.cap - m.used < (m.waiters w).want then m.cap - m.used else (m.waiters w).want

theorem serveLoop_succ (hhead : m.head = some w) :
    serveLoop (fuel + 1) m link =
      if m.cap - m.used < least (m.waiters w).want then (m, link)
      else serveLoop fuel (m.turn link w (m.share w)).1 (m.turn link w (m.share w)).2 := by
  rw [serveLoop, hhead]
  rfl

/-- `__serve` keeps what each turn keeps, and leaves no waiter first that could be served. -/
theorem serve_rule
    (hturn : ∀ {m link w l}, m.Lined (w :: l) → least (m.waiters w).want ≤ m.cap - m.used →
      P m link (w :: l) → P (m.turn link w (m.share w)).1 (m.turn link w (m.share w)).2 l)
    (h : m.Lined l) (hP : P m link l) (hfuel : l.length ≤ fuel) :
    ∃ l', (serveLoop fuel m link).1.Lined l' ∧ (serveLoop fuel m link).1.Starved l' ∧
      P (serveLoop fuel m link).1 (serveLoop fuel m link).2 l' := by
  induction fuel generalizing m link l with
  | zero =>
    obtain rfl := List.eq_nil_of_length_eq_zero (Nat.le_zero.1 hfuel)
    exact ⟨[], h, starved_nil, hP⟩
  | succ fuel ih =>
    cases l with
    | nil =>
      have hhead : m.head = none := h.queue.head_eq
      rw [serveLoop, hhead]
      exact ⟨[], h, starved_nil, hP⟩
    | cons w l =>
      rw [serveLoop_succ h.queue.head_eq]
      split
      · rename_i hroom
        exact ⟨w :: l, h, fun x hx => (by cases hx; exact hroom), hP⟩
      · rename_i hroom
        obtain ⟨hlined, -⟩ := h.turn link (m.share w)
        exact ih hlined (hturn h (not_lt.1 hroom) hP) (Nat.le_of_succ_le_succ hfuel)

/-- `__drainAll` keeps what each turn keeps, and leaves the queue empty. -/
theorem drain_rule
    (hturn : ∀ {m link w l}, m.Lined (w :: l) → P m link (w :: l) →
      P (m.turn link w (m.waiters w).want).1 (m.turn link w (m.waiters w).want).2 l)
    (h : m.Lined l) (hP : P m link l) (hfuel : l.length ≤ fuel) :
    (drainLoop fuel m link).1.Lined [] ∧
      P (drainLoop fuel m link).1 (drainLoop fuel m link).2 [] := by
  induction fuel generalizing m link l with
  | zero =>
    obtain rfl := List.eq_nil_of_length_eq_zero (Nat.le_zero.1 hfuel)
    exact ⟨h, hP⟩
  | succ fuel ih =>
    cases l with
    | nil =>
      have hhead : m.head = none := h.queue.head_eq
      rw [drainLoop, hhead]
      exact ⟨h, hP⟩
    | cons w l =>
      have hhead : m.head = some w := h.queue.head_eq
      rw [drainLoop, hhead]
      obtain ⟨hlined, -⟩ := h.turn link (m.waiters w).want
      exact ih hlined (hturn h hP) (Nat.le_of_succ_le_succ hfuel)

end RequestBodyMemory

end CrossByte
