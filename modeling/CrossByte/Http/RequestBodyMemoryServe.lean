import CrossByte.Http.RequestBodyMemoryQueue

/-!
# What the calls for body room keep

Four things hold of a `RequestBodyMemory` between any two times its lock is held, and this module
says what each call does to them.

* `Tickets`: the waiters were served in the order they queued, and those queued come after.
* `Books`: the bytes held are those of the holders, those granted and not collected, and those
  collected for waiters whose runtime has gone.  Sums of grants have to stay below `2 ^ 31`, which a
  positive limit sees to.
* `Chained`: a waiter is marked `toTell` exactly while it is on the chain of one call of `__wake`.
* `Told`: a waiter that has been given room is on a chain, or being told, or has been told since,
  or is about to have its room taken back by the call that could not tell it.

`Served` collects them for the two loops that give room.
-/

namespace CrossByte

open LinkedQueue
open WrappingInt (wrap_eq)

namespace RequestBodyMemory

variable {W : Type} {m m' : RequestBodyMemory W} {l : List W} {w x : W} {g held lost : ℤ}
  {link : Option W} {links : List (Option W)} {cs : List (List W)} {now : W → Prop}

/-! ## The order of service -/

/-- Waiters are served in the order of their tickets, and those queued come next. -/
structure Tickets (m : RequestBodyMemory W) (l : List W) : Prop where
  line : l.Pairwise fun v w => m.account.ticket v < m.account.ticket w
  line_lt : ∀ w ∈ l, m.account.ticket w < m.account.nextTicket
  served : m.account.served.Pairwise (· < ·)
  served_lt : ∀ t ∈ m.account.served, t < m.account.nextTicket
  before : ∀ t ∈ m.account.served, ∀ w ∈ l, t < m.account.ticket w

theorem tickets_new (limit floor : ℤ) : (new W limit floor).Tickets [] where
  line := .nil
  line_lt _ h := absurd h List.not_mem_nil
  served := .nil
  served_lt _ h := absurd h List.not_mem_nil
  before _ _ _ h := absurd h List.not_mem_nil

theorem Tickets.congr (h : m.Tickets l) (ha : m'.account.ticket = m.account.ticket)
    (hn : m'.account.nextTicket = m.account.nextTicket)
    (hs : m'.account.served = m.account.served) : m'.Tickets l where
  line := by rw [ha]; exact h.line
  line_lt := by rw [ha, hn]; exact h.line_lt
  served := by rw [hs]; exact h.served
  served_lt := by rw [hs, hn]; exact h.served_lt
  before := by rw [hs, ha]; exact h.before

theorem Tickets.sublist {l' : List W} (h : m.Tickets l) (hl : l'.Sublist l) : m.Tickets l' where
  line := h.line.sublist hl
  line_lt w hw := h.line_lt w (hl.subset hw)
  served := h.served
  served_lt := h.served_lt
  before t ht w hw := h.before t ht w (hl.subset hw)

/-! ## The chains of those to tell -/

/-- Chains, each its first link and its waiters: the waiters marked are those on one. -/
structure Chains (m : RequestBodyMemory W) (ps : List (Option W × List W)) : Prop where
  linked : ∀ p ∈ ps, Linked m.nextToTell p.1 p.2
  nodup : (ps.flatMap Prod.snd).Nodup
  toTell : ∀ w, (m.waiters w).toTell = true ↔ w ∈ ps.flatMap Prod.snd

/-- The chains that start at `links`, in any order, hold the waiters marked. -/
def Chained (m : RequestBodyMemory W) (links : List (Option W)) : Prop :=
  ∃ ps : List (Option W × List W), (ps.map Prod.fst).Perm links ∧ m.Chains ps

theorem Chains.perm {ps qs : List (Option W × List W)} (h : m.Chains ps) (hp : ps.Perm qs) :
    m.Chains qs where
  linked q hq := h.linked q (hp.mem_iff.2 hq)
  nodup := (hp.flatMap_right Prod.snd).nodup_iff.1 h.nodup
  toTell w := (h.toTell w).trans (hp.flatMap_right Prod.snd).mem_iff

theorem Chained.perm {links' : List (Option W)} (h : m.Chained links) (hp : links.Perm links') :
    m.Chained links' := by
  obtain ⟨ps, hps, hchains⟩ := h
  exact ⟨ps, hps.trans hp, hchains⟩

theorem Chained.congr (h : m.Chained links) (hnext : m'.nextToTell = m.nextToTell)
    (htell : ∀ w, (m'.waiters w).toTell = (m.waiters w).toTell) : m'.Chained links := by
  obtain ⟨ps, hps, hchains⟩ := h
  refine ⟨ps, hps, fun p hp => ?_, hchains.nodup, fun w => ?_⟩
  · rw [hnext]; exact hchains.linked p hp
  · rw [htell]; exact hchains.toTell w

theorem Chained.apart (h : m.Chained (link :: links)) :
    ∃ c ps, (ps.map Prod.fst).Perm links ∧ m.Chains ((link, c) :: ps) := by
  obtain ⟨ps, hps, hchains⟩ := h
  have hin : link ∈ ps.map Prod.fst := hps.mem_iff.2 List.mem_cons_self
  obtain ⟨⟨a, c⟩, hc, rfl⟩ := List.mem_map.1 hin
  obtain ⟨p, q, rfl⟩ := List.append_of_mem hc
  have hmid : (p ++ (a, c) :: q).Perm ((a, c) :: (p ++ q)) := List.perm_middle
  exact ⟨c, p ++ q, ((hmid.map Prod.fst).symm.trans hps).cons_inv, hchains.perm hmid⟩

theorem Chained.mem_chainFrom [Fintype W] (h : m.Chained links) (hw : (m.waiters w).toTell = true) :
    ∃ link ∈ links, w ∈ m.chainFrom link := by
  obtain ⟨ps, hps, hchains⟩ := h
  obtain ⟨p, hp, hin⟩ := List.mem_flatMap.1 ((hchains.toTell w).1 hw)
  have hnodup : p.2.Nodup := (List.nodup_flatMap.1 hchains.nodup).1 p hp
  refine ⟨p.1, hps.mem_iff.1 (List.mem_map_of_mem hp), ?_⟩
  rw [chainFrom, (hchains.linked p hp).follow_eq hnodup.length_le_card]
  exact hin

theorem chained_none : m.Chained (none :: links) ↔ m.Chained links := by
  constructor
  · intro h
    obtain ⟨c, ps, hps, hchains⟩ := h.apart
    have hc : c = [] := by
      have hlinked := hchains.linked _ List.mem_cons_self
      cases c with
      | nil => rfl
      | cons a c => cases hlinked.1
    subst hc
    exact ⟨ps, hps, fun p hp => hchains.linked p (List.mem_cons_of_mem _ hp),
      by simpa using hchains.nodup, fun w => by simpa using hchains.toTell w⟩
  · rintro ⟨ps, hps, hchains⟩
    refine ⟨(none, []) :: ps, hps.cons none, fun p hp => ?_, by simpa using hchains.nodup,
      fun w => by simpa using hchains.toTell w⟩
    rcases List.mem_cons.1 hp with rfl | hp
    · rfl
    · exact hchains.linked p hp

/-! ## What giving room keeps -/

/-- A waiter given room is on a chain, or in the hands of a call that tells it (`now`), or has been
told since. -/
def Told (m : RequestBodyMemory W) (now : W → Prop) : Prop :=
  ∀ w, (m.waiters w).granted ≠ 0 →
    (m.waiters w).toTell = true ∨ now w ∨ m.account.told w = true

theorem Told.congr (h : m.Told now)
    (hgranted : ∀ w, (m'.waiters w).granted = (m.waiters w).granted)
    (htell : ∀ w, (m'.waiters w).toTell = (m.waiters w).toTell)
    (htold : m'.account.told = m.account.told) : m'.Told now := by
  intro w hw
  rw [hgranted] at hw
  rw [htell, htold]
  exact h w hw

/-- What giving room to some of the queue keeps. -/
structure Served (m m' : RequestBodyMemory W) (link : Option W) (l : List W) : Prop where
  cap : m'.cap = m.cap
  used_le : m.used ≤ m'.used
  tickets : m'.Tickets l
  chained : ∀ {links}, m.Chained links → m'.Chained (link :: links)
  told : ∀ {now}, m.Told now → m'.Told now

theorem served_refl (h : m.Tickets l) : m.Served m none l where
  cap := rfl
  used_le := le_refl _
  tickets := h
  chained := chained_none.2
  told := id

theorem least_pos {want : ℤ} (h : 0 < want) : 0 < least want := by
  unfold least minGrant
  split <;> omega

/-- What `__serve` gives is more than nothing, and there is room for it. -/
theorem share_bounds (hwant : 0 < (m.waiters w).want)
    (hroom : least (m.waiters w).want ≤ m.cap - m.used) :
    0 < m.share w ∧ m.used + m.share w ≤ m.cap ∧ m.share w ≤ (m.waiters w).want := by
  have := least_pos hwant
  unfold share
  split <;> omega

/-! ## Conservation -/

/-- The bytes held: `held` by the holders, those granted and not collected, and `lost`, collected
for waiters whose runtime has gone. -/
structure Books [Fintype W] (m : RequestBodyMemory W) (held lost : ℤ) : Prop where
  balance : m.used = ∑ w, (m.waiters w).granted + held + lost
  granted_nonneg : ∀ w, 0 ≤ (m.waiters w).granted
  held_nonneg : 0 ≤ held
  lost_nonneg : 0 ≤ lost
  small : ∑ w, (m.waiters w).granted + lost < 2 ^ 31
  clamped : m.account.clamped = false
  pastLimit : m.account.pastLimit = false

theorem Books.congr [Fintype W] (h : m.Books held lost) (hused : m'.used = m.used)
    (hgranted : ∀ w, (m'.waiters w).granted = (m.waiters w).granted)
    (hclamped : m'.account.clamped = m.account.clamped)
    (hpast : m'.account.pastLimit = m.account.pastLimit) : m'.Books held lost where
  balance := by rw [hused]; simp only [hgranted]; exact h.balance
  granted_nonneg w := by rw [hgranted]; exact h.granted_nonneg w
  held_nonneg := h.held_nonneg
  lost_nonneg := h.lost_nonneg
  small := by simp only [hgranted]; exact h.small
  clamped := by rw [hclamped]; exact h.clamped
  pastLimit := by rw [hpast]; exact h.pastLimit

variable [DecidableEq W]

/-! ## One turn, and joining -/

theorem Tickets.turn (h : m.Tickets (w :: l)) (ht : m.Turn m' w g) : m'.Tickets l where
  line := by rw [ht.ticket]; exact (List.pairwise_cons.1 h.line).2
  line_lt x hx := by
    rw [ht.ticket, ht.nextTicket]
    exact h.line_lt x (List.mem_cons_of_mem w hx)
  served := by
    rw [ht.served, List.pairwise_append]
    refine ⟨h.served, List.pairwise_singleton .., fun t hin u hu => ?_⟩
    rw [List.mem_singleton] at hu
    subst hu
    exact h.before t hin w List.mem_cons_self
  served_lt t hin := by
    rw [ht.served, List.mem_append, List.mem_singleton] at hin
    rw [ht.nextTicket]
    rcases hin with hin | rfl
    · exact h.served_lt t hin
    · exact h.line_lt w List.mem_cons_self
  before t hin x hx := by
    rw [ht.served, List.mem_append, List.mem_singleton] at hin
    rw [ht.ticket]
    rcases hin with hin | rfl
    · exact h.before t hin x (List.mem_cons_of_mem w hx)
    · exact (List.pairwise_cons.1 h.line).1 x hx

/-- A waiter that joins the queue takes the next ticket. -/
theorem Tickets.enqueue (h : m.Tickets l) (hw : w ∉ l) (want : ℤ) :
    (m.enqueue w want).Tickets (l ++ [w]) := by
  have hself : (m.enqueue w want).account.ticket w = m.account.nextTicket :=
    Function.update_self ..
  have hother : ∀ x ∈ l, (m.enqueue w want).account.ticket x = m.account.ticket x := by
    intro x hx
    have hne : x ≠ w := fun he => hw (he ▸ hx)
    exact Function.update_of_ne hne ..
  refine ⟨?_, fun x hx => ?_, h.served, fun t ht => Nat.lt_succ_of_lt (h.served_lt t ht),
    fun t ht x hx => ?_⟩
  · rw [List.pairwise_append]
    refine ⟨h.line.imp_of_mem fun {x y} hx hy hxy => ?_, List.pairwise_singleton .., ?_⟩
    · rw [hother x hx, hother y hy]; exact hxy
    · intro x hx y hy
      rw [List.mem_singleton] at hy
      rw [hy, hself, hother x hx]
      exact h.line_lt x hx
  · rcases List.mem_append.1 hx with hx | hx
    · rw [hother x hx]; exact Nat.lt_succ_of_lt (h.line_lt x hx)
    · rw [List.mem_singleton.1 hx, hself]; exact Nat.lt_succ_self _
  · rcases List.mem_append.1 hx with hx | hx
    · rw [hother x hx]; exact h.before t ht x hx
    · rw [List.mem_singleton.1 hx, hself]; exact h.served_lt t ht

/-! ## Onto a chain and off it -/

theorem nextToTell_modify {f : BodyRoomWaiter W → BodyRoomWaiter W} (a : Option W)
    (hf : ∀ y, (f y).nextToTell = a) :
    (m.modify w f).nextToTell = Function.update m.nextToTell w a := by
  ext1 x
  by_cases hx : x = w
  · subst hx; simp [nextToTell, hf]
  · simp [nextToTell, modify_of_ne hx, hx]

theorem chain_toTell (link : Option W) (w x : W) :
    ((m.chain link w).1.waiters x).toTell = true ↔ x = w ∨ (m.waiters x).toTell = true := by
  unfold RequestBodyMemory.chain
  split
  · rename_i htell
    refine ⟨.inr, ?_⟩
    rintro (rfl | hx)
    · exact htell
    · exact hx
  · by_cases hx : x = w
    · subst hx; simp [onChain]
    · simp [modify_of_ne hx, hx]

/-- `__chain` puts a waiter on a chain, or leaves it on the one it is on. -/
theorem Chained.chain (h : m.Chained (link :: links)) (w : W) :
    (m.chain link w).1.Chained ((m.chain link w).2 :: links) := by
  have hmark := chain_toTell (m := m) link w
  unfold RequestBodyMemory.chain at hmark ⊢
  split at hmark
  · rename_i htell
    rw [if_pos htell]
    exact h
  · rename_i htell
    rw [if_neg htell]
    obtain ⟨c, ps, hps, hchains⟩ := h.apart
    have hw : w ∉ ((link, c) :: ps).flatMap Prod.snd := fun hin => htell ((hchains.toTell w).2 hin)
    have hkeep : ∀ p ∈ (link, c) :: ps,
        Linked (m.modify w (onChain link)).nextToTell p.1 p.2 := by
      intro p hp
      rw [nextToTell_modify link fun _ => rfl]
      exact (hchains.linked p hp).update (fun hin => hw (List.mem_flatMap.2 ⟨p, hp, hin⟩)) link
    refine ⟨(some w, w :: c) :: ps, hps.cons _, fun p hp => ?_, ?_, fun x => ?_⟩
    · rcases List.mem_cons.1 hp with rfl | hp
      · refine ⟨rfl, ?_⟩
        have hself : (m.modify w (onChain link)).nextToTell w = link := by
          rw [nextToTell_modify link fun _ => rfl, Function.update_self]
        rw [hself]
        exact hkeep _ List.mem_cons_self
      · exact hkeep p (List.mem_cons_of_mem _ hp)
    · exact List.nodup_cons.2 ⟨hw, hchains.nodup⟩
    · rw [hmark, hchains.toTell]
      exact List.mem_cons.symm

theorem Chained.pop (h : m.Chained (some w :: links)) :
    (m.modify w offChain).Chained (m.nextToTell w :: links) := by
  obtain ⟨c, ps, hps, hchains⟩ := h.apart
  obtain ⟨d, rfl, hd⟩ : ∃ d, c = w :: d ∧ Linked m.nextToTell (m.nextToTell w) d := by
    have hlinked := hchains.linked _ List.mem_cons_self
    cases c with
    | nil => cases hlinked
    | cons a d =>
      obtain ⟨ha, hd⟩ := hlinked
      cases ha
      exact ⟨d, rfl, hd⟩
  have hnodup := List.nodup_cons.1 hchains.nodup
  have hkeep : ∀ {a e}, w ∉ e → Linked m.nextToTell a e →
      Linked (m.modify w offChain).nextToTell a e := by
    intro a e he hlinked
    rw [nextToTell_modify none fun _ => rfl]
    exact hlinked.update he none
  have hout : ∀ p ∈ (m.nextToTell w, d) :: ps, w ∉ p.2 := fun p hp hin =>
    hnodup.1 (List.mem_flatMap.2 ⟨p, hp, hin⟩)
  refine ⟨(m.nextToTell w, d) :: ps, hps.cons _, fun p hp => hkeep (hout p hp) ?_, hnodup.2,
    fun x => ?_⟩
  · rcases List.mem_cons.1 hp with rfl | hp
    · exact hd
    · exact hchains.linked p (List.mem_cons_of_mem _ hp)
  · by_cases hx : x = w
    · subst hx
      rw [modify_self]
      exact ⟨fun hf => (by cases hf), fun hin => absurd hin hnodup.1⟩
    · rw [modify_of_ne hx, hchains.toTell]
      exact List.mem_cons.trans ⟨fun hin => hin.resolve_left hx, .inr⟩

variable [Fintype W]

theorem Chained.turn (hl : m.Lined (w :: l)) (h : m.Chained (link :: links)) (g : ℤ) :
    (m.turn link w g).1.Chained ((m.turn link w g).2 :: links) := by
  obtain ⟨-, -, hnext, htell⟩ := hl.grant g
  exact (h.congr hnext htell).chain w

/-! ## Who has been told -/

theorem Told.turn (hl : m.Lined (w :: l)) (h : m.Told now) (link : Option W) (g : ℤ) :
    (m.turn link w g).1.Told now := by
  intro x hx
  have htell := chain_toTell (m := m.grant w g) link w x
  by_cases hxw : x = w
  · exact .inl (htell.2 (.inl hxw))
  · obtain ⟨-, ht⟩ := hl.turn link g
    obtain ⟨-, -, -, hsame⟩ := hl.grant g
    rw [ht.granted x hxw] at hx
    rcases h x hx with hx | hx | hx
    · exact .inl (htell.2 (.inr (by rw [hsame]; exact hx)))
    · exact .inr (.inl hx)
    · exact .inr (.inr (by rw [ht.told, Function.update_of_ne hxw]; exact hx))

/-! ## One grant in the books -/

/-- A grant that the sum of grants has room for, and the limit too if there is one. -/
theorem Books.turn (h : m.Books held lost) (ht : m.Turn m' w g) (hg : 0 ≤ g)
    (hsmall : ∑ x, (m.waiters x).granted + lost + g < 2 ^ 31)
    (hlimit : 0 < m.cap → m.used + g ≤ m.cap) :
    m'.Books held lost ∧ ∑ x, (m'.waiters x).granted = ∑ x, (m.waiters x).granted + g := by
  have hle := FinSum.le_sum h.granted_nonneg w
  have hnonneg := h.granted_nonneg w
  have hlost := h.lost_nonneg
  have hself : (m'.waiters w).granted = (m.waiters w).granted + g := by
    rw [ht.granted_self, wrap_eq (by omega) (by omega)]
  have hsum : ∑ x, (m'.waiters x).granted = ∑ x, (m.waiters x).granted + g := by
    rw [FinSum.sum_eq_of_differ (f := fun x => (m.waiters x).granted) (i := w) ht.granted]
    omega
  refine ⟨⟨?_, fun x => ?_, h.held_nonneg, hlost, ?_, ?_, ?_⟩, hsum⟩
  · rw [ht.used, h.balance]; omega
  · by_cases hx : x = w
    · rw [hx]; omega
    · rw [ht.granted x hx]; exact h.granted_nonneg x
  · omega
  · rw [ht.clamped]; exact h.clamped
  · rw [ht.pastLimit, h.pastLimit]
    by_cases hcap : 0 < m.cap
    · simp [not_lt.2 (hlimit hcap)]
    · simp [hcap]

/-! ## The loops -/

theorem Served.turn {m₀ : RequestBodyMemory W} (hl : m.Lined (w :: l)) (h : m₀.Served m link (w :: l))
    (hg : 0 ≤ g) : m₀.Served (m.turn link w g).1 (m.turn link w g).2 l := by
  obtain ⟨-, ht⟩ := hl.turn link g
  exact
    { cap := ht.cap.trans h.cap
      used_le := by have := h.used_le; rw [ht.used]; omega
      tickets := h.tickets.turn ht
      chained := fun hc => (h.chained hc).turn hl g
      told := fun hn => (h.told hn).turn hl link g }

/-- What `__serve` does: it gives room in order, and leaves no waiter first that it could serve. -/
theorem serve_spec (h : m.Lined l) (ht : m.Tickets l) :
    ∃ l', m.serve.1.Lined l' ∧ m.serve.1.Starved l' ∧ m.Served m.serve.1 m.serve.2 l' ∧
      (l = [] → l' = []) ∧
      (0 < m.cap → m.cap < 2 ^ 31 → ∀ {held lost}, m.Books held lost →
        m.serve.1.Books held lost) := by
  refine serve_rule (P := fun m' link l' => m.Served m' link l' ∧ (l = [] → l' = []) ∧
    (0 < m.cap → m.cap < 2 ^ 31 → ∀ {held lost}, m.Books held lost → m'.Books held lost))
    ?_ h ⟨served_refl ht, id, fun _ _ _ _ => id⟩ h.length_le
  intro m' link w l' hl hroom ⟨hserved, hnil, hbooks⟩
  obtain ⟨-, hturn⟩ := hl.turn link (m'.share w)
  obtain ⟨hpos, hle, -⟩ := share_bounds (hl.want_pos w List.mem_cons_self) hroom
  refine ⟨hserved.turn hl hpos.le, fun he => absurd (hnil he) (List.cons_ne_nil w l'),
    fun hcap hlt held lost hb => ?_⟩
  have hb' := hbooks hcap hlt hb
  have hbal := hb'.balance
  have hheld := hb'.held_nonneg
  have hcap' := hserved.cap
  exact (hb'.turn hturn hpos.le (by omega) fun _ => hle).1

theorem drainAll_spec (h : m.Lined l) (ht : m.Tickets l) :
    m.drainAll.1.Lined [] ∧ m.Served m.drainAll.1 m.drainAll.2 [] ∧
      (m.cap ≤ 0 → ∀ {held lost}, m.Books held lost →
        ∑ w, (m.waiters w).granted + lost + (l.map fun w => (m.waiters w).want).sum < 2 ^ 31 →
          m.drainAll.1.Books held lost) := by
  have hrule := drain_rule (P := fun m' link l' => m.Served m' link l' ∧
    (m.cap ≤ 0 → ∀ {held lost}, m.Books held lost →
      ∑ w, (m.waiters w).granted + lost + (l.map fun w => (m.waiters w).want).sum < 2 ^ 31 →
        m'.Books held lost ∧
        ∑ w, (m'.waiters w).granted + lost + (l'.map fun w => (m'.waiters w).want).sum < 2 ^ 31))
    ?_ h ⟨served_refl ht, fun _ _ _ hb hs => ⟨hb, hs⟩⟩ h.length_le
  · obtain ⟨hlined, hserved, hbooks⟩ := hrule
    exact ⟨hlined, hserved, fun hcap _ _ hb hs => (hbooks hcap hb hs).1⟩
  · intro m' link w l' hl ⟨hserved, hbooks⟩
    obtain ⟨-, hturn⟩ := hl.turn link (m'.waiters w).want
    have hwant := hl.want_pos w List.mem_cons_self
    refine ⟨hserved.turn hl hwant.le, fun hcap held lost hb hs => ?_⟩
    obtain ⟨hb', hs'⟩ := hbooks hcap hb hs
    rw [List.map_cons, List.sum_cons] at hs'
    have hnonneg : 0 ≤ (l'.map fun w => (m'.waiters w).want).sum :=
      List.sum_nonneg fun a ha => by
        obtain ⟨x, hx, rfl⟩ := List.mem_map.1 ha
        exact (hl.want_pos x (List.mem_cons_of_mem w hx)).le
    have hcap' := hserved.cap
    obtain ⟨hb'', hsum⟩ := hb'.turn hturn hwant.le (by omega) fun hpos => by omega
    have hwants : (l'.map fun x => ((m'.turn link w (m'.waiters w).want).1.waiters x).want) =
        l'.map fun x => (m'.waiters x).want := by
      refine List.map_congr_left fun x hx => hturn.want x fun he => ?_
      exact (List.nodup_cons.1 hl.queue.nodup).1 (he ▸ hx)
    refine ⟨hb'', ?_⟩
    rw [hwants]
    omega

end RequestBodyMemory

end CrossByte
