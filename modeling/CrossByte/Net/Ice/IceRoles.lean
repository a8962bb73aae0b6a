import CrossByte.Lib.Runs
import CrossByte.Net.Ice.IceAgentWork

/-!
# Who decides

Two agents must not both be controlling, nor both controlled.  When they start so,
the tiebreakers settle it: the larger is to be controlling.  An agent learns of the
conflict from a check that claims its own role, or from a 487 refusing its own.

The system here is two agents and the network between them.  A datagram is delivered
by its place in its sender's log, so it may be lost, delayed, reordered and delivered
any number of times, from any address the network shows it under.

One of the two, the mover, is the one whose tiebreaker is on the wrong side for the
role both start in.  The other never moves.  What decides whether the mover moves
once is the 487 it acts on.  A refusal answers a claim that the agent may have
abandoned since, and `__refused` means to tell: it compares the role the check was
sent under with its own.  But that is the role of the check's last transmission, and
a retransmission reuses the transaction, so that the refusal of an earlier one looks
like a refusal of the last.

## Main results

* `settles_iff`: the conflict settles once and the right way in every state of a run,
  if and only if every 487 acted on refuses a claim of the role that its receiver has.
* `moved_there_and_back`: a run where it does not.
-/

namespace CrossByte

namespace Ice

open IceAgent Function

/-! ## Two agents and the network -/

abbrev Peers : Type := Bool → IceAgent

/-- Two new agents, in one role. -/
def Peers.new (role : Bool) (tiebreaker : Bool → ℤ) : Peers :=
  fun who => IceAgent.new role (tiebreaker who)

/-- What happens next: a call by one of the two sides, or the delivery to one of them of the
datagram at a place in the other's log. -/
inductive Turn
  | call (who : Bool) (a : Call)
  | deliver (who : Bool) (i : ℕ) (source : Source) (now : ℚ)

/-- The datagram at a place in a log, and the role it is about. -/
def sentAt (log : List Event) (i : ℕ) : Option (Stun × Option Bool) :=
  match log[i]? with
  | some (.sent m _ _ _ about) => some (m, about)
  | _ => none

def Peers.step (s : Peers) : Turn → Peers
  | .call who a => Function.update s who ((s who).call a)
  | .deliver who i source now =>
    match sentAt (s (!who)).log i with
    | some (m, _) => Function.update s who ((s who).receive m source now)
    | none => s

/-- The role that a change of role is to. -/
def Event.newRole : Event → Option Bool
  | .roleChanged controlling => some controlling
  | _ => none

def IceAgent.roleChanges (s : IceAgent) : List Bool := s.log.filterMap Event.newRole

/-- The conflict settles once and the right way: no agent has changed its role twice, the one with
the larger tiebreaker was not moved to controlled nor the other to controlling, and once one has
moved exactly one is controlling. -/
structure Peers.Settles (tiebreaker : Bool → ℤ) (s : Peers) : Prop where
  once : ∀ who, (s who).roleChanges.length ≤ 1
  larger : ∀ who, tiebreaker (!who) < tiebreaker who → false ∉ (s who).roleChanges
  smaller : ∀ who, tiebreaker who < tiebreaker (!who) → true ∉ (s who).roleChanges
  one : (∃ who, (s who).roleChanges ≠ []) → (s true).controlling ≠ (s false).controlling

/-- A refusal that is acted on answers a claim of the role the agent has. -/
def Peers.Current (s : Peers) : Turn → Prop
  | .call _ _ => True
  | .deliver who i _ _ =>
    ∀ m about, sentAt (s (!who)).log i = some (m, about) → (s who).Yields m →
      about = some (s who).controlling

/-! ## All but the change of role and the refusal -/

variable {x y z : IceAgent} {role : Bool} {t : ℤ}

/-- An event that claims the role the agent has, refuses nothing, and is no change of role. -/
def Ordinary (role : Bool) (t : ℤ) : Event → Prop
  | .sent m _ _ _ _ => m.kind ≠ .error ∧ (m.kind = .request → m.claim = some (role, t))
  | .roleChanged _ => False
  | _ => True

/-- The agent keeps its role, and logs ordinary events only. -/
structure Plain (x y : IceAgent) : Prop where
  controlling : y.controlling = x.controlling
  tiebreaker : y.tiebreaker = x.tiebreaker
  log : ∃ es, y.log = x.log ++ es ∧ ∀ e ∈ es, Ordinary x.controlling x.tiebreaker e

theorem Plain.refl (x : IceAgent) : Plain x x := ⟨rfl, rfl, [], by simp, by simp⟩

theorem Plain.trans (h : Plain x y) (h' : Plain y z) : Plain x z := by
  obtain ⟨es, he, ho⟩ := h.log
  obtain ⟨es', he', ho'⟩ := h'.log
  rw [h.controlling, h.tiebreaker] at ho'
  refine ⟨h'.controlling.trans h.controlling, h'.tiebreaker.trans h.tiebreaker, es ++ es', ?_, ?_⟩
  · rw [he', he, List.append_assoc]
  · intro e hm
    obtain hm | hm := List.mem_append.1 hm
    · exact ho e hm
    · exact ho' e hm

theorem Plain.of_eq (hc : y.controlling = x.controlling) (ht : y.tiebreaker = x.tiebreaker)
    (hl : y.log = x.log) : Plain x y :=
  ⟨hc, ht, [], by simp [hl], by simp⟩

theorem Plain.of_log {e : Event} (hc : y.controlling = x.controlling)
    (ht : y.tiebreaker = x.tiebreaker) (hl : y.log = x.log ++ [e])
    (he : Ordinary x.controlling x.tiebreaker e) : Plain x y :=
  ⟨hc, ht, [e], hl, by simpa using he⟩

theorem plain_select (x : IceAgent) (pair : IceCandidatePair) (now : ℚ) (tx : Option ℕ) :
    Plain x (x.select pair now tx) := by
  obtain h | ⟨-, u, hu, h⟩ := select_cases x pair now tx <;> rw [h]
  · exact Plain.refl x
  · refine Plain.of_log (e := .selected pair x.controlling tx) hu.controlling hu.tiebreaker ?_ trivial
    rw [note_log, hu.log]

theorem Plain.of_work (h : Work x y) : Plain x y := by
  cases h with
  | same h => exact Plain.of_eq h.controlling h.tiebreaker h.log
  | transmit id now _ =>
    obtain h | ⟨c, -, h⟩ := transmit_cases x id now <;> rw [h]
    · exact Plain.refl x
    · exact Plain.of_log rfl rfl rfl ⟨nofun, fun _ => rfl⟩
  | reply request source mapped _ => exact Plain.of_log rfl rfl rfl ⟨nofun, nofun⟩
  | consent pair now jitter _ => exact Plain.of_log rfl rfl rfl ⟨nofun, fun _ => rfl⟩
  | named pair _ _ _ => exact Plain.of_log rfl rfl rfl trivial
  | follow now _ _ _ _ _ _ => exact plain_select x _ now none
  | _ => exact Plain.of_eq rfl rfl rfl

theorem Plain.of_works (h : Works x y) : Plain x y := by
  induction h with
  | refl => exact Plain.refl x
  | tail _ last ih => exact ih.trans (Plain.of_work last)

theorem plain_giveUp (x : IceAgent) : Plain x x.giveUp := Plain.of_log rfl rfl rfl trivial

theorem plain_settleIfFinished (x : IceAgent) : Plain x x.settleIfFinished := by
  obtain h | h := settleIfFinished_cases x <;> rw [h]
  · exact Plain.refl x
  · exact plain_giveUp x

theorem plain_call (x : IceAgent) (a : Call) : Plain x (x.call a) := by
  obtain ⟨u, hu, h | h | h⟩ := call_works x a <;> rw [h]
  · exact Plain.of_works hu
  · exact (Plain.of_works hu).trans (plain_giveUp u)
  · exact (Plain.of_works hu).trans (Plain.of_log rfl rfl rfl trivial)

theorem Plain.of_proves {check : IceCheck} {response : Stun} {source : Source}
    (h : Proves x check response source y) : Plain x y :=
  Plain.of_log h.controlling h.tiebreaker h.log trivial

theorem plain_acceptEnd (x : IceAgent) (check : IceCheck) (response : Stun) (now : ℚ) :
    Plain x (x.acceptEnd check response now) := by
  refine Plain.trans ?_ (plain_settleIfFinished _)
  split
  · exact plain_select x _ _ _
  · exact Plain.refl x

theorem Ordinary.newRole {e : Event} (h : Ordinary role t e) : e.newRole = none := by
  cases e with
  | roleChanged => exact h.elim
  | _ => rfl

theorem Plain.roleChanges (h : Plain x y) : y.roleChanges = x.roleChanges := by
  obtain ⟨es, he, ho⟩ := h.log
  have hes : es.filterMap Event.newRole = [] :=
    List.filterMap_eq_nil_iff.2 fun e hm => (ho e hm).newRole
  rw [IceAgent.roleChanges, he, List.filterMap_append, hes, List.append_nil, IceAgent.roleChanges]

theorem roleChanges_switchRole (x : IceAgent) :
    x.switchRole.roleChanges = x.roleChanges ++ [!x.controlling] := by
  rw [IceAgent.roleChanges, switchRole, note_log, List.filterMap_append]
  rfl

/-- An agent that acts on a refusal changes its role, and then works. -/
theorem receive_of_yields {m : Stun} (h : x.Yields m) (source : Source) (now : ℚ) :
    Works x.switchRole (x.receive m source now) := by
  obtain ⟨hl, hk, hv, hcode, hr, check, hc, hrole⟩ := h
  have he : x.receive m source now = x.switchRole.retry check.id now := by
    rw [receive, if_neg (not_or.2 ⟨hl.2, hl.1⟩), hk]
    simp [refused, hr, hc, hv, hcode, hrole]
  rw [he]
  exact retry_works x.switchRole check.id now hl

/-! ## The one that stays and the one that moves -/

/-- The tiebreaker `t` is on the wrong side of `u` for the role both agents have. -/
def GivesWay (role : Bool) (t u : ℤ) : Prop := if role then t < u else u < t

/-- What the agent that stays sends. -/
def Stays (role : Bool) (t : ℤ) : Event → Prop
  | .sent m _ _ _ about =>
    (m.kind = .request → m.claim = some (role, t)) ∧ (m.kind = .error → about = some role)
  | .roleChanged _ => False
  | _ => True

/-- The agent that stays. -/
structure Stayer (role : Bool) (t : ℤ) (x : IceAgent) : Prop where
  tiebreaker : x.tiebreaker = t
  distinct : x.Distinct
  controlling : x.controlling = role
  log : ∀ e ∈ x.log, Stays role t e

/-- What the agent that moves sends. -/
def Moves (t : ℤ) : Event → Prop
  | .sent m _ _ _ _ => m.kind ≠ .error ∧ (m.kind = .request → ∃ r, m.claim = some (r, t))
  | _ => True

/-- The agent that moves, once. -/
structure Mover (role : Bool) (t : ℤ) (x : IceAgent) : Prop where
  tiebreaker : x.tiebreaker = t
  distinct : x.Distinct
  moved : x.controlling = role ∧ x.roleChanges = [] ∨
    x.controlling = (!role) ∧ x.roleChanges = [!role]
  log : ∀ e ∈ x.log, Moves t e

theorem Ordinary.stays {e : Event} (h : Ordinary role t e) : Stays role t e := by
  cases e with
  | sent m _ _ _ _ => exact ⟨h.2, fun hk => absurd hk h.1⟩
  | roleChanged => exact h
  | _ => trivial

theorem Ordinary.moves {e : Event} (h : Ordinary role t e) : Moves t e := by
  cases e with
  | sent m _ _ _ _ => exact ⟨h.1, fun hk => ⟨role, h.2 hk⟩⟩
  | _ => trivial

theorem Stayer.plain (h : Stayer role t x) (hp : Plain x y) (hd : y.Distinct) :
    Stayer role t y := by
  obtain ⟨es, he, ho⟩ := hp.log
  rw [h.controlling, h.tiebreaker] at ho
  refine ⟨hp.tiebreaker.trans h.tiebreaker, hd, hp.controlling.trans h.controlling, fun e hm => ?_⟩
  rw [he, List.mem_append] at hm
  obtain hm | hm := hm
  · exact h.log e hm
  · exact (ho e hm).stays

theorem Mover.plain (h : Mover role t x) (hp : Plain x y) (hd : y.Distinct) : Mover role t y := by
  obtain ⟨es, he, ho⟩ := hp.log
  rw [h.tiebreaker] at ho
  refine ⟨hp.tiebreaker.trans h.tiebreaker, hd, ?_, fun e hm => ?_⟩
  · rw [hp.controlling, hp.roleChanges]
    exact h.moved
  · rw [he, List.mem_append] at hm
    obtain hm | hm := hm
    · exact h.log e hm
    · exact (ho e hm).moves

theorem Stayer.roleChanges (h : Stayer role t x) : x.roleChanges = [] := by
  refine List.filterMap_eq_nil_iff.2 fun e hm => ?_
  have he := h.log e hm
  cases e with
  | roleChanged => exact he.elim
  | _ => rfl

/-- The agent that stays refuses checks that claim its role. -/
theorem Stayer.refuse (h : Stayer role t x) {m : Stun} {u : ℤ} (source : Source)
    (hm : m.claim = some (x.controlling, u)) :
    Stayer role t (x.reply m source .error none ROLE_CONFLICT) := by
  refine ⟨h.tiebreaker, h.distinct.note _, h.controlling, fun e he => ?_⟩
  obtain he | he := List.mem_append.1 he
  · exact h.log e he
  · rw [List.mem_singleton.1 he]
    refine ⟨nofun, fun _ => ?_⟩
    rw [hm, h.controlling]
    rfl

/-- The agent that moves changes its role while it has not. -/
theorem Mover.switch (h : Mover role t x) (hc : x.controlling = role) :
    Mover role t x.switchRole := by
  have hnone : x.roleChanges = [] := by
    obtain ⟨-, h⟩ | ⟨h, -⟩ := h.moved
    · exact h
    · rw [hc] at h
      simp at h
  refine ⟨h.tiebreaker, switchRole_distinct h.distinct, .inr ⟨?_, ?_⟩, fun e he => ?_⟩
  · rw [← hc]
    rfl
  · rw [roleChanges_switchRole, hnone, hc]
    rfl
  · obtain he | he := List.mem_append.1 he
    · exact h.log e he
    · rw [List.mem_singleton.1 he]
      trivial

theorem Stayer.call (h : Stayer role t x) (a : Call) : Stayer role t (x.call a) :=
  h.plain (plain_call x a) (call_distinct h.distinct a)

theorem Mover.call (h : Mover role t x) (a : Call) : Mover role t (x.call a) :=
  h.plain (plain_call x a) (call_distinct h.distinct a)

variable {u : ℤ} {m : Stun} {via : Option IceCandidate} {address : String} {port : ℕ}
  {about : Option Bool}

/-- Nothing that the other sends moves the agent that stays. -/
theorem Stayer.receive (h : Stayer role t x) (hu : GivesWay role u t)
    (hm : Moves u (.sent m via address port about)) (source : Source) (now : ℚ) :
    Stayer role t (x.receive m source now) := by
  have hd := receive_distinct h.distinct m source now
  have hr := receive_received h.distinct m source now
  generalize x.receive m source now = r at hd hr
  cases hr with
  | works hw => exact h.plain (Plain.of_works hw) hd
  | ends hw => exact h.plain ((Plain.of_works hw).trans (plain_giveUp _)) hd
  | refuses _ _ hclaim _ => exact h.refuse source hclaim
  | moves hk hclaim hlose _ =>
    obtain ⟨r, hr⟩ := hm.2 hk
    rw [h.controlling, h.tiebreaker] at hlose
    rw [GivesWay] at hu
    split at hu <;> simp_all <;> omega
  | yields hy _ => exact absurd hy.2.1 hm.1
  | accepts _ _ _ _ _ _ =>
    exact h.plain ((Plain.of_proves (prove_proves x _ m source)).trans (plain_acceptEnd _ _ _ _)) hd

/-- What the other sends moves the agent that moves only while it has not, if the refusal it acts
on is of the role it has. -/
theorem Mover.receive (h : Mover role t x) (ht : GivesWay role t u)
    (hm : Stays role u (.sent m via address port about))
    (hok : x.Yields m → about = some x.controlling) (source : Source) (now : ℚ) :
    Mover role t (x.receive m source now) := by
  have hd := receive_distinct h.distinct m source now
  have hr := receive_received h.distinct m source now
  generalize x.receive m source now = r at hd hr
  cases hr with
  | works hw => exact h.plain (Plain.of_works hw) hd
  | ends hw => exact h.plain ((Plain.of_works hw).trans (plain_giveUp _)) hd
  | refuses _ hk hclaim hwin =>
    obtain ⟨hc, rfl⟩ : role = x.controlling ∧ u = _ := by simpa [hclaim] using (hm.1 hk).symm
    rw [h.tiebreaker] at hwin
    rw [GivesWay] at ht
    split at ht <;> simp_all <;> omega
  | moves hk hclaim _ hw =>
    obtain ⟨hc, -⟩ : role = x.controlling ∧ u = _ := by simpa [hclaim] using (hm.1 hk).symm
    exact (h.switch hc.symm).plain (Plain.of_works hw) hd
  | yields hy hw =>
    have hc : some role = some x.controlling := (hm.2 hy.2.1).symm.trans (hok hy)
    exact (h.switch (Option.some.inj hc).symm).plain (Plain.of_works hw) hd
  | accepts _ _ _ _ _ _ =>
    exact h.plain ((Plain.of_proves (prove_proves x _ m source)).trans (plain_acceptEnd _ _ _ _)) hd

/-! ## Runs -/

variable {s : Peers} {tiebreaker : Bool → ℤ} {mover : Bool}

/-- One agent stays and the other moves at most once. -/
structure Peers.Inv (role : Bool) (tiebreaker : Bool → ℤ) (mover : Bool) (s : Peers) : Prop where
  moves : Mover role (tiebreaker mover) (s mover)
  stays : Stayer role (tiebreaker (!mover)) (s (!mover))

theorem sentAt_some {log : List Event} {i : ℕ} (h : sentAt log i = some (m, about)) :
    ∃ via address port, Event.sent m via address port about ∈ log := by
  rw [sentAt] at h
  split at h
  · next n via address port b he =>
    obtain ⟨rfl, rfl⟩ : n = m ∧ b = about := by simpa using h
    exact ⟨via, address, port, List.mem_of_getElem? he⟩
  · cases h

theorem Peers.Inv.step (hg : GivesWay role (tiebreaker mover) (tiebreaker (!mover)))
    (h : s.Inv role tiebreaker mover) (a : Turn) (hok : s.Current a) :
    (s.step a).Inv role tiebreaker mover := by
  have hne : (!mover) ≠ mover := by simp
  cases a with
  | call who a =>
    obtain rfl | rfl := Bool.eq_or_eq_not who mover
    · refine ⟨?_, ?_⟩ <;> simp only [Peers.step, update_self, update_of_ne hne]
      · exact h.moves.call a
      · exact h.stays
    · refine ⟨?_, ?_⟩ <;>
        simp only [Peers.step, update_self, update_of_ne hne.symm]
      · exact h.moves
      · exact h.stays.call a
  | deliver who i source now =>
    rw [Peers.step]
    cases hm : sentAt (s (!who)).log i with
    | none => exact h
    | some e =>
      obtain ⟨m, about⟩ := e
      obtain ⟨via, address, port, hmem⟩ := sentAt_some hm
      obtain rfl | rfl := Bool.eq_or_eq_not who mover
      · refine ⟨?_, ?_⟩ <;> simp only [update_self, update_of_ne hne]
        · exact h.moves.receive hg (h.stays.log _ hmem) (hok m about hm) source now
        · exact h.stays
      · refine ⟨?_, ?_⟩ <;> simp only [update_self, update_of_ne hne.symm]
        · exact h.moves
        · rw [Bool.not_not] at hmem
          exact h.stays.receive hg (h.moves.log _ hmem) source now

theorem Peers.Inv.new (role : Bool) (tiebreaker : Bool → ℤ) (mover : Bool) :
    (Peers.new role tiebreaker).Inv role tiebreaker mover where
  moves := ⟨rfl, new_distinct _ _, .inl ⟨rfl, rfl⟩, fun _ h => absurd h List.not_mem_nil⟩
  stays := ⟨rfl, new_distinct _ _, rfl, fun _ h => absurd h List.not_mem_nil⟩

theorem Peers.Inv.settles (hg : GivesWay role (tiebreaker mover) (tiebreaker (!mover)))
    (h : s.Inv role tiebreaker mover) : s.Settles tiebreaker := by
  have hstay := h.stays.roleChanges
  constructor
  · intro who
    obtain rfl | rfl := Bool.eq_or_eq_not who mover
    · obtain ⟨-, hm⟩ | ⟨-, hm⟩ := h.moves.moved <;> simp [hm]
    · simp [hstay]
  · intro who hlt
    obtain rfl | rfl := Bool.eq_or_eq_not who mover
    · obtain ⟨-, hm⟩ | ⟨-, hm⟩ := h.moves.moved <;> rw [hm]
      · simp
      · cases role
        · simp
        · exact absurd hlt (by simpa using hg.le)
    · simp [hstay]
  · intro who hlt
    obtain rfl | rfl := Bool.eq_or_eq_not who mover
    · obtain ⟨-, hm⟩ | ⟨-, hm⟩ := h.moves.moved <;> rw [hm]
      · simp
      · cases role
        · exact absurd hlt (by simpa using hg.le)
        · simp
    · simp [hstay]
  · rintro ⟨who, hwho⟩
    obtain rfl | rfl := Bool.eq_or_eq_not who mover
    · obtain ⟨-, hm⟩ | ⟨hm, -⟩ := h.moves.moved
      · exact absurd hm hwho
      · have hs := h.stays.controlling
        cases who <;> simp_all
    · exact absurd hstay hwho

/-- A refusal of a claim abandoned since moves the agent a second time. -/
theorem Peers.Inv.not_settles (h : s.Inv role tiebreaker mover) {a : Turn} (hno : ¬ s.Current a) :
    ¬ (s.step a).Settles tiebreaker := by
  cases a with
  | call who a => exact absurd trivial hno
  | deliver who i source now =>
    simp only [Peers.Current, not_forall] at hno
    obtain ⟨m, about, hm, hy, hab⟩ := hno
    obtain ⟨via, address, port, hmem⟩ := sentAt_some hm
    obtain rfl | rfl := Bool.eq_or_eq_not who mover
    · have habout : about = some role := (h.stays.log _ hmem).2 hy.2.1
      obtain ⟨hc, -⟩ | ⟨-, hmoved⟩ := h.moves.moved
      · exact absurd (habout.trans (congrArg some hc.symm)) hab
      · intro hset
        have hlen := hset.once who
        rw [Peers.step, hm] at hlen
        simp only [update_self] at hlen
        rw [(Plain.of_works (receive_of_yields hy source now)).roleChanges,
          roleChanges_switchRole, hmoved] at hlen
        simp at hlen
    · rw [Bool.not_not] at hmem
      exact absurd hy.2.1 (h.moves.log _ hmem).1

/-- Of two agents in one role, one gives way. -/
theorem exists_givesWay (role : Bool) (h : tiebreaker true ≠ tiebreaker false) :
    ∃ mover, GivesWay role (tiebreaker mover) (tiebreaker (!mover)) := by
  rcases lt_or_gt_of_ne h with hlt | hlt <;> cases role
  · exact ⟨false, hlt⟩
  · exact ⟨true, hlt⟩
  · exact ⟨true, hlt⟩
  · exact ⟨false, hlt⟩

/-- Two agents that start in one role with different tiebreakers: the conflict settles once and the
right way, in every state of a run, if and only if every 487 acted on in it refuses a claim of the
role that its receiver has. -/
theorem settles_iff (role : Bool) (tiebreaker : Bool → ℤ) (h : tiebreaker true ≠ tiebreaker false)
    (turns : List Turn) :
    (∀ p, p <+: turns → (Runs.run Peers.step (Peers.new role tiebreaker) p).Settles tiebreaker) ↔
      Runs.Along Peers.step Peers.Current (Peers.new role tiebreaker) turns := by
  obtain ⟨mover, hg⟩ := exists_givesWay role h
  have hinv : ∀ l, Runs.Along Peers.step Peers.Current (Peers.new role tiebreaker) l →
      (Runs.run Peers.step (Peers.new role tiebreaker) l).Inv role tiebreaker mover := fun l =>
    Runs.run_invariant_along (P := Peers.Inv role tiebreaker mover)
      (Peers.Inv.new role tiebreaker mover) (fun s a hs hok => hs.step hg a hok)
  constructor
  · intro hset
    -- along the run: the first refusal out of date would break what holds in the next state
    induction turns using List.reverseRecOn with
    | nil => trivial
    | append_singleton l a ih =>
      have hl := ih fun p hp => hset p (hp.trans (List.prefix_append l [a]))
      refine (Runs.along_concat l a).2 ⟨hl, ?_⟩
      by_contra hno
      have hlast := hset (l ++ [a]) List.prefix_rfl
      rw [Runs.run_concat] at hlast
      exact (hinv l hl).not_settles hno hlast
  · rintro hal p ⟨q, rfl⟩
    exact (hinv p ((Runs.along_append p q).1 hal).1).settles hg

/-- An address of each side, as the other sees it. -/
def addressOf (who : Bool) : IceCandidate := ⟨if who then "10.0.0.1" else "10.0.0.2", 4000, 1, 1⟩

/-- A datagram of a side arrives from its address. -/
def sourceOf (who : Bool) : Source := ⟨(addressOf who).address, (addressOf who).port, true, none⟩

/-- Both sides are told of both addresses, and start. -/
def introduced : List Turn :=
  [true, false].flatMap fun who =>
    [.call who (.addLocalCandidate ⟨addressOf who, none⟩),
      .call who (.addRemoteCandidate (addressOf !who) true), .call who (.start 0)]

/-- One side's check is refused, and the refusal delayed.  The other's check arrives, and the first
side changes its role.  It sends its check again, under the transaction of before.  Then the refusal
arrives. -/
def delayedRefusal : List Turn :=
  introduced ++
    [.call true (.poll 0 0), .deliver false 0 (sourceOf true) 0,
      .call false (.poll 0 0), .deliver true 1 (sourceOf false) 0,
      .call true (.poll 1 0), .deliver true 0 (sourceOf false) 1]

/-- The agent with the smaller tiebreaker moves to controlled, and then back, into the conflict it
had left. -/
theorem moved_there_and_back :
    (Runs.run Peers.step (Peers.new true fun who => if who then 1 else 2) delayedRefusal
      true).roleChanges = [false, true] ∧
    ∀ who, (Runs.run Peers.step (Peers.new true fun who => if who then 1 else 2) delayedRefusal
      who).controlling = true := by
  decide +kernel

/-- The refusal that arrives last in it is out of date. -/
theorem delayedRefusal_not_current :
    ¬ Runs.Along Peers.step Peers.Current (Peers.new true fun who => if who then 1 else 2)
      delayedRefusal := by
  intro hal
  have hset := (settles_iff true (fun who => if who then 1 else 2) (by decide) delayedRefusal).2 hal
    delayedRefusal List.prefix_rfl
  exact absurd (hset.once true) (by decide +kernel)

end Ice

end CrossByte
