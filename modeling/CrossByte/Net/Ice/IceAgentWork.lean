import CrossByte.Net.Ice.IceAgent

/-!
# What an agent does

Every call of an agent, and every datagram given to it, comes down to a few kinds of
work: sending a check or an answer or a question of consent, adding a check, marking
one, giving one a transaction of its own, following the peer's choice of pair.
`Work` lists them with what each is done on, and the theorems here say which of them a
function is made of.  Left out are the three things that the two developments on top
of this one are about, each taken there on its own: the change of role, the refusal
of a check, and the taking of an answer.

Only a `Live` agent, one that has neither failed nor been closed, sends or selects.

## Main results

* `Works.distinct`: the checks an agent holds stay distinct objects.
* `call_works`: a call is work, and may end the agent.
* `receive_received`: so is what the agent makes of a message, but for a change of role, a
  refusal, and the taking of an answer.
-/

namespace CrossByte

namespace Ice

namespace IceAgent

variable {s s' : IceAgent} {id : ℕ} {c c' : IceCheck} {f : IceCheck → IceCheck}
  {pair : IceCandidatePair} {now : ℚ}

/-- Neither failed nor closed. -/
def Live (s : IceAgent) : Prop := s.state ≠ .failed ∧ s.state ≠ .closed

/-- The log says that the peer named a pair in a signed check carrying USE-CANDIDATE. -/
def Named (log : List Event) (pair : IceCandidatePair) : Prop :=
  ∃ request named, Event.named request named ∈ log ∧ named.sameAs pair ∧
    request.addressed ∧ request.verified ∧ request.useCandidate

/-- The checks are distinct objects, numbered below what was drawn. -/
structure Distinct (s : IceAgent) : Prop where
  eq_of_id : ∀ c ∈ s.checks, ∀ c' ∈ s.checks, c.id = c'.id → c = c'
  id_lt : ∀ c ∈ s.checks, c.id < s.drawn

/-! ## The kinds of work -/

/-- Nothing but what the agent schedules by is changed, and pairs may be dropped. -/
structure Same (s s' : IceAgent) : Prop where
  controlling : s'.controlling = s.controlling
  tiebreaker : s'.tiebreaker = s.tiebreaker
  live : s'.Live ↔ s.Live
  selectedPair : s'.selectedPair = s.selectedPair
  valid : ∀ p ∈ s'.valid, p ∈ s.valid
  checks : ∀ c ∈ s'.checks, c ∈ s.checks
  drawn : s'.drawn = s.drawn
  log : s'.log = s.log

/-- A check is marked, and not as asked or answered or named when it was not. -/
structure Lowers (c c' : IceCheck) : Prop where
  id : c'.id = c.id
  pair : c'.pair = c.pair
  transaction : c'.transaction = c.transaction
  inProgress : c'.state = .inProgress → c.state = .inProgress
  succeeded : c'.state = .succeeded → c.state = .succeeded
  nominate : c'.nominate → c.nominate
  nominatedByPeer : c'.nominatedByPeer → c.nominatedByPeer

/-- A check is made ready for a transaction of its own; only in the controlling role may it then
be a nomination that it was not. -/
structure Restarts (controlling : Bool) (c c' : IceCheck) : Prop where
  id : c'.id = c.id
  pair : c'.pair = c.pair
  inProgress : c'.state ≠ .inProgress
  succeeded : c'.state = .succeeded → c.state = .succeeded
  nominate : c'.nominate → c.nominate ∨ controlling
  nominatedByPeer : c'.nominatedByPeer → c.nominatedByPeer

inductive Work : IceAgent → IceAgent → Prop
  | same {s s' : IceAgent} : Same s s' → Work s s'
  | transmit {s : IceAgent} (id : ℕ) (now : ℚ) : s.Live → Work s (s.transmit id now)
  | add {s : IceAgent} (pair : IceCandidatePair) : Work s (s.add pair)
  | write {s : IceAgent} (id : ℕ) (f : IceCheck → IceCheck) :
      (∀ c, s.checkAt id = some c → Lowers c (f c)) → Work s (s.modify id f)
  | redraw {s : IceAgent} (id : ℕ) (f : IceCheck → IceCheck) :
      (∀ c, s.checkAt id = some c → Restarts s.controlling c (f c)) → Work s (s.redraw id f)
  | reply {s : IceAgent} (request : Stun) (source : Source) (mapped : Option (String × ℕ)) :
      s.Live → Work s (s.reply request source .success mapped 0)
  | consent {s : IceAgent} (pair : IceCandidatePair) (now jitter : ℚ) :
      s.Live → Work s (s.sendConsent pair now jitter)
  | named {s : IceAgent} {request : Stun} (pair : IceCandidatePair) :
      request.addressed → request.verified → request.useCandidate →
      Work s (s.note (.named request pair))
  | remember {s : IceAgent} {id : ℕ} : (∀ c, s.checkAt id = some c → Named s.log c.pair) →
      Work s (s.modify id fun c => { c with nominatedByPeer := true })
  | follow {s : IceAgent} {c : IceCheck} {pair : IceCandidatePair} (now : ℚ) :
      s.Live → c ∈ s.checks → c.state = .succeeded → c.pair.sameAs pair →
      s.controlling = false → Named s.log pair → Work s (s.select pair now none)

/-- Pieces of work, one after another. -/
def Works : IceAgent → IceAgent → Prop := Relation.ReflTransGen Work

theorem Works.refl (s : IceAgent) : Works s s := Relation.ReflTransGen.refl

theorem Works.trans {a b c : IceAgent} (h : Works a b) (h' : Works b c) : Works a c :=
  Relation.ReflTransGen.trans h h'

theorem Work.works (h : Work s s') : Works s s' := Relation.ReflTransGen.single h

theorem Same.works (h : Same s s') : Works s s' := (Work.same h).works

variable {P : IceAgent → Prop} {p : IceCandidatePair} {request m : Stun} {source : Source}

theorem Works.keeps (step : ∀ s s', P s → Work s s' → P s') (h : Works s s') (hp : P s) : P s' := by
  induction h with
  | refl => exact hp
  | tail _ last ih => exact step _ _ ih last

/-! ## Places, checks -/

theorem IceCandidate.sameAs_iff {a b : IceCandidate} :
    a.sameAs b ↔ a.address = b.address ∧ a.port = b.port ∧ a.component = b.component := by
  simp [Ice.IceCandidate.sameAs, and_assoc]

theorem sameAs_refl (p : IceCandidatePair) : p.sameAs p := by
  simp [IceCandidatePair.sameAs, Ice.IceCandidate.sameAs]

theorem sameAs_symm {q : IceCandidatePair} (h : p.sameAs q) : q.sameAs p := by
  simp only [IceCandidatePair.sameAs, Bool.and_eq_true, IceCandidate.sameAs_iff] at h ⊢
  exact ⟨⟨h.1.1.symm, h.1.2.1.symm, h.1.2.2.symm⟩, h.2.1.symm, h.2.2.1.symm, h.2.2.2.symm⟩

theorem checkAt_some (h : s.checkAt id = some c) : c ∈ s.checks ∧ c.id = id :=
  ⟨List.mem_of_find?_eq_some h, by simpa using List.find?_some h⟩

theorem mem_modify (h : c' ∈ (s.modify id f).checks) :
    ∃ c ∈ s.checks, c' = if c.id = id then f c else c := by
  obtain ⟨c, hc, rfl⟩ := List.mem_map.1 h
  exact ⟨c, hc, rfl⟩

/-- A check held after one was written is that one, or was held before under another identity. -/
theorem Distinct.mem_modify (hd : s.Distinct) (h : c' ∈ (s.modify id f).checks) :
    (∃ c, s.checkAt id = some c ∧ c ∈ s.checks ∧ c.id = id ∧ c' = f c) ∨
      c' ∈ s.checks ∧ c'.id ≠ id := by
  obtain ⟨d, hdm, rfl⟩ := IceAgent.mem_modify h
  by_cases he : d.id = id
  · refine .inl ⟨d, ?_, hdm, he, if_pos he⟩
    cases hf : s.checkAt id with
    | none => exact absurd he (by simpa using List.find?_eq_none.1 hf d hdm)
    | some e =>
      obtain ⟨hm, hid⟩ := checkAt_some hf
      rw [hd.eq_of_id e hm d hdm (hid.trans he.symm)]
  · rw [if_neg he]
    exact .inr ⟨hdm, he⟩

section fields

variable (s id f pair now)

theorem ensure_controlling : (s.ensure pair).1.controlling = s.controlling := by
  rw [ensure]
  cases s.checkFor pair <;> rfl

end fields

theorem transmit_cases (s : IceAgent) (id : ℕ) (now : ℚ) :
    s.transmit id now = s ∨ ∃ c, s.checkAt id = some c ∧
      s.transmit id now = ((s.modify id fun c => { c with
        state := .inProgress
        attempts := c.attempts + 1
        sentAsControlling := s.controlling
        nextAttemptAt := now + attemptWait (c.attempts + 1) }).note
        (.sent (s.bindingRequest c.transaction c.pair.local_.component c.nominate)
          (some c.pair.local_) c.pair.remote.address c.pair.remote.port none)) := by
  rw [transmit]
  cases s.hasRemote with
  | false => exact .inl rfl
  | true =>
    cases hc : s.checkAt id with
    | none => exact .inl rfl
    | some c => exact .inr ⟨c, rfl, rfl⟩

theorem select_cases (s : IceAgent) (pair : IceCandidatePair) (now : ℚ) (t : Option ℕ) :
    s.select pair now t = s ∨ s.Live ∧ ∃ s', Same s s' ∧
      s.select pair now t =
        { s' with selectedPair := some pair }.note (.selected pair s.controlling t) := by
  rw [select]
  split
  · next hs =>
    split
    · exact .inl rfl
    · refine .inr ⟨by simp [Live, hs], { s with
        consentedAt := now, consentDueAt := now + CONSENT_INTERVAL, consentTransaction := none },
        ?_, rfl⟩
      constructor <;> simp [Live]
  · next hs =>
    refine .inr ⟨by simp [Live, hs], { s with
      state := .connected, consentedAt := now, consentDueAt := now + CONSENT_INTERVAL }, ?_, rfl⟩
    constructor <;> simp [Live, hs]
  · exact .inl rfl

/-! ## What work keeps -/

theorem Work.live (h : Work s s') (hl : s.Live) : s'.Live := by
  cases h with
  | same h => exact h.live.2 hl
  | transmit id now _ =>
    obtain h | ⟨c, -, h⟩ := transmit_cases s id now <;> rw [h] <;> exact hl
  | follow now _ _ _ _ _ _ =>
    obtain h | ⟨-, t, ht, h⟩ := select_cases s _ now none
    · rw [h]
      exact hl
    · rw [h]
      exact ht.live.2 hl
  | _ => exact hl

theorem Works.live (h : Works s s') (hl : s.Live) : s'.Live :=
  h.keeps (fun _ _ hl h => h.live hl) hl

/-- Checks that are those of before, each with its identity, are distinct too. -/
theorem Distinct.modify (hd : s.Distinct) (hf : ∀ c, s.checkAt id = some c → (f c).id = c.id) :
    (s.modify id f).Distinct := by
  constructor
  · intro d hdm d' hdm' he
    obtain ⟨c, hc, hm, hid, rfl⟩ | ⟨h, hn⟩ := hd.mem_modify hdm <;>
    obtain ⟨c', hc', hm', hid', rfl⟩ | ⟨h', hn'⟩ := hd.mem_modify hdm'
    · rw [hd.eq_of_id c hm c' hm' (hid.trans hid'.symm)]
    · exact absurd (he.symm.trans ((hf c hc).trans hid)) hn'
    · exact absurd (he.trans ((hf c' hc').trans hid')) hn
    · exact hd.eq_of_id d h d' h' he
  · intro d hdm
    obtain ⟨c, hc, hm, -, rfl⟩ | ⟨h, -⟩ := hd.mem_modify hdm
    · rw [hf c hc]
      exact hd.id_lt c hm
    · exact hd.id_lt d h

theorem Distinct.of_subset (hd : s.Distinct) (hc : ∀ c ∈ s'.checks, c ∈ s.checks)
    (hn : s.drawn ≤ s'.drawn) : s'.Distinct where
  eq_of_id c h c' h' := hd.eq_of_id c (hc c h) c' (hc c' h')
  id_lt c h := (hd.id_lt c (hc c h)).trans_le hn

theorem Distinct.note (hd : s.Distinct) (e : Event) : (s.note e).Distinct :=
  hd.of_subset (fun _ h => h) le_rfl

theorem Distinct.of_nil (h : s.checks = []) : s.Distinct := ⟨by simp [h], by simp [h]⟩

theorem new_distinct (role : Bool) (t : ℤ) : (IceAgent.new role t).Distinct := .of_nil rfl

theorem Distinct.add (hd : s.Distinct) (pair : IceCandidatePair) : (s.add pair).Distinct := by
  constructor
  · intro d hdm d' hdm' he
    obtain h | h := List.mem_append.1 hdm <;> obtain h' | h' := List.mem_append.1 hdm'
    · exact hd.eq_of_id d h d' h' he
    · rw [List.mem_singleton.1 h'] at he
      exact absurd he (hd.id_lt d h).ne
    · rw [List.mem_singleton.1 h] at he
      exact absurd he.symm (hd.id_lt d' h').ne
    · rw [List.mem_singleton.1 h, List.mem_singleton.1 h']
  · intro d hdm
    obtain h | h := List.mem_append.1 hdm
    · exact (hd.id_lt d h).trans (Nat.lt_succ_self _)
    · rw [List.mem_singleton.1 h]
      exact Nat.lt_succ_self _

theorem select_distinct (hd : s.Distinct) (pair : IceCandidatePair) (now : ℚ) (t : Option ℕ) :
    (s.select pair now t).Distinct := by
  obtain h | ⟨-, u, hu, h⟩ := select_cases s pair now t <;> rw [h]
  · exact hd
  · exact hd.of_subset hu.checks hu.drawn.ge

theorem Work.distinct (h : Work s s') (hd : s.Distinct) : s'.Distinct := by
  cases h with
  | same h => exact hd.of_subset h.checks h.drawn.ge
  | transmit id now _ =>
    obtain h | ⟨c, hc, h⟩ := transmit_cases s id now <;> rw [h]
    · exact hd
    · refine Distinct.note (Distinct.modify hd fun _ _ => ?_) _
      rfl
  | add pair => exact hd.add pair
  | write id f hf => exact hd.modify fun c hc => (hf c hc).id
  | redraw id f hf =>
    exact hd.modify (f := fun c => { f c with transaction := s.drawn, attempts := 0 })
      (fun c hc => (hf c hc).id) |>.of_subset (fun _ h => h) (Nat.le_succ _)
  | consent => exact hd.of_subset (fun _ h => h) (Nat.le_succ _)
  | remember _ => exact hd.modify fun _ _ => rfl
  | follow now _ _ _ _ _ _ =>
    exact select_distinct hd _ now none
  | _ => exact hd.of_subset (fun _ h => h) le_rfl

theorem Works.distinct (h : Works s s') (hd : s.Distinct) : s'.Distinct :=
  h.keeps (fun _ _ hd h => h.distinct hd) hd

/-! ## What the functions are made of -/

theorem foldl_works {α : Type*} {g : IceAgent → α → IceAgent}
    (keeps : ∀ s s', P s → Works s s' → P s') (body : ∀ s x, P s → Works s (g s x)) :
    ∀ (l : List α) (s : IceAgent), P s → Works s (l.foldl g s)
  | [], s, _ => Works.refl s
  | x :: l, s, hp =>
    (body s x hp).trans (foldl_works keeps body l _ (keeps _ _ hp (body s x hp)))

theorem loop_works {α : Type*} {g : IceAgent → α → IceAgent} (body : ∀ s x, Works s (g s x))
    (l : List α) (s : IceAgent) : Works s (l.foldl g s) :=
  foldl_works (P := fun _ => True) (fun _ _ _ _ => trivial) (fun s x _ => body s x) l s trivial

theorem ensure_works (s : IceAgent) (pair : IceCandidatePair) : Works s (s.ensure pair).1 := by
  rw [ensure]
  cases s.checkFor pair with
  | some c => exact Works.refl s
  | none => exact (Work.add pair).works

theorem sortChecks_works (s : IceAgent) : Works s s.sortChecks := by
  refine Same.works ?_
  constructor <;> simp [sortChecks, Live]

theorem pairOne_works (s : IceAgent) (l : LocalCandidate) (remote : IceCandidate) :
    Works s (s.pairOne l remote) := by
  rw [pairOne]
  split
  · exact ensure_works s _
  · exact Works.refl s

theorem addLocalCandidate_works (s : IceAgent) (l : LocalCandidate) :
    Works s (s.addLocalCandidate l) := by
  rw [addLocalCandidate]
  split
  · exact Works.refl s
  · have hs : Works s { s with locals := s.locals ++ [l] } := by
      refine Same.works ?_
      constructor <;> simp [Live]
    dsimp only
    split
    · refine hs.trans (Works.trans ?_ (sortChecks_works _))
      exact loop_works (fun s remote => pairOne_works s l remote) _ _
    · exact hs

theorem addRemoteCandidate_works (s : IceAgent) (remote : IceCandidate) (numeric : Bool) :
    Works s (s.addRemoteCandidate remote numeric) := by
  rw [addRemoteCandidate]
  split
  · exact Works.refl s
  · have hs : Works s { s with remotes := s.remotes ++ [remote] } := by
      refine Same.works ?_
      constructor <;> simp [Live]
    dsimp only
    split
    · refine hs.trans (Works.trans ?_ (sortChecks_works _))
      exact loop_works (fun s l => pairOne_works s l remote) _ _
    · exact hs

theorem start_works (s : IceAgent) (now : ℚ) : Works s (s.start now) := by
  rw [start]
  split
  · exact Works.refl s
  · next hs =>
    rw [not_not] at hs
    have hb : Works s { s with
        hasRemote := true, state := .checking, startedAt := now, nextCheckAt := now } := by
      refine Same.works ?_
      constructor <;> simp [Live, hs]
    refine hb.trans (Works.trans ?_ (sortChecks_works _))
    refine loop_works (fun s l => ?_) _ _
    exact loop_works (fun s remote => pairOne_works s l remote) _ _

theorem mem_removePair :
    ∀ {pairs : List IceCandidatePair}, p ∈ removePair pairs pair → p ∈ pairs
  | [], h => h
  | q :: rest, h => by
    rw [removePair] at h
    split at h
    · exact List.mem_cons_of_mem q h
    · obtain rfl | h := List.mem_cons.1 h
      · exact List.mem_cons_self
      · exact List.mem_cons_of_mem q (mem_removePair h)

theorem checkFailed_works (s : IceAgent) (id : ℕ) : Works s (s.checkFailed id) := by
  rw [checkFailed]
  cases hc : s.checkAt id with
  | none => exact Works.refl s
  | some c =>
    dsimp only
    split
    · refine (Work.write id (fun c => { c with state := .failed, nominate := false })
        fun _ _ => by constructor <;> simp).works.trans (Same.works ?_)
      exact ⟨rfl, rfl, Iff.rfl, rfl, fun p => mem_removePair, fun _ h => h, rfl, rfl⟩
    · exact (Work.write id _ fun _ _ => by constructor <;> simp).works

theorem refusePair_works (l : IceCandidate) (address : String) (s : IceAgent) (id : ℕ) :
    Works s (refusePair l address s id) := by
  rw [refusePair]
  cases s.checkAt id with
  | none => exact Works.refl s
  | some c =>
    dsimp only
    split_ifs
    · exact Works.refl s
    · exact checkFailed_works s id
    · exact Works.refl s

theorem pollCheck_works (now : ℚ) (s : IceAgent) (id : ℕ) (hl : s.Live) :
    Works s (pollCheck now s id) := by
  rw [pollCheck]
  cases s.checkAt id with
  | none => exact Works.refl s
  | some c =>
    dsimp only
    split_ifs
    · exact checkFailed_works s id
    · exact (Work.transmit id now hl).works
    · exact Works.refl s

theorem pollLate_works (now : ℚ) (s : IceAgent) (active started : Bool) (id : ℕ) (hl : s.Live) :
    Works s (pollLate now (s, active, started) id).1 := by
  rw [pollLate]
  cases hc : s.checkAt id with
  | none => exact Works.refl s
  | some c =>
    dsimp only
    split
    · exact Works.refl s
    · cases c.state with
      | inProgress =>
        dsimp only
        split_ifs
        · exact (Work.write id _ fun _ _ => by constructor <;> simp).works
        · exact (Work.transmit id now hl).works
        · exact Works.refl s
      | waiting | frozen =>
        dsimp only
        split_ifs
        · exact Works.refl s
        · exact (Work.transmit id now hl).works
      | succeeded | failed => exact Works.refl s

theorem pollLateChecks_works (s : IceAgent) (now : ℚ) (hl : s.Live) :
    Works s (s.pollLateChecks now) := by
  have loop : ∀ (ids : List ℕ) (t : IceAgent × Bool × Bool), t.1.Live →
      Works t.1 (ids.foldl (pollLate now) t).1 := by
    intro ids
    induction ids with
    | nil => exact fun t _ => Works.refl t.1
    | cons id ids ih =>
      intro t ht
      have h := pollLate_works now t.1 t.2.1 t.2.2 id ht
      exact h.trans (ih _ (h.live ht))
  refine (loop (s.checks.map (·.id)) (s, false, false) hl).trans (Same.works ?_)
  constructor <;> simp [pollLateChecks, Live]

theorem restart_works (now : ℚ) (hl : s.Live)
    (h : ∀ c, s.checkAt id = some c → Restarts s.controlling c (f c)) :
    Works s ((s.redraw id f).transmit id now) :=
  (Work.redraw id f h).works.trans (Work.transmit id now (s := s.redraw id f) hl).works

theorem nominatePair_works (s : IceAgent) (best : IceCandidatePair) (now : ℚ) (hl : s.Live)
    (hc : s.controlling = true) : Works s (s.nominatePair best now) := by
  have he : Works s ({ s with nominating := true }.ensure best).1 := by
    refine Works.trans (Same.works ?_) (ensure_works { s with nominating := true } best)
    constructor <;> simp [Live]
  have hrole : ({ s with nominating := true }.ensure best).1.controlling = true :=
    (ensure_controlling { s with nominating := true } best).trans hc
  refine he.trans (restart_works now (he.live hl) fun _ _ => ?_)
  constructor <;> simp [hrole]

theorem nominate_works (s : IceAgent) (now : ℚ) (hl : s.Live) (hc : s.controlling = true) :
    Works s (s.nominate now) := by
  rw [nominate]
  cases s.valid with
  | nil => exact Works.refl s
  | cons best rest => exact nominatePair_works s best now hl hc

theorem retry_works (s : IceAgent) (id : ℕ) (now : ℚ) (hl : s.Live) : Works s (s.retry id now) := by
  refine restart_works now hl fun _ _ => ?_
  constructor <;> simp
  exact fun h => .inl h

theorem pollConsent_cases (s : IceAgent) (now jitter : ℚ) (hl : s.Live) :
    Works s (s.pollConsent now jitter) ∨ s.pollConsent now jitter = s.giveUp := by
  rw [pollConsent]
  split
  · split_ifs
    · exact .inr rfl
    · exact .inl (Works.refl s)
    · exact .inl (Work.consent _ now jitter hl).works
  · exact .inl (Works.refl s)

theorem settleIfFinished_cases (s : IceAgent) :
    s.settleIfFinished = s ∨ s.settleIfFinished = s.giveUp := by
  rw [settleIfFinished]
  split_ifs
  · exact .inl rfl
  · exact .inr rfl

/-- The checks of a check's place. -/
def Placed (s : IceAgent) (id : ℕ) (pair : IceCandidatePair) : Prop :=
  ∀ c ∈ s.checks, c.id = id → c.pair.sameAs pair

theorem Placed.modify (h : s.Placed id pair) (i : ℕ)
    (hf : ∀ c, (f c).id = c.id ∧ (f c).pair = c.pair) : (s.modify i f).Placed id pair := by
  intro c' hc' hid
  obtain ⟨c, hc, rfl⟩ := IceAgent.mem_modify hc'
  split_ifs at hid ⊢
  · rw [(hf c).2]
    exact h c hc ((hf c).1.symm.trans hid)
  · exact h c hc hid

theorem ensure_placed (hd : s.Distinct) (pair : IceCandidatePair) :
    (s.ensure pair).1.Placed (s.ensure pair).2 pair := by
  rw [ensure]
  cases hc : s.checkFor pair with
  | some c =>
    intro c' hc' hid
    rw [hd.eq_of_id c' hc' c (List.mem_of_find?_eq_some hc) hid]
    simpa using List.find?_some hc
  | none =>
    intro c' hc' hid
    obtain h | h := List.mem_append.1 hc'
    · exact absurd hid (hd.id_lt c' h).ne
    · rw [List.mem_singleton.1 h]
      exact sameAs_refl pair

theorem transmit_placed (h : s.Placed id pair) (i : ℕ) (now : ℚ) :
    (s.transmit i now).Placed id pair := by
  obtain he | ⟨c, -, he⟩ := transmit_cases s i now <;> rw [he]
  · exact h
  · exact h.modify i fun _ => ⟨rfl, rfl⟩

theorem trigger_spec (s : IceAgent) (id : ℕ) (now : ℚ) (hl : s.Live) :
    Works s (s.trigger id now) ∧ ∀ i pair, s.Placed i pair → (s.trigger id now).Placed i pair := by
  rw [trigger]
  cases hc : s.checkAt id with
  | none => exact ⟨Works.refl s, fun _ _ h => h⟩
  | some c =>
    dsimp only
    split
    · -- a fresh transaction for a failed check, then the mark of a late one, then the check
      set t := if c.state = .failed then s.redraw id (fun c => c) else s with ht
      have h1 : Works s t ∧ ∀ i pair, s.Placed i pair → t.Placed i pair := by
        rw [ht]
        split_ifs with hf
        · refine ⟨(Work.redraw id _ fun d hd => ?_).works, fun i pair h => ?_⟩
          · obtain rfl : c = d := Option.some.inj (hc.symm.trans hd)
            exact ⟨rfl, rfl, by simp [hf], fun h => h, .inl, fun h => h⟩
          · exact Placed.modify (f := fun c => { c with transaction := s.drawn, attempts := 0 })
              h id fun _ => ⟨rfl, rfl⟩
        · exact ⟨Works.refl s, fun _ _ h => h⟩
      set u := if t.state = .connected then
        { t.modify id fun c => { c with late := true } with lateChecks := true } else t with hu
      have h2 : Works t u ∧ ∀ i pair, t.Placed i pair → u.Placed i pair := by
        rw [hu]
        split_ifs
        · refine ⟨Works.trans (Work.write id (fun c => { c with late := true }) fun _ _ => ?_).works
            (Same.works ?_), fun i pair h => ?_⟩
          · exact ⟨rfl, rfl, rfl, fun h => h, fun h => h, fun h => h, fun h => h⟩
          · exact ⟨rfl, rfl, Iff.rfl, rfl, fun _ h => h, fun _ h => h, rfl, rfl⟩
          · exact Placed.modify (f := fun c => { c with late := true }) h id fun _ => ⟨rfl, rfl⟩
        · exact ⟨Works.refl t, fun _ _ h => h⟩
      have h12 := h1.1.trans h2.1
      exact ⟨h12.trans (Work.transmit id now (h12.live hl)).works,
        fun i pair h => transmit_placed (h2.2 i pair (h1.2 i pair h)) id now⟩
    · exact ⟨Works.refl s, fun _ _ h => h⟩

theorem follow_works (hl : s.Live) (hp : s.Placed id pair) (ha : request.addressed)
    (hv : request.verified) (hu : request.useCandidate) :
    Works s (s.follow request id pair now) := by
  set t := s.note (.named request pair) with ht
  have hs : Works s t := (Work.named pair ha hv hu).works
  have hn : Named t.log pair :=
    ⟨request, pair, by simp [ht], sameAs_refl pair, ha, hv, hu⟩
  rw [follow, ← ht]
  split
  · exact hs
  · next hc =>
    cases hf : t.checkAt id with
    | none => exact hs
    | some c =>
      obtain ⟨hm, hid⟩ := checkAt_some hf
      have hplace : c.pair.sameAs pair := hp c hm hid
      dsimp only
      split
      · next hst =>
        exact hs.trans (Work.follow now (hs.live hl) hm hst hplace (by simpa using hc) hn).works
      · refine hs.trans (Work.remember fun d hd => ?_).works
        obtain rfl : c = d := Option.some.inj (hf.symm.trans hd)
        exact ⟨request, pair, by simp [ht], sameAs_symm hplace, ha, hv, hu⟩

theorem pairFrom_works (s : IceAgent) (source : Source) (announced : ℤ) :
    Works s (s.pairFrom source announced).1 := by
  rw [pairFrom]
  cases s.remoteAt source.address source.port with
  | some remote => exact Works.refl s
  | none =>
    refine Same.works ?_
    constructor <;> simp [Live]

/-- An answered check, and the check sent back, are work. -/
theorem respond_works (hd : s.Distinct) (hl : s.Live) (ha : request.addressed)
    (hv : request.verified) : Works s (s.respond request source now) := by
  rw [respond]
  set t := s.reply request source .success
    (if source.ipv4 then some (source.address, source.port) else none) 0
  have ht : Works s t := (Work.reply request source _ hl).works
  have hp := ht.trans (pairFrom_works t source request.priority)
  generalize t.pairFrom source request.priority = u at hp
  obtain ⟨u, none | pair⟩ := u
  · exact hp
  · have he := hp.trans (ensure_works u pair)
    have hplaced := ensure_placed (hp.distinct hd) pair
    dsimp only at he hplaced ⊢
    generalize u.ensure pair = v at he hplaced
    obtain ⟨v, id⟩ := v
    obtain ⟨hw, hkeep⟩ := trigger_spec v id now (he.live hl)
    have hw := he.trans hw
    split
    · next hu => exact hw.trans (follow_works (hw.live hl) (hkeep id pair hplaced) ha hv hu)
    · exact hw

/-- The next check of `poll` is sent, when it is time. -/
theorem paced_works (now : ℚ) (hl : s.Live) :
    Works s (if s.nextCheckAt ≤ now then
      match s.nextWaiting with
      | some next => { s.transmit next.id now with nextCheckAt := now + PACING }
      | none => s
    else s) := by
  split
  · split
    · next next _ =>
      refine (Work.transmit next.id now hl).works.trans (Same.works ?_)
      exact ⟨rfl, rfl, Iff.rfl, rfl, fun _ h => h, fun _ h => h, rfl, rfl⟩
    · exact .refl s
  · exact .refl s

/-- A controlling agent nominates in `poll`. -/
theorem nominated_works (now : ℚ) (hl : s.Live) :
    Works s (if s.controlling ∧ !s.nominating ∧ s.valid ≠ [] then s.nominate now else s) := by
  split
  · next hc => exact nominate_works s now hl hc.1
  · exact .refl s

/-- `poll` works, and may then give up. -/
theorem poll_works (s : IceAgent) (now jitter : ℚ) :
    ∃ t, Works s t ∧ (s.poll now jitter = t ∨ s.poll now jitter = t.giveUp) := by
  rw [poll]
  split
  · next hs =>
    have hl : s.Live := by simp [Live, hs]
    obtain h | h := pollConsent_cases s now jitter hl
    · dsimp only
      split
      · exact ⟨_, h.trans (pollLateChecks_works _ now (h.live hl)), .inl rfl⟩
      · exact ⟨_, h, .inl rfl⟩
    · refine ⟨s, Works.refl s, .inr ?_⟩
      rw [h]
      simp [giveUp]
  · next hs =>
    have hl : s.Live := by simp [Live, hs]
    split
    · exact ⟨s, Works.refl s, .inr rfl⟩
    · set t := (s.checks.map (·.id)).foldl (pollCheck now) s
      have h1 : Works s t :=
        foldl_works (P := Live) (fun _ _ hl h => h.live hl) (pollCheck_works now) _ s hl
      have h2 := h1.trans (paced_works now (h1.live hl))
      exact ⟨_, h2.trans (nominated_works now (h2.live hl)), settleIfFinished_cases _⟩
  · exact ⟨s, Works.refl s, .inl rfl⟩

theorem call_works (s : IceAgent) (a : Call) :
    ∃ t, Works s t ∧ (s.call a = t ∨ s.call a = t.giveUp ∨
      s.call a = { t with state := .closed, checks := [] }.note .ended) := by
  cases a with
  | addLocalCandidate l => exact ⟨_, addLocalCandidate_works s l, .inl rfl⟩
  | addRemoteCandidate remote numeric =>
    exact ⟨_, addRemoteCandidate_works s remote numeric, .inl rfl⟩
  | start now => exact ⟨_, start_works s now, .inl rfl⟩
  | poll now jitter =>
    obtain ⟨t, ht, h⟩ := poll_works s now jitter
    exact ⟨t, ht, h.imp_right .inl⟩
  | refusePairs l address =>
    have h : Works s ((s.checks.map (·.id)).foldl (refusePair l address) s) :=
      loop_works (fun s id => refusePair_works l address s id) _ s
    refine ⟨_, h, ?_⟩
    rw [call, refusePairs]
    split
    · exact (settleIfFinished_cases _).imp_right .inl
    · exact .inl rfl
  | setTimeout timeout =>
    refine ⟨{ s with timeout }, Same.works ?_, .inl rfl⟩
    constructor <;> simp [Live]
  | close =>
    refine ⟨s, Works.refl s, ?_⟩
    rw [call, close]
    split
    · exact .inl rfl
    · exact .inr (.inr rfl)

/-! ## What arrives -/

theorem mem_switchRole (h : c' ∈ s.switchRole.checks) :
    ∃ c ∈ s.checks, c' = { c with pair := c.pair.revalued !s.controlling, nominate := false } := by
  simp only [switchRole, sortChecks, note_checks, List.mem_mergeSort, List.mem_map] at h
  obtain ⟨c, hc, rfl⟩ := h
  exact ⟨c, hc, rfl⟩

theorem switchRole_distinct (hd : s.Distinct) : s.switchRole.Distinct := by
  constructor
  · intro d hdm d' hdm' he
    obtain ⟨c, hc, rfl⟩ := mem_switchRole hdm
    obtain ⟨c', hc', rfl⟩ := mem_switchRole hdm'
    rw [hd.eq_of_id c hc c' hc' he]
  · intro d hdm
    obtain ⟨c, hc, rfl⟩ := mem_switchRole hdm
    exact hd.id_lt c hc

/-- What `prove` leaves. -/
structure Proves (s : IceAgent) (check : IceCheck) (response : Stun) (source : Source)
    (s' : IceAgent) : Prop where
  controlling : s'.controlling = s.controlling
  tiebreaker : s'.tiebreaker = s.tiebreaker
  state : s'.state = s.state
  selectedPair : s'.selectedPair = s.selectedPair
  drawn : s'.drawn = s.drawn
  checks : s'.checks = (s.modify check.id fun c => { c with state := .succeeded }).checks
  log : s'.log = s.log ++ [.answered response source.address source.port]
  valid : ∀ p ∈ s'.valid, p = check.pair ∨ p ∈ s.valid

theorem addValid_cases (s : IceAgent) (pair : IceCandidatePair) :
    s.addValid pair = s ∨ s.addValid pair = { s with valid := sortPairs (s.valid ++ [pair]) } := by
  rw [addValid]
  split
  · exact .inl rfl
  · exact .inr rfl

theorem learn_cases (s : IceAgent) (check : IceCheck) (mapped : Option (String × ℕ)) :
    ∃ learned, s.learn check mapped = { s with learned } := by
  obtain _ | ⟨address, port⟩ := mapped
  · exact ⟨s.learned, rfl⟩
  · rw [learn]
    split
    · exact ⟨s.learned, rfl⟩
    · rw [learnPeerReflexive]
      split
      · exact ⟨_, rfl⟩
      · exact ⟨s.learned, rfl⟩

theorem prove_proves (s : IceAgent) (check : IceCheck) (response : Stun) (source : Source) :
    Proves s check response source (s.prove check response source) := by
  rw [prove]
  set t := (s.modify check.id fun c => { c with state := .succeeded }).note
    (.answered response source.address source.port)
  obtain ⟨learned, hl⟩ := learn_cases t check response.mapped
  rw [hl]
  obtain h | h := addValid_cases { t with learned } check.pair <;> rw [h]
  · exact ⟨rfl, rfl, rfl, rfl, rfl, rfl, rfl, fun p hp => .inr hp⟩
  · refine ⟨rfl, rfl, rfl, rfl, rfl, rfl, rfl, fun p hp => ?_⟩
    rw [sortPairs, List.mem_mergeSort, List.mem_append, List.mem_singleton] at hp
    exact hp.symm

theorem Proves.distinct {response : Stun} (h : Proves s c response source s') (hd : s.Distinct) :
    s'.Distinct := by
  have hm : (s.modify c.id fun c => { c with state := .succeeded }).Distinct :=
    hd.modify fun _ _ => rfl
  refine hm.of_subset (fun d hdm => ?_) h.drawn.ge
  rwa [h.checks] at hdm

/-- Whether an agent acts on a message as the refusal of its role. -/
def Yields (s : IceAgent) (m : Stun) : Prop :=
  s.Live ∧ m.kind = .error ∧ m.verified ∧ m.errorCode = ROLE_CONFLICT ∧ s.hasRemote ∧
    ∃ check, s.checkByTransaction m.transaction = some check ∧
      check.sentAsControlling = s.controlling

/-- What the agent makes of a message. -/
inductive Received (s : IceAgent) (m : Stun) (source : Source) (now : ℚ) : IceAgent → Prop
  | works {r : IceAgent} : Works s r → Received s m source now r
  | ends {r : IceAgent} : Works s r → Received s m source now r.giveUp
  | refuses {t : ℤ} : s.Live → m.kind = .request → m.claim = some (s.controlling, t) →
      (if s.controlling then t ≤ s.tiebreaker else s.tiebreaker < t) →
      Received s m source now (s.reply m source .error none ROLE_CONFLICT)
  | moves {t : ℤ} {r : IceAgent} : m.kind = .request → m.claim = some (s.controlling, t) →
      (if s.controlling then s.tiebreaker < t else t ≤ s.tiebreaker) →
      Works s.switchRole r → Received s m source now r
  | yields {r : IceAgent} : s.Yields m → Works s.switchRole r → Received s m source now r
  | accepts {check : IceCheck} : s.Live → m.kind = .success → m.verified → s.hasRemote →
      s.checkByTransaction m.transaction = some check → check.state = .inProgress →
      Received s m source now ((s.prove check m source).acceptEnd check m now)

theorem resolveRoleConflict_cases (s : IceAgent) (claim : Option (Bool × ℤ)) :
    s.resolveRoleConflict claim = (s, false) ∨ ∃ t, claim = some (s.controlling, t) ∧
      ((if s.controlling then t ≤ s.tiebreaker else s.tiebreaker < t) ∧
          s.resolveRoleConflict claim = (s, true) ∨
        (if s.controlling then s.tiebreaker < t else t ≤ s.tiebreaker) ∧
          s.resolveRoleConflict claim = (s.switchRole, false)) := by
  obtain _ | ⟨c, t⟩ := claim
  · exact .inl rfl
  · rw [resolveRoleConflict]
    split
    · exact .inl rfl
    · next hc =>
      rw [not_not] at hc
      subst hc
      refine .inr ⟨t, rfl, ?_⟩
      cases hs : s.controlling <;> by_cases ht : t ≤ s.tiebreaker <;> simp [ht] <;> omega

theorem answer_received (hd : s.Distinct) (hl : s.Live) (hk : m.kind = .request) :
    Received s m source now (s.answer m source now) := by
  rw [answer]
  split
  · exact .works (Works.refl s)
  · next hav =>
    obtain ⟨ha, hv⟩ : m.addressed = true ∧ m.verified = true := by simpa using hav
    split
    · exact .works (Works.refl s)
    · obtain h | ⟨t, ht, ⟨hw, h⟩ | ⟨hw, h⟩⟩ := resolveRoleConflict_cases s m.claim <;> rw [h]
      · exact .works (respond_works hd hl ha hv)
      · exact .refuses hl hk ht hw
      · exact .moves hk ht hw (respond_works (switchRole_distinct hd) hl ha hv)

theorem refused_received (hl : s.Live) (hk : m.kind = .error) :
    Received s m source now (s.refused m now) := by
  rw [refused]
  split
  · next check hr hc =>
    split
    · exact .works (Works.refl s)
    · next hv =>
      split
      · obtain h | h := settleIfFinished_cases (s.checkFailed check.id) <;> rw [h]
        · exact .works (checkFailed_works s check.id)
        · exact .ends (checkFailed_works s check.id)
      · next hcode =>
        split
        · next hrole =>
          refine .yields ⟨hl, hk, by simpa using hv, by simpa using hcode, hr, check, hc, hrole⟩ ?_
          exact retry_works s.switchRole check.id now hl
        · exact .works (retry_works s check.id now hl)
  · exact .works (Works.refl s)

theorem accept_received (hl : s.Live) (hk : m.kind = .success) :
    Received s m source now (s.accept m source now) := by
  rw [accept]
  split
  · next check hr hc =>
    split
    · exact .works (Works.refl s)
    · next hok =>
      rw [not_or, not_not] at hok
      exact .accepts hl hk (by simpa using hok.2) hr hc hok.1
  · exact .works (Works.refl s)

theorem acceptConsent_cases (s : IceAgent) (m : Stun) (now : ℚ) :
    s.acceptConsent m now = (s, false) ∨ ∃ t, Same s t ∧ s.acceptConsent m now = (t, true) := by
  rw [acceptConsent]
  split
  · refine .inr ⟨_, ?_, rfl⟩
    exact ⟨rfl, rfl, Iff.rfl, rfl, fun _ h => h, fun _ h => h, rfl, rfl⟩
  · exact .inl rfl

section

variable (hd : s.Distinct)

include hd

/-- Whatever arrives, the agent does one of these things. -/
theorem receive_received (m : Stun) (source : Source) (now : ℚ) :
    Received s m source now (s.receive m source now) := by
  rw [receive]
  split
  · exact .works (Works.refl s)
  · next hdead =>
    have hl : s.Live := ⟨fun h => hdead (.inr h), fun h => hdead (.inl h)⟩
    cases hk : m.kind with
    | request => exact answer_received hd hl hk
    | success =>
      obtain h | ⟨t, ht, h⟩ := acceptConsent_cases s m now <;>
        simp only [h]
      · exact accept_received hl hk
      · exact .works ht.works
    | error => exact refused_received hl hk

theorem settleIfFinished_distinct : s.settleIfFinished.Distinct := by
  obtain h | h := settleIfFinished_cases s <;> rw [h]
  · exact hd
  · exact hd.of_subset (fun _ h => h) le_rfl

theorem acceptEnd_distinct (check : IceCheck) (response : Stun) (now : ℚ) :
    (s.acceptEnd check response now).Distinct := by
  refine settleIfFinished_distinct ?_
  split
  · exact select_distinct hd _ _ _
  · exact hd

theorem receive_distinct (m : Stun) (source : Source) (now : ℚ) :
    (s.receive m source now).Distinct := by
  generalize hr : s.receive m source now = r
  have h := hr ▸ receive_received hd m source now
  cases h with
  | works h => exact h.distinct hd
  | ends h => exact (h.distinct hd).of_subset (fun _ h => h) le_rfl
  | refuses _ _ _ _ => exact hd.of_subset (fun _ h => h) le_rfl
  | moves _ _ _ h => exact h.distinct (switchRole_distinct hd)
  | yields _ h => exact h.distinct (switchRole_distinct hd)
  | accepts _ _ _ _ _ _ => exact acceptEnd_distinct ((prove_proves s _ m source).distinct hd) _ _ _

theorem call_distinct (a : Call) : (s.call a).Distinct := by
  obtain ⟨t, ht, h | h | h⟩ := call_works s a <;> rw [h]
  · exact ht.distinct hd
  · exact (ht.distinct hd).of_subset (fun _ h => h) le_rfl
  · exact .of_nil rfl

end

end IceAgent

end Ice

end CrossByte
