import CrossByte.Lib.Runs
import CrossByte.Net.Ice.IceAgentWork

/-!
# What is selected was proved

A pair is worth sending on only when a check over it came back.  The log of an agent
says what came back and from where, and the development here reads it: a pair is
`Proven` by a log in which a check was sent over it and a verified answer to that
check arrived from the place the check was sent to.

`History` says of every event of a log what it may stand after: nothing is sent or
selected after the end; what is selected is proven by then; a controlling agent
selects on the answer to a check that claimed its role and carried USE-CANDIDATE each
time it was sent; a controlled one selects what the peer named.

Two things in the code are in the way.  `__accept` is told where an answer came from
and does not look, so that an answer from elsewhere proves the pair.  `__switchRole`
takes back the nominations of the agent and not those of the peer, so that an agent
that became controlling still selects what it was told to before, on the answer to an
ordinary check.  With both excluded from a run, every state of it is `Secure`.

## Main results

* `secure_of_answers`: every state of a run is secure, if every answer taken in it came
  from the place its check was sent to, and not to a controlling agent for a pair that
  only the peer nominated.
* `not_secure`: neither condition can be left out.
-/

namespace CrossByte

namespace Ice

open IceAgent

variable {s s' : IceAgent} {id : ℕ} {c d : IceCheck} {f : IceCheck → IceCheck}
  {pair : IceCandidatePair} {now : ℚ} {log log' : List Event} {e : Event}

/-! ## Reading a log -/

/-- A check was sent over a pair, under a transaction. -/
def Asked (log : List Event) (transaction : ℕ) (p : IceCandidatePair) : Prop :=
  ∃ m l about, Event.sent m (some l) p.remote.address p.remote.port about ∈ log ∧
    l.sameAs p.local_ ∧ m.kind = .request ∧ m.transaction = transaction

/-- A verified answer to a transaction arrived from the pair's far end. -/
def Answered (log : List Event) (transaction : ℕ) (p : IceCandidatePair) : Prop :=
  ∃ r, Event.answered r p.remote.address p.remote.port ∈ log ∧ r.kind = .success ∧ r.verified ∧
    r.transaction = transaction

/-- A check over the pair came back. -/
def Proven (log : List Event) (p : IceCandidatePair) : Prop :=
  ∃ transaction, Asked log transaction p ∧ Answered log transaction p

/-- Every time a transaction was sent, it claimed the controlling role and carried
USE-CANDIDATE. -/
def Nominates (log : List Event) (transaction : ℕ) : Prop :=
  ∀ m via address port about, Event.sent m via address port about ∈ log → m.kind = .request →
    m.transaction = transaction → m.useCandidate ∧ ∃ t, m.claim = some (true, t)

/-- What lets a pair be selected in a role. -/
def Chosen (log : List Event) (p : IceCandidatePair) : Bool → Option ℕ → Prop
  | true, some transaction =>
    Asked log transaction p ∧ Answered log transaction p ∧ Nominates log transaction
  | true, none => False
  | false, _ => Named log p

/-- What an event may stand after. -/
def Fits (log : List Event) : Event → Prop
  | .sent .. => Event.ended ∉ log
  | .selected p controlling transaction =>
    Event.ended ∉ log ∧ Proven log p ∧ Chosen log p controlling transaction
  | _ => True

/-- Every event stands where it may. -/
def History (log : List Event) : Prop := ∀ pre e post, log = pre ++ e :: post → Fits pre e

theorem History.concat (h : History log) (he : Fits log e) : History (log ++ [e]) := by
  intro pre d post heq
  rcases Runs.split_concat heq with ⟨rfl, rfl, -⟩ | ⟨post', -, hlog⟩
  · exact he
  · exact h pre d post' hlog

variable {t : ℕ} {m : Stun} {source : Source}

theorem Asked.mono (h : Asked log t pair) (hl : log ⊆ log') : Asked log' t pair := by
  obtain ⟨m, l, about, hm, h⟩ := h
  exact ⟨m, l, about, hl hm, h⟩

theorem Answered.mono (h : Answered log t pair) (hl : log ⊆ log') : Answered log' t pair := by
  obtain ⟨r, hr, h⟩ := h
  exact ⟨r, hl hr, h⟩

theorem Proven.mono (h : Proven log pair) (hl : log ⊆ log') : Proven log' pair := by
  obtain ⟨t, ha, hr⟩ := h
  exact ⟨t, ha.mono hl, hr.mono hl⟩

theorem named_mono (h : Named log pair) (hl : log ⊆ log') : Named log' pair := by
  obtain ⟨request, q, hm, h⟩ := h
  exact ⟨request, q, hl hm, h⟩

theorem Proven.of_sameAs {q : IceCandidatePair} (h : Proven log pair) (hs : pair.sameAs q) :
    Proven log q := by
  obtain ⟨t, ⟨m, l, about, hm, hl, hk⟩, r, hr, hrest⟩ := h
  simp only [IceCandidatePair.sameAs, Bool.and_eq_true, IceCandidate.sameAs_iff] at hs
  obtain ⟨hlocal, ha, hp, -⟩ := hs
  rw [IceCandidate.sameAs_iff] at hl
  rw [ha, hp] at hm hr
  refine ⟨t, ⟨m, l, about, hm, IceCandidate.sameAs_iff.2 ?_, hk⟩, r, hr, hrest⟩
  exact ⟨hl.1.trans hlocal.1, hl.2.1.trans hlocal.2.1, hl.2.2.trans hlocal.2.2⟩

/-! ## What an agent remembers is in its log -/

/-- What a check's marks say, the log of the agent says. -/
structure Backed (s : IceAgent) (c : IceCheck) : Prop where
  drawn : c.transaction < s.drawn
  asked : c.state = .inProgress → Asked s.log c.transaction c.pair
  nominates : c.nominate → s.controlling ∧ Nominates s.log c.transaction
  named : c.nominatedByPeer → Named s.log c.pair
  proven : c.state = .succeeded → Proven s.log c.pair

/-- What an agent remembers is in its log, and the log is as it may be. -/
structure Sound (s : IceAgent) : Prop where
  distinct : s.Distinct
  transactions : ∀ c ∈ s.checks, ∀ d ∈ s.checks, c.transaction = d.transaction → c.id = d.id
  backed : ∀ c ∈ s.checks, Backed s c
  sent : ∀ m via address port about, Event.sent m via address port about ∈ s.log →
    m.kind = .request → m.transaction < s.drawn
  valid : ∀ p ∈ s.valid, Proven s.log p
  selected : ∀ p, s.selectedPair = some p → Proven s.log p
  ended : Event.ended ∈ s.log → ¬ s.Live
  history : History s.log

/-- A pair that was dropped or proven, and a change that does not show in the log. -/
theorem Sound.congr (h : Sound s) (hc : s'.controlling = s.controlling)
    (hlive : s'.Live → s.Live) (hs : ∀ p, s'.selectedPair = some p → Proven s.log p)
    (hv : ∀ p ∈ s'.valid, Proven s.log p) (hch : ∀ c ∈ s'.checks, c ∈ s.checks)
    (hd : s.drawn ≤ s'.drawn) (hl : s'.log = s.log) : Sound s' where
  distinct := h.distinct.of_subset hch hd
  transactions c hm d hm' := h.transactions c (hch c hm) d (hch d hm')
  backed c hm := by
    have hb := h.backed c (hch c hm)
    refine ⟨hb.drawn.trans_le hd, ?_, ?_, ?_, ?_⟩ <;> simp only [hl, hc]
    exacts [hb.asked, hb.nominates, hb.named, hb.proven]
  sent m via address port about hm hk := by
    rw [hl] at hm
    exact (h.sent m via address port about hm hk).trans_le hd
  valid p hp := by
    rw [hl]
    exact hv p hp
  selected p hp := by
    rw [hl]
    exact hs p hp
  ended he hlive' := by
    rw [hl] at he
    exact h.ended he (hlive hlive')
  history := by
    rw [hl]
    exact h.history

theorem Sound.same (h : Sound s) (hs : Same s s') : Sound s' :=
  h.congr hs.controlling hs.live.1 (fun p hp => h.selected p (hs.selectedPair ▸ hp))
    (fun p hp => h.valid p (hs.valid p hp)) hs.checks hs.drawn.ge hs.log

/-- An event is logged where it may stand; a request is one that no nomination is spoiled by. -/
theorem Sound.note (h : Sound s) (hfit : Fits s.log e) (hend : e = .ended → ¬ s.Live)
    (hreq : ∀ m via address port about, e = .sent m via address port about → m.kind = .request →
      m.transaction < s.drawn ∧ ∀ d ∈ s.checks, d.transaction = m.transaction → d.nominate →
        m.useCandidate ∧ ∃ t, m.claim = some (true, t)) : Sound (s.note e) := by
  have hsub : s.log ⊆ (s.note e).log := List.subset_append_left s.log [e]
  refine ⟨h.distinct.note e, h.transactions, fun c hm => ?_, ?_, fun p hp => (h.valid p hp).mono hsub,
    fun p hp => (h.selected p hp).mono hsub, fun he => ?_, h.history.concat hfit⟩
  · have hb := h.backed c hm
    refine ⟨hb.drawn, fun hs => (hb.asked hs).mono hsub, fun hn => ⟨(hb.nominates hn).1, ?_⟩,
      fun hn => named_mono (hb.named hn) hsub, fun hs => (hb.proven hs).mono hsub⟩
    intro m via address port about hmem hk ht
    obtain hmem | hmem := List.mem_append.1 hmem
    · exact (hb.nominates hn).2 m via address port about hmem hk ht
    · exact (hreq m via address port about (List.mem_singleton.1 hmem).symm hk).2 c hm ht.symm hn
  · intro m via address port about hmem hk
    obtain hmem | hmem := List.mem_append.1 hmem
    · exact h.sent m via address port about hmem hk
    · exact (hreq m via address port about (List.mem_singleton.1 hmem).symm hk).1
  · obtain he | he := List.mem_append.1 he
    · exact h.ended he
    · exact hend (List.mem_singleton.1 he).symm

/-- Whether an event is the sending of a request. -/
def Event.isRequest : Event → Bool
  | .sent m _ _ _ _ => m.kind = .request
  | _ => false

theorem Sound.note_other (h : Sound s) (hfit : Fits s.log e) (hend : e = .ended → ¬ s.Live)
    (hreq : e.isRequest = false) : Sound (s.note e) := by
  refine h.note hfit hend fun m via address port about he hk => ?_
  rw [he, Event.isRequest, hk] at hreq
  simp at hreq

theorem Backed.modify (h : Backed s c) (id : ℕ) (f : IceCheck → IceCheck) :
    Backed (s.modify id f) c :=
  ⟨h.drawn, h.asked, h.nominates, h.named, h.proven⟩

/-- A check is written, under its transaction or one that no other has. -/
theorem Sound.modify (h : Sound s) (id : ℕ) (f : IceCheck → IceCheck)
    (hf : ∀ c, s.checkAt id = some c → (f c).id = c.id ∧ Backed s (f c) ∧
      ∀ d ∈ s.checks, d.transaction = (f c).transaction → d.id = c.id) : Sound (s.modify id f) := by
  refine ⟨h.distinct.modify fun c hc => (hf c hc).1, ?_, ?_, h.sent, h.valid, h.selected, h.ended,
    h.history⟩
  · intro a ha b hb ht
    obtain ⟨c, hc, hm, hid, rfl⟩ | ⟨ha, hna⟩ := h.distinct.mem_modify ha <;>
    obtain ⟨d, hd, hm', hid', rfl⟩ | ⟨hb, hnb⟩ := h.distinct.mem_modify hb
    · rw [(hf c hc).1, (hf d hd).1, hid, hid']
    · exact absurd (((hf c hc).2.2 b hb ht.symm).trans hid) hnb
    · exact absurd (((hf d hd).2.2 a ha ht).trans hid') hna
    · exact h.transactions a ha b hb ht
  · intro a ha
    obtain ⟨c, hc, -, -, rfl⟩ | ⟨ha, -⟩ := h.distinct.mem_modify ha
    · exact (hf c hc).2.1.modify id f
    · exact (h.backed a ha).modify id f

theorem Sound.not_ended (h : Sound s) (hl : s.Live) : Event.ended ∉ s.log :=
  fun he => h.ended he hl

/-! ## Work -/

section

variable (h : Sound s)

include h

theorem Sound.transmit (hl : s.Live) (id : ℕ) (now : ℚ) : Sound (s.transmit id now) := by
  obtain he | ⟨c, hc, he⟩ := transmit_cases s id now <;> rw [he]
  · exact h
  · obtain ⟨hm, hid⟩ := checkAt_some hc
    have hb := h.backed c hm
    -- the request is in the log before the check is marked as asked
    have hn : Sound (s.note (.sent
        (s.bindingRequest c.transaction c.pair.local_.component c.nominate)
        (some c.pair.local_) c.pair.remote.address c.pair.remote.port none)) := by
      refine h.note (h.not_ended hl) (by simp) ?_
      rintro m via address port about heq -
      obtain ⟨rfl, -⟩ := Event.sent.inj heq
      refine ⟨hb.drawn, fun d hd ht hnom => ?_⟩
      obtain rfl := h.distinct.eq_of_id d hd c hm (h.transactions d hd c hm ht)
      exact ⟨hnom, s.tiebreaker, by rw [bindingRequest, (hb.nominates hnom).1]⟩
    have hb' := hn.backed c hm
    refine hn.modify id _ fun d hd => ?_
    obtain rfl : c = d := Option.some.inj (hc.symm.trans hd)
    refine ⟨rfl, ⟨hb.drawn, fun _ => ?_, hb'.nominates, hb'.named, nofun⟩,
      fun d hd ht => h.transactions d hd c hm ht⟩
    exact ⟨_, _, _, List.mem_append_right _ (List.mem_singleton.2 rfl),
      IceCandidate.sameAs_iff.2 ⟨rfl, rfl, rfl⟩, rfl, rfl⟩

theorem Sound.add (pair : IceCandidatePair) : Sound (s.add pair) := by
  have hlt : ∀ c ∈ s.checks, c.transaction < s.drawn := fun c hc => (h.backed c hc).drawn
  refine ⟨h.distinct.add pair, ?_, ?_, ?_, h.valid, h.selected, h.ended, h.history⟩
  · intro a ha b hb ht
    obtain ha | ha := List.mem_append.1 ha <;> obtain hb | hb := List.mem_append.1 hb
    · exact h.transactions a ha b hb ht
    · rw [List.mem_singleton.1 hb] at ht
      exact absurd ht (hlt a ha).ne
    · rw [List.mem_singleton.1 ha] at ht
      exact absurd ht.symm (hlt b hb).ne
    · rw [List.mem_singleton.1 ha, List.mem_singleton.1 hb]
  · intro a ha
    obtain ha | ha := List.mem_append.1 ha
    · have hb := h.backed a ha
      exact ⟨hb.drawn.trans (Nat.lt_succ_self _), hb.asked, hb.nominates, hb.named, hb.proven⟩
    · rw [List.mem_singleton.1 ha]
      exact ⟨Nat.lt_succ_self _, nofun, nofun, nofun, nofun⟩
  · intro m via address port about hm hk
    exact (h.sent m via address port about hm hk).trans (Nat.lt_succ_self _)

theorem Sound.write (hf : ∀ c, s.checkAt id = some c → Lowers c (f c)) : Sound (s.modify id f) := by
  refine h.modify id f fun c hc => ?_
  have hlow := hf c hc
  have hm := (checkAt_some hc).1
  have hb := h.backed c hm
  refine ⟨hlow.id, ⟨?_, fun hs => ?_, fun hn => ?_, fun hn => ?_, fun hs => ?_⟩, fun d hd ht => ?_⟩
  · rw [hlow.transaction]
    exact hb.drawn
  · rw [hlow.transaction, hlow.pair]
    exact hb.asked (hlow.inProgress hs)
  · rw [hlow.transaction]
    exact hb.nominates (hlow.nominate hn)
  · rw [hlow.pair]
    exact hb.named (hlow.nominatedByPeer hn)
  · rw [hlow.pair]
    exact hb.proven (hlow.succeeded hs)
  · exact h.transactions d hd c hm (ht.trans hlow.transaction)

theorem Sound.draw : Sound { s with drawn := s.drawn + 1 } :=
  h.congr rfl id h.selected h.valid (fun _ h => h) (Nat.le_succ _) rfl

theorem Sound.redraw (hf : ∀ c, s.checkAt id = some c → Restarts s.controlling c (f c)) :
    Sound (s.redraw id f) := by
  refine h.draw.modify id (fun c => { f c with transaction := s.drawn, attempts := 0 })
    fun c hc => ?_
  have hre := hf c hc
  have hm := (checkAt_some hc).1
  have hb := h.backed c hm
  refine ⟨hre.id, ⟨Nat.lt_succ_self _, fun hs => absurd hs hre.inProgress, fun hn => ⟨?_, ?_⟩,
    fun hn => ?_, fun hs => ?_⟩, fun d hd ht => ?_⟩
  · obtain hn | hn := hre.nominate hn
    · exact (hb.nominates hn).1
    · exact hn
  · -- the transaction is new, so it was never sent
    intro m via address port about hmem hk ht
    exact absurd ht (h.sent m via address port about hmem hk).ne
  · have hp : (f c).pair = c.pair := hre.pair
    exact hp ▸ hb.named (hre.nominatedByPeer hn)
  · have hp : (f c).pair = c.pair := hre.pair
    exact hp ▸ hb.proven (hre.succeeded hs)
  · exact absurd ht (h.backed d hd).drawn.ne

theorem Sound.consent (hl : s.Live) (pair : IceCandidatePair) (now jitter : ℚ) :
    Sound (s.sendConsent pair now jitter) := by
  have hd : Sound { s with
      consentTransaction := some s.drawn
      drawn := s.drawn + 1
      consentDueAt := now + CONSENT_INTERVAL * (8 / 10 + 4 / 10 * jitter) } :=
    h.congr rfl id h.selected h.valid (fun _ h => h) (Nat.le_succ _) rfl
  refine hd.note (h.not_ended hl) (by simp) ?_
  rintro m via address port about heq -
  obtain ⟨rfl, -⟩ := Event.sent.inj heq
  exact ⟨Nat.lt_succ_self _, fun d hd ht => absurd ht (h.backed d hd).drawn.ne⟩

/-- A pair is selected that the log proves and lets be chosen. -/
theorem Sound.select {t : Option ℕ} (hp : Proven s.log pair)
    (hc : Chosen s.log pair s.controlling t) : Sound (s.select pair now t) := by
  obtain he | ⟨hl, u, hu, he⟩ := select_cases s pair now t <;> rw [he]
  · exact h
  · have hsel : Sound { u with selectedPair := some pair } := by
      refine (h.same hu).congr rfl id (fun p hq => ?_) (h.same hu).valid (fun _ h => h) le_rfl rfl
      obtain rfl : pair = p := Option.some.inj hq
      rw [hu.log]
      exact hp
    refine hsel.note_other ?_ (by simp) rfl
    rw [hu.log]
    exact ⟨h.not_ended hl, hp, hc⟩

theorem Sound.work (hw : Work s s') : Sound s' := by
  cases hw with
  | same hs => exact h.same hs
  | transmit id now hl => exact h.transmit hl id now
  | add pair => exact h.add pair
  | write id f hf => exact h.write hf
  | redraw id f hf => exact h.redraw hf
  | reply request source mapped hl =>
    exact h.note_other (h.not_ended hl) (by simp) rfl
  | consent pair now jitter hl => exact h.consent hl pair now jitter
  | named pair _ _ _ => exact h.note_other trivial (by simp) rfl
  | @remember id hn =>
    refine h.modify id _ fun c hc => ?_
    have hm := (checkAt_some hc).1
    have hb := h.backed c hm
    exact ⟨rfl, ⟨hb.drawn, hb.asked, hb.nominates, fun _ => hn c hc, hb.proven⟩,
      fun d hd ht => h.transactions d hd c hm ht⟩
  | follow now hl hm hst hs hrole hn =>
    refine h.select (((h.backed _ hm).proven hst).of_sameAs hs) ?_
    rw [hrole]
    exact hn

theorem Sound.works (hw : Works s s') : Sound s' :=
  hw.keeps (fun _ _ h hw => h.work hw) h

end

/-! ## The end, the role, and the answers -/

theorem Sound.dies (h : Sound s) (hst : s'.state = .failed ∨ s'.state = .closed)
    (hc : s'.controlling = s.controlling) (hsel : s'.selectedPair = s.selectedPair)
    (hv : s'.valid = s.valid) (hch : ∀ c ∈ s'.checks, c ∈ s.checks) (hd : s'.drawn = s.drawn)
    (hl : s'.log = s.log) : Sound (s'.note .ended) := by
  have hdead : ¬ s'.Live := fun hlive => hst.elim hlive.1 hlive.2
  have h' : Sound s' := h.congr hc (fun hlive => absurd hlive hdead)
    (fun p hp => h.selected p (hsel ▸ hp)) (fun p hp => h.valid p (hv ▸ hp)) hch hd.ge hl
  exact h'.note_other trivial (fun _ => hdead) rfl

theorem Sound.giveUp (h : Sound s) : Sound s.giveUp :=
  h.dies (.inl rfl) rfl rfl rfl (fun _ h => h) rfl rfl

theorem Sound.settleIfFinished (h : Sound s) : Sound s.settleIfFinished := by
  obtain he | he := settleIfFinished_cases s <;> rw [he]
  · exact h
  · exact h.giveUp

theorem Sound.call (h : Sound s) (a : Call) : Sound (s.call a) := by
  obtain ⟨t, ht, he | he | he⟩ := call_works s a <;> rw [he]
  · exact h.works ht
  · exact (h.works ht).giveUp
  · exact (h.works ht).dies (.inr rfl) rfl rfl rfl (fun _ h => absurd h List.not_mem_nil) rfl rfl

theorem Sound.switchRole (h : Sound s) : Sound s.switchRole := by
  have hsub : s.log ⊆ s.switchRole.log := List.subset_append_left _ _
  refine ⟨switchRole_distinct h.distinct, ?_, ?_, ?_, ?_, ?_, ?_, h.history.concat trivial⟩
  · intro a ha b hb ht
    obtain ⟨c, hc, rfl⟩ := mem_switchRole ha
    obtain ⟨d, hd, rfl⟩ := mem_switchRole hb
    exact h.transactions c hc d hd ht
  · intro a ha
    obtain ⟨c, hc, rfl⟩ := mem_switchRole ha
    have hb := h.backed c hc
    exact ⟨hb.drawn, fun hs => (hb.asked hs).mono hsub, nofun,
      fun hn => named_mono (hb.named hn) hsub, fun hs => (hb.proven hs).mono hsub⟩
  · intro m via address port about hmem hk
    obtain hmem | hmem := List.mem_append.1 hmem
    · exact h.sent m via address port about hmem hk
    · cases List.mem_singleton.1 hmem
  · intro p hp
    have hp' : p ∈ sortPairs (s.valid.map fun p => p.revalued !s.controlling) := hp
    rw [sortPairs, List.mem_mergeSort, List.mem_map] at hp'
    obtain ⟨q, hq, rfl⟩ := hp'
    exact (h.valid q hq).mono hsub
  · intro p hp
    obtain ⟨q, hq, rfl⟩ := Option.map_eq_some_iff.1 hp
    exact (h.selected q hq).mono hsub
  · intro he
    obtain he | he := List.mem_append.1 he
    · exact h.ended he
    · cases List.mem_singleton.1 he

theorem checkByTransaction_some (h : s.checkByTransaction t = some c) :
    c ∈ s.checks ∧ c.transaction = t :=
  ⟨List.mem_of_find?_eq_some h, by simpa using List.find?_some h⟩

/-- An answer from where the check was sent proves its pair. -/
theorem Sound.prove (h : Sound s) (hk : m.kind = .success) (hv : m.verified)
    (hc : s.checkByTransaction m.transaction = some c) (hst : c.state = .inProgress)
    (ha : source.address = c.pair.remote.address) (hp : source.port = c.pair.remote.port) :
    Sound (s.prove c m source) ∧ Asked (s.prove c m source).log m.transaction c.pair ∧
      Answered (s.prove c m source).log m.transaction c.pair := by
  obtain ⟨hm, ht⟩ := checkByTransaction_some hc
  have hpr := prove_proves s c m source
  have hn : Sound (s.note (.answered m source.address source.port)) :=
    h.note_other trivial (by simp) rfl
  have hsub : s.log ⊆ s.log ++ [.answered m source.address source.port] :=
    List.subset_append_left _ _
  have hasked : Asked (s.log ++ [.answered m source.address source.port]) m.transaction c.pair := by
    rw [← ht]
    exact ((h.backed c hm).asked hst).mono hsub
  have hanswered :
      Answered (s.log ++ [.answered m source.address source.port]) m.transaction c.pair :=
    ⟨m, by simp [ha, hp], hk, hv, rfl⟩
  have hproven : Proven (s.log ++ [.answered m source.address source.port]) c.pair :=
    ⟨m.transaction, hasked, hanswered⟩
  have hmod : Sound ((s.note (.answered m source.address source.port)).modify c.id
      fun c => { c with state := .succeeded }) := by
    refine hn.modify c.id _ fun d hd => ?_
    obtain ⟨hdm, hid⟩ := checkAt_some hd
    obtain rfl := h.distinct.eq_of_id d hdm c hm hid
    have hb := hn.backed d hdm
    exact ⟨rfl, ⟨hb.drawn, nofun, hb.nominates, hb.named, fun _ => hproven⟩,
      fun e he ht => h.transactions e he d hdm ht⟩
  rw [hpr.log]
  refine ⟨hmod.congr hpr.controlling ?_ (fun p hq => ?_) (fun p hq => ?_) ?_ hpr.drawn.ge hpr.log,
    hasked, hanswered⟩
  · intro hl
    rwa [Live, hpr.state] at hl
  · rw [hpr.selectedPair] at hq
    exact hn.selected p hq
  · obtain rfl | hq := hpr.valid p hq
    · exact hproven
    · exact hn.valid p hq
  · intro d hd
    rwa [hpr.checks] at hd

/-- What an answer that is taken must be: from where the check was sent and, to a controlling
agent, not for a pair that only the peer nominated. -/
def Answers (s : IceAgent) (m : Stun) (source : Source) : Prop :=
  ∀ check, m.kind = .success → m.verified → s.checkByTransaction m.transaction = some check →
    check.state = .inProgress →
      source.address = check.pair.remote.address ∧ source.port = check.pair.remote.port ∧
        (s.controlling → check.nominatedByPeer → check.nominate)

theorem Sound.accepts (h : Sound s) (hk : m.kind = .success) (hv : m.verified)
    (hc : s.checkByTransaction m.transaction = some c) (hst : c.state = .inProgress)
    (hok : Answers s m source) : Sound ((s.prove c m source).acceptEnd c m now) := by
  obtain ⟨ha, hp, hrole⟩ := hok c hk hv hc hst
  obtain ⟨hs, hasked, hanswered⟩ := h.prove hk hv hc hst ha hp
  obtain ⟨hm, ht⟩ := checkByTransaction_some hc
  have hb := h.backed c hm
  have hpr := prove_proves s c m source
  refine Sound.settleIfFinished ?_
  split
  · next hnom =>
    refine hs.select ⟨m.transaction, hasked, hanswered⟩ ?_
    rw [hpr.controlling]
    cases hctl : s.controlling with
    | true =>
      have hn : c.nominate = true := by
        cases hcn : c.nominate with
        | true => rfl
        | false =>
          rw [hcn] at hnom
          exact absurd (hrole hctl hnom) (by simp [hcn])
      refine ⟨hasked, hanswered, ?_⟩
      rw [hpr.log]
      intro n via address port about hmem hk' hn'
      obtain hmem | hmem := List.mem_append.1 hmem
      · exact (hb.nominates hn).2 n via address port about hmem hk' (hn'.trans ht.symm)
      · cases List.mem_singleton.1 hmem
    | false =>
      have hn : c.nominatedByPeer = true := by
        cases hcn : c.nominate with
        | true => exact absurd (hb.nominates hcn).1 (by simp [hctl])
        | false => simpa [hcn] using hnom
      have hnamed := hb.named hn
      rw [hpr.log]
      exact named_mono hnamed (List.subset_append_left _ _)
  · exact hs

theorem Sound.receive (h : Sound s) (now : ℚ) (hok : Answers s m source) :
    Sound (s.receive m source now) := by
  have hr := receive_received h.distinct m source now
  generalize s.receive m source now = r at hr
  cases hr with
  | works hw => exact h.works hw
  | ends hw => exact (h.works hw).giveUp
  | refuses hl _ _ _ =>
    exact h.note_other (h.not_ended hl) (by simp) rfl
  | moves _ _ _ hw => exact h.switchRole.works hw
  | yields _ hw => exact h.switchRole.works hw
  | accepts _ hk hv _ hc hst => exact h.accepts hk hv hc hst hok

/-! ## Runs -/

/-- What happens to an agent: a call, or something that arrives. -/
inductive Act
  | call (a : Call)
  | receive (m : Stun) (source : Source) (now : ℚ)

def IceAgent.act (s : IceAgent) : Act → IceAgent
  | .call a => s.call a
  | .receive m source now => s.receive m source now

/-- What an act that takes an answer must meet. -/
def TakesAnswers (s : IceAgent) : Act → Prop
  | .call _ => True
  | .receive m source _ => Answers s m source

/-- Every valid pair and the selected one is proven, an agent that has ended is not live, and the
log is as it may be. -/
structure Secure (s : IceAgent) : Prop where
  valid : ∀ p ∈ s.valid, Proven s.log p
  selected : ∀ p, s.selectedPair = some p → Proven s.log p
  ended : Event.ended ∈ s.log → ¬ s.Live
  history : History s.log

theorem Sound.new (role : Bool) (t : ℤ) : Sound (IceAgent.new role t) where
  distinct := new_distinct role t
  transactions _ h := absurd h List.not_mem_nil
  backed _ h := absurd h List.not_mem_nil
  sent _ _ _ _ _ h := absurd h List.not_mem_nil
  valid _ h := absurd h List.not_mem_nil
  selected _ h := by cases h
  ended h := absurd h List.not_mem_nil
  history pre e post h := by simp [IceAgent.new] at h

/-- Every state of a run is secure, if every answer taken in it came from the place its check was
sent to and, to a controlling agent, was not for a pair that only the peer nominated. -/
theorem secure_of_answers (role : Bool) (t : ℤ) (acts : List Act)
    (h : Runs.Along IceAgent.act TakesAnswers (IceAgent.new role t) acts) :
    ∀ p, p <+: acts → Secure (Runs.run IceAgent.act (IceAgent.new role t) p) := by
  rintro p ⟨q, rfl⟩
  have hs : Sound (Runs.run IceAgent.act (IceAgent.new role t) p) := by
    refine Runs.run_invariant_along (P := Sound) (Sound.new role t) (fun s a hs hok => ?_)
      ((Runs.along_append p q).1 h).1
    cases a with
    | call a => exact hs.call a
    | receive m source now => exact hs.receive now hok
  exact ⟨hs.valid, hs.selected, hs.ended, hs.history⟩

/-- Whether an answer was taken from a place. -/
def answeredFrom (address : String) (port : ℕ) : Event → Bool
  | .answered _ a p => a = address ∧ p = port
  | _ => false

theorem not_proven_of_all (h : (log.any (answeredFrom pair.remote.address pair.remote.port)) = false) :
    ¬ Proven log pair := by
  rintro ⟨t, -, r, hr, -⟩
  have hno := List.any_eq_false.1 h _ hr
  simp [answeredFrom] at hno

/-- The two ends of a pair. -/
def here : IceCandidate := ⟨"10.0.0.1", 4000, 1, 1⟩
def there : IceCandidate := ⟨"10.0.0.2", 4000, 1, 1⟩

/-- A signed message of the peer. -/
def signed (kind : StunKind) (transaction : ℕ) (claim : Option (Bool × ℤ)) (useCandidate : Bool) :
    Stun :=
  ⟨kind, transaction, true, true, claim, useCandidate, 1, none, 0⟩

/-- One candidate on each side, and the first check is sent. -/
def asking : List Act :=
  [.call (.addLocalCandidate ⟨here, none⟩), .call (.addRemoteCandidate there true),
    .call (.start 0), .call (.poll 0 0)]

/-- The answer to a check arrives from a place the check was not sent to. -/
def answerFromElsewhere : List Act :=
  asking ++ [.receive (signed .success 0 none false) ⟨"192.0.2.9", 9, true, none⟩ 0]

/-- A controlled agent is told of the peer's choice while its own check is out; a check that claims
the controlled role makes it controlling; then the answer to its check arrives. -/
def choiceOutlivesRole : List Act :=
  asking ++
    [.receive (signed .request 7 (some (true, 5)) true) ⟨"10.0.0.2", 4000, true, none⟩ 0,
      .receive (signed .request 8 (some (false, 0)) false) ⟨"10.0.0.2", 4000, true, none⟩ 0,
      .receive (signed .success 0 none false) ⟨"10.0.0.2", 4000, true, none⟩ 0]

/-- A pair is valid on an answer from elsewhere, and a controlling agent selects on the answer to a
check that was sent in the other role and without USE-CANDIDATE. -/
theorem not_secure :
    ¬ Secure (Runs.run IceAgent.act (IceAgent.new true 1) answerFromElsewhere) ∧
      ¬ Secure (Runs.run IceAgent.act (IceAgent.new false 1) choiceOutlivesRole) := by
  constructor
  · intro h
    have hv : (⟨here, there, true⟩ : IceCandidatePair) ∈
        (Runs.run IceAgent.act (IceAgent.new true 1) answerFromElsewhere).valid := by
      decide +kernel
    exact not_proven_of_all (by decide +kernel) (h.valid _ hv)
  · intro h
    -- the last event of the log is the selection
    have hlast := h.history
      ((Runs.run IceAgent.act (IceAgent.new false 1) choiceOutlivesRole).log.take 6)
      (.selected ⟨here, there, true⟩ true (some 0)) [] (by decide +kernel)
    have hsent := hlast.2.2.2.2 (IceAgent.bindingRequest (IceAgent.new false 1) 0 1 false)
      (some here) "10.0.0.2" 4000 none (by decide +kernel) rfl rfl
    exact absurd hsent.1 (by decide)

/-- The answer to a check arrives from the place the check was sent to. -/
def answerFromThere : List Act :=
  asking ++ [.receive (signed .success 0 none false) ⟨"10.0.0.2", 4000, true, none⟩ 0]

/-- Such an answer is taken, and its pair is valid and proven. -/
theorem secure_answerFromThere :
    Secure (Runs.run IceAgent.act (IceAgent.new true 1) answerFromThere) := by
  refine secure_of_answers true 1 answerFromThere ?_ answerFromThere List.prefix_rfl
  refine (Runs.along_append asking _).2 ⟨⟨trivial, trivial, trivial, trivial, trivial⟩, ?_, trivial⟩
  intro check _ _ hc _
  have hcheck : ((Runs.run IceAgent.act (IceAgent.new true 1) asking).checkByTransaction 0).map
      (fun c => (c.pair.remote, c.nominatedByPeer)) = some (there, false) := by decide +kernel
  have hsome : (Runs.run IceAgent.act (IceAgent.new true 1) asking).checkByTransaction 0 =
      some check := hc
  rw [hsome, Option.map_some, Option.some.injEq, Prod.mk.injEq] at hcheck
  rw [hcheck.1, hcheck.2]
  exact ⟨rfl, rfl, nofun⟩

end Ice

end CrossByte
