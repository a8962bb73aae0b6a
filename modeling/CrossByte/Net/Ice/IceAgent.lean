import Mathlib.Tactic

/-!
# IceAgent

The agent of `crossbyte/net/ice/IceAgent.hx`, which finds a path between two peers by
checking every pair of their candidates with a signed STUN request.  It has no socket
and no clock: what it sends goes to its log, what arrives and the time come in with
its calls.

A message is what the agent reads of one: its kind, its transaction, and what the
accessors of `StunMessage` answer.  `verified` is `verifyIntegrity` under the password
the agent checks that kind of message with, and `addressed` says that its USERNAME
names this agent.  Transactions are numbered as the agent draws them, which is how
random ones that never collide are told apart.

A check is an object that the agent's lists and variables refer to; `id` is its
identity, and `modify` writes it wherever it is held.

The log holds what the agent sent, in order, and beside it what is proved about it: the
answers it took, the nominations it was sent, its changes of role, the pairs it selected,
and its end.

The callbacks `onSend`, `onRoleChanged` and `onStateChanged` only tell of what happened
here; one that calls back into the agent is not modelled.  It could close the agent in the
middle of a `poll`, whose loop would still go on sending.
-/

namespace CrossByte

namespace Ice

/-! ## Candidates and pairs -/

/-- `IceCandidate`, as far as the agent reads it. -/
structure IceCandidate where
  address : String
  port : ℕ
  component : ℕ
  priority : ℤ
  deriving DecidableEq

/-- A candidate of this peer's own, and the one it is a view of. -/
structure LocalCandidate where
  candidate : IceCandidate
  base : Option IceCandidate
  deriving DecidableEq

/-- `sameAs`: the same place. -/
def IceCandidate.sameAs (a b : IceCandidate) : Bool :=
  a.address = b.address && a.port = b.port && a.component = b.component

def IceCandidate.isIpv6 (a : IceCandidate) : Bool := a.address.toList.contains ':'

def IceCandidate.canReach (a b : IceCandidate) : Bool :=
  a.component = b.component && a.isIpv6 = b.isIpv6

def LocalCandidate.baseOrSelf (a : LocalCandidate) : IceCandidate := a.base.getD a.candidate

/-- `computePriority(PEER_REFLEXIVE, DEFAULT_LOCAL_PREFERENCE, component)`. -/
def peerReflexivePriority (component : ℕ) : ℤ := 110 * 16777216 + 65535 * 256 + (256 - component)

structure IceCandidatePair where
  local_ : IceCandidate
  remote : IceCandidate
  controlling : Bool
  deriving DecidableEq

/-- `computePriority`, of a pair. -/
def IceCandidatePair.priority (p : IceCandidatePair) : ℤ :=
  let g := if p.controlling then p.local_.priority else p.remote.priority
  let d := if p.controlling then p.remote.priority else p.local_.priority
  min g d * 2 ^ 32 + 2 * max g d + if d < g then 1 else 0

/-- `sameAs`, of a pair. -/
def IceCandidatePair.sameAs (p q : IceCandidatePair) : Bool :=
  p.local_.sameAs q.local_ && p.remote.sameAs q.remote

/-- The pair as the other role values it. -/
def IceCandidatePair.revalued (p : IceCandidatePair) (controlling : Bool) : IceCandidatePair :=
  { p with controlling }

/-! ## Messages, checks, and the agent -/

/-- The kinds of message the agent tells apart. -/
inductive StunKind
  | request
  | success
  | error
  deriving DecidableEq

/-- What the agent reads of a message. -/
structure Stun where
  kind : StunKind
  transaction : ℕ
  addressed : Bool
  verified : Bool
  claim : Option (Bool × ℤ)
  useCandidate : Bool
  priority : ℤ
  mapped : Option (String × ℕ)
  errorCode : ℕ
  deriving DecidableEq

/-- `IceCandidatePairState`. -/
inductive CheckState
  | frozen
  | waiting
  | inProgress
  | succeeded
  | failed
  deriving DecidableEq

structure IceCheck where
  id : ℕ
  pair : IceCandidatePair
  transaction : ℕ
  state : CheckState
  attempts : ℕ
  nextAttemptAt : ℚ
  sentAsControlling : Bool
  nominate : Bool
  nominatedByPeer : Bool
  late : Bool

/-- `IceAgentState`. -/
inductive AgentState
  | new
  | checking
  | connected
  | failed
  | closed
  deriving DecidableEq

inductive Event
  /-- A datagram given to `onSend`, or to the sender of the candidate it leaves from; of an answer,
  `about` is the role that the request claimed. -/
  | sent (m : Stun) (via : Option IceCandidate) (address : String) (port : ℕ) (about : Option Bool)
  /-- The answer to a check was taken. -/
  | answered (m : Stun) (address : String) (port : ℕ)
  /-- A check carrying USE-CANDIDATE was read, for a pair. -/
  | named (request : Stun) (pair : IceCandidatePair)
  /-- `onRoleChanged`. -/
  | roleChanged (controlling : Bool)
  /-- `__select` of a pair, on the answer to a check when it was one. -/
  | selected (pair : IceCandidatePair) (controlling : Bool) (transaction : Option ℕ)
  /-- The agent failed or was closed. -/
  | ended
  deriving DecidableEq

structure IceAgent where
  controlling : Bool
  tiebreaker : ℤ
  /-- `start` has given it the other peer's credentials. -/
  hasRemote : Bool
  state : AgentState
  selectedPair : Option IceCandidatePair
  timeout : ℚ
  locals : List LocalCandidate
  learned : List IceCandidate
  remotes : List IceCandidate
  checks : List IceCheck
  consentTransaction : Option ℕ
  consentDueAt : ℚ
  consentedAt : ℚ
  valid : List IceCandidatePair
  nextCheckAt : ℚ
  nominating : Bool
  startedAt : ℚ
  lateChecks : Bool
  /-- The transactions drawn and the checks made. -/
  drawn : ℕ
  log : List Event

namespace IceAgent

def PACING : ℚ := 5 / 100
def INITIAL_RTO : ℚ := 1 / 2
def MAX_ATTEMPTS : ℕ := 7
def FINAL_WAIT : ℚ := 8
def CONSENT_INTERVAL : ℚ := 5
def CONSENT_TIMEOUT : ℚ := 30
def DEFAULT_TIMEOUT : ℚ := 80
def MAX_REMOTE_CANDIDATES : ℕ := 64
def MAX_LEARNED_LOCAL_CANDIDATES : ℕ := MAX_REMOTE_CANDIDATES
def ROLE_CONFLICT : ℕ := 487

def new (controlling : Bool) (tiebreaker : ℤ) : IceAgent where
  controlling
  tiebreaker
  hasRemote := false
  state := .new
  selectedPair := none
  timeout := DEFAULT_TIMEOUT
  locals := []
  learned := []
  remotes := []
  checks := []
  consentTransaction := none
  consentDueAt := 0
  consentedAt := 0
  valid := []
  nextCheckAt := 0
  nominating := false
  startedAt := 0
  lateChecks := false
  drawn := 0
  log := []

@[simps controlling tiebreaker state checks log valid selectedPair drawn]
def note (s : IceAgent) (e : Event) : IceAgent := { s with log := s.log ++ [e] }

@[simps controlling tiebreaker state log valid selectedPair drawn]
def modify (s : IceAgent) (id : ℕ) (f : IceCheck → IceCheck) : IceAgent :=
  { s with checks := s.checks.map fun c => if c.id = id then f c else c }

/-- The check with an identity. -/
def checkAt (s : IceAgent) (id : ℕ) : Option IceCheck := s.checks.find? (·.id = id)

def checkFor (s : IceAgent) (pair : IceCandidatePair) : Option IceCheck :=
  s.checks.find? (·.pair.sameAs pair)

def checkByTransaction (s : IceAgent) (transaction : ℕ) : Option IceCheck :=
  s.checks.find? (·.transaction = transaction)

/-- `__sortChecks`: highest priority first. -/
def sortChecks (s : IceAgent) : IceAgent :=
  { s with checks := s.checks.mergeSort fun a b => b.pair.priority ≤ a.pair.priority }

def sortPairs (pairs : List IceCandidatePair) : List IceCandidatePair :=
  pairs.mergeSort fun a b => b.priority ≤ a.priority

def sendVia (s : IceAgent) (via : Option IceCandidate) (m : Stun) (address : String) (port : ℕ)
    (about : Option Bool) : IceAgent :=
  s.note (.sent m via address port about)

/-- A binding request of this agent: a check, or a question of consent. -/
def bindingRequest (s : IceAgent) (transaction component : ℕ) (useCandidate : Bool) : Stun where
  kind := .request
  transaction
  addressed := true
  verified := true
  claim := some (s.controlling, s.tiebreaker)
  useCandidate
  priority := peerReflexivePriority component
  mapped := none
  errorCode := 0

/-- How long an attempt is given. -/
def attemptWait (attempts : ℕ) : ℚ :=
  if MAX_ATTEMPTS ≤ attempts then FINAL_WAIT else INITIAL_RTO * 2 ^ (attempts - 1)

def transmit (s : IceAgent) (id : ℕ) (now : ℚ) : IceAgent :=
  match s.hasRemote, s.checkAt id with
  | true, some check =>
    (s.modify id fun c => { c with
      state := .inProgress
      attempts := c.attempts + 1
      sentAsControlling := s.controlling
      nextAttemptAt := now + attemptWait (c.attempts + 1) }).sendVia (some check.pair.local_)
      (s.bindingRequest check.transaction check.pair.local_.component check.nominate)
      check.pair.remote.address check.pair.remote.port none
  | _, _ => s

/-- `__add`: a check for a pair, and its identity. -/
def add (s : IceAgent) (pair : IceCandidatePair) : IceAgent :=
  { s with
    checks := s.checks ++ [{
      id := s.drawn, pair, transaction := s.drawn, state := .waiting, attempts := 0
      nextAttemptAt := 0, sentAsControlling := false, nominate := false
      nominatedByPeer := false, late := s.state = .connected }]
    lateChecks := s.lateChecks || s.state = .connected
    drawn := s.drawn + 1 }

/-- The check for a pair, made if there is none. -/
def ensure (s : IceAgent) (pair : IceCandidatePair) : IceAgent × ℕ :=
  match s.checkFor pair with
  | some check => (s, check.id)
  | none => (s.add pair, s.drawn)

/-- A check is given a transaction of its own. -/
def redraw (s : IceAgent) (id : ℕ) (f : IceCheck → IceCheck) : IceAgent :=
  { s.modify id fun c => { f c with transaction := s.drawn, attempts := 0 } with
    drawn := s.drawn + 1 }

def giveUp (s : IceAgent) : IceAgent :=
  { s with state := .failed, consentTransaction := none }.note .ended

def settleIfFinished (s : IceAgent) : IceAgent :=
  if s.state ≠ .checking ∨ s.checks = [] ∨ ∃ c ∈ s.checks, c.state ≠ .failed then s else s.giveUp

/-- The valid pairs without the first that is `pair`. -/
def removePair (pairs : List IceCandidatePair) (pair : IceCandidatePair) : List IceCandidatePair :=
  match pairs with
  | [] => []
  | p :: rest => if p.sameAs pair then rest else p :: removePair rest pair

def checkFailed (s : IceAgent) (id : ℕ) : IceAgent :=
  match s.checkAt id with
  | none => s
  | some check =>
    if check.nominate then
      { s.modify id fun c => { c with state := .failed, nominate := false } with
        nominating := false
        valid := removePair s.valid check.pair }
    else s.modify id fun c => { c with state := .failed }

/-- `__nominate`, of the best pair. -/
def nominatePair (s : IceAgent) (best : IceCandidatePair) (now : ℚ) : IceAgent :=
  let (s, id) := { s with nominating := true }.ensure best
  (s.redraw id fun c => { c with nominate := true, state := .waiting }).transmit id now

def nominate (s : IceAgent) (now : ℚ) : IceAgent :=
  match s.valid with
  | [] => s
  | best :: _ => s.nominatePair best now

/-- `__select`; `transaction` is the answered check's. -/
def select (s : IceAgent) (pair : IceCandidatePair) (now : ℚ) (transaction : Option ℕ) : IceAgent :=
  match s.state with
  | .connected =>
    if s.selectedPair.any (·.sameAs pair) then s
    else { s with
      selectedPair := some pair, consentedAt := now, consentDueAt := now + CONSENT_INTERVAL
      consentTransaction := none }.note (.selected pair s.controlling transaction)
  | .checking =>
    { s with
      selectedPair := some pair, state := .connected, consentedAt := now
      consentDueAt := now + CONSENT_INTERVAL }.note (.selected pair s.controlling transaction)
  | _ => s

def switchRole (s : IceAgent) : IceAgent :=
  let role := !s.controlling
  let checks : List IceCheck :=
    s.checks.map fun c => { c with pair := c.pair.revalued role, nominate := false }
  ({ s with
    controlling := role
    checks
    valid := sortPairs (s.valid.map fun p => p.revalued role)
    selectedPair := s.selectedPair.map fun p => p.revalued role
    nominating := false } : IceAgent).sortChecks.note (.roleChanged role)

/-- `__resolveRoleConflict`: the agent, and whether to refuse the check. -/
def resolveRoleConflict (s : IceAgent) (claim : Option (Bool × ℤ)) : IceAgent × Bool :=
  match claim with
  | none => (s, false)
  | some (controlling, tiebreaker) =>
    if controlling ≠ s.controlling then (s, false)
    else
      let wins := tiebreaker ≤ s.tiebreaker
      if s.controlling then if wins then (s, true) else (s.switchRole, false)
      else if wins then (s.switchRole, false) else (s, true)

def remoteAt (s : IceAgent) (address : String) (port : ℕ) : Option IceCandidate :=
  s.remotes.find? fun c => c.address = address ∧ c.port = port

/-- A datagram's source, and the candidate it arrived on when that is not the socket. -/
structure Source where
  address : String
  port : ℕ
  /-- `StunMessage.ipv4Octets(address) != null`. -/
  ipv4 : Bool
  via : Option IceCandidate

def pairFrom (s : IceAgent) (source : Source) (announced : ℤ) :
    IceAgent × Option IceCandidatePair :=
  let (s, remote) := match s.remoteAt source.address source.port with
    | some remote => (s, remote)
    | none =>
      let remote : IceCandidate := ⟨source.address, source.port, 1,
        if 0 < announced then announced else peerReflexivePriority 1⟩
      ({ s with remotes := s.remotes ++ [remote] }, remote)
  let arrived := source.via.bind fun via =>
    s.locals.find? fun l => l.candidate.sameAs via && l.candidate.canReach remote
  let any := s.locals.find? fun l => l.candidate.canReach remote
  (s, (arrived.or any).map fun l => ⟨l.candidate, remote, s.controlling⟩)

/-- `__sendVia` of an answer to `request`. -/
def reply (s : IceAgent) (request : Stun) (source : Source) (kind : StunKind)
    (mapped : Option (String × ℕ)) (errorCode : ℕ) : IceAgent :=
  s.sendVia source.via
    { kind, transaction := request.transaction, addressed := true, verified := true, claim := none
      useCandidate := false, priority := 0, mapped, errorCode }
    source.address source.port (request.claim.map Prod.fst)

/-- The triggered check of `__answer`. -/
def trigger (s : IceAgent) (id : ℕ) (now : ℚ) : IceAgent :=
  match s.checkAt id with
  | none => s
  | some check =>
    if check.state = .waiting ∨ check.state = .frozen ∨ check.state = .failed then
      let s := if check.state = .failed then s.redraw id (fun c => c) else s
      let s := if s.state = .connected then
        { s.modify id fun c => { c with late := true } with lateChecks := true } else s
      s.transmit id now
    else s

/-- The end of `__answer`: a pair the peer names is selected once it has answered. -/
def follow (s : IceAgent) (request : Stun) (id : ℕ) (pair : IceCandidatePair) (now : ℚ) :
    IceAgent :=
  let s := s.note (.named request pair)
  if s.controlling then s
  else
    match s.checkAt id with
    | none => s
    | some check =>
      if check.state = .succeeded then s.select pair now none
      else s.modify id fun c => { c with nominatedByPeer := true }

/-- `__answer`, of a check that is not refused. -/
def respond (s : IceAgent) (request : Stun) (source : Source) (now : ℚ) : IceAgent :=
  let s := s.reply request source .success
    (if source.ipv4 then some (source.address, source.port) else none) 0
  match s.pairFrom source request.priority with
  | (s, none) => s
  | (s, some pair) =>
    let (s, id) := s.ensure pair
    let s := s.trigger id now
    if request.useCandidate then s.follow request id pair now else s

def answer (s : IceAgent) (request : Stun) (source : Source) (now : ℚ) : IceAgent :=
  if !(request.addressed && request.verified) then s
  else if s.remoteAt source.address source.port = none ∧
      MAX_REMOTE_CANDIDATES ≤ s.remotes.length then s
  else
    let (s, refuse) := s.resolveRoleConflict request.claim
    if refuse then s.reply request source .error none ROLE_CONFLICT
    else s.respond request source now

def addValid (s : IceAgent) (pair : IceCandidatePair) : IceAgent :=
  if s.valid.any (·.sameAs pair) then s else { s with valid := sortPairs (s.valid ++ [pair]) }

def learnPeerReflexive (s : IceAgent) (mapped : String × ℕ) (component : ℕ) : IceAgent :=
  let discovered : IceCandidate :=
    ⟨mapped.1, mapped.2, component, peerReflexivePriority component⟩
  if s.learned.length < MAX_LEARNED_LOCAL_CANDIDATES ∧
      !s.locals.any (·.candidate.sameAs discovered) ∧ !s.learned.any (·.sameAs discovered) then
    { s with learned := s.learned ++ [discovered] }
  else s

/-- `__acceptConsent`; whether the response answered it. -/
def acceptConsent (s : IceAgent) (response : Stun) (now : ℚ) : IceAgent × Bool :=
  if s.hasRemote ∧ s.consentTransaction = some response.transaction ∧ response.verified then
    ({ s with consentTransaction := none, consentedAt := now }, true)
  else (s, false)

/-- `__accept`, of where the peer saw the check come from. -/
def learn (s : IceAgent) (check : IceCheck) (mapped : Option (String × ℕ)) : IceAgent :=
  match mapped with
  | some (address, port) =>
    if address = check.pair.local_.address ∧ port = check.pair.local_.port then s
    else s.learnPeerReflexive (address, port) check.pair.remote.component
  | none => s

/-- `__accept`, before anything is selected: the check succeeds and its pair is valid. -/
def prove (s : IceAgent) (check : IceCheck) (response : Stun) (source : Source) : IceAgent :=
  let s := (s.modify check.id fun c => { c with state := .succeeded }).note
    (.answered response source.address source.port)
  (s.learn check response.mapped).addValid check.pair

/-- `__accept`, after that: a pair that was nominated is selected. -/
def acceptEnd (s : IceAgent) (check : IceCheck) (response : Stun) (now : ℚ) : IceAgent :=
  (if check.nominate || check.nominatedByPeer then
    s.select check.pair now (some response.transaction) else s).settleIfFinished

def accept (s : IceAgent) (response : Stun) (source : Source) (now : ℚ) : IceAgent :=
  match s.hasRemote, s.checkByTransaction response.transaction with
  | true, some check =>
    if check.state ≠ .inProgress ∨ response.verified = false then s
    else (s.prove check response source).acceptEnd check response now
  | _, _ => s

/-- A check is sent anew. -/
def retry (s : IceAgent) (id : ℕ) (now : ℚ) : IceAgent :=
  (s.redraw id fun c => { c with state := .waiting }).transmit id now

def refused (s : IceAgent) (response : Stun) (now : ℚ) : IceAgent :=
  match s.hasRemote, s.checkByTransaction response.transaction with
  | true, some check =>
    if response.verified = false then s
    else if response.errorCode ≠ ROLE_CONFLICT then (s.checkFailed check.id).settleIfFinished
    else if check.sentAsControlling = s.controlling then s.switchRole.retry check.id now
    else s.retry check.id now
  | _, _ => s

def receive (s : IceAgent) (m : Stun) (source : Source) (now : ℚ) : IceAgent :=
  if s.state = .closed ∨ s.state = .failed then s
  else
    match m.kind with
    | .request => s.answer m source now
    | .success =>
      let (s, taken) := s.acceptConsent m now
      if taken then s else s.accept m source now
    | .error => s.refused m now

/-! ## Time -/

/-- `__sendConsent`; `jitter` is `Math.random()`. -/
def sendConsent (s : IceAgent) (pair : IceCandidatePair) (now jitter : ℚ) : IceAgent :=
  { s with
    consentTransaction := some s.drawn
    drawn := s.drawn + 1
    consentDueAt := now + CONSENT_INTERVAL * (8 / 10 + 4 / 10 * jitter) }.sendVia
    (some pair.local_) (s.bindingRequest s.drawn pair.local_.component false)
    pair.remote.address pair.remote.port none

def pollConsent (s : IceAgent) (now jitter : ℚ) : IceAgent :=
  match s.selectedPair, s.hasRemote with
  | some pair, true =>
    if CONSENT_TIMEOUT ≤ now - s.consentedAt then s.giveUp
    else if now < s.consentDueAt then s
    else s.sendConsent pair now jitter
  | _, _ => s

/-- One check of `__pollLateChecks`: the agent, whether a check is active, and whether one was
started. -/
def pollLate (now : ℚ) : IceAgent × Bool × Bool → ℕ → IceAgent × Bool × Bool
  | (s, active, started), id =>
    match s.checkAt id with
    | none => (s, active, started)
    | some check =>
      if !check.late then (s, active, started)
      else
        match check.state with
        | .inProgress =>
          if check.nextAttemptAt ≤ now then
            if MAX_ATTEMPTS ≤ check.attempts then
              (s.modify id fun c => { c with state := .failed }, true, started)
            else (s.transmit id now, true, started)
          else (s, true, started)
        | .waiting | .frozen =>
          if started then (s, true, true) else (s.transmit id now, true, true)
        | _ => (s, active, started)

def pollLateChecks (s : IceAgent) (now : ℚ) : IceAgent :=
  let (s, active, _) := (s.checks.map (·.id)).foldl (pollLate now) (s, false, false)
  { s with nextCheckAt := now + PACING, lateChecks := active }

/-- One check of the loop of `poll`. -/
def pollCheck (now : ℚ) (s : IceAgent) (id : ℕ) : IceAgent :=
  match s.checkAt id with
  | none => s
  | some check =>
    if check.state = .inProgress ∧ check.nextAttemptAt ≤ now then
      if MAX_ATTEMPTS ≤ check.attempts then s.checkFailed id else s.transmit id now
    else s

def nextWaiting (s : IceAgent) : Option IceCheck :=
  s.checks.find? fun c => c.state = .waiting ∨ c.state = .frozen

def poll (s : IceAgent) (now jitter : ℚ) : IceAgent :=
  match s.state with
  | .connected =>
    let s := s.pollConsent now jitter
    if s.state = .connected ∧ s.lateChecks ∧ s.nextCheckAt ≤ now then s.pollLateChecks now else s
  | .checking =>
    if 0 < s.timeout ∧ s.timeout ≤ now - s.startedAt then s.giveUp
    else
      let s := (s.checks.map (·.id)).foldl (pollCheck now) s
      let s := if s.nextCheckAt ≤ now then
          match s.nextWaiting with
          | some next => { s.transmit next.id now with nextCheckAt := now + PACING }
          | none => s
        else s
      let s := if s.controlling ∧ !s.nominating ∧ s.valid ≠ [] then s.nominate now else s
      s.settleIfFinished
  | _ => s

/-! ## What the caller does -/

def pairOne (s : IceAgent) (l : LocalCandidate) (remote : IceCandidate) : IceAgent :=
  if l.candidate.canReach remote && l.baseOrSelf.canReach remote then
    (s.ensure ⟨l.baseOrSelf, remote, s.controlling⟩).1
  else s

def pairing (s : IceAgent) : Bool := s.state = .checking ∨ s.state = .connected

def addLocalCandidate (s : IceAgent) (l : LocalCandidate) : IceAgent :=
  if s.locals.any (·.candidate.sameAs l.candidate) then s
  else
    let s := { s with locals := s.locals ++ [l] }
    if s.pairing then (s.remotes.foldl (fun s remote => s.pairOne l remote) s).sortChecks else s

/-- `addRemoteCandidate`; `numeric` says that the address is one the socket can be given. -/
def addRemoteCandidate (s : IceAgent) (remote : IceCandidate) (numeric : Bool) : IceAgent :=
  if !numeric || s.remotes.any (·.sameAs remote) ||
      decide (MAX_REMOTE_CANDIDATES ≤ s.remotes.length) then s
  else
    let s := { s with remotes := s.remotes ++ [remote] }
    if s.pairing then (s.locals.foldl (fun s l => s.pairOne l remote) s).sortChecks else s

def start (s : IceAgent) (now : ℚ) : IceAgent :=
  if s.state ≠ .new then s
  else
    let s := { s with hasRemote := true, state := .checking, startedAt := now, nextCheckAt := now }
    (s.locals.foldl (fun s l => s.remotes.foldl (fun s remote => s.pairOne l remote) s) s).sortChecks

def close (s : IceAgent) : IceAgent :=
  if s.state = .closed then s else { s with state := .closed, checks := [] }.note .ended

/-- One check of `refusePairs`. -/
def refusePair (l : IceCandidate) (address : String) (s : IceAgent) (id : ℕ) : IceAgent :=
  match s.checkAt id with
  | none => s
  | some check =>
    if check.state = .succeeded ∨ check.state = .failed then s
    else if check.pair.local_.sameAs l ∧ check.pair.remote.address = address then s.checkFailed id
    else s

/-- Whether `refusePairs` gives up on a check. -/
def refuses (l : IceCandidate) (address : String) (c : IceCheck) : Bool :=
  c.state ≠ .succeeded ∧ c.state ≠ .failed ∧ c.pair.local_.sameAs l ∧
    c.pair.remote.address = address

def refusePairs (s : IceAgent) (l : IceCandidate) (address : String) : IceAgent :=
  let changed := s.checks.any (refuses l address)
  let s := (s.checks.map (·.id)).foldl (refusePair l address) s
  if changed then s.settleIfFinished else s

/-- What the caller does with an agent, besides giving it what arrived. -/
inductive Call
  | addLocalCandidate (l : LocalCandidate)
  | addRemoteCandidate (remote : IceCandidate) (numeric : Bool)
  | start (now : ℚ)
  | poll (now jitter : ℚ)
  | refusePairs (l : IceCandidate) (address : String)
  | setTimeout (timeout : ℚ)
  | close

def call (s : IceAgent) : Call → IceAgent
  | .addLocalCandidate l => s.addLocalCandidate l
  | .addRemoteCandidate remote numeric => s.addRemoteCandidate remote numeric
  | .start now => s.start now
  | .poll now jitter => s.poll now jitter
  | .refusePairs l address => s.refusePairs l address
  | .setTimeout timeout => { s with timeout }
  | .close => s.close

end IceAgent

end Ice

end CrossByte
