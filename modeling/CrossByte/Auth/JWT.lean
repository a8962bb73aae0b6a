import CrossByte.Auth.JWTRevocationList
import CrossByte.Lib.Runs

/-!
# Verifiers and a list of revoked tokens

Any number of `JWT` verifiers, of any leeways, share one `JWTRevocationList`.  A token is given by
the claims the checks read; its signature, issuer and audience are taken as passing.

`JWT.revoke` lists a token until its `exp` and the longer of its verifier's `leeway` and the
list's.  It first checks the token, and a token refused as revoked already it leaves as it is, and
answers true: also one that the list keeps for a shorter time, listed by a verifier of a shorter
leeway or under a token that expires sooner, or refused by the floor.  Such a token is taken again
once that time is swept (`taken_again`).

`revoked_stays_refused` is the system: in every run whose calls of `JWT.revoke` find no such token,
a token revoked through a verifier is refused by it from then on.
-/

namespace CrossByte

/-- A verifier: what its checks of a token's times depend on. -/
structure JWT where
  leeway : ℤ
  requireIssuedAt : Bool
  deriving DecidableEq

namespace JWT

/-- The claims of a token that the checks read. -/
structure Token (ι : Type*) where
  tokenId : Option ι
  expiresAt : Option ℚ
  issuedAt : Option ℚ
  notBefore : Option ℚ
  deriving DecidableEq

/-- Why a token is refused. -/
inductive Rejection
  | missingExpiry
  | missingIssuedAt
  | expiryNotAfterIssue
  | expired
  | issuedInFuture
  | notYetValid
  | revoked
  deriving DecidableEq, Repr

variable {ι : Type*} [DecidableEq ι]

/-- The check of `revocations`, the last one. -/
def checkRevoked (list : JWTRevocationList ι) (t : Token ι) : Option Rejection :=
  match t.tokenId with
  | some id => if list.isRevoked id t.expiresAt then some .revoked else none
  | none => none

/-- `verifySignature`: `__verify` without the times. -/
def verifySignature (list : JWTRevocationList ι) (t : Token ι) : Option Rejection :=
  checkRevoked list t

/-- The check of `requireIssuedAt`. -/
def checkIssue (v : JWT) (t : Token ι) (exp : ℚ) : Option Rejection :=
  if v.requireIssuedAt then
    match t.issuedAt with
    | none => some .missingIssuedAt
    | some iat => if iat < exp then none else some .expiryNotAfterIssue
  else none

/-- `verify`: why the token is refused at `now`, if it is. -/
def verify (v : JWT) (list : JWTRevocationList ι) (t : Token ι) (now : ℚ) : Option Rejection :=
  match t.expiresAt with
  | none => some .missingExpiry
  | some exp =>
    match v.checkIssue t exp with
    | some r => some r
    | none =>
      if exp + v.leeway < now then some .expired
      else if t.issuedAt.any fun iat => now + v.leeway < iat then some .issuedInFuture
      else if t.notBefore.any fun nbf => now + v.leeway < nbf then some .notYetValid
      else checkRevoked list t

def revoke (v : JWT) (list : JWTRevocationList ι) (t : Token ι) (now : ℚ) :
    Bool × JWTRevocationList ι :=
  match verifySignature list t with
  | some r => (r = .revoked, list)
  | none =>
    match t.tokenId, t.expiresAt with
    | some id, some exp =>
      list.revoke id (exp + if (list.leeway : ℤ) < v.leeway then v.leeway - list.leeway else 0) now
    | _, _ => (false, list)

/-! ## The system -/

/-- A call of a verifier or of the list. -/
inductive Act (ι : Type*)
  | jwtRevoke (v : JWT) (t : Token ι) (now : ℚ)
  | verify (v : JWT) (t : Token ι) (now : ℚ)
  | revoke (id : ι) (expiresAt now : ℚ)
  | remove (id : ι)
  | sweep (now : ℚ)
  | clear
  deriving DecidableEq

/-- The list, and the latest time read. -/
structure World (ι : Type*) where
  list : JWTRevocationList ι
  clock : ℚ

def World.new [Inhabited ι] (maxEntries leeway : ℕ) (start : ℚ) : World ι :=
  ⟨.new maxEntries leeway, start⟩

def step (w : World ι) : Act ι → World ι
  | .jwtRevoke v t now => ⟨(v.revoke w.list t now).2, now⟩
  | .verify _ _ now => ⟨w.list, now⟩
  | .revoke id expiresAt now => ⟨(w.list.revoke id expiresAt now).2, now⟩
  | .remove id => ⟨w.list.remove id, w.clock⟩
  | .sweep now => ⟨w.list.sweep now, now⟩
  | .clear => ⟨w.list.clear, w.clock⟩

/-- The clock does not go back. -/
def Timely (w : World ι) : Act ι → Prop
  | .jwtRevoke _ _ now | .verify _ _ now | .revoke _ _ now | .sweep now => w.clock ≤ now
  | .remove _ | .clear => True

/-- Until when a verifier may take a token, or the list's leeway has it kept. -/
def until_ (v : JWT) (list : JWTRevocationList ι) (exp : ℚ) : ℚ :=
  exp + max (v.leeway : ℚ) list.leeway

/-- A token that `JWT.revoke` finds refused as revoked already is kept as long as it would have
kept it: its entry, or the floor. -/
def Keeps (w : World ι) : Act ι → Prop
  | .jwtRevoke v t _ => ∀ id exp, t.tokenId = some id → t.expiresAt = some exp →
      w.list.isRevoked id (some exp) = true → w.list.Covers id (v.until_ w.list exp)
  | _ => True

/-- The list's leeway never changes. -/
theorem leeway_revoke (list : JWTRevocationList ι) (id : ι) (exp now : ℚ) :
    (list.revoke id exp now).2.leeway = list.leeway := by
  unfold JWTRevocationList.revoke JWTRevocationList.insertNew
  dsimp only
  split_ifs <;> rfl

variable {v : JWT} {t : Token ι} {w : World ι} {now : ℚ}

theorem leeway_jwtRevoke (v : JWT) (list : JWTRevocationList ι) (t : Token ι) (now : ℚ) :
    (v.revoke list t now).2.leeway = list.leeway := by
  unfold revoke
  split
  · rfl
  · split
    · exact leeway_revoke ..
    · rfl

theorem leeway_step (w : World ι) (a : Act ι) : (step w a).list.leeway = w.list.leeway := by
  cases a with
  | jwtRevoke v t now => exact leeway_jwtRevoke ..
  | revoke id exp now => exact leeway_revoke ..
  | remove id =>
    simp only [step, JWTRevocationList.remove]
    split <;> rfl
  | _ => rfl

theorem sound_jwtRevoke (h : w.list.Sound) (v : JWT) (t : Token ι) (now : ℚ) :
    (v.revoke w.list t now).2.Sound := by
  unfold revoke
  split
  · exact h
  · split
    · exact (h.revoke ..).1
    · exact h

theorem sound_step (h : w.list.Sound) (a : Act ι) : (step w a).list.Sound := by
  cases a with
  | jwtRevoke v t now => exact sound_jwtRevoke h v t now
  | verify v t now => exact h
  | revoke id exp now => exact (h.revoke id exp now).1
  | remove id => exact h.remove id
  | sweep now => exact h.sweep now
  | clear => exact JWTRevocationList.sound_clear _

/-! ## A token revoked -/

/-- A verifier refuses a token of these claims from now on: it has expired, or it is kept. -/
def Refused (w : World ι) (v : JWT) (id : ι) (exp : ℚ) : Prop :=
  exp + v.leeway < w.clock ∨ w.list.Covers id (v.until_ w.list exp)

omit [DecidableEq ι] in
theorem le_until (v : JWT) (list : JWTRevocationList ι) (exp : ℚ) :
    exp + v.leeway ≤ v.until_ list exp ∧ exp + list.leeway ≤ v.until_ list exp := by
  unfold until_
  exact ⟨by linarith [le_max_left (v.leeway : ℚ) list.leeway],
    by linarith [le_max_right (v.leeway : ℚ) list.leeway]⟩

variable {exp : ℚ} {id : ι}

omit [DecidableEq ι] in
/-- A list whose leeway is the same keeps a token as long. -/
theorem Refused.of_list {list : JWTRevocationList ι} (h : w.clock ≤ now) (hr : Refused w v id exp)
    (hleeway : list.leeway = w.list.leeway)
    (hlist : ∀ til, w.list.Covers id til → now ≤ til → list.Covers id til) :
    Refused ⟨list, now⟩ v id exp := by
  rcases hr with hexp | hc
  · exact .inl (hexp.trans_le h)
  · have huntil : v.until_ list exp = v.until_ w.list exp := by rw [until_, until_, hleeway]
    rcases le_or_gt now (v.until_ w.list exp) with hle | hlt
    · right
      rw [huntil]
      exact hlist _ hc hle
    · exact .inl ((le_until v w.list exp).1.trans_lt hlt)

/-- **Every call but a `remove` of its `jti` and a `clear` leaves a token refused.** -/
theorem Refused.step (hs : w.list.Sound) (hr : Refused w v id exp) {a : Act ι} (ha : Timely w a)
    (hremove : a ≠ .remove id) (hclear : a ≠ .clear) : Refused (JWT.step w a) v id exp := by
  cases a with
  | jwtRevoke v' t' now =>
    refine hr.of_list ha (leeway_jwtRevoke ..) fun til hc hle => ?_
    unfold JWT.revoke
    split
    · exact hc
    · split
      · exact (hs.revoke ..).2.2 id til hc hle
      · exact hc
  | verify v' t' now => exact hr.of_list ha rfl fun til hc _ => hc
  | revoke id' exp' now =>
    exact hr.of_list ha (leeway_revoke ..) fun til hc hle => (hs.revoke ..).2.2 id til hc hle
  | remove id' =>
    have hne : id ≠ id' := fun heq => hremove (heq ▸ rfl)
    exact hr.of_list le_rfl (leeway_step w (.remove id')) fun til hc _ => hs.covers_remove hc hne
  | sweep now => exact hr.of_list ha rfl fun til hc hle => hs.covers_sweep hc hle
  | clear => exact absurd rfl hclear

theorem Refused.verify {later : ℚ} (hr : Refused w v id exp) (hid : t.tokenId = some id)
    (hexp : t.expiresAt = some exp) (hlater : w.clock ≤ later) : v.verify w.list t later ≠ none := by
  unfold JWT.verify
  rw [hexp]
  dsimp only
  split
  · simp
  · split_ifs with hexpired
    · simp
    · simp
    · simp
    · -- still within its time, so it is kept
      have hc := hr.resolve_left fun hlt => hexpired (hlt.trans_le hlater)
      have hrevoked : w.list.isRevoked id t.expiresAt = true := by
        rw [hexp, JWTRevocationList.isRevoked, Bool.or_eq_true, decide_eq_true_iff]
        rcases hc with ⟨hmem, -⟩ | hfloor
        · exact .inl hmem
        · exact .inr (decide_eq_true ((WithBot.coe_le_coe.2 (le_until v w.list exp).2).trans hfloor))
      simp [checkRevoked, hid, hrevoked]

/-- **`JWT.revoke` that answers true has a token refused**, where a token it found refused already
is kept as long as it would have kept it. -/
theorem refused_of_revoke (hs : w.list.Sound) (hk : Keeps w (.jwtRevoke v t now))
    (htrue : (v.revoke w.list t now).1 = true) :
    ∃ id, t.tokenId = some id ∧ ∀ exp, t.expiresAt = some exp →
      Refused ⟨(v.revoke w.list t now).2, now⟩ v id exp := by
  unfold JWT.revoke verifySignature checkRevoked at htrue ⊢
  cases hid : t.tokenId with
  | none => simp [hid] at htrue
  | some id =>
    refine ⟨id, rfl, fun exp hexp => .inr ?_⟩
    rw [hid, hexp] at htrue
    rw [hexp]
    dsimp only at htrue ⊢
    by_cases hrev : w.list.isRevoked id (some exp) = true
    · rw [if_pos hrev]
      exact hk id exp hid hexp hrev
    · rw [if_neg hrev] at htrue ⊢
      set extra : ℤ := if (w.list.leeway : ℤ) < v.leeway then v.leeway - w.list.leeway else 0
        with hextra
      have hmax : max (v.leeway : ℚ) w.list.leeway = extra + w.list.leeway := by
        rw [hextra]
        split
        · rename_i hlt
          rw [max_eq_left (by exact_mod_cast hlt.le)]
          push_cast
          ring
        · rename_i hge
          rw [max_eq_right (by exact_mod_cast not_lt.1 hge)]
          ring
      have hspec := (hs.revoke id (exp + extra) now).2.1 htrue
      rw [until_, leeway_revoke, hmax, ← add_assoc]
      exact hspec

theorem Refused.run {acts : List (Act ι)} (hr : Refused w v id exp) (hs : w.list.Sound)
    (hacts : Runs.Along JWT.step (fun w a => Timely w a ∧ Keeps w a) w acts)
    (hremove : .remove id ∉ acts) (hclear : .clear ∉ acts) :
    Refused (Runs.run JWT.step w acts) v id exp := by
  induction acts generalizing w with
  | nil => exact hr
  | cons a acts ih =>
    have hstep : Refused (JWT.step w a) v id exp := by
      refine hr.step hs hacts.1.1 ?_ ?_
      · rintro rfl
        exact hremove List.mem_cons_self
      · rintro rfl
        exact hclear List.mem_cons_self
    exact ih hstep (sound_step hs a) hacts.2 (fun hmem => hremove (List.mem_cons_of_mem _ hmem))
      fun hmem => hclear (List.mem_cons_of_mem _ hmem)

/-- A token that is not listed is refused as revoked only from the list's floor. -/
theorem floor_of_verify_revoked (hid : t.tokenId = some id) (hexp : t.expiresAt = some exp)
    (hnot : id ∉ w.list.listing.entries) (hrevoked : v.verify w.list t now = some .revoked) :
    ((exp + w.list.leeway : ℚ) : WithBot ℚ) ≤ w.list.floor := by
  by_contra hfloor
  have hfalse : w.list.isRevoked id t.expiresAt = false := by
    rw [hexp, JWTRevocationList.isRevoked, decide_eq_false hnot, decide_eq_false hfloor]
    rfl
  unfold JWT.verify at hrevoked
  simp only [checkIssue, checkRevoked, hid, hexp] at hrevoked
  split at hrevoked
  · rename_i r hr
    split at hr
    · split at hr
      · simp_all
      · split at hr <;> simp_all
    · simp at hr
  · split_ifs at hrevoked <;> simp_all

/-- **A revoked token is never taken again.**  In every run of verifiers of any leeways and one
list, with a clock that does not go back and in which `JWT.revoke` finds no token refused for a
shorter time than it would list it for: a token revoked through a verifier is refused by it from
then on, unless its `jti` is removed or the list cleared; the list is sound; and a token whose
`jti` was never revoked is refused as revoked only for an entry that was dropped to make room, of a
time no sooner than its `exp` and the list's leeway, that no sweep has passed. -/
theorem revoked_stays_refused [Inhabited ι] (maxEntries leeway : ℕ) (start : ℚ)
    (acts : List (Act ι))
    (hacts : Runs.Along step (fun w a => Timely w a ∧ Keeps w a) (World.new maxEntries leeway start)
      acts) :
    let w := Runs.run step (World.new maxEntries leeway start) acts
    (∀ before v t now after, acts = before ++ .jwtRevoke v t now :: after →
      (v.revoke (Runs.run step (World.new maxEntries leeway start) before).list t now).1 = true →
      (∀ id, t.tokenId = some id → .remove id ∉ after) → .clear ∉ after →
      ∀ later, w.clock ≤ later → v.verify w.list t later ≠ none) ∧
    w.list.Sound ∧
    ∀ (v : JWT) (t : Token ι) (now : ℚ) id, t.tokenId = some id → id ∉ w.list.given →
      v.verify w.list t now = some .revoked →
      ∃ exp, t.expiresAt = some exp ∧ ∃ til ∈ w.list.dropped, exp + w.list.leeway ≤ til ∧
        ∀ at_, w.list.swept = some at_ → at_ ≤ til := by
  intro w
  have hsound : ∀ acts, (Runs.run step (World.new maxEntries leeway start) acts : World ι).list.Sound :=
    Runs.run_invariant (P := fun w : World ι => w.list.Sound)
      (JWTRevocationList.sound_new maxEntries leeway) fun w a h => sound_step h a
  refine ⟨?_, hsound acts, ?_⟩
  · rintro before v t now after rfl htrue hremove hclear later hlater
    set w₀ := Runs.run step (World.new maxEntries leeway start) before with hw₀
    rw [Runs.along_append] at hacts
    obtain ⟨-, ⟨-, hkeeps⟩, hafter⟩ := hacts
    have hrun : w = Runs.run step (step w₀ (.jwtRevoke v t now)) after := by
      exact Runs.run_append ..
    obtain ⟨id, hid, hrefused⟩ := refused_of_revoke (hsound before) hkeeps htrue
    cases hexp : t.expiresAt with
    | none => simp [JWT.verify, hexp]
    | some exp =>
      have hend : Refused (Runs.run step (step w₀ (.jwtRevoke v t now)) after) v id exp :=
        (hrefused exp hexp).run (sound_step (hsound before) (.jwtRevoke v t now)) hafter
          (hremove id hid) hclear
      rw [← hrun] at hend
      exact hend.verify hid hexp hlater
  · intro v t now id hid hgiven hrevoked
    have hs : w.list.Sound := hsound acts
    have hnot : id ∉ w.list.listing.entries := fun hmem => hgiven (hs.given id hmem)
    cases hexp : t.expiresAt with
    | none => simp [JWT.verify, hexp] at hrevoked
    | some exp =>
      refine ⟨exp, rfl, ?_⟩
      have hlate := floor_of_verify_revoked hid hexp hnot hrevoked
      cases hf : w.list.floor with
      | bot => simp [hf] at hlate
      | coe f =>
        rw [hf] at hlate
        exact ⟨f, (hs.floor f hf).1, WithBot.coe_le_coe.1 hlate, (hs.floor f hf).2⟩

/-! ## A token taken again -/

/-- A token that expires at 10. -/
def tokenTen : Token ℕ := ⟨some 7, some 10, none, none⟩

/-- The list, of no leeway, is given the token's `jti`; a verifier of a minute's leeway then revokes
the token; and the list is swept at 20. -/
def shortlyKept : List (Act ℕ) :=
  [.revoke 7 10 0, .jwtRevoke ⟨60, false⟩ tokenTen 1, .sweep 20]

/-- **A token taken again**: the verifier's `revoke` answered true, and at 20 it takes the token. -/
theorem taken_again :
    (revoke ⟨60, false⟩ (Runs.run step (World.new 10 0 0) [.revoke 7 10 0]).list tokenTen 1).1 = true ∧
      Runs.Along step Timely (World.new 10 0 0) shortlyKept ∧
      verify ⟨60, false⟩ (Runs.run step (World.new 10 0 0) shortlyKept).list tokenTen 20 = none := by
  refine ⟨by decide +kernel, ?_, by decide +kernel⟩
  simp [shortlyKept, Timely, step, World.new]

/-- Revoked through the verifier alone, the token is refused. -/
theorem refused_alone :
    verify ⟨60, false⟩ (Runs.run step (World.new 10 0 0)
      [.jwtRevoke ⟨60, false⟩ tokenTen 1, .sweep 20]).list tokenTen 20 ≠ none := by
  refine (revoked_stays_refused 10 0 0 [.jwtRevoke ⟨60, false⟩ tokenTen 1, .sweep 20] ?_).1 []
    ⟨60, false⟩ tokenTen 1 [.sweep 20] rfl (by decide +kernel) (by simp) (by simp) 20 (by rfl)
  refine ⟨⟨by norm_num [Timely, World.new], fun id exp _ _ h => ?_⟩, ⟨by norm_num [Timely, step],
    trivial⟩, trivial⟩
  simp [World.new, JWTRevocationList.new, JWTRevocationList.isRevoked] at h

end JWT

end CrossByte
