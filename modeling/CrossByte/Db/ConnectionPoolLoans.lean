import CrossByte.Db.ConnectionPool

/-!
# ConnectionPool: who has a connection

`release` finds the connection it is given in `__out`, and cannot tell a return of
this loan from a second return of an earlier one.  So whether the pool lends one
connection to two callers is up to the callers: it does not exactly when every
return that puts a connection back on `__idle` finds it in nobody else's hands
(`Own`).  A `discard`, and a return that ends in the connection being closed, need
no such condition.

## Main results

* `lendsOnce_iff`: the states of an interleaving are all as the pool promises iff
  all its returns are of the caller's own loan.
* `twice_returned_twice_lent`: a second `release` of a connection that has been
  lent again puts it in two callers' hands.
-/

namespace CrossByte

open Runs Function

namespace ConnectionPool

variable {τ : Type*} [DecidableEq τ]

/-- The connections in somebody's hands. -/
def lent (s : ConnectionPool τ) : List ℕ := s.hands.map Prod.snd

/-- No connection is in two hands, or idle while one has it. -/
def Exclusive (s : ConnectionPool τ) : Prop :=
  s.lent.Nodup ∧ ∀ c ∈ s.idle, c ∉ s.lent

/-- A thread that neither runs a hook of the pool nor has connections to close. -/
def Phase.Rests : Phase → Prop
  | .away | .waiting | .looking => True
  | _ => False

/-- What the pool promises of every state. -/
structure LendsOnce [Fintype τ] (s : ConnectionPool τ) : Prop where
  exclusive : s.Exclusive
  created : s.created = s.idle.length + s.out.length + total Phase.slot s.phase
  le_maxSize : s.created ≤ s.options.maxSize
  closedLast : ClosedLast s.events
  /-- After `close`, with everything returned, each connection opened has been closed once. -/
  settled : s.closed = true → s.hands = [] → (∀ t, (s.phase t).Rests) →
    ∀ c < s.opened, s.events.count (.closed c) = 1

/-- A return that puts the connection back on `__idle` finds it in nobody else's hands. -/
def Own (s : ConnectionPool τ) : Turn τ → Prop
  | .release t c open_ =>
    s.phase t = .away → c ∈ s.out → s.closed = false → (open_ || s.options.resets) = false →
      c ∉ (s.handIn t c).lent
  | .resetDone t true =>
    ∀ c, s.phase t = .resetting c → c ∈ s.out → s.closed = false → c ∉ s.lent
  | _ => True

/-! ## Returned by someone else -/

theorem not_exclusive_giveBack {s : ConnectionPool τ} {t : τ} {c : ℕ} (hcl : s.closed = false)
    (hc : c ∈ s.lent) : ¬ (s.giveBack t c true).Exclusive := by
  have hr : ¬ (s.closed = true ∨ true = false) := by simp [hcl]
  rintro ⟨-, h⟩
  simp only [giveBack, if_neg hr] at h
  exact h c List.mem_cons_self hc

/-- A return that is not of the caller's own loan leaves the connection idle in someone's hands. -/
theorem not_exclusive_of_not_own {s : ConnectionPool τ} {a : Turn τ} (h : ¬ s.Own a) :
    ¬ (s.step a).Exclusive := by
  cases a with
  | release t c open_ =>
    simp only [Own, not_forall, not_not] at h
    obtain ⟨hp, hc, hcl, ho, hl⟩ := h
    have heq : s.step (.release t c open_) = (s.handIn t c).giveBack t c true := by
      have hc' : c ∈ (s.handIn t c).out := hc
      have ho' : (open_ || (s.handIn t c).options.resets) = false := ho
      simp only [step, hp, release, if_pos hc', ho', Bool.false_and, Bool.false_eq_true,
        if_false]
    rw [heq]
    exact not_exclusive_giveBack hcl hl
  | resetDone t reusable =>
    cases reusable with
    | false => exact absurd trivial h
    | true =>
      simp only [Own, not_forall, not_not] at h
      obtain ⟨c, hp, hc, hcl, hl⟩ := h
      have heq : s.step (.resetDone t true) = s.giveBack t c true := by
        simp only [step, hp, if_pos hc]
      rw [heq]
      exact not_exclusive_giveBack hcl hl
  | _ => exact absurd trivial h

/-! ## What is in hand is nowhere else -/

/-- `c` can be lent by the pool without opening it: it is idle, or about to be. -/
def Loose (s : ConnectionPool τ) (c : ℕ) : Prop :=
  c ∈ s.idle ∨ ∃ t, s.phase t = .validating c

/-- Each connection in hand is in one, and not the pool's to lend. -/
structure Held (s : ConnectionPool τ) : Prop where
  nodup : s.lent.Nodup
  not_loose : ∀ c ∈ s.lent, ¬ s.Loose c
  opened : ∀ c ∈ s.lent, c < s.opened

variable {s s' : ConnectionPool τ} {t : τ} {c : ℕ} {p : Phase}

omit [DecidableEq τ] in
theorem Held.exclusive (h : Held s) : s.Exclusive :=
  ⟨h.nodup, fun c hc hl => h.not_loose c hl (.inl hc)⟩

omit [DecidableEq τ] in
theorem Held.of_le (h : Held s) (hhands : s'.hands.Sublist s.hands)
    (hloose : ∀ c, s'.Loose c → s.Loose c) (hopened : s.opened = s'.opened) : Held s' := by
  have hl : s'.lent.Sublist s.lent := hhands.map _
  refine ⟨h.nodup.sublist hl, fun c hc hloo => ?_, fun c hc => ?_⟩
  · exact h.not_loose c (hl.subset hc) (hloose c hloo)
  · rw [← hopened]
    exact h.opened c (hl.subset hc)

theorem Loose.of_update (h : s'.Loose c) (t : τ) (p : Phase) (hidle : s'.idle ⊆ s.idle)
    (hphase : s'.phase = update s.phase t p)
    (hp : ∀ d, p = .validating d → s.Loose d) : s.Loose c := by
  rcases h with h | ⟨u, hu⟩
  · exact .inl (hidle h)
  · by_cases hut : u = t
    · subst hut
      rw [hphase, update_self] at hu
      exact hp c hu
    · rw [hphase, update_of_ne hut] at hu
      exact .inr ⟨u, hu⟩

/-- A thread goes on, and no connection changes places. -/
theorem Held.goes (h : Held s) (t : τ) (p : Phase) (hp : ∀ d, p ≠ .validating d)
    (hphase : s'.phase = update s.phase t p) (hhands : s'.hands = s.hands)
    (hidle : s'.idle = s.idle) (hopened : s.opened = s'.opened) : Held s' := by
  refine h.of_le (hhands ▸ List.Sublist.refl _) (fun _ hc => ?_) hopened
  exact hc.of_update t p (hidle ▸ List.Subset.refl _) hphase fun d hd => absurd hd (hp d)

theorem Held.goTo (h : Held s) (hp : ∀ d, p ≠ .validating d) : Held (s.goTo t p) :=
  h.goes t p hp rfl rfl rfl rfl

omit [DecidableEq τ] in
theorem Held.freed (h : Held s) : Held s.freed :=
  h.of_le (List.Sublist.refl _) (fun _ hc => hc) rfl

theorem Held.handIn (h : Held s) (t : τ) (c : ℕ) : Held (s.handIn t c) :=
  h.of_le (List.erase_sublist) (fun _ hc => hc) rfl

theorem Held.retire {idle out : List ℕ} (h : Held s) (hidle : idle ⊆ s.idle) :
    Held ({ s with idle := idle, out := out }.retire t c) :=
  Held.freed <| h.of_le (List.Sublist.refl _)
    (fun _ hc => hc.of_update t (.closing [c]) hidle rfl (by simp)) rfl

theorem Held.giveBack {reusable : Bool} (h : Held s)
    (hown : s.closed = false → reusable = true → c ∉ s.lent) : Held (s.giveBack t c reusable) := by
  by_cases hr : s.closed ∨ reusable = false
  · simp only [ConnectionPool.giveBack, if_pos hr]
    exact h.retire (List.Subset.refl _)
  · simp only [ConnectionPool.giveBack, if_neg hr]
    have hc : c ∉ s.lent := hown (by simp_all) (by simp_all)
    refine Held.freed ⟨h.nodup, ?_, h.opened⟩
    rintro d hd (hi | hv)
    · rcases List.mem_cons.1 hi with rfl | hi
      · exact hc hd
      · exact h.not_loose d hd (.inl hi)
    · have hl : (s.goTo t .away).Loose d := .inr hv
      exact h.not_loose d hd (hl.of_update t .away (List.Subset.refl _) rfl (by simp))

section Fintype

variable [Fintype τ]

theorem Accounts.not_loose_of_out (h : Accounts s) (hc : c ∈ s.out) : ¬ s.Loose c := by
  have hle := h.places_le_one c
  have hpos := List.count_pos_iff.2 hc
  have hnon := total_nonneg (Phase.has_nonneg c) s.phase
  simp only [ConnectionPool.places] at hle
  rintro (hi | ⟨t, ht⟩)
  · have := List.count_pos_iff.2 hi
    omega
  · have := le_total (Phase.has_nonneg c) s.phase t
    simp only [ht, Phase.has_eq, if_true] at this
    omega

theorem Held.lend (h : Held s) (ha : Accounts s') (hs' : s'.lent = c :: s.lent)
    (hc : c ∉ s.lent) (hout : c ∈ s'.out) (hloose : ∀ d, s'.Loose d → s.Loose d)
    (hopened : s.opened ≤ s'.opened) : Held s' := by
  refine ⟨?_, ?_, ?_⟩
  · rw [hs']
    exact List.nodup_cons.2 ⟨hc, h.nodup⟩
  · intro d hd
    rw [hs'] at hd
    rcases List.mem_cons.1 hd with rfl | hd
    · exact ha.not_loose_of_out hout
    · exact fun hl => h.not_loose d hd (hloose d hl)
  · intro d hd
    rw [hs'] at hd
    rcases List.mem_cons.1 hd with rfl | hd
    · refine ha.opened_of_places ?_
      have hpos := List.count_pos_iff.2 hout
      have hnon := total_nonneg (Phase.has_nonneg d) s'.phase
      simp only [ConnectionPool.places]
      omega
    · exact (h.opened d hd).trans_le hopened

theorem Held.tryTake (h : Held s) (ha : Accounts (s.tryTake t)) : Held (s.tryTake t) := by
  by_cases hcl : s.closed = true
  · simp only [ConnectionPool.tryTake, if_pos hcl]
    exact h.goTo (by simp)
  simp only [ConnectionPool.tryTake, if_neg hcl, take] at ha ⊢
  cases hidle : s.idle with
  | cons d rest =>
    have hloose : s.Loose d := .inl (by simp [hidle])
    have hrest : rest ⊆ s.idle := by simp [hidle]
    simp only [hidle] at ha ⊢
    by_cases hv : s.options.validates
    · simp only [if_pos hv]
      refine h.of_le (List.Sublist.refl _)
        (fun c hc => hc.of_update t (.validating d) hrest rfl ?_) rfl
      rintro e he
      cases he
      exact hloose
    · simp only [if_neg hv] at ha ⊢
      refine h.lend (c := d) ha rfl (fun hd => h.not_loose d hd hloose)
        (by simp [ConnectionPool.lend])
        (fun c hc => hc.of_update t .away hrest rfl (by simp)) le_rfl
  | nil =>
    simp only [hidle] at ha ⊢
    split
    · exact h.goes t .waiting (by simp) rfl rfl rfl rfl
    · exact h.goes t .opening (by simp) rfl rfl rfl rfl

/-- A turn that is no return of another's loan leaves every connection in hand in one. -/
theorem Held.step (h : Held s) (ha : Accounts s) {a : Turn τ} (hown : s.Own a) :
    Held (s.step a) := by
  have hacc := ha.step a
  cases a with
  | acquire t =>
    simp only [ConnectionPool.step] at hacc ⊢
    split <;> simp_all only
    · exact h.tryTake hacc
    · exact h.tryTake hacc
  | woken t =>
    simp only [ConnectionPool.step]
    split
    · split
      · exact h.goes t .looking (by simp) rfl rfl rfl rfl
      · exact h
    · exact h
  | slept t =>
    simp only [ConnectionPool.step]
    split
    · exact h.goes t .looking (by simp) rfl rfl rfl rfl
    · exact h
  | timedOut t =>
    simp only [ConnectionPool.step]
    split
    · exact h.goes t .away (by simp) rfl rfl rfl rfl
    · exact h
  | validated t healthy =>
    simp only [ConnectionPool.step] at hacc ⊢
    split
    · next c hp =>
      simp only [hp] at hacc
      split
      · next hh =>
        simp only [if_pos hh] at hacc
        refine h.lend (c := c) hacc rfl (fun hc => h.not_loose c hc (.inr ⟨t, hp⟩))
          (by simp [ConnectionPool.lend])
          (fun d hd => hd.of_update t .away (List.Subset.refl _) rfl (by simp)) le_rfl
      · exact h.goes t .unfit (by simp) rfl rfl rfl rfl
    · exact h
  | countOff t =>
    simp only [ConnectionPool.step] at hacc ⊢
    split
    · next hp =>
      simp only [hp] at hacc
      refine Held.tryTake ?_ hacc
      exact h.goes t .looking (by simp) rfl rfl rfl rfl
    · exact h
  | opened t ok =>
    simp only [ConnectionPool.step] at hacc ⊢
    split
    · next hp =>
      simp only [hp] at hacc
      split
      · next hh =>
        simp only [if_pos hh] at hacc
        refine h.lend (c := s.opened) hacc rfl (fun hc => absurd (h.opened _ hc) (lt_irrefl _))
          (by simp [ConnectionPool.lend])
          (fun d hd => hd.of_update t .away (List.Subset.refl _) rfl (by simp)) (Nat.le_succ _)
      · exact h.goes t .away (by simp) rfl rfl rfl rfl
    · exact h
  | release t c open_ =>
    simp only [ConnectionPool.step]
    split
    · next hp =>
      have h' := h.handIn t c
      simp only [ConnectionPool.release]
      split
      · next hc =>
        split
        · exact h'.goTo (by simp)
        · next ho =>
          refine h'.giveBack fun hcl _ => hown hp hc hcl ?_
          have ho' : ¬ ((open_ || s.options.resets) && !s.closed) = true := ho
          have hcl' : s.closed = false := hcl
          simpa [hcl'] using ho'
      · exact h'
    · exact h
  | resetDone t reusable =>
    simp only [ConnectionPool.step]
    split
    · next c hp =>
      split
      · next hc =>
        refine h.giveBack fun hcl hr => ?_
        subst hr
        exact hown c hp hc hcl
      · exact h.goTo (by simp)
    · exact h
  | discard t c =>
    simp only [ConnectionPool.step]
    split
    · have h' := h.handIn t c
      simp only [ConnectionPool.discard]
      split
      · exact h'.retire (List.Subset.refl _)
      · split
        · exact h'.retire List.erase_subset
        · exact h'
    · exact h
  | close t =>
    simp only [ConnectionPool.step]
    split
    · simp only [ConnectionPool.close]
      split
      · exact h
      · exact h.of_le (List.Sublist.refl _)
          (fun _ hc => hc.of_update t (.closing s.idle.reverse) (List.nil_subset _) rfl (by simp))
          rfl
    · exact h
  | closeConnection t =>
    simp only [ConnectionPool.step]
    split
    · next c cs hp =>
      exact h.goes t (.closing cs) (by simp) rfl rfl rfl rfl
    · exact h.goTo (by simp)
    · exact h

end Fintype

/-! ## Every connection comes back -/

/-- A connection that is out is in somebody's hands, or on its way back. -/
def OnLoan (s : ConnectionPool τ) : Prop :=
  ∀ c ∈ s.out, c ∈ s.lent ∨ ∃ t, s.phase t = .resetting c

theorem onLoan_of_update (t : τ) (p : Phase) (hphase : s'.phase = update s.phase t p)
    (h : ∀ d ∈ s'.out, d ∈ s'.lent ∨ p = .resetting d ∨
      s.phase t ≠ .resetting d ∧ ∃ u, s.phase u = .resetting d) : OnLoan s' := by
  intro d hd
  rw [hphase]
  rcases h d hd with hl | hp | ⟨hp, u, hu⟩
  · exact .inl hl
  · exact .inr ⟨t, by rw [update_self, hp]⟩
  · have hut : u ≠ t := by rintro rfl; exact hp hu
    exact .inr ⟨u, by rwa [update_of_ne hut]⟩

/-- A thread that is in no reset goes on, and returns nothing. -/
theorem OnLoan.goes (h : OnLoan s) (t : τ) (p : Phase) (hp : ∀ d, s.phase t ≠ .resetting d)
    (hphase : s'.phase = update s.phase t p) (hlent : s.lent ⊆ s'.lent)
    (hout : ∀ d ∈ s'.out, d ∈ s.out ∨ d ∈ s'.lent) : OnLoan s' := by
  refine onLoan_of_update t p hphase fun d hd => ?_
  rcases hout d hd with ho | hl
  · rcases h d ho with hl | hr
    · exact .inl (hlent hl)
    · exact .inr (.inr ⟨hp d, hr⟩)
  · exact .inl hl

/-- A thread that is in no reset goes on, and the lists and hands stay. -/
theorem OnLoan.passes (h : OnLoan s) (t : τ) (p : Phase) (hp : ∀ d, s.phase t ≠ .resetting d)
    (hphase : s'.phase = update s.phase t p) (hlent : s'.lent = s.lent) (hout : s'.out = s.out) :
    OnLoan s' :=
  h.goes t p hp hphase (hlent ▸ List.Subset.refl _) fun _ hd => .inl (hout ▸ hd)

/-- A thread that is in no reset is lent `c`. -/
theorem OnLoan.lends (h : OnLoan s) (t : τ) (hp : ∀ d, s.phase t ≠ .resetting d)
    (hphase : s'.phase = update s.phase t .away) (hlent : s'.lent = c :: s.lent)
    (hout : s'.out = s.out ++ [c]) : OnLoan s' := by
  refine h.goes t .away hp hphase (hlent ▸ List.subset_cons_self _ _) fun d hd => ?_
  rw [hout, List.mem_append, List.mem_singleton] at hd
  rcases hd with hd | rfl
  · exact .inl hd
  · exact .inr (hlent ▸ List.mem_cons_self)

theorem mem_lent_handIn {d : ℕ} (hd : d ∈ s.lent) (hdc : d ≠ c) : d ∈ (s.handIn t c).lent := by
  obtain ⟨⟨u, e⟩, hmem, rfl⟩ := List.mem_map.1 hd
  have hne : (u, e) ≠ (t, c) := fun he => hdc (congrArg Prod.snd he)
  exact List.mem_map.2 ⟨(u, e), (List.mem_erase_of_ne hne).2 hmem, rfl⟩

/-- A thread that hands `c` in, or was resetting it, goes on with `c` out no more. -/
theorem OnLoan.returns (h : OnLoan s) (t : τ) (p : Phase)
    (hp : ∀ d, d ≠ c → s.phase t ≠ .resetting d)
    (hphase : s'.phase = update s.phase t p)
    (hlent : (s.handIn t c).lent ⊆ s'.lent)
    (hout : ∀ d ∈ s'.out, d ∈ s.out ∧ (d ≠ c ∨ p = .resetting d)) : OnLoan s' := by
  refine onLoan_of_update t p hphase fun d hd => ?_
  obtain ⟨ho, hdc | hres⟩ := hout d hd
  · rcases h d ho with hl | hr
    · exact .inl (hlent (mem_lent_handIn hl hdc))
    · exact .inr (.inr ⟨hp d hdc, hr⟩)
  · exact .inr (.inl hres)

theorem OnLoan.tryTake (h : OnLoan s) (hp : ∀ d, s.phase t ≠ .resetting d) :
    OnLoan (s.tryTake t) := by
  by_cases hcl : s.closed = true
  · simp only [ConnectionPool.tryTake, if_pos hcl]
    exact h.passes t .away hp rfl rfl rfl
  simp only [ConnectionPool.tryTake, if_neg hcl, take]
  split
  · next c rest _ =>
    split
    · exact h.passes t (.validating c) hp rfl rfl rfl
    · exact h.lends t hp rfl rfl rfl
  · split
    · exact h.passes t .waiting hp rfl rfl rfl
    · exact h.passes t .opening hp rfl rfl rfl

section Fintype

variable [Fintype τ]

theorem Accounts.nodup_out (h : Accounts s) : s.out.Nodup := by
  refine List.nodup_iff_count_le_one.2 fun c => ?_
  have hle := h.places_le_one c
  have hnon := total_nonneg (Phase.has_nonneg c) s.phase
  simp only [ConnectionPool.places] at hle
  omega

/-- A connection taken out of `out` is out no more. -/
theorem Accounts.erase_out (h : Accounts s) (d : ℕ) (hd : d ∈ s.out.erase c) : d ∈ s.out ∧
    (d ≠ c ∨ p = .resetting d) :=
  ⟨List.mem_of_mem_erase hd, .inl fun hdc => h.nodup_out.not_mem_erase (hdc ▸ hd)⟩

theorem OnLoan.giveBack (h : OnLoan s) (ha : Accounts s) (hs : s' = s ∨ s' = s.handIn t c)
    (hp : ∀ d, d ≠ c → s.phase t ≠ .resetting d) (reusable : Bool) :
    OnLoan (s'.giveBack t c reusable) := by
  have hl : (s.handIn t c).lent ⊆ s.lent := (List.erase_sublist.map _).subset
  simp only [ConnectionPool.giveBack]
  rcases hs with rfl | rfl
  · split
    · exact h.returns t (.closing [c]) hp rfl hl ha.erase_out
    · exact h.returns t .away hp rfl hl ha.erase_out
  · split
    · exact h.returns t (.closing [c]) hp rfl (List.Subset.refl _) ha.erase_out
    · exact h.returns t .away hp rfl (List.Subset.refl _) ha.erase_out

theorem OnLoan.step (h : OnLoan s) (ha : Accounts s) (a : Turn τ) : OnLoan (s.step a) := by
  cases a with
  | acquire t =>
    simp only [ConnectionPool.step]
    split
    · next hp => exact h.tryTake (by simp [hp])
    · next hp => exact h.tryTake (by simp [hp])
    · exact h
  | woken t =>
    simp only [ConnectionPool.step]
    split
    · next hp =>
      split
      · exact h.passes t .looking (by simp [hp]) rfl rfl rfl
      · exact h
    · exact h
  | slept t =>
    simp only [ConnectionPool.step]
    split
    · next hp => exact h.passes t .looking (by simp [hp]) rfl rfl rfl
    · exact h
  | timedOut t =>
    simp only [ConnectionPool.step]
    split
    · next hp => exact h.passes t .away (by simp [hp]) rfl rfl rfl
    · exact h
  | validated t healthy =>
    simp only [ConnectionPool.step]
    split
    · next c hp =>
      split
      · exact h.lends t (by simp [hp]) rfl rfl rfl
      · exact h.passes t .unfit (by simp [hp]) rfl rfl rfl
    · exact h
  | countOff t =>
    simp only [ConnectionPool.step]
    split
    · next hp =>
      refine OnLoan.tryTake ?_ (by simp [ConnectionPool.goTo])
      exact h.passes t .looking (by simp [hp]) rfl rfl rfl
    · exact h
  | opened t ok =>
    simp only [ConnectionPool.step]
    split
    · next hp =>
      split
      · exact h.lends t (by simp [hp]) rfl rfl rfl
      · exact h.passes t .away (by simp [hp]) rfl rfl rfl
    · exact h
  | release t c open_ =>
    simp only [ConnectionPool.step]
    split
    · next hp =>
      simp only [ConnectionPool.release]
      split
      · split
        · refine h.returns (c := c) t (.resetting c) (by simp [hp]) rfl (List.Subset.refl _)
            fun d hd => ⟨hd, ?_⟩
          by_cases hdc : d = c
          · exact .inr (by rw [hdc])
          · exact .inl hdc
        · exact h.giveBack ha (.inr rfl) (by simp [hp]) true
      · next hc =>
        exact h.returns (c := c) t .away (by simp [hp]) (by
          rw [← hp, update_eq_self]; rfl) (List.Subset.refl _)
          fun d hd => ⟨hd, .inl fun he => hc (he ▸ hd)⟩
    · exact h
  | resetDone t reusable =>
    simp only [ConnectionPool.step]
    split
    · next c hp =>
      split
      · exact h.giveBack ha (.inl rfl) (by simp [hp]; tauto) reusable
      · next hc =>
        refine h.returns (c := c) t .away (by simp [hp]; tauto) rfl
          (List.erase_sublist.map _).subset
          fun d hd => ⟨hd, .inl fun he => hc (he ▸ hd)⟩
    · exact h
  | discard t c =>
    simp only [ConnectionPool.step]
    split
    · next hp =>
      simp only [ConnectionPool.discard]
      split
      · exact h.returns t (.closing [c]) (by simp [hp]) rfl (List.Subset.refl _) ha.erase_out
      · next hc =>
        split
        · exact h.returns (c := c) t (.closing [c]) (by simp [hp]) rfl (List.Subset.refl _)
            fun d hd => ⟨hd, .inl fun he => hc (he ▸ hd)⟩
        · exact h.returns (c := c) t .away (by simp [hp]) (by
            rw [← hp, update_eq_self]; rfl) (List.Subset.refl _)
            fun d hd => ⟨hd, .inl fun he => hc (he ▸ hd)⟩
    · exact h
  | close t =>
    simp only [ConnectionPool.step]
    split
    · next hp =>
      simp only [ConnectionPool.close]
      split
      · exact h
      · exact h.passes t (.closing s.idle.reverse) (by simp [hp]) rfl rfl rfl
    · exact h
  | closeConnection t =>
    simp only [ConnectionPool.step]
    split
    · next c cs hp =>
      exact h.passes t (.closing cs) (by simp [hp]) rfl rfl rfl
    · next hp => exact h.passes t .away (by simp [hp]) rfl rfl rfl
    · exact h

/-- With everything returned to a closed pool, each connection opened has been closed once. -/
theorem Accounts.settled (h : Accounts s) (ho : OnLoan s) (hcl : s.closed = true)
    (hh : s.hands = []) (hr : ∀ t, (s.phase t).Rests) (hc : c < s.opened) :
    s.events.count (.closed c) = 1 := by
  have hout : s.out = [] := by
    refine List.eq_nil_iff_forall_not_mem.2 fun d hd => ?_
    rcases ho d hd with hl | ⟨t, ht⟩
    · simp [lent, hh] at hl
    · have := hr t
      rw [ht] at this
      exact this
  have hhas : total (Phase.has c) s.phase = 0 := by
    refine Finset.sum_eq_zero fun t _ => ?_
    have := hr t
    cases hp : s.phase t <;> simp_all [Phase.Rests]
  have hpl := h.places c
  rw [ConnectionPool.places, h.idle hcl, hout, hhas, opened01, if_pos hc] at hpl
  simpa using hpl

/-! ## Every interleaving -/

/-- **The pool lends no connection twice** exactly as long as callers return their own loans.  In
every interleaving, what the pool promises holds of all states reached iff each return that puts a
connection back on `__idle` finds it in nobody else's hands. -/
theorem lendsOnce_iff (options : PoolOptions) (l : List (Turn τ)) :
    (∀ p, p <+: l → LendsOnce (run step (new options) p)) ↔ Along step Own (new options) l := by
  have hinv : ∀ p, Accounts (run step (new options : ConnectionPool τ) p) ∧
      OnLoan (run step (new options : ConnectionPool τ) p) := by
    refine run_invariant (P := fun s => Accounts s ∧ OnLoan s) ⟨accounts_new options, ?_⟩ ?_
    · intro c hc
      simp [new] at hc
    · intro s a h
      exact ⟨h.1.step a, h.2.step h.1 a⟩
  constructor
  · intro h
    induction l using List.reverseRecOn with
    | nil => exact along_nil
    | append_singleton l a ih =>
      refine (along_concat l a).2 ⟨ih fun p hp => h p (hp.trans (List.prefix_append _ _)), ?_⟩
      by_contra hown
      have := (h (l ++ [a]) (List.prefix_refl _)).exclusive
      rw [run_concat] at this
      exact not_exclusive_of_not_own hown this
  · rintro hl p ⟨q, rfl⟩
    have hheld : Accounts (run step (new options) p) ∧ Held (run step (new options) p) := by
      refine run_invariant_along (P := fun s => Accounts s ∧ Held s) ⟨accounts_new options, ?_⟩
        (fun s a h hown => ⟨h.1.step a, h.2.step h.1 hown⟩) ((along_append p q).1 hl).1
      exact ⟨List.nodup_nil, by simp [new, lent], by simp [new, lent]⟩
    obtain ⟨hacc, hloan⟩ := hinv p
    exact ⟨hheld.2.exclusive, hacc.created, hacc.le_maxSize, hacc.closedLast,
      fun hcl hh hr c hc => hacc.settled hloan hcl hh hr hc⟩

end Fintype

/-- Thread `0` returns the only connection twice, the second time after thread `1` was lent it;
thread `2` is then lent it as well. -/
theorem twice_returned_twice_lent :
    ¬ LendsOnce (run step (new ⟨1, false, false, le_rfl⟩ : ConnectionPool (Fin 3))
      [.acquire 0, .opened 0 true, .release 0 0 false, .acquire 1, .release 0 0 false,
        .acquire 2]) := by
  intro h
  have hlent : (run step (new ⟨1, false, false, le_rfl⟩ : ConnectionPool (Fin 3))
      [.acquire 0, .opened 0 true, .release 0 0 false, .acquire 1, .release 0 0 false,
        .acquire 2]).lent = [0, 0] := by decide +kernel
  have hnodup := h.exclusive.1
  exact absurd hnodup (by decide)

end ConnectionPool

end CrossByte
