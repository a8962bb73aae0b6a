import CrossByte.RPC.DeadlinesHeap

/-!
# No deadline is missed

The invariant of `RPCDeadlines` over every run: the arrays are a heap whose calls
record their places, and every entry ever added is either still held, or was
expired, or left, and only one of these.  While the scheduler gives every timer it
is asked for, one is set at or before every due time outside `__fired` (`Armed`).

A firing is the part of a run from `fire` to the next `finish`; whatever its
handlers did in between, `deadlines_are_kept` says which calls it expired and in
which order.
-/

namespace CrossByte

open SlotHeap

namespace RPCDeadlines

variable {τ : Type*}

/-- The entries waiting. -/
def held (s : RPCDeadlines τ) : Multiset (Entry τ) := s.table.held s.count

variable [LinearOrder τ] {clock : Clock τ} {s : RPCDeadlines τ} {call : ℕ} {e : Entry τ}

open Table (Comparable key)

structure Valid (s : RPCDeadlines τ) : Prop where
  ordered : s.table.Ordered s.count
  comparable : Comparable s.held
  added_eq : s.added = BitVec.ofNat 32 s.trace.added.length
  serials : s.trace.added.map Entry.serial = List.range s.trace.added.length
  conserved : (s.trace.added : Multiset (Entry τ)) =
    s.held + (s.trace.expired.map Prod.fst : List (Entry τ)) + (s.trace.left : List (Entry τ))
  room : 0 < s.capacity ∧ s.count ≤ s.capacity
  unarmed : s.firing ≠ none → s.timer = false ∧ s.live = false

/-- A timer is set for the calls held, and is one the scheduler has. -/
structure Armed (s : RPCDeadlines τ) : Prop where
  live : s.timer = true → s.live = true
  set : s.firing = none → 0 < s.count → s.timer = true ∧ ∀ e ∈ s.held, s.timerDue ≤ e.due

theorem Valid.mem_added (h : s.Valid) (he : e ∈ s.held) : e ∈ s.trace.added := by
  rw [← Multiset.mem_coe, h.conserved]
  simp [he]

theorem Valid.serial_lt (h : s.Valid) (he : e ∈ s.trace.added) :
    e.serial < s.trace.added.length := by
  rw [← List.mem_range, ← h.serials]
  exact List.mem_map_of_mem he

theorem Valid.serial_inj (h : s.Valid) {f : Entry τ} (he : e ∈ s.trace.added)
    (hf : f ∈ s.trace.added) (hef : e.serial = f.serial) : e = f := by
  have hnodup : (s.trace.added.map Entry.serial).Nodup := by
    rw [h.serials]
    exact List.nodup_range
  exact List.inj_on_of_nodup_map hnodup he hf hef

/-- The calls of the entries held are different calls. -/
theorem Valid.nodup_calls (h : s.Valid) : (s.held.map Entry.call).Nodup := by
  unfold held Table.held elements
  rw [Multiset.map_map]
  refine (Multiset.nodup_range s.count).map_on fun i hi j hj hij => ?_
  exact h.ordered.places.call_inj (Multiset.mem_range.1 hi) (Multiset.mem_range.1 hj) hij

/-! ## Letting go

What `leave`, `__disarm` and `clear` have in common: they take entries out, and
touch nothing else that the invariant reads. -/

/-- The state after some of the entries held were let go. -/
structure LetsGo (s s' : RPCDeadlines τ) : Prop where
  ordered : s'.table.Ordered s'.count
  added : s'.added = s.added
  timer : (s'.timer = s.timer ∧ s'.live = s.live ∧ s'.timerDue = s.timerDue) ∨
    (s'.timer = false ∧ s'.live = false ∧ s'.count = 0)
  firing : s'.firing = s.firing
  traceAdded : s'.trace.added = s.trace.added
  traceExpired : s'.trace.expired = s.trace.expired
  gone : ∃ l : List (Entry τ), s'.trace.left = s.trace.left ++ l ∧ s.held = s'.held + l
  room : 0 < s'.capacity ∧ s'.count ≤ s'.capacity

variable {s' s₀ : RPCDeadlines τ} {i : ℕ} {t : Table τ} {milliseconds : ℤ} {now : τ} {a : Step τ}

theorem LetsGo.held_le (h : LetsGo s s') : s'.held ≤ s.held := by
  obtain ⟨l, -, hheld⟩ := h.gone
  rw [hheld]
  exact Multiset.le_add_right _ _

theorem LetsGo.valid (h : LetsGo s s') (hs : s.Valid) : s'.Valid where
  ordered := h.ordered
  comparable := hs.comparable.mono h.held_le
  added_eq := by rw [h.added, h.traceAdded, hs.added_eq]
  serials := by rw [h.traceAdded, hs.serials]
  conserved := by
    obtain ⟨l, hleft, hheld⟩ := h.gone
    rw [h.traceAdded, h.traceExpired, hs.conserved, hleft, hheld, ← Multiset.coe_add]
    abel
  room := h.room
  unarmed := by
    intro hfiring
    rcases h.timer with ⟨htimer, hlive, -⟩ | ⟨htimer, hlive, -⟩
    · rw [htimer, hlive]
      exact hs.unarmed (h.firing ▸ hfiring)
    · exact ⟨htimer, hlive⟩

theorem LetsGo.armed (h : LetsGo s s') (hs : s.Armed) : s'.Armed where
  live := by
    intro hset
    rcases h.timer with ⟨htimer, hlive, -⟩ | ⟨htimer, -⟩
    · rw [hlive]
      exact hs.live (htimer ▸ hset)
    · simp [htimer] at hset
  set := by
    intro hfiring hcount
    rcases h.timer with ⟨htimer, -, hdue⟩ | ⟨-, -, hzero⟩
    · have hpos : 0 < s.count := by
        rw [Nat.pos_iff_ne_zero]
        intro hzero
        have hempty : s.held = 0 := by simp [held, hzero, Table.held, elements]
        have hmem := Multiset.mem_of_le h.held_le (Table.mem_held_of_lt (t := s'.table) hcount)
        simp [hempty] at hmem
      obtain ⟨harmed, hle⟩ := hs.set (h.firing ▸ hfiring) hpos
      rw [htimer, hdue]
      exact ⟨harmed, fun e he => hle e (Multiset.mem_of_le h.held_le he)⟩
    · omega

theorem LetsGo.shrink (h : LetsGo s s') : LetsGo s s'.shrink := by
  unfold RPCDeadlines.shrink
  split
  · rename_i hsmall
    exact ⟨h.ordered, h.added, h.timer, h.firing, h.traceAdded, h.traceExpired, h.gone,
      Nat.succ_pos 15, by simp [hsmall.1]⟩
  · exact h

section

variable (h : s.Valid)

include h

theorem Valid.letsGo_setDeadline (hnot : ∀ e ∈ s.held, e.call ≠ call) (d : ℤ) :
    LetsGo s { s with table := s.table.setDeadline call d } where
  ordered := by
    refine ⟨h.ordered.heap, fun i hi => ?_⟩
    have hne : (s.table.slots i).call ≠ call := hnot _ (Table.mem_held_of_lt hi)
    exact (Function.update_of_ne hne _ _).trans (h.ordered.places i hi)
  added := rfl
  timer := .inl ⟨rfl, rfl, rfl⟩
  firing := rfl
  traceAdded := rfl
  traceExpired := rfl
  gone := ⟨[], by simp, by simp; rfl⟩
  room := h.room

/-- Taking the entry at `i` out of a table that differs in the place its call records only. -/
theorem Valid.removeAt_spec (hi : i < s.count) (hslots : t.slots = s.table.slots)
    (hplaces : ∀ j < s.count, j ≠ i → t.deadline (s.table.slots j).call = deadlineOf j) :
    (t.removeAt (s.count - 1) i).Ordered (s.count - 1) ∧
      s.table.slots i ::ₘ (t.removeAt (s.count - 1) i).held (s.count - 1) = s.held := by
  obtain ⟨n, hn⟩ : ∃ n, s.count = n + 1 := ⟨s.count - 1, by omega⟩
  have hheld : t.held s.count = s.held := by
    unfold held Table.held elements
    rw [show Table.store.get t = t.slots from rfl, hslots]
    rfl
  have hheap : IsHeap Table.store key s.count t := by
    intro j hj hpos
    rw [Table.store_get, Table.store_get, hslots]
    exact h.ordered.heap j hj hpos
  have hX : Comparable (t.held s.count) := hheld ▸ h.comparable
  rw [hn] at hheap hplaces hi hX hheld
  have hspec := Table.removeAt_spec hheap (by rwa [hslots]) hi hX
  rw [hslots, hheld] at hspec
  rwa [hn]

theorem Valid.letsGo_refl : LetsGo s s :=
  ⟨h.ordered, rfl, .inl ⟨rfl, rfl, rfl⟩, rfl, rfl, rfl, ⟨[], by simp, by simp⟩, h.room⟩

/-- The part of `leave` past its check. -/
theorem Valid.letsGo_removeAt (hi : i < s.count) (hslots : t.slots = s.table.slots)
    (hplaces : ∀ j < s.count, j ≠ i → t.deadline (s.table.slots j).call = deadlineOf j) :
    LetsGo s (shrink { removeAt { s with table := t } i with
      trace := { s.trace with left := s.trace.left ++ [t.slots i] } }) := by
  obtain ⟨hord, hheld⟩ := h.removeAt_spec hi hslots hplaces
  refine LetsGo.shrink ⟨hord, rfl, .inl ⟨rfl, rfl, rfl⟩, rfl, rfl, rfl, ⟨[t.slots i], rfl, ?_⟩, ?_⟩
  · rw [← hheld, hslots, add_comm]
    rfl
  · exact ⟨h.room.1, (Nat.sub_le _ _).trans h.room.2⟩

theorem Valid.letsGo_leave (call : ℕ) (d : ℤ) : LetsGo s (s.leave call d) := by
  unfold leave
  dsimp only
  split
  · exact h.letsGo_refl
  · exact h.letsGo_removeAt (by omega) rfl fun j hj _ => h.ordered.places j hj

theorem Valid.place_of_held (he : e ∈ s.held) :
    ∃ i < s.count, s.table.slots i = e ∧ s.table.deadline e.call = deadlineOf i := by
  obtain ⟨i, hi, rfl⟩ := mem_elements.1 he
  exact ⟨i, hi, rfl, h.ordered.places i hi⟩

/-- `__disarm` lets the call go if it is held, and it is not held after. -/
theorem Valid.disarm_spec (call : ℕ) :
    LetsGo s (s.disarm call true) ∧ ∀ e ∈ (s.disarm call true).held, e.call ≠ call := by
  set d := s.table.deadline call with hd
  by_cases hheld : ∃ e ∈ s.held, e.call = call
  · -- `d` is its place
    obtain ⟨e, he, rfl⟩ := hheld
    obtain ⟨i, hi, rfl, hdi⟩ := h.place_of_held he
    set call := (s.table.slots i).call with hcall
    obtain ⟨hnot, hisPlace, hi'⟩ : d ≠ invalid ∧ isPlace d = true ∧ (-2 - d).toNat = i := by
      rw [hd, hdi]
      unfold deadlineOf invalid isPlace
      exact ⟨by omega, decide_eq_true (by omega), by omega⟩
    have hplaces : ∀ j < s.count, j ≠ i →
        (s.table.setDeadline call invalid).deadline (s.table.slots j).call = deadlineOf j := by
      intro j hj hne
      have hcj : (s.table.slots j).call ≠ call := fun hcj =>
        hne (h.ordered.places.call_inj hj hi hcj)
      exact (Function.update_of_ne hcj _ _).trans (h.ordered.places j hj)
    have heq : s.disarm call true =
        shrink { removeAt { s with table := s.table.setDeadline call invalid } i with
          trace := { s.trace with left := s.trace.left ++ [s.table.slots i] } } := by
      have hcheck : ¬ (i ≥ s.count ∨ (s.table.slots i).call ≠ call) :=
        not_or.2 ⟨hi.not_ge, by simp [hcall]⟩
      unfold disarm leave
      simp only [← hd, hnot, hisPlace, and_self, if_true, if_false, hi']
      exact if_neg hcheck
    rw [heq]
    have hspec := h.removeAt_spec (t := s.table.setDeadline call invalid) hi rfl hplaces
    refine ⟨h.letsGo_removeAt (t := s.table.setDeadline call invalid) hi rfl hplaces, ?_⟩
    intro f hf hfc
    have hf' : f ∈ (removeAt { s with table := s.table.setDeadline call invalid } i).held := by
      unfold shrink at hf
      split at hf <;> exact hf
    -- two entries of one call would be one entry too many
    have hnodup := h.nodup_calls
    rw [← hspec.2, Multiset.map_cons, Multiset.nodup_cons] at hnodup
    exact hnodup.1 (Multiset.mem_map.2 ⟨f, hf', hfc⟩)
  · have hnone : ∀ e ∈ s.held, e.call ≠ call := fun e he hc => hheld ⟨e, he, hc⟩
    have hset := h.letsGo_setDeadline hnone invalid
    have hmiss : ∀ d', leave { s with table := s.table.setDeadline call invalid } call d' =
        { s with table := s.table.setDeadline call invalid } := by
      intro d'
      unfold leave
      rw [if_pos]
      by_cases hlt : (-2 - d').toNat ≥ s.count
      · exact .inl hlt
      · exact .inr (hnone _ (Table.mem_held_of_lt (not_le.1 hlt)))
    unfold disarm
    dsimp only
    rw [hmiss, ite_self]
    split
    · exact ⟨h.letsGo_refl, hnone⟩
    · exact ⟨hset, hnone⟩

theorem Valid.letsGo_clear : LetsGo s s.clear :=
  LetsGo.shrink
    { ordered := ⟨fun j hj => absurd hj (Nat.not_lt_zero j), fun j hj => absurd hj (Nat.not_lt_zero j)⟩
      added := rfl
      timer := .inr ⟨rfl, rfl, rfl⟩
      firing := rfl
      traceAdded := rfl
      traceExpired := rfl
      gone := ⟨_, rfl, (zero_add _).symm⟩
      room := ⟨h.room.1, Nat.zero_le _⟩ }

end

/-! ## Adding, expiring and finishing -/

/-- An entry added now would be fewer than `2 ^ 31` additions from those due when it is. -/
def Spaced (clock : Clock τ) (s : RPCDeadlines τ) : Step τ → Prop
  | .arm call milliseconds now _ => 0 < milliseconds →
      ∀ e ∈ (s.disarm call true).held, e.due = clock.after now milliseconds →
        s.trace.added.length < e.serial + 2 ^ 31
  | _ => True

/-- A call answered leaves the heap it is in: its commands are bound to this session. -/
def Step.Bound : Step τ → Prop
  | .answer _ bound => bound = true
  | _ => True

/-- Where the scheduler is asked for a timer, it gives one. -/
def Step.Given : Step τ → Prop
  | .arm _ _ _ given => given = true
  | .finish given => given = true
  | _ => True

/-- The entry `add` makes. -/
def newEntry (clock : Clock τ) (s : RPCDeadlines τ) (call : ℕ) (milliseconds : ℤ) (now : τ) :
    Entry τ :=
  ⟨call, clock.after now milliseconds, milliseconds, s.added, s.trace.added.length⟩

theorem Valid.comparable_cons (h : s.Valid)
    (hspaced : ∀ e ∈ s.held, e.due = clock.after now milliseconds →
      s.trace.added.length < e.serial + 2 ^ 31) :
    Comparable (s.newEntry clock call milliseconds now ::ₘ s.held) where
  order := by
    intro e he
    rcases Multiset.mem_cons.1 he with rfl | he
    · exact h.added_eq
    · exact h.comparable.order e he
  spaced := by
    intro e he f hf hdue
    rcases Multiset.mem_cons.1 he with rfl | he <;> rcases Multiset.mem_cons.1 hf with rfl | hf
    · omega
    · have := h.serial_lt (h.mem_added hf)
      exact this.trans_le (Nat.le_add_right _ _)
    · exact hspaced e he hdue
    · exact h.comparable.spaced e he f hf hdue

theorem Valid.add (h : s.Valid) (milliseconds : ℤ) (now : τ) (given : Bool)
    (hnot : ∀ e ∈ s.held, e.call ≠ call)
    (hspaced : ∀ e ∈ s.held, e.due = clock.after now milliseconds →
      s.trace.added.length < e.serial + 2 ^ 31) :
    (s.add clock call milliseconds now given).Valid ∧
      (s.add clock call milliseconds now given).held =
        s.newEntry clock call milliseconds now ::ₘ s.held := by
  set e := s.newEntry clock call milliseconds now
  have hX : Comparable (e ::ₘ s.held) := h.comparable_cons hspaced
  obtain ⟨hord, hheld⟩ := Table.add_spec (e := e) h.ordered hnot hX
  -- the state before the timer is looked at
  set s' : RPCDeadlines τ :=
    { s with
      capacity := if s.count = s.capacity then s.capacity * 2 else s.capacity
      table := (s.table.put s.count e).up s.count
      count := s.count + 1
      added := s.added + 1
      trace := { s.trace with added := s.trace.added ++ [e] } } with hs'
  have hadd : s.add clock call milliseconds now given =
      if s.firing = none ∧ (s.timer = false ∨ e.due < s.timerDue) then s'.arm e.due given
      else s' := rfl
  have hheld' : s'.held = e ::ₘ s.held := hheld
  have hadded : s.added + 1 = BitVec.ofNat 32 (s.trace.added ++ [e]).length := by
    rw [h.added_eq, List.length_append, BitVec.ofNat_add]
    rfl
  have hserials : (s.trace.added ++ [e]).map Entry.serial =
      List.range (s.trace.added ++ [e]).length := by
    rw [List.map_append, h.serials, List.length_append, List.length_singleton, List.range_succ]
    rfl
  have hconserved : ((s.trace.added ++ [e] : List (Entry τ)) : Multiset (Entry τ)) =
      e ::ₘ s.held + (s.trace.expired.map Prod.fst : List (Entry τ)) +
        (s.trace.left : List (Entry τ)) := by
    rw [← Multiset.coe_add, h.conserved, ← Multiset.singleton_add]
    abel_nf
    rfl
  have hroom : 0 < s'.capacity ∧ s'.count ≤ s'.capacity := by
    have := h.room
    simp only [hs']
    split <;> omega
  have hv : s'.Valid :=
    ⟨hord, hheld' ▸ hX, hadded, hserials, hheld' ▸ hconserved, hroom, h.unarmed⟩
  rw [hadd]
  split
  · rename_i harm
    exact ⟨{ hv with unarmed := fun hfiring => absurd harm.1 hfiring }, hheld'⟩
  · exact ⟨hv, hheld'⟩

/-- A call added sets the timer unless it is set for as soon. -/
theorem Armed.add (h : s.Armed)
    (hheld : (s.add clock call milliseconds now true).held =
      s.newEntry clock call milliseconds now ::ₘ s.held) :
    (s.add clock call milliseconds now true).Armed := by
  set e := s.newEntry clock call milliseconds now
  have hpos : ∀ f ∈ s.held, 0 < s.count := fun f hf => by
    obtain ⟨j, hj, -⟩ := mem_elements.1 hf
    omega
  refine ⟨?_, ?_⟩
  · unfold RPCDeadlines.add
    dsimp only
    split
    · exact fun _ => rfl
    · exact h.live
  · rw [hheld]
    unfold RPCDeadlines.add
    dsimp only
    split
    · rename_i harm
      refine fun _ _ => ⟨Bool.or_true _, fun f hf => ?_⟩
      rcases Multiset.mem_cons.1 hf with rfl | hf
      · exact le_rfl
      · obtain ⟨htimer, hle⟩ := h.set harm.1 (hpos f hf)
        exact (harm.2.resolve_left (by simp [htimer])).le.trans (hle f hf)
    · rename_i harm
      intro hfiring _
      have hset : ¬ (s.timer = false ∨ e.due < s.timerDue) := fun hor => harm ⟨hfiring, hor⟩
      rw [not_or, Bool.not_eq_false, not_lt] at hset
      refine ⟨hset.1, fun f hf => ?_⟩
      rcases Multiset.mem_cons.1 hf with rfl | hf
      · exact hset.2
      · exact (h.set hfiring (hpos f hf)).2 f hf

theorem Valid.expire (h : s.Valid) (hcount : 0 < s.count) :
    s.expire.Valid ∧ s.held = s.table.slots 0 ::ₘ s.expire.held := by
  obtain ⟨hord, hheld⟩ := h.removeAt_spec (t := s.table) hcount rfl fun j hj _ =>
    h.ordered.places j hj
  have hle : (s.removeAt 0).held ≤ s.held := by
    rw [← hheld]
    exact Multiset.le_cons_self _ _
  refine ⟨⟨⟨hord.heap, fun i hi => ?_⟩, h.comparable.mono hle, h.added_eq, h.serials, ?_,
    ⟨h.room.1, (Nat.sub_le _ _).trans h.room.2⟩, h.unarmed⟩, hheld.symm⟩
  · -- the call taken out is none of those left
    have hnodup := h.nodup_calls
    rw [← hheld, Multiset.map_cons, Multiset.nodup_cons] at hnodup
    have hne : ((s.removeAt 0).table.slots i).call ≠ (s.table.slots 0).call := fun hc =>
      hnodup.1 (Multiset.mem_map.2 ⟨_, Table.mem_held_of_lt hi, hc⟩)
    exact (Function.update_of_ne hne _ _).trans (hord.places i hi)
  · change (s.trace.added : Multiset (Entry τ)) = (s.removeAt 0).held +
      ((s.trace.expired ++ [(s.table.slots 0, s.trace.added.length)]).map Prod.fst :
        List (Entry τ)) + (s.trace.left : List (Entry τ))
    rw [h.conserved, ← hheld, List.map_append, ← Multiset.coe_add]
    change {s.table.slots 0} + (s.removeAt 0).held + _ + _ =
      (s.removeAt 0).held + (_ + {s.table.slots 0}) + _
    abel

theorem Valid.finish (h : s.Valid) (given : Bool) :
    (s.finish given).Valid ∧ (s.finish given).held = s.held := by
  unfold RPCDeadlines.finish
  dsimp only
  split
  · exact ⟨{ h with unarmed := fun hfiring => absurd rfl hfiring }, rfl⟩
  · have hv : Valid { s with firing := none } :=
      { h with unarmed := fun hfiring => absurd rfl hfiring }
    refine ⟨(hv.letsGo_refl.shrink).valid hv, ?_⟩
    unfold shrink
    split <;> rfl

/-- A firing takes its timer, so at its end one is set for the first call held. -/
theorem Valid.armed_finish (h : s.Valid) (hfiring : s.firing ≠ none) : (s.finish true).Armed := by
  have htimer := (h.unarmed hfiring).1
  unfold RPCDeadlines.finish
  dsimp only
  split
  · refine ⟨fun _ => rfl, fun _ _ => ⟨Bool.or_true _, fun e he => ?_⟩⟩
    exact (Prod.Lex.toLex_le_toLex'.1 (h.ordered.root_le he)).1
  · rename_i hset
    have hzero : s.count = 0 := by simpa [htimer] using hset
    unfold shrink
    split
    · exact ⟨by simp [htimer], by simp [hzero]⟩
    · exact ⟨by simp [htimer], by simp [hzero]⟩

theorem Valid.step (h : s.Valid) (he : s.Enabled clock a) (hs : s.Spaced clock a)
    (hb : a.Bound) : (s.step clock a).Valid := by
  cases a with
  | arm call milliseconds now given =>
    obtain ⟨hgo, hnot⟩ := h.disarm_spec call
    have hv := hgo.valid h
    change (armCall clock s call milliseconds now given).Valid
    unfold armCall
    split
    · exact hv
    · rename_i hms
      refine (hv.add milliseconds now given hnot ?_).1
      rw [hgo.traceAdded]
      exact hs (not_le.1 hms)
  | answer call bound =>
    obtain rfl : bound = true := hb
    exact (h.disarm_spec call).1.valid h
  | leave call d => exact (h.letsGo_leave call d).valid h
  | clear => exact h.letsGo_clear.valid h
  | throws error =>
    exact { h with }
  | fire now =>
    exact { h with unarmed := fun _ => ⟨rfl, rfl⟩ }
  | expire =>
    obtain ⟨now, hnow, hdue⟩ := he
    exact (h.expire hdue.1).1
  | finish given => exact (h.finish given).1

/-- Given every timer it asks for, the heap has one set for the calls it holds. -/
theorem Armed.step (harmed : s.Armed) (h : s.Valid) (he : s.Enabled clock a)
    (hs : s.Spaced clock a) (hb : a.Bound) (hgiven : a.Given) : (s.step clock a).Armed := by
  cases a with
  | arm call milliseconds now given =>
    obtain rfl : given = true := hgiven
    obtain ⟨hgo, hnot⟩ := h.disarm_spec call
    change (armCall clock s call milliseconds now true).Armed
    unfold armCall
    split
    · exact hgo.armed harmed
    · rename_i hms
      refine (hgo.armed harmed).add ((hgo.valid h).add milliseconds now true hnot ?_).2
      rw [hgo.traceAdded]
      exact hs (not_le.1 hms)
  | answer call bound =>
    obtain rfl : bound = true := hb
    exact (h.disarm_spec call).1.armed harmed
  | leave call d => exact (h.letsGo_leave call d).armed harmed
  | clear => exact h.letsGo_clear.armed harmed
  | throws error => exact ⟨harmed.live, harmed.set⟩
  | fire now => exact ⟨fun hset => absurd hset Bool.false_ne_true, fun hnone => nomatch hnone⟩
  | expire =>
    obtain ⟨now, hnow, -⟩ := he
    refine ⟨harmed.live, fun hnone => ?_⟩
    change s.firing = none at hnone
    rw [hnone] at hnow
    cases hnow
  | finish given =>
    obtain rfl : given = true := hgiven
    obtain ⟨now, hnow, -⟩ := he
    exact h.armed_finish (by rw [Option.mem_def.1 hnow]; simp)

/-- A run of steps the code can take, with the entries due at one time fewer than `2 ^ 31`
additions apart, and no call answered while its commands are bound to another session. -/
def Proper (clock : Clock τ) : RPCDeadlines τ → List (Step τ) → Prop :=
  Runs.Along (step clock) fun s a => s.Enabled clock a ∧ s.Spaced clock a ∧ a.Bound

/-- The expired entry `p` was before `e`, or `e` was only added once `p` had expired. -/
def Precedes (p : Entry τ × ℕ) (e : Entry τ) : Prop :=
  p.1.due < e.due ∨ p.1.due = e.due ∧ p.1.serial < e.serial ∨ p.2 ≤ e.serial

/-- What a handler can do to the entries: let some go, and add some. -/
structure Grows (s s' : RPCDeadlines τ) : Prop where
  firing : s'.firing = s.firing
  added : s.trace.added <+: s'.trace.added
  left : s.trace.left <+: s'.trace.left
  expired : s'.trace.expired = s.trace.expired
  held : ∀ e ∈ s'.held, e ∈ s.held ∨ s.trace.added.length ≤ e.serial

theorem LetsGo.grows (h : LetsGo s s') : Grows s s' where
  firing := h.firing
  added := h.traceAdded ▸ List.prefix_refl _
  left := by
    obtain ⟨l, hleft, -⟩ := h.gone
    exact ⟨l, hleft.symm⟩
  expired := h.traceExpired
  held := fun _ he => .inl (Multiset.mem_of_le h.held_le he)

theorem add_frame (clock : Clock τ) (s : RPCDeadlines τ) (call : ℕ) (milliseconds : ℤ) (now : τ)
    (given : Bool) : (s.add clock call milliseconds now given).firing = s.firing ∧
      (s.add clock call milliseconds now given).trace =
        { s.trace with added := s.trace.added ++ [s.newEntry clock call milliseconds now] } := by
  unfold RPCDeadlines.add
  dsimp only
  split <;> exact ⟨rfl, rfl⟩

theorem Valid.grows_armCall {given : Bool} (h : s.Valid)
    (hs : s.Spaced clock (.arm call milliseconds now given)) :
    Grows s (s.armCall clock call milliseconds now given) := by
  obtain ⟨hgo, hnot⟩ := h.disarm_spec call
  unfold armCall
  split
  · exact hgo.grows
  · rename_i hms
    have hheld := ((hgo.valid h).add milliseconds now given
      hnot (by rw [hgo.traceAdded]; exact hs (not_le.1 hms))).2
    obtain ⟨hfiring, htrace⟩ := add_frame clock (s.disarm call true) call milliseconds now given
    refine ⟨hfiring.trans hgo.firing, ?_, ?_, ?_, fun e he => ?_⟩
    · rw [htrace, hgo.traceAdded]
      exact List.prefix_append _ _
    · rw [htrace]
      exact hgo.grows.left
    · rw [htrace]
      exact hgo.traceExpired
    · rw [hheld] at he
      rcases Multiset.mem_cons.1 he with rfl | he
      · exact .inr (by rw [← hgo.traceAdded]; exact le_rfl)
      · exact hgo.grows.held e he

/-- The state of a firing in progress since `s₀`. -/
structure Firing (clock : Clock τ) (s₀ : RPCDeadlines τ) (now : τ) (s : RPCDeadlines τ) :
    Prop where
  firing : s.firing = some now
  added : s₀.trace.added <+: s.trace.added
  left : s₀.trace.left <+: s.trace.left
  expired : ∃ fired, s.trace.expired = s₀.trace.expired ++ fired ∧
    (∀ p ∈ fired, p.1.due ≤ clock.slack now ∧ p.2 ≤ s.trace.added.length ∧
      ∀ e ∈ s.held, Precedes p e) ∧
    fired.Pairwise fun p q => Precedes p q.1

section

variable (h : Firing clock s₀ now s)

include h

theorem Firing.grows (hg : Grows s s') : Firing clock s₀ now s' where
  firing := hg.firing.trans h.firing
  added := h.added.trans hg.added
  left := h.left.trans hg.left
  expired := by
    obtain ⟨fired, heq, hall, hpair⟩ := h.expired
    refine ⟨fired, hg.expired.trans heq, fun p hp => ?_, hpair⟩
    obtain ⟨hdue, hlen, hheld⟩ := hall p hp
    refine ⟨hdue, hlen.trans hg.added.length_le, fun e he => ?_⟩
    rcases hg.held e he with he | hnew
    · exact hheld e he
    · exact .inr (.inr (hlen.trans hnew))

theorem Firing.expire (hv : s.Valid) (hdue : s.Due clock now) : Firing clock s₀ now s.expire := by
  obtain ⟨hv', hheld⟩ := hv.expire hdue.1
  obtain ⟨fired, heq, hall, hpair⟩ := h.expired
  have hroot : s.table.slots 0 ∈ s.held := Table.mem_held_of_lt hdue.1
  refine ⟨h.firing, h.added, h.left, fired ++ [(s.table.slots 0, s.trace.added.length)], ?_, ?_,
    ?_⟩
  · change s.trace.expired ++ [_] = _
    rw [heq, List.append_assoc]
    rfl
  · intro p hp
    rcases List.mem_append.1 hp with hp | hp
    · obtain ⟨hpdue, hlen, hpheld⟩ := hall p hp
      refine ⟨hpdue, hlen, fun e he => hpheld e ?_⟩
      rw [hheld]
      exact Multiset.mem_cons_of_mem he
    · obtain rfl := List.mem_singleton.1 hp
      refine ⟨hdue.2, le_rfl, fun e he => ?_⟩
      have hmem : e ∈ s.held := by
        rw [hheld]
        exact Multiset.mem_cons_of_mem he
      -- the root is first, and is another entry
      have hne : (s.table.slots 0).serial ≠ e.serial := by
        intro hser
        obtain rfl := hv.serial_inj (hv.mem_added hroot) (hv.mem_added hmem) hser
        have hnodup := hv.nodup_calls
        rw [hheld, Multiset.map_cons, Multiset.nodup_cons] at hnodup
        exact hnodup.1 (Multiset.mem_map_of_mem _ he)
      rcases Prod.Lex.toLex_le_toLex.1 (hv.ordered.root_le hmem) with hlt | ⟨hd, hle⟩
      · exact .inl hlt
      · exact .inr (.inl ⟨hd, lt_of_le_of_ne hle hne⟩)
  · rw [List.pairwise_append]
    refine ⟨hpair, List.pairwise_singleton _ _, fun p hp q hq => ?_⟩
    obtain rfl := List.mem_singleton.1 hq
    exact (hall p hp).2.2 _ hroot

theorem Firing.step (hv : s.Valid) (he : s.Enabled clock a) (hs : s.Spaced clock a)
    (hb : a.Bound) (hne : ∀ given, a ≠ .finish given) :
    Firing clock s₀ now (s.step clock a) := by
  cases a with
  | arm call milliseconds now given => exact h.grows (hv.grows_armCall hs)
  | answer call bound =>
    obtain rfl : bound = true := hb
    exact h.grows (hv.disarm_spec call).1.grows
  | leave call d => exact h.grows (hv.letsGo_leave call d).grows
  | clear => exact h.grows hv.letsGo_clear.grows
  | throws error =>
    exact h.grows ⟨rfl, List.prefix_refl _, List.prefix_refl _, rfl, fun _ he => .inl he⟩
  | fire t =>
    -- no timer is set during a firing
    have hlive : s.live = true := he
    simp [hv.unarmed (by rw [h.firing]; simp)] at hlive
  | expire =>
    obtain ⟨t, ht, hdue⟩ := he
    obtain rfl : now = t := Option.some.inj (h.firing.symm.trans (Option.mem_def.1 ht))
    exact h.expire hv hdue
  | finish given => exact absurd rfl (hne given)

theorem Firing.run {mid : List (Step τ)} (hv : s.Valid) (hl : Proper clock s mid)
    (hmid : ∀ given, Step.finish given ∉ mid) :
    Firing clock s₀ now (Runs.run (RPCDeadlines.step clock) s mid) := by
  induction mid generalizing s with
  | nil => exact h
  | cons a mid ih =>
    have hne : ∀ given, a ≠ .finish given := by
      rintro given rfl
      exact hmid given List.mem_cons_self
    obtain ⟨⟨he, hs, hb⟩, hl⟩ := hl
    exact ih (h.step hv he hs hb hne) (hv.step he hs hb) hl
      fun given hin => hmid given (List.mem_cons_of_mem a hin)

end

instance (clock : Clock τ) (s : RPCDeadlines τ) : ∀ a, Decidable (s.Enabled clock a)
  | .arm _ _ _ _ => inferInstanceAs (Decidable True)
  | .answer _ _ => inferInstanceAs (Decidable True)
  | .leave _ _ => inferInstanceAs (Decidable (_ = _))
  | .clear => inferInstanceAs (Decidable True)
  | .throws _ => inferInstanceAs (Decidable (_ ≠ none))
  | .fire _ => inferInstanceAs (Decidable (_ = _))
  | .expire => inferInstanceAs (Decidable (∃ now ∈ s.firing, s.Due clock now))
  | .finish _ => inferInstanceAs (Decidable (∃ now ∈ s.firing, ¬ s.Due clock now))

instance (clock : Clock τ) (s : RPCDeadlines τ) : ∀ a, Decidable (s.Spaced clock a)
  | .arm call milliseconds now _ => inferInstanceAs (Decidable (0 < milliseconds →
      ∀ e ∈ (s.disarm call true).held, e.due = clock.after now milliseconds →
        s.trace.added.length < e.serial + 2 ^ 31))
  | .answer _ _ => inferInstanceAs (Decidable True)
  | .leave _ _ => inferInstanceAs (Decidable True)
  | .clear => inferInstanceAs (Decidable True)
  | .throws _ => inferInstanceAs (Decidable True)
  | .fire _ => inferInstanceAs (Decidable True)
  | .expire => inferInstanceAs (Decidable True)
  | .finish _ => inferInstanceAs (Decidable True)

instance : ∀ a : Step τ, Decidable a.Bound
  | .answer _ _ => inferInstanceAs (Decidable (_ = _))
  | .arm _ _ _ _ => inferInstanceAs (Decidable True)
  | .leave _ _ => inferInstanceAs (Decidable True)
  | .clear => inferInstanceAs (Decidable True)
  | .throws _ => inferInstanceAs (Decidable True)
  | .fire _ => inferInstanceAs (Decidable True)
  | .expire => inferInstanceAs (Decidable True)
  | .finish _ => inferInstanceAs (Decidable True)

instance (clock : Clock τ) (s : RPCDeadlines τ) (l : List (Step τ)) :
    Decidable (Proper clock s l) :=
  inferInstanceAs (Decidable (Runs.Along _ _ _ _))

/-- An answer that comes when the call's commands are bound to another session leaves the call in
the heap, with no place recorded. -/
theorem held_without_place :
    let s := Runs.run (step nanoseconds) init [.arm 1 5 0 true, .answer 1 false]
    s.count = 1 ∧ (s.table.slots 0).call = 1 ∧ s.table.deadline 1 = invalid := by decide

end RPCDeadlines
end CrossByte
