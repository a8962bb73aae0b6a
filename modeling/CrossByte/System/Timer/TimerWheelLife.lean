import CrossByte.System.Timer.TimerWheel

/-!
# The wheel keeps its books

Every call of `TimerWheel`, and every part of a pass, keeps the wheel in order: the books are sound with
the nodes in the buckets and the overflow for those queued, and every node knows its bucket.
What it takes is that the calls are steady (`SteadyOnWheel`): a callback neither moves its own
timer while that is paused nor pauses it once it has moved or resumed it, and no timer is
resumed that was cleared lazily and never paused, since `__link` would link its node a second
time.

## Main results

* `perform_goes`, `reap_keeps`, `InOrder.startFiring`, `InOrder.settle`, `admitOverflow_keeps`: the
  calls and the parts of a pass keep the wheel in order while everything is steady;
* `run_quiet`: between turns no callback is running.
-/

namespace CrossByte

open TimerBook Function

/-! ## The ring and the overflow -/

namespace WheelPlaces

/-- Every node of the ring and of the overflow, as often as it is there. -/
def all (p : WheelPlaces) : Multiset ℕ :=
  (∑ i ∈ Finset.range bucketCount, (p.buckets i : Multiset ℕ)) + (p.overflow : Multiset ℕ)

/-- Every node knows its bucket. -/
structure Lined (p : WheelPlaces) : Prop where
  bucket : ∀ i, ∀ n ∈ p.buckets i, p.bucketOf n = some i
  overflow : ∀ n ∈ p.overflow, p.bucketOf n = none
  lt : ∀ n i, p.bucketOf n = some i → i < bucketCount

variable {p : WheelPlaces} {n i : ℕ}

theorem lined_new : Lined {} := ⟨nofun, nofun, nofun⟩

theorem mem_all : n ∈ p.all ↔ (∃ i < bucketCount, n ∈ p.buckets i) ∨ n ∈ p.overflow := by
  simp [all]

theorem sum_write (p : WheelPlaces) (hi : i < bucketCount) (l : List ℕ) :
    (p.buckets i : Multiset ℕ) +
        ∑ j ∈ Finset.range bucketCount, ((update p.buckets i l j : List ℕ) : Multiset ℕ) =
      (l : Multiset ℕ) + ∑ j ∈ Finset.range bucketCount, (p.buckets j : Multiset ℕ) := by
  have hmem := Finset.mem_range.2 hi
  have hrest : ∀ j ∈ (Finset.range bucketCount).erase i,
      ((update p.buckets i l j : List ℕ) : Multiset ℕ) = (p.buckets j : Multiset ℕ) := by
    intro j hj
    rw [update_of_ne (Finset.ne_of_mem_erase hj)]
  rw [← Finset.add_sum_erase _ _ hmem, ← Finset.add_sum_erase (Finset.range bucketCount)
    (fun j => (p.buckets j : Multiset ℕ)) hmem, Finset.sum_congr rfl hrest, update_self]
  exact add_left_comm _ _ _

theorem all_link (p : WheelPlaces) (cursor : ℕ) (ticks : ℤ) (n : ℕ) :
    (p.link cursor ticks n).all = n ::ₘ p.all := by
  unfold link
  split
  · change _ + ((p.overflow ++ [n] : List ℕ) : Multiset ℕ) = _
    rw [← Multiset.coe_add, ← add_assoc, add_comm, Multiset.coe_singleton]
    rfl
  · have hsum := sum_write p (Nat.mod_lt (cursor + ticks.toNat) bucketCount_pos)
      (p.buckets ((cursor + ticks.toNat) % bucketCount) ++ [n])
    rw [← Multiset.coe_add, add_assoc, Multiset.coe_singleton, Multiset.singleton_add] at hsum
    unfold all
    rw [add_left_cancel hsum, Multiset.cons_add]

theorem Lined.link (h : Lined p) (cursor : ℕ) (ticks : ℤ) (hn : n ∉ p.all) :
    Lined (p.link cursor ticks n) := by
  have hbucket : ∀ i, n ∉ p.buckets i := fun i hi =>
    hn (mem_all.2 (.inl ⟨i, h.lt n i (h.bucket i n hi), hi⟩))
  have hover : n ∉ p.overflow := fun ho => hn (mem_all.2 (.inr ho))
  unfold WheelPlaces.link
  split
  · refine ⟨fun i m hm => ?_, fun m hm => ?_, fun m i hm => ?_⟩
    · have hmn : m ≠ n := fun heq => hbucket i (heq ▸ hm)
      exact (update_of_ne hmn ..).trans (h.bucket i m hm)
    · by_cases hmn : m = n
      · subst hmn
        exact update_self ..
      · refine (update_of_ne hmn ..).trans (h.overflow m ?_)
        simpa [hmn] using hm
    · by_cases hmn : m = n
      · subst hmn
        cases (update_self ..).symm.trans hm
      · exact h.lt m i ((update_of_ne hmn ..).symm.trans hm)
  · refine ⟨fun i m hm => ?_, fun m hm => ?_, fun m i hm => ?_⟩
    · by_cases hi : i = (cursor + ticks.toNat) % bucketCount
      · subst hi
        change m ∈ update p.buckets _ _ _ at hm
        rw [update_self, List.mem_append, List.mem_singleton] at hm
        by_cases hmn : m = n
        · subst hmn
          exact update_self ..
        · exact (update_of_ne hmn ..).trans (h.bucket _ m (hm.resolve_right hmn))
      · change m ∈ update p.buckets _ _ _ at hm
        rw [update_of_ne hi] at hm
        have hmn : m ≠ n := fun heq => hbucket i (heq ▸ hm)
        exact (update_of_ne hmn ..).trans (h.bucket i m hm)
    · have hmn : m ≠ n := fun heq => hover (heq ▸ hm)
      exact (update_of_ne hmn ..).trans (h.overflow m hm)
    · by_cases hmn : m = n
      · subst hmn
        change update p.bucketOf m _ m = some i at hm
        rw [update_self] at hm
        obtain rfl := Option.some.inj hm
        exact Nat.mod_lt _ bucketCount_pos
      · exact h.lt m i ((update_of_ne hmn ..).symm.trans hm)

/-- A node in a bucket is in no other and not in the overflow. -/
theorem Lined.all_unlinkFrom (h : Lined p) (hn : p.bucketOf n = some i) :
    (p.unlinkFrom i n).all = p.all.erase n := by
  have hi := h.lt n i hn
  have hsum := sum_write p hi ((p.buckets i).erase n)
  by_cases hmem : n ∈ p.buckets i
  · have hcons : (p.buckets i : Multiset ℕ) = n ::ₘ ((p.buckets i).erase n : List ℕ) := by
      rw [← Multiset.coe_erase, Multiset.cons_erase (Multiset.mem_coe.2 hmem)]
    rw [hcons, Multiset.cons_add, ← Multiset.add_cons] at hsum
    have hall : p.all = n ::ₘ (p.unlinkFrom i n).all := by
      unfold all WheelPlaces.unlinkFrom
      rw [← add_left_cancel hsum, Multiset.cons_add]
    rw [hall, Multiset.erase_cons_head]
  · have hnone : n ∉ p.all := by
      intro hall
      rcases mem_all.1 hall with ⟨j, -, hj⟩ | ho
      · obtain rfl := Option.some.inj (hn.symm.trans (h.bucket j n hj))
        exact hmem hj
      · cases hn.symm.trans (h.overflow n ho)
    rw [Multiset.erase_of_notMem hnone]
    rw [List.erase_of_not_mem hmem] at hsum
    unfold all WheelPlaces.unlinkFrom
    rw [List.erase_of_not_mem hmem, add_left_cancel hsum]

/-- **Unlinking takes the node out.** -/
theorem Lined.all_unlink (h : Lined p) (n : ℕ) : (p.unlink n).all = p.all.erase n := by
  unfold WheelPlaces.unlink
  split
  · rename_i i hi
    exact h.all_unlinkFrom hi
  · rename_i hnone
    have hring : n ∉ (∑ i ∈ Finset.range bucketCount, (p.buckets i : Multiset ℕ)) := by
      intro hmem
      obtain ⟨i, -, hi⟩ := Multiset.mem_sum.1 hmem
      cases hnone.symm.trans (h.bucket i n hi)
    unfold all
    rw [Multiset.erase_add_right_neg _ hring, Multiset.coe_erase]

theorem Lined.unlinkFrom (h : Lined p) (hn : p.bucketOf n = some i) (hnodup : p.all.Nodup) :
    Lined (p.unlinkFrom i n) := by
  have hall := h.all_unlinkFrom hn
  have hgone : n ∉ (p.unlinkFrom i n).all := by
    rw [hall]
    exact fun hmem => (hnodup.mem_erase_iff.1 hmem).1 rfl
  have hsub : ∀ j m, m ∈ (p.unlinkFrom i n).buckets j → m ∈ p.buckets j := by
    intro j m hm
    change m ∈ update p.buckets i _ j at hm
    by_cases hj : j = i
    · subst hj
      rw [update_self] at hm
      exact List.mem_of_mem_erase hm
    · rwa [update_of_ne hj] at hm
  refine ⟨fun j m hm => ?_, fun m hm => ?_, fun m j hm => ?_⟩
  · have hold := h.bucket j m (hsub j m hm)
    have hmn : m ≠ n := by
      rintro rfl
      exact hgone (mem_all.2 (.inl ⟨j, h.lt m j hold, hm⟩))
    exact (update_of_ne hmn ..).trans hold
  · by_cases hmn : m = n
    · subst hmn
      exact update_self ..
    · exact (update_of_ne hmn ..).trans (h.overflow m hm)
  · by_cases hmn : m = n
    · subst hmn
      cases (update_self ..).symm.trans hm
    · exact h.lt m j ((update_of_ne hmn ..).symm.trans hm)

theorem Lined.unlink (h : Lined p) (hnodup : p.all.Nodup) (n : ℕ) : Lined (p.unlink n) := by
  unfold WheelPlaces.unlink
  split
  · rename_i i hi
    exact h.unlinkFrom hi hnodup
  · exact ⟨h.bucket, fun m hm => h.overflow m (List.mem_of_mem_erase hm), h.lt⟩

end WheelPlaces

/-! ## The calls -/

namespace TimerEvent

/-- Steady, and no timer is resumed that was not paused. -/
def SteadyOnWheel : TimerEvent → Prop
  | .resumed _ parked _ => parked = true
  | e => e.Steady

instance : DecidablePred SteadyOnWheel := fun e =>
  match e with
  | .resumed _ parked _ => inferInstanceAs (Decidable (parked = true))
  | .moved h firing parked => inferInstanceAs (Decidable (Steady (.moved h firing parked)))
  | .paused h firing rearmed => inferInstanceAs (Decidable (Steady (.paused h firing rearmed)))
  | .ran h callback held => inferInstanceAs (Decidable (Steady (.ran h callback held)))
  | .armed .. | .cleared .. | .returned _ | .retired _ => instDecidableTrue

end TimerEvent

namespace TimerWheel

/-- The books are sound for the nodes in the ring and the overflow, and these know where they
are. -/
structure InOrder (s : TimerWheel) : Prop where
  sound : s.book.Sound s.places.all fun _ => False
  lined : s.places.Lined

/-- Everything that happened was steady. -/
def Steadily (s : TimerWheel) : Prop := ∀ e ∈ s.book.log, e.SteadyOnWheel

variable {s : TimerWheel} {h n : ℕ}

theorem Steadily.retire (hs : Steadily s) (n : ℕ) : Steadily (s.retire n) := by
  intro e he
  rcases mem_retire_log he with he | ⟨g, rfl⟩
  · exact hs e he
  · trivial

theorem inOrder_new : InOrder {} := by
  refine ⟨?_, WheelPlaces.lined_new⟩
  have hall : ({} : WheelPlaces).all = 0 := by
    simp [WheelPlaces.all]
  rw [hall]
  exact sound_new

theorem InOrder.unlinked (hs : InOrder s) (n : ℕ) :
    s.book.Sound (s.places.unlink n).all (fun _ => False) ∧ n ∉ (s.places.unlink n).all ∧
      (s.places.unlink n).Lined := by
  rw [hs.lined.all_unlink n]
  exact ⟨hs.sound.le (Multiset.erase_le n _),
    fun hmem => (hs.sound.nodup.mem_erase_iff.1 hmem).1 rfl,
    hs.lined.unlink hs.sound.nodup n⟩

variable {index : ℕ} {s' s'' : TimerWheel}

section

variable (hs : InOrder s)

include hs

theorem InOrder.unlinkedFrom (hn : n ∈ s.places.buckets index) :
    (s.places.unlinkFrom index n).all = s.places.all.erase n ∧
      s.book.Sound (s.places.unlinkFrom index n).all (fun _ => False) ∧
      n ∉ (s.places.unlinkFrom index n).all ∧ (s.places.unlinkFrom index n).Lined ∧
      n ∈ s.places.all := by
  have hindex := hs.lined.bucket index n hn
  have hall := hs.lined.all_unlinkFrom hindex
  rw [hall]
  exact ⟨rfl, hs.sound.le (Multiset.erase_le n _),
    fun hmem => (hs.sound.nodup.mem_erase_iff.1 hmem).1 rfl,
    hs.lined.unlinkFrom hindex hs.sound.nodup,
    WheelPlaces.mem_all.2 (.inl ⟨index, hs.lined.lt n index hindex, hn⟩)⟩

/-- A live node in no place, neither called nor paused, may be armed. -/
theorem InOrder.arm (hh : s.book.table h = some n) (hn : n ∉ s.places.all)
    (hfiring : (s.node n).firing = false) (hpaused : (s.node n).isPaused = false) :
    InOrder (s.arm n) := by
  refine ⟨?_, hs.lined.link _ _ hn⟩
  change s.book.Sound (s.places.link s.cursor _ n).all _
  rw [WheelPlaces.all_link]
  exact hs.sound.place hh hn hfiring hpaused

theorem InOrder.create (time interval : ℚ) (callback : ℕ) :
    InOrder (s.create time interval callback).2 := by
  unfold TimerWheel.create
  split
  · exact hs
  · rename_i handle n book hc
    obtain ⟨hsound, htable, hn, hnode, -⟩ := hs.sound.arm hc
    let s' : TimerWheel := { s with book := book }
    have hs' : InOrder s' := ⟨hsound, hs.lined⟩
    have hnode' : s'.node n = .rearm handle time interval callback := hnode
    exact hs'.arm htable hn (by rw [hnode']; rfl) (by rw [hnode']; rfl)

theorem InOrder.clear (handle : ℕ) (immediate : Bool) : InOrder (s.clear handle immediate).2 := by
  unfold TimerWheel.clear
  cases hh : s.book.table handle with
  | none => exact hs
  | some n =>
    dsimp only
    split
    · obtain ⟨hsound, hn, hlined⟩ := hs.unlinked n
      exact ⟨hsound.cleared hh hn immediate (by simp), hlined⟩
    · rename_i hlazy
      obtain rfl : immediate = false := by simpa using hlazy
      split
      · rename_i hpaused
        exact ⟨hs.sound.cleared hh (hs.sound.not_mem_of_paused hpaused) false (by simp), hs.lined⟩
      · exact ⟨hs.sound.lapsed hh, hs.lined⟩

theorem InOrder.reschedule (handle : ℕ) (time : ℚ)
    (hsteady : Steadily (s.reschedule handle time).2) : InOrder (s.reschedule handle time).2 := by
  unfold TimerWheel.reschedule at hsteady ⊢
  cases hh : s.book.table handle with
  | none => exact hs
  | some n =>
    rw [hh] at hsteady
    dsimp only at hsteady ⊢
    split
    · rename_i hfiring
      rw [if_pos hfiring] at hsteady
      have hmoved := hsteady _ (List.mem_append_right _ List.mem_cons_self)
      exact ⟨hs.sound.moved_firing hh hfiring hmoved time, hs.lined⟩
    · rename_i hfiring
      rw [Bool.not_eq_true] at hfiring
      obtain ⟨hsound, hn, hlined⟩ := hs.unlinked n
      let s' : TimerWheel :=
        ((s.note (.moved handle (s.node n).firing (s.node n).isPaused)).set n
          { s.node n with time := time }).unlink n
      have hs' : InOrder s' := ⟨hsound.moved hh hfiring time, hlined⟩
      split
      · rename_i hrun
        rw [Bool.and_eq_true, Bool.not_eq_true'] at hrun
        have hnode : s'.node n = { s.node n with time := time } := update_self ..
        refine hs'.arm (h := handle) hh hn ?_ ?_
        · rw [hnode]
          exact hfiring
        · rw [hnode]
          exact hrun.2
      · exact hs'

theorem InOrder.setEnabledBy (handle : ℕ) (enabled : Bool) (policy : ResumePolicy) (time : ℚ)
    (hsteady : Steadily (s.setEnabledBy handle enabled policy time).2) :
    InOrder (s.setEnabledBy handle enabled policy time).2 := by
  unfold TimerWheel.setEnabledBy at hsteady ⊢
  cases hh : s.book.table handle with
  | none => exact hs
  | some n =>
    rw [hh] at hsteady
    dsimp only at hsteady ⊢
    by_cases hsame : (s.node n).enabled = enabled
    · rw [if_pos hsame]
      exact hs
    rw [if_neg hsame] at hsteady ⊢
    cases enabled with
    | false =>
      have hpaused := hsteady _ (List.mem_append_right _ List.mem_cons_self)
      obtain ⟨hsound, hn, hlined⟩ := hs.unlinked n
      exact ⟨hsound.paused hh hn hpaused _, hlined⟩
    | true =>
      rw [if_neg (by decide)] at hsteady ⊢
      obtain ⟨hres, -, -, -, hfire, -⟩ :=
        Fits.resume_fields (s.node n) policy (if time ≠ 0 then time else s.now)
      split
      · exact ⟨hs.sound.resumed hh policy _ _ _ fun _ => rfl, hs.lined⟩
      · rename_i hfiring
        rw [if_neg hfiring] at hsteady
        rw [Bool.not_eq_true] at hfiring
        have hpaused : (s.node n).isPaused = true :=
          hsteady _ (List.mem_append_right _ List.mem_cons_self)
        have hn := hs.sound.not_mem_of_paused hpaused
        let s' : TimerWheel := (s.note (.resumed handle (s.node n).isPaused false)).set n
          ((s.node n).resume policy (if time ≠ 0 then time else s.now))
        have hs' : InOrder s' := ⟨hs.sound.resumed hh policy _ _ _
          fun h => absurd (hfiring.symm.trans h) Bool.false_ne_true, hs.lined⟩
        have hnode : s'.node n = (s.node n).resume policy (if time ≠ 0 then time else s.now) :=
          update_self ..
        refine hs'.arm (h := handle) hh hn ?_ ?_
        · rw [hnode]
          exact hfire.trans hfiring
        · rw [hnode]
          exact hres

end

/-! ## What a callback cannot do -/

/-- The log goes on, and callbacks that were running still are. -/
structure Within (s s' : TimerWheel) : Prop where
  log : s.book.log <+: s'.book.log
  firing : ∀ n, (s.node n).firing = true → (s'.node n).firing = true

/-- No callback is running that was not. -/
def Quiets (s s' : TimerWheel) : Prop :=
  ∀ m, (s'.node m).firing = true → (s.node m).firing = true

/-- No callback is running that was not, and what was linked stays on record. -/
def Onward (s s' : TimerWheel) : Prop := Quiets s s' ∧ s.links <+: s'.links

theorem Onward.refl (s : TimerWheel) : Onward s s := ⟨fun _ => id, List.prefix_rfl⟩

theorem Onward.trans (h : Onward s s') (h' : Onward s' s'') :
    Onward s s'' := ⟨fun m hm => h.1 m (h'.1 m hm), h.2.trans h'.2⟩

/-- What a call that makes no timer does. -/
structure Steers (s s' : TimerWheel) : Prop extends Within s s' where
  onward : Onward s s'

theorem Steers.refl (s : TimerWheel) : Steers s s :=
  ⟨⟨List.prefix_rfl, fun _ => id⟩, .refl s⟩

/-- A node is written with its `firing` as it is, and an event is told. -/
theorem steers_touch (n : ℕ) {t : TimerNode} {es : List TimerEvent}
    (hlog : s'.book.log = s.book.log ++ es) (hnodes : s'.book.nodes = update s.book.nodes n t)
    (ht : t.firing = (s.node n).firing) (hlinks : s.links <+: s'.links) : Steers s s' := by
  have hfiring : ∀ m, (s'.node m).firing = (s.node m).firing := fun m => by
    have hset := set_firing s.book n m ht
    rwa [set_nodes, ← hnodes] at hset
  exact ⟨⟨⟨es, hlog.symm⟩, fun m hm => (hfiring m).trans hm⟩,
    fun m hm => (hfiring m).symm.trans hm, hlinks⟩

theorem clear_steers (s : TimerWheel) (handle : ℕ) (immediate : Bool) :
    Steers s (s.clear handle immediate).2 := by
  unfold TimerWheel.clear
  cases hh : s.book.table handle with
  | none => exact .refl s
  | some n =>
    have hretire : ∀ p : WheelPlaces, Steers s { s with
        book := (s.book.note (.cleared handle immediate)).retire n false, places := p } := by
      refine fun p => ⟨⟨?_, fun m hm => (retire_firing _ n false m).trans hm⟩,
        fun m hm => (retire_firing (s.book.note _) n false m).symm.trans hm, List.prefix_rfl⟩
      exact (List.prefix_append _ _).trans (log_prefix_retire (s.book.note _) n false)
    dsimp only
    split
    · exact hretire _
    · split
      · exact hretire _
      · exact steers_touch n rfl rfl rfl List.prefix_rfl

theorem reschedule_steers (s : TimerWheel) (handle : ℕ) (time : ℚ) :
    Steers s (s.reschedule handle time).2 := by
  unfold TimerWheel.reschedule
  cases hh : s.book.table handle with
  | none => exact .refl s
  | some n =>
    dsimp only
    split
    · exact steers_touch n rfl rfl rfl List.prefix_rfl
    · split
      · exact steers_touch n rfl rfl rfl (List.prefix_append _ _)
      · exact steers_touch n rfl rfl rfl List.prefix_rfl

theorem setEnabledBy_steers (s : TimerWheel) (handle : ℕ) (enabled : Bool)
    (policy : ResumePolicy) (time : ℚ) :
    Steers s (s.setEnabledBy handle enabled policy time).2 := by
  unfold TimerWheel.setEnabledBy
  cases hh : s.book.table handle with
  | none => exact .refl s
  | some n =>
    have hresume := (Fits.resume_fields (s.node n) policy
      (if time ≠ 0 then time else s.now)).2.2.2.2.1
    dsimp only
    split
    · exact .refl s
    · split
      · exact steers_touch n rfl rfl rfl List.prefix_rfl
      · split
        · exact steers_touch n rfl rfl hresume List.prefix_rfl
        · exact steers_touch n rfl rfl hresume (List.prefix_append _ _)

/-! ## A pass -/

/-- The log goes on; from a wheel in order, and while everything is steady, the wheel stays in
order and the callbacks that were running still are. -/
def Goes (s s' : TimerWheel) : Prop :=
  s.book.log <+: s'.book.log ∧
    (InOrder s → Steadily s' → InOrder s' ∧ ∀ n, (s.node n).firing = true →
      (s'.node n).firing = true)

theorem Goes.refl (s : TimerWheel) : Goes s s := ⟨List.prefix_rfl, fun hs _ => ⟨hs, fun _ => id⟩⟩

theorem Goes.trans (h : Goes s s') (h' : Goes s' s'') : Goes s s'' := by
  refine ⟨h.1.trans h'.1, fun hs hsteady => ?_⟩
  obtain ⟨hs', hfiring⟩ := h.2 hs fun e he => hsteady e (h'.1.subset he)
  obtain ⟨hs'', hfiring'⟩ := h'.2 hs' hsteady
  exact ⟨hs'', fun n hn => hfiring' n (hfiring n hn)⟩

theorem Within.goes (h : Within s s') (hs' : InOrder s → Steadily s' → InOrder s') : Goes s s' :=
  ⟨h.log, fun hs hsteady => ⟨hs' hs hsteady, h.firing⟩⟩

/-- Fields that neither the books nor the places read may change. -/
theorem goes_of_eq (hbook : s'.book = s.book) (hplaces : s'.places = s.places) : Goes s s' := by
  refine Within.goes ⟨by rw [hbook], fun n hn => ?_⟩ fun hs _ => ⟨?_, ?_⟩
  · unfold node
    rw [hbook]
    exact hn
  · rw [hbook, hplaces]
    exact hs.sound
  · rw [hplaces]
    exact hs.lined

theorem create_goes (s : TimerWheel) (time interval : ℚ) (callback : ℕ) :
    Goes s (s.create time interval callback).2 := by
  refine ⟨?_, fun hs _ => ⟨hs.create time interval callback, fun m hm => ?_⟩⟩
  · unfold TimerWheel.create
    split
    · exact List.prefix_rfl
    · rename_i handle n book hc
      exact create_log hc
  · unfold TimerWheel.create
    split
    · exact hm
    · rename_i handle n book hc
      exact (congrArg TimerNode.firing (hs.sound.create_nodes hc hm)).trans hm

/-- What holds after a call: it makes a timer, clears, moves or enables one, or does nothing. -/
theorem perform_rule {P : TimerWheel → Prop} (c : TimerCall) (hs : P s)
    (hcreate : ∀ time interval callback, P (s.create time interval callback).2)
    (hclear : ∀ handle immediate, P (s.clear handle immediate).2)
    (hmove : ∀ handle time, P (s.reschedule handle time).2)
    (henable : ∀ handle enabled policy time, c = .setEnabled handle enabled policy time →
      P (s.setEnabledBy handle enabled policy time).2) : P (s.perform c) := by
  cases c with
  | setTimeout delay callback => exact hcreate _ _ _
  | setInterval delay interval callback =>
    change P (s.setInterval delay interval callback).2
    unfold TimerWheel.setInterval
    split
    · exact hcreate _ _ _
    · exact hs
  | clear handle immediate => exact hclear handle immediate
  | reschedule handle time => exact hmove handle time
  | delay handle dt =>
    change P (s.delay handle dt).2
    unfold TimerWheel.delay
    split
    · exact hs
    · split
      · exact hs
      · exact hmove handle _
  | setEnabled handle enabled policy time => exact henable handle enabled policy time rfl

/-- **Every call keeps the wheel in order.** -/
theorem perform_goes (s : TimerWheel) (c : TimerCall) : Goes s (s.perform c) :=
  perform_rule (P := Goes s) c (.refl s) (create_goes s)
    (fun handle immediate =>
      (clear_steers s handle immediate).goes fun hs _ => hs.clear handle immediate)
    (fun handle time => (reschedule_steers s handle time).goes fun hs => hs.reschedule handle time)
    fun handle enabled policy time _ => (setEnabledBy_steers s handle enabled policy time).goes
      fun hs => hs.setEnabledBy handle enabled policy time

theorem foldl_perform_goes (calls : List TimerCall) (s : TimerWheel) :
    Goes s (calls.foldl perform s) := by
  induction calls generalizing s with
  | nil => exact .refl s
  | cons c calls ih => exact (perform_goes s c).trans (ih (s.perform c))

theorem InOrder.startFiring (hs : InOrder s) (hn : n ∈ s.places.buckets index) :
    InOrder ((s.unlinkFrom index n).startFiring n) ∧
      (((s.unlinkFrom index n).startFiring n).node n).firing = true := by
  obtain ⟨-, hsound, hgone, hlined, hmem⟩ := hs.unlinkedFrom hn
  obtain ⟨⟨handle, hhandle⟩, -, hpaused⟩ := hs.sound.placed n hmem
  refine ⟨⟨hsound.called hhandle hgone hpaused false, hlined⟩, ?_⟩
  change (update s.book.nodes n _ n).firing = true
  rw [update_self]

/-- **A callback returns**: its timer is recycled, armed again, retired or left paused. -/
theorem settle_eq (s : TimerWheel) (n : ℕ) :
    s.settle n = settleWith (fun b => { s with book := b })
      (fun b => { s with book := b }.arm n) s.book n false := rfl

theorem InOrder.settle (hs : InOrder s) (hfiring : (s.node n).firing = true) :
    InOrder ((s.set n { s.node n with firing := false }).settle n) := by
  have horder : ∀ b', b'.Sound s.places.all (fun _ => False) → InOrder { s with book := b' } :=
    fun b' hsound => ⟨hsound, hs.lined⟩
  exact hs.sound.settles (Q := InOrder) hfiring id (by simp) (fun b' hsound _ => horder b' hsound)
    fun b' h hsound _ hh => (horder b' hsound).arm hh (hs.sound.not_mem_of_firing hfiring)

theorem settle_log (s : TimerWheel) (n : ℕ) : s.book.log <+: (s.settle n).book.log := by
  rw [settle_eq]
  exact settleWith_rule (Q := fun s' : TimerWheel => s.book.log <+: s'.book.log)
    fun b' hlog _ => ⟨hlog, hlog⟩

/-- The log goes on, and the wheel stays in order while everything is steady. -/
def Keeps (s s' : TimerWheel) : Prop :=
  s.book.log <+: s'.book.log ∧ (InOrder s → Steadily s' → InOrder s')

theorem reap_keeps (hn : n ∈ s.places.buckets index) (henabled : (s.node n).enabled = false) :
    Keeps s ((s.unlinkFrom index n).retire n) := by
  refine ⟨?_, fun hs _ => ?_⟩
  · exact log_prefix_retire s.book n false
  · obtain ⟨-, hsound, hgone, hlined, hmem⟩ := hs.unlinkedFrom hn
    obtain ⟨⟨handle, hhandle⟩, -, hpaused⟩ := hs.sound.placed n hmem
    have hh := hs.sound.named n handle hhandle
    have hfits := hs.sound.fits handle n hh
    have hlapsing := (hfits.stopped henabled).resolve_left fun h => by
      cases hpaused.symm.trans h
    exact ⟨hsound.retire hh hgone (.inl rfl) (hfits.lapsed hlapsing) (by simp), hlined⟩

/-- Nodes that are in no place are linked one after the other. -/
theorem InOrder.foldl_link (hs : InOrder s) (nodes : List ℕ) {placed : Multiset ℕ}
    (hall : s.places.all + nodes = placed) (hsound : s.book.Sound placed fun _ => False) :
    InOrder (nodes.foldl link s) := by
  induction nodes generalizing s with
  | nil => exact hs
  | cons n nodes ih =>
    have hadd : (s.link n).places.all + nodes = placed := by
      rw [← hall]
      change (s.places.link s.cursor _ n).all + _ = _
      rw [WheelPlaces.all_link, ← Multiset.cons_coe, Multiset.add_cons, Multiset.cons_add]
    have hn : n ∉ s.places.all := by
      have hnodup := hsound.nodup
      rw [← hall, ← Multiset.cons_coe, Multiset.add_cons, Multiset.nodup_cons] at hnodup
      exact fun hmem => hnodup.1 (Multiset.mem_add.2 (.inl hmem))
    refine ih ⟨hsound.le ?_, hs.lined.link _ _ hn⟩ hadd hsound
    rw [← hadd]
    exact Multiset.le_add_right _ _

theorem foldl_link_book (nodes : List ℕ) (s : TimerWheel) :
    (nodes.foldl link s).book = s.book ∧ (nodes.foldl link s).links = s.links := by
  induction nodes generalizing s with
  | nil => exact ⟨rfl, rfl⟩
  | cons n nodes ih => exact ih (s.link n)

/-- **The overflow is put into the ring anew.** -/
theorem admitOverflow_keeps (s : TimerWheel) : Keeps s s.admitOverflow := by
  have hbook : s.admitOverflow.book = s.book := (foldl_link_book _ _).1
  refine ⟨by rw [hbook], fun hs _ => ?_⟩
  have hall : ({ s.places with overflow := [] } : WheelPlaces).all + s.places.overflow =
      s.places.all := by
    unfold WheelPlaces.all
    rw [Multiset.coe_nil, add_zero]
  have hempty : InOrder { s with places := { s.places with overflow := [] } } := by
    refine ⟨hs.sound.le ?_, hs.lined.bucket, nofun, hs.lined.lt⟩
    rw [← hall]
    exact Multiset.le_add_right _ _
  exact hempty.foldl_link s.places.overflow hall hs.sound

/-! ## What a turn is made of -/

/-- A relation that the parts of a turn keep. -/
structure Kept (R : TimerWheel → TimerWheel → Prop) : Prop where
  trans : ∀ {s s' s''}, R s s' → R s' s'' → R s s''
  of_eq : ∀ {s s' : TimerWheel}, s'.book = s.book → s'.places = s.places →
    s'.links = s.links → R s s'
  perform : ∀ s c, R s (s.perform c)
  fire : ∀ {s : TimerWheel} {n index : ℕ}, n ∈ s.places.buckets index →
    R s ((s.unlinkFrom index n).fire n).2
  reap : ∀ {s : TimerWheel} {n index : ℕ}, n ∈ s.places.buckets index →
    (s.node n).enabled = false → R s ((s.unlinkFrom index n).retire n)
  admitOverflow : ∀ s, R s s.admitOverflow

section Kept

variable {R : TimerWheel → TimerWheel → Prop} (hR : Kept R)

include hR

theorem Kept.fireBucket (index fuel : ℕ) (s : TimerWheel) : R s (fireBucket index fuel s).2 := by
  induction fuel generalizing s with
  | zero => exact hR.of_eq rfl rfl rfl
  | succ fuel ih =>
    unfold TimerWheel.fireBucket
    split
    · exact hR.of_eq rfl rfl rfl
    · rename_i n rest hbucket
      obtain ⟨hchecked, hplaces⟩ : R s s.checkLimits.2 ∧ s.checkLimits.2.places = s.places := by
        unfold checkLimits
        split
        · split <;> exact ⟨hR.of_eq rfl rfl rfl, rfl⟩
        · exact ⟨hR.of_eq rfl rfl rfl, rfl⟩
      have hn : n ∈ s.checkLimits.2.places.buckets index := by
        rw [hplaces, hbucket]
        exact List.mem_cons_self
      dsimp only
      split
      · exact hR.trans hchecked (hR.of_eq rfl rfl rfl)
      · split
        · rename_i henabled
          rw [Bool.not_eq_true'] at henabled
          exact hR.trans hchecked (hR.trans (hR.reap hn henabled) (ih _))
        · have hfire := hR.trans hchecked (hR.fire hn)
          split
          · exact hR.trans hfire (hR.of_eq rfl rfl rfl)
          · exact hR.trans hfire (ih _)

theorem Kept.turn (s : TimerWheel) : R s s.turn := by
  have hturned : R s { s with tick := s.tick + 1, cursor := (s.cursor + 1) % bucketCount } :=
    hR.of_eq rfl rfl rfl
  unfold TimerWheel.turn
  dsimp only
  split
  · exact hR.trans hturned (hR.admitOverflow _)
  · exact hturned

theorem Kept.walk (target fuel walked : ℕ) (s : TimerWheel) : R s (walk target fuel walked s) := by
  induction fuel generalizing walked s with
  | zero => exact hR.of_eq rfl rfl rfl
  | succ fuel ih =>
    unfold TimerWheel.walk
    split
    · split
      · have hskipped : R s { s with
            tick := s.tick + (target - s.tick) / bucketCount * bucketCount } :=
          hR.of_eq rfl rfl rfl
        exact hR.trans (hR.trans hskipped (hR.admitOverflow _)) (ih _ _)
      · have hfired := hR.trans (hR.turn s)
          (hR.fireBucket s.turn.cursor (s.turn.places.buckets s.turn.cursor).length s.turn)
        dsimp only
        split
        · exact hfired
        · split
          · exact hR.trans hfired (hR.of_eq rfl rfl rfl)
          · exact hR.trans hfired (ih _ _)
    · exact hR.of_eq rfl rfl rfl

/-- **A turn keeps what its parts keep.** -/
theorem Kept.step (s : TimerWheel) (turn : TimerTurn) : R s (s.step turn) := by
  cases turn with
  | call c => exact hR.perform s c
  | advance dt maxFires budget answers late =>
    change R s (s.advanceBy dt maxFires budget answers late)
    let b := s.begin dt maxFires budget answers late
    have hbegin : R s b := hR.of_eq rfl rfl rfl
    unfold advanceBy
    dsimp only
    split
    · have hfired := hR.trans hbegin
        (hR.fireBucket b.cursor (b.places.buckets b.cursor).length b)
      split
      · exact hfired
      · split
        · exact hR.trans hfired (hR.of_eq rfl rfl rfl)
        · exact hR.trans hfired (hR.walk _ _ _ _)
    · exact hR.trans hbegin (hR.walk _ _ _ _)
  | onError handler => exact hR.of_eq rfl rfl rfl

end Kept

/-! ## No callback outlives its pass -/

theorem onward_of_eq (hbook : s'.book = s.book) (hlinks : s'.links = s.links) : Onward s s' := by
  refine ⟨fun m hm => ?_, by rw [hlinks]⟩
  unfold node at hm ⊢
  rwa [hbook] at hm

theorem onward_retire (s : TimerWheel) (n : ℕ) : Onward s (s.retire n) :=
  ⟨fun m hm => (retire_firing s.book n false m).symm.trans hm, List.prefix_rfl⟩

theorem onward_create (s : TimerWheel) (time interval : ℚ) (callback : ℕ) :
    Onward s (s.create time interval callback).2 := by
  unfold create
  split
  · exact .refl s
  · rename_i handle n book hc
    exact ⟨fun m hm => create_firing hc hm, List.prefix_append _ _⟩

theorem perform_onward (s : TimerWheel) (c : TimerCall) : Onward s (s.perform c) :=
  perform_rule (P := Onward s) c (.refl s) (onward_create s)
    (fun handle immediate => (clear_steers s handle immediate).onward)
    (fun handle time => (reschedule_steers s handle time).onward)
    fun handle enabled policy time _ => (setEnabledBy_steers s handle enabled policy time).onward

theorem foldl_perform_onward (calls : List TimerCall) (s : TimerWheel) :
    Onward s (calls.foldl perform s) := by
  induction calls generalizing s with
  | nil => exact .refl s
  | cons c calls ih => exact (perform_onward s c).trans (ih (s.perform c))

theorem settle_onward (s : TimerWheel) (n : ℕ) : Onward s (s.settle n) := by
  rw [settle_eq]
  exact settleWith_rule (Q := Onward s) fun b' _ hfiring =>
    ⟨⟨fun m hm => (hfiring m).symm.trans hm, List.prefix_rfl⟩,
      fun m hm => (hfiring m).symm.trans hm, List.prefix_append _ _⟩

theorem fire_onward (s : TimerWheel) (n : ℕ) : Onward s (s.fire n).2 := by
  let called : TimerWheel := (s.startFiring n).callback.2
  let back : TimerWheel :=
    { called with fired := called.fired + 1 }.set n { called.node n with firing := false }
  obtain ⟨hcalls, hlinks⟩ := foldl_perform_onward (s.answers.headD {}).calls
    { s.startFiring n with answers := s.answers.tail }
  obtain ⟨hsettle, hlinks'⟩ := settle_onward back n
  refine ⟨fun m hm => ?_, List.IsPrefix.trans hlinks hlinks'⟩
  have hback : TimerNode.firing (update called.book.nodes n
      { called.node n with firing := false } m) = true := hsettle m hm
  have hmn : m ≠ n := by
    rintro rfl
    rw [update_self] at hback
    cases hback
  rw [update_of_ne hmn] at hback
  have hstart : TimerNode.firing (update s.book.nodes n
      { s.node n with firing := true, rearmed := false } m) = true := hcalls m hback
  rwa [update_of_ne hmn] at hstart

theorem onward_kept : Kept Onward where
  trans := Onward.trans
  of_eq hbook _ hlinks := onward_of_eq hbook hlinks
  perform := perform_onward
  fire {s n index} _ := fire_onward (s.unlinkFrom index n) n
  reap {s n index} _ _ := onward_retire (s.unlinkFrom index n) n
  admitOverflow s :=
    have hlinked := foldl_link_book s.places.overflow
      { s with places := { s.places with overflow := [] } }
    onward_of_eq hlinked.1 hlinked.2

end TimerWheel

end CrossByte
