import CrossByte.System.Timer.TimerHeap
import CrossByte.System.Timer.TimerWheelPasses

/-!
# When the wheel fires

A timer armed at tick `a` for a time `t` belongs to the tick at or after `t`, or to the one
after `a` if `t` has passed by then.  `Rung` says where such a node is: in the bucket of its
tick, which is at most a ring ahead of the cursor, or in the overflow, with its tick beyond the
next time the cursor comes round to bucket zero.  Linking, unlinking and the walk of the cursor
all keep it; so the bucket at the cursor holds exactly the nodes of the cursor's tick, and each
timer is fired at its own.

One case is out: a timer that goes to the overflow for a tick that is a multiple of `BUCKETS`.
The overflow is put into the ring when the cursor has come to bucket zero, which is that very
tick for such a timer once its turn has come, and `__link` puts it in the next bucket.  So is a
pass that a callback runs: the bucket being fired is then no longer that of the cursor, and what
is armed into it is fired at once (`PassingWheel.fired_ahead_of_its_time`).

## Main results

* `fires_on_its_tick`: in every run without such a timer, whose passes take a revolution at
  most, are not limited and are not run by callbacks, a timer armed in time is fired at the first
  tick not before it, and a pass that is not left by an exception leaves none unfired;
* `fires_a_tick_late`: a timeout of 511.5 milliseconds on a new wheel is fired at tick 513;
* `nextDue_isLeast`: after every run `nextDue` is the soonest due time of the timers waiting, as
  the heap's is, if none of them has been cleared lazily and the buckets are in the order of due
  times; they are in the runs above, while none that waits was armed behind the cursor;
* `nextDue_not_soonest`: it is not after a stall cut short, nor after a lazy clear.
-/

namespace CrossByte

open TimerBook Function

namespace TimerWheel

/-- The tick at or after a time. -/
def dueTick (time : ℚ) : ℤ := ⌈time / resolution⌉

/-- The tick a node belongs to. -/
def slotOf (s : TimerWheel) (n : ℕ) : ℤ := max (dueTick (s.node n).time) (s.armedAt n + 1)

/-- The next tick at which the cursor comes to bucket zero. -/
def nextWrap (tick : ℕ) : ℕ := (tick / bucketCount + 1) * bucketCount

theorem resolution_pos : 0 < resolution := by
  unfold resolution
  norm_num

theorem ticksTo_eq (s : TimerWheel) (time : ℚ) :
    s.ticksTo time = max 1 (dueTick time - s.tick) := by
  unfold ticksTo dueTick
  have hsub : (time - s.tick * resolution) / resolution = time / resolution - (s.tick : ℕ) := by
    rw [sub_div, mul_div_cancel_right₀ _ resolution_pos.ne']
  rw [hsub, Int.ceil_sub_natCast]

/-- The timer does not go to the overflow for a tick at which the cursor is at bucket zero. -/
def Clear (l : ℚ × ℕ) : Prop :=
  ¬ ((l.2 : ℤ) + bucketCount ≤ dueTick l.1 ∧ (bucketCount : ℤ) ∣ dueTick l.1)

/-- Where the nodes are: those of the ring in the bucket of their tick, `lo` or later, and those
of the overflow beyond the next revolution. -/
structure Rung (s : TimerWheel) (lo : ℕ) : Prop where
  cursor : s.cursor = s.tick % bucketCount
  ring : ∀ i, ∀ n ∈ s.places.buckets i, ∃ k : ℕ, i = k % bucketCount ∧ lo ≤ k ∧
    k < s.tick + bucketCount ∧ (k : ℤ) = s.slotOf n
  overflow : ∀ n ∈ s.places.overflow, (nextWrap s.tick : ℤ) < dueTick (s.node n).time ∧
    ¬ (bucketCount : ℤ) ∣ dueTick (s.node n).time ∧ (s.armedAt n : ℤ) < dueTick (s.node n).time

variable {s : TimerWheel} {lo n : ℕ}

theorem nextWrap_bounds (tick : ℕ) :
    tick < nextWrap tick ∧ nextWrap tick ≤ tick + bucketCount ∧ bucketCount ∣ nextWrap tick := by
  unfold nextWrap
  have hdiv := Nat.div_add_mod tick bucketCount
  have hmod := Nat.mod_lt tick bucketCount_pos
  refine ⟨?_, ?_, Dvd.intro_left _ rfl⟩
  · rw [Nat.add_mul, Nat.mul_comm]
    omega
  · rw [Nat.add_mul, Nat.mul_comm]
    omega

variable {s' : TimerWheel} {m i tick : ℕ} {p : WheelPlaces} {c : TimerCall}
  {answers : List TimerAnswer}

/-- A due tick past the ring that no turn of the cursor falls on comes after the next turn. -/
theorem nextWrap_lt {due : ℤ} (hfar : (tick : ℤ) + bucketCount ≤ due)
    (hnot : ¬ (bucketCount : ℤ) ∣ due) : (nextWrap tick : ℤ) < due := by
  obtain ⟨-, hle, hwrap⟩ := nextWrap_bounds tick
  have hle' : (nextWrap tick : ℤ) ≤ tick + bucketCount := by exact_mod_cast hle
  refine lt_of_le_of_ne (hle'.trans hfar) fun heq => hnot ?_
  rw [← heq]
  exact_mod_cast hwrap

/-- A node is in its place whichever fields of the state change around it. -/
theorem Rung.congr (hs : Rung s lo) (hcursor : s'.cursor = s.cursor) (htick : s'.tick = s.tick)
    (hring : ∀ i, ∀ m ∈ s'.places.buckets i, m ∈ s.places.buckets i)
    (hoverflow : ∀ m ∈ s'.places.overflow, m ∈ s.places.overflow)
    (htime : ∀ m, (∃ i, m ∈ s'.places.buckets i) ∨ m ∈ s'.places.overflow →
      (s'.node m).time = (s.node m).time ∧ s'.armedAt m = s.armedAt m) : Rung s' lo := by
  refine ⟨by rw [hcursor, htick, hs.cursor], fun i m hm => ?_, fun m hm => ?_⟩
  · obtain ⟨k, hk⟩ := hs.ring i m (hring i m hm)
    refine ⟨k, ?_⟩
    unfold slotOf
    rw [(htime m (.inl ⟨i, hm⟩)).1, (htime m (.inl ⟨i, hm⟩)).2, htick]
    exact hk
  · rw [(htime m (.inr hm)).1, (htime m (.inr hm)).2, htick]
    exact hs.overflow m (hoverflow m hm)

/-- Nodes in a bucket or in the overflow are in a place. -/
theorem mem_all_of (hl : s.places.Lined)
    (hm : (∃ i, m ∈ s.places.buckets i) ∨ m ∈ s.places.overflow) : m ∈ s.places.all := by
  rcases hm with ⟨i, hi⟩ | ho
  · exact WheelPlaces.mem_all.2 (.inl ⟨i, hl.lt m i (hl.bucket i m hi), hi⟩)
  · exact WheelPlaces.mem_all.2 (.inr ho)

/-- **Linking puts a node in the place of its tick.** -/
theorem Rung.link (hs : Rung s lo) (hlo : lo ≤ s.tick + 1)
    (harmed : (s.tick : ℤ) + bucketCount ≤ dueTick (s.node n).time →
      (s.armedAt n : ℤ) < dueTick (s.node n).time)
    (hslot : s.slotOf n = max (dueTick (s.node n).time) (s.tick + 1))
    (hfar : (s.tick : ℤ) + bucketCount ≤ dueTick (s.node n).time →
      (nextWrap s.tick : ℤ) < dueTick (s.node n).time ∧
        ¬ (bucketCount : ℤ) ∣ dueTick (s.node n).time) : Rung (s.link n) lo := by
  have hnode : ∀ m, (s.link n).node m = s.node m := fun _ => rfl
  have hslots : ∀ m, (s.link n).slotOf m = s.slotOf m := fun _ => rfl
  have hbig : 1 < bucketCount := by
    rw [bucketCount_eq]
    decide
  refine ⟨hs.cursor, ?_, ?_⟩
  · intro i m hm
    rw [hslots]
    change m ∈ (s.places.link s.cursor (s.ticksTo (s.node n).time) n).buckets i at hm
    rw [ticksTo_eq] at hm
    unfold WheelPlaces.link at hm
    split at hm
    · exact hs.ring i m hm
    · dsimp only at hm
      by_cases hi : i = (s.cursor + (max 1 (dueTick (s.node n).time - s.tick)).toNat) % bucketCount
      · rw [hi, update_self, List.mem_append, List.mem_singleton] at hm
        rcases hm with hm | rfl
        · rw [hi]
          exact hs.ring _ m hm
        · refine ⟨s.tick + (max 1 (dueTick (s.node m).time - s.tick)).toNat, ?_, ?_, ?_, ?_⟩
          · rw [hi, hs.cursor, Nat.mod_add_mod]
          · omega
          · change _ < s.tick + bucketCount
            omega
          · omega
      · rw [update_of_ne hi] at hm
        exact hs.ring i m hm
  · intro m hm
    change m ∈ (s.places.link s.cursor (s.ticksTo (s.node n).time) n).overflow at hm
    rw [ticksTo_eq] at hm
    unfold WheelPlaces.link at hm
    split at hm
    · rw [List.mem_append, List.mem_singleton] at hm
      rcases hm with hm | rfl
      · exact hs.overflow m hm
      · obtain ⟨hwrap, hdvd⟩ := hfar (by omega)
        exact ⟨hwrap, hdvd, harmed (by omega)⟩
    · exact hs.overflow m hm

theorem Rung.arm (hs : Rung s lo) (hl : s.places.Lined) (hlo : lo ≤ s.tick + 1)
    (hn : n ∉ s.places.all) (hclear : Clear ((s.node n).time, s.tick)) : Rung (s.arm n) lo := by
  let s' : TimerWheel := { s with
    armedAt := update s.armedAt n s.tick
    links := s.links ++ [((s.node n).time, s.tick)] }
  have hself : s'.armedAt n = s.tick := update_self ..
  have hs' : Rung s' lo := by
    refine hs.congr rfl rfl (fun _ _ => id) (fun _ => id) fun m hm => ⟨rfl, ?_⟩
    have hmn : m ≠ n := fun heq => hn (heq ▸ mem_all_of hl hm)
    exact update_of_ne hmn ..
  have hslot : s'.slotOf n = max (dueTick (s'.node n).time) (s'.tick + 1) := by
    unfold slotOf
    rw [hself]
  have harmed : (s.tick : ℤ) + bucketCount ≤ dueTick (s.node n).time →
      (s'.armedAt n : ℤ) < dueTick (s.node n).time := by
    have hpos := bucketCount_pos
    omega
  refine Rung.congr (hs'.link hlo harmed hslot fun hfar => ?_) rfl rfl (fun _ _ => id)
    (fun _ => id) fun _ _ => ⟨rfl, rfl⟩
  have hdvd : ¬ (bucketCount : ℤ) ∣ dueTick (s.node n).time := fun hdvd => hclear ⟨hfar, hdvd⟩
  exact ⟨nextWrap_lt hfar hdvd, hdvd⟩

theorem mem_unlinkFrom {j : ℕ} (hm : m ∈ (p.unlinkFrom i n).buckets j) : m ∈ p.buckets j := by
  change m ∈ update p.buckets i _ j at hm
  by_cases hj : j = i
  · rw [hj, update_self] at hm
    rw [hj]
    exact List.mem_of_mem_erase hm
  · rwa [update_of_ne hj] at hm

theorem Rung.unlink (hs : Rung s lo) (n : ℕ) : Rung (s.unlink n) lo := by
  refine hs.congr rfl rfl (fun i m hm => ?_) (fun m hm => ?_) fun _ _ => ⟨rfl, rfl⟩
  · change m ∈ (s.places.unlink n).buckets i at hm
    unfold WheelPlaces.unlink at hm
    split at hm
    · exact mem_unlinkFrom hm
    · exact hm
  · change m ∈ (s.places.unlink n).overflow at hm
    unfold WheelPlaces.unlink at hm
    split at hm
    · exact hm
    · exact List.mem_of_mem_erase hm

/-- The books may change around the nodes in a place. -/
theorem Rung.book (hs : Rung s lo) (hl : s.places.Lined) {b : TimerBook}
    (htime : ∀ m ∈ s.places.all, (b.nodes m).time = (s.node m).time) :
    Rung { s with book := b } lo :=
  hs.congr rfl rfl (fun _ _ => id) (fun _ => id) fun m hm => ⟨htime m (mem_all_of hl hm), rfl⟩

/-- The bucket at the cursor holds the nodes of the cursor's tick. -/
theorem Rung.slot_eq (hs : Rung s s.tick) (hn : n ∈ s.places.buckets s.cursor) :
    s.slotOf n = s.tick := by
  obtain ⟨k, hmod, hlo, hhi, hslot⟩ := hs.ring s.cursor n hn
  rw [hs.cursor] at hmod
  have hk : k = s.tick := by
    by_contra hne
    have hdvd : bucketCount ∣ k - s.tick := (Nat.modEq_iff_dvd' hlo).1 hmod
    have := Nat.le_of_dvd (by omega) hdvd
    omega
  rw [← hslot, hk]

/-- With that bucket empty, what is left is of later ticks. -/
theorem Rung.later (hs : Rung s s.tick) (hempty : s.places.buckets s.cursor = []) :
    Rung s (s.tick + 1) := by
  refine ⟨hs.cursor, fun i n hn => ?_, hs.overflow⟩
  obtain ⟨k, hmod, hlo, hhi, hslot⟩ := hs.ring i n hn
  refine ⟨k, hmod, ?_, hhi, hslot⟩
  refine Nat.lt_of_le_of_ne hlo fun heq => ?_
  rw [← heq, ← hs.cursor] at hmod
  rw [hmod, hempty] at hn
  exact List.not_mem_nil hn

/-! ## Calls -/

/-- Arming, clearing and moving. -/
def Timely : TimerCall → Prop
  | .setEnabled .. => False
  | _ => True

/-- The wheel is in order and nothing is paused; the nodes are in the places of their ticks,
`lo` or later; every callback was called at the tick of its timer; and a live timer that is
enabled, and whose callback is not running, is in a place. -/
structure Timed (s : TimerWheel) (lo : ℕ) : Prop where
  order : InOrder s
  steady : Steadily s
  unpaused : s.book.Unpaused
  rung : Rung s lo
  runs : ∀ r ∈ s.runs, (r.2.2 : ℤ) = max (dueTick r.1) (r.2.1 + 1)
  linked : ∀ h n, s.book.table h = some n → (s.node n).enabled = true →
    (s.node n).firing = false → n ∈ s.places.all

/-- What a call leaves of the pass it is made in: the cursor stands, and nothing is linked into
its bucket. -/
structure Calm (s s' : TimerWheel) : Prop where
  cursor : s'.cursor = s.cursor
  tick : s'.tick = s.tick
  now : s'.now = s.now
  limits : s'.checkAt = s.checkAt ∧ s'.answers = s.answers ∧ s'.unfinished = s.unfinished
  bucket : (s'.places.buckets s.cursor).length ≤ (s.places.buckets s.cursor).length
  links : s.links <+: s'.links

theorem Calm.refl (s : TimerWheel) : Calm s s :=
  ⟨rfl, rfl, rfl, ⟨rfl, rfl, rfl⟩, le_rfl, List.prefix_rfl⟩

theorem Calm.trans {s s'' : TimerWheel} (h : Calm s s') (h' : Calm s' s'') : Calm s s'' :=
  ⟨h'.cursor.trans h.cursor, h'.tick.trans h.tick, h'.now.trans h.now,
    ⟨h'.limits.1.trans h.limits.1, h'.limits.2.1.trans h.limits.2.1,
      h'.limits.2.2.trans h.limits.2.2⟩,
    (h.cursor ▸ h'.bucket).trans h.bucket, h.links.trans h'.links⟩

/-- **Nothing is linked into the bucket at the cursor.** -/
theorem arm_calm (s : TimerWheel) (hs : s.cursor < bucketCount) (n : ℕ) : Calm s (s.arm n) := by
  refine ⟨rfl, rfl, rfl, ⟨rfl, rfl, rfl⟩, ?_, List.prefix_append _ _⟩
  change ((s.places.link s.cursor _ n).buckets s.cursor).length ≤ _
  unfold WheelPlaces.link
  split
  · exact le_rfl
  · have hticks : 1 ≤ s.ticksTo (s.node n).time := le_max_left _ _
    dsimp only
    rw [update_of_ne]
    intro heq
    set ticks := (s.ticksTo (s.node n).time).toNat
    by_cases hwrap : s.cursor + ticks < bucketCount
    · rw [Nat.mod_eq_of_lt hwrap] at heq
      omega
    · rw [Nat.mod_eq_sub_mod (by omega), Nat.mod_eq_of_lt (by omega)] at heq
      omega

theorem unlink_calm (s : TimerWheel) (n : ℕ) : Calm s (s.unlink n) := by
  refine ⟨rfl, rfl, rfl, ⟨rfl, rfl, rfl⟩, ?_, List.prefix_rfl⟩
  change ((s.places.unlink n).buckets s.cursor).length ≤ _
  unfold WheelPlaces.unlink
  split
  · rename_i i _
    change (update s.places.buckets i _ s.cursor).length ≤ _
    by_cases hi : s.cursor = i
    · rw [hi, update_self]
      exact List.length_erase_le
    · rw [update_of_ne hi]
  · exact le_rfl

theorem calm_book (s : TimerWheel) (b : TimerBook) : Calm s { s with book := b } :=
  ⟨rfl, rfl, rfl, ⟨rfl, rfl, rfl⟩, le_rfl, List.prefix_rfl⟩

theorem create_calm (hs : s.cursor < bucketCount) (time interval : ℚ) (callback : ℕ) :
    Calm s (s.create time interval callback).2 := by
  unfold TimerWheel.create
  split
  · exact .refl s
  · rename_i handle n book hc
    have harm : Calm { s with book := book } ({ s with book := book }.arm n) :=
      arm_calm ({ s with book := book } : TimerWheel) hs n
    exact (calm_book s book).trans harm

theorem reschedule_calm (hs : s.cursor < bucketCount) (handle : ℕ) (time : ℚ) :
    Calm s (s.reschedule handle time).2 := by
  unfold TimerWheel.reschedule
  split
  · exact .refl s
  · rename_i n _
    dsimp only
    split
    · exact calm_book s _
    · have hunlink := (calm_book s ((s.book.note (.moved handle (s.node n).firing
        (s.node n).isPaused)).set n { s.node n with time := time })).trans (unlink_calm _ n)
      split
      · refine hunlink.trans (arm_calm _ ?_ n)
        exact hs
      · exact hunlink

theorem clear_calm (s : TimerWheel) (handle : ℕ) (immediate : Bool) :
    Calm s (s.clear handle immediate).2 := by
  unfold TimerWheel.clear
  split
  · exact .refl s
  · rename_i n _
    dsimp only
    split
    · exact (unlink_calm s n).trans (calm_book _ _)
    · split <;> exact calm_book s _

theorem perform_calm (hs : s.cursor < bucketCount) (hc : Timely c) : Calm s (s.perform c) :=
  perform_rule (P := Calm s) c (.refl s) (create_calm hs) (clear_calm s) (reschedule_calm hs)
    fun _ _ _ _ heq => (heq ▸ hc : Timely (.setEnabled ..)).elim

theorem Steadily.concat (hs : Steadily s) {e : TimerEvent} (hlog : s'.book.log = s.book.log ++ [e])
    (he : e.SteadyOnWheel) : Steadily s' := by
  intro e' he'
  rw [hlog, List.mem_append, List.mem_singleton] at he'
  rcases he' with he' | rfl
  · exact hs e' he'
  · exact he

theorem mem_all_arm (s : TimerWheel) (n m : ℕ) :
    m ∈ (s.arm n).places.all ↔ m = n ∨ m ∈ s.places.all := by
  change m ∈ (s.places.link s.cursor _ n).all ↔ _
  rw [WheelPlaces.all_link, Multiset.mem_cons]

theorem mem_all_unlink (hs : InOrder s) {n : ℕ} (hm : m ∈ s.places.all) (hmn : m ≠ n) :
    m ∈ (s.unlink n).places.all := by
  change m ∈ (s.places.unlink n).all
  rw [hs.lined.all_unlink n]
  exact (Multiset.mem_erase_of_ne hmn).2 hm

section

variable (hs : Timed s lo)

include hs

/-- One timer changes, and the others are where they were. -/
theorem Timed.one (n : ℕ) (horder : InOrder s') (hsteady : Steadily s') (hrung : Rung s' lo)
    (hruns : ∀ r ∈ s'.runs, (r.2.2 : ℤ) = max (dueTick r.1) (r.2.1 + 1))
    (hpaused : (s'.node n).isPaused = false)
    (hother : ∀ m, m ≠ n → s'.book.nodes m = s.book.nodes m)
    (htable : ∀ g m, s'.book.table g = some m → m ≠ n → s.book.table g = some m)
    (hall : ∀ m ∈ s.places.all, m ≠ n → m ∈ s'.places.all)
    (hn : ∀ g, s'.book.table g = some n → (s'.node n).enabled = true → (s'.node n).firing = false →
      n ∈ s'.places.all) : Timed s' lo := by
  refine ⟨horder, hsteady, fun m => ?_, hrung, hruns, fun g m hg henabled hfiring => ?_⟩
  · by_cases hmn : m = n
    · exact hmn ▸ hpaused
    · exact (congrArg TimerNode.isPaused (hother m hmn)).trans (hs.unpaused m)
  · by_cases hmn : m = n
    · subst hmn
      exact hn g hg henabled hfiring
    · have hnode : s'.node m = s.node m := hother m hmn
      rw [hnode] at henabled hfiring
      exact hall m (hs.linked g m (htable g m hg hmn) henabled hfiring) hmn

theorem Timed.create (hlo : lo ≤ s.tick + 1) (time interval : ℚ) (callback : ℕ)
    (hclear : ∀ l ∈ (s.create time interval callback).2.links, Clear l) :
    Timed (s.create time interval callback).2 lo := by
  have horder := hs.order.create time interval callback
  unfold TimerWheel.create at horder hclear ⊢
  split
  · exact hs
  · rename_i handle n book hc
    rw [hc] at horder hclear
    obtain ⟨hsound, htable, hn, hnode, -⟩ := hs.order.sound.arm hc
    obtain ⟨count, hlog⟩ := create_log_eq hc
    let s' : TimerWheel := { s with book := book }
    have hs' : Rung s' lo := hs.rung.book hs.order.lined fun m hm => by
      rw [create_nodes_ne hc fun heq => hn (heq ▸ hm)]
      rfl
    have hrung := hs'.arm hs.order.lined hlo hn
      (hclear _ (List.mem_append_right _ List.mem_cons_self))
    exact hs.one n horder (hs.steady.concat hlog trivial) hrung hs.runs
      (congrArg TimerNode.isPaused hnode) (fun m => create_nodes_ne hc)
      (fun g m => create_table hc) (fun m hm _ => (mem_all_arm s' n m).2 (.inr hm))
      fun _ _ _ _ => (mem_all_arm s' n n).2 (.inl rfl)

theorem Timed.retire {handle : ℕ} (hh : s.book.table handle = some n) (log : List TimerEvent)
    (hall : ∀ m ∈ s.places.all, m ≠ n → m ∈ p.all) (hn : n ∉ p.all)
    (hrung : Rung { s with places := p } lo) (hlined : p.Lined)
    (horder : InOrder { s with book := { s.book with log := log }.retire n false, places := p })
    (hsteady : Steadily { s with book := { s.book with log := log }.retire n false, places := p }) :
    Timed { s with book := { s.book with log := log }.retire n false, places := p } lo := by
  have hunpaused : ({ s.book with log := log } : TimerBook).Unpaused := hs.unpaused
  have hother : ∀ m, m ≠ n → (({ s.book with log := log } : TimerBook).retire n false).nodes m =
      s.book.nodes m := fun m hmn => retire_nodes_ne _ false hmn
  refine hs.one n horder hsteady (hrung.book hlined fun m hm => ?_) hs.runs
    (hunpaused.retire n false n) hother
    (fun g m hg _ => (hs.order.sound.retire_table hh log false hg).1) hall
    fun g hg => absurd rfl (hs.order.sound.retire_table hh log false hg).2
  exact congrArg TimerNode.time (hother m fun heq => hn (heq ▸ hm))

theorem Timed.set {t : TimerNode} {log : List TimerEvent} (ht : t.isPaused = false)
    (htime : n ∈ s.places.all → t.time = (s.node n).time)
    (hlive : t.enabled = true → t.firing = false → n ∈ s.places.all)
    (horder : InOrder { s with book := { s.book.set n t with log := log } })
    (hsteady : Steadily { s with book := { s.book.set n t with log := log } }) :
    Timed { s with book := { s.book.set n t with log := log } } lo := by
  have hself : ({ s.book.set n t with log := log } : TimerBook).nodes n = t :=
    update_self ..
  have hother : ∀ m, m ≠ n →
      ({ s.book.set n t with log := log } : TimerBook).nodes m = s.book.nodes m := fun m hm =>
    update_of_ne hm ..
  refine hs.one n horder hsteady (hs.rung.book hs.order.lined fun m hm => ?_) hs.runs
    ((congrArg TimerNode.isPaused hself).trans ht) hother (fun _ _ hg _ => hg) (fun _ hm _ => hm)
    fun g _ henabled hfiring => hlive ((congrArg TimerNode.enabled hself).symm.trans henabled)
      ((congrArg TimerNode.firing hself).symm.trans hfiring)
  by_cases hmn : m = n
  · rw [hmn, hself]
    exact htime (hmn ▸ hm)
  · rw [hother m hmn]
    rfl

theorem Timed.clear (handle : ℕ) (immediate : Bool) : Timed (s.clear handle immediate).2 lo := by
  have horder := hs.order.clear handle immediate
  unfold TimerWheel.clear at horder ⊢
  cases hh : s.book.table handle with
  | none => exact hs
  | some n =>
    rw [hh] at horder
    dsimp only at horder ⊢
    have hpaused : ¬ ((s.note (.cleared handle immediate)).node n).isPaused = true := by
      rw [Bool.not_eq_true]
      exact hs.unpaused n
    split
    · rename_i himmediate
      rw [if_pos himmediate] at horder
      have hgone := (hs.order.unlinked n).2
      refine hs.retire hh (s.book.log ++ [TimerEvent.cleared handle immediate])
        (fun m hm hmn => mem_all_unlink hs.order hm hmn) hgone.1 (hs.rung.unlink n) hgone.2
        horder ?_
      have hcleared : Steadily ((s.note (.cleared handle immediate)).unlink n) :=
        hs.steady.concat (e := .cleared handle immediate) rfl trivial
      exact hcleared.retire n
    · rename_i hlazy
      rw [if_neg hlazy, if_neg hpaused] at horder
      exact hs.set (hs.unpaused n) (fun _ => rfl) nofun horder
        (hs.steady.concat (e := .cleared handle immediate) rfl trivial)

theorem Timed.reschedule (hlo : lo ≤ s.tick + 1) (handle : ℕ) (time : ℚ)
    (hclear : ∀ l ∈ (s.reschedule handle time).2.links, Clear l) :
    Timed (s.reschedule handle time).2 lo := by
  have hsteady : Steadily (s.reschedule handle time).2 := by
    unfold TimerWheel.reschedule
    cases hh : s.book.table handle with
    | none => exact hs.steady
    | some n =>
      have he : TimerEvent.SteadyOnWheel (.moved handle (s.node n).firing (s.node n).isPaused) := by
        rw [show (s.node n).isPaused = false from hs.unpaused n]
        exact fun h => absurd h.2 Bool.false_ne_true
      dsimp only
      split
      · exact hs.steady.concat rfl he
      · split <;> exact hs.steady.concat rfl he
  have horder := hs.order.reschedule handle time hsteady
  unfold TimerWheel.reschedule at horder hsteady hclear ⊢
  cases hh : s.book.table handle with
  | none => exact hs
  | some n =>
    rw [hh] at horder hsteady hclear
    dsimp only at horder hsteady hclear ⊢
    split
    · rename_i hfiring
      rw [if_pos hfiring] at horder hsteady
      exact hs.set (t := { s.node n with time := time, rearmed := true }) (hs.unpaused n)
        (fun hmem => absurd hmem (hs.order.sound.not_mem_of_firing hfiring))
        (fun _ h => by cases hfiring.symm.trans h) horder hsteady
    · rename_i hfiring
      rw [if_neg hfiring] at horder hsteady hclear
      obtain ⟨-, hgone, hlined⟩ := hs.order.unlinked n
      let s' : TimerWheel :=
        ((s.note (.moved handle (s.node n).firing (s.node n).isPaused)).set n
          { s.node n with time := time }).unlink n
      have hself : s'.node n = { s.node n with time := time } := update_self ..
      have hother : ∀ m, m ≠ n → s'.book.nodes m = s.book.nodes m := fun m hm =>
        update_of_ne hm ..
      have hrung : Rung s' lo := by
        refine (hs.rung.unlink n).book hlined fun m hm => ?_
        exact congrArg TimerNode.time (hother m fun heq => hgone (heq ▸ hm))
      have hstay : ∀ m ∈ s.places.all, m ≠ n → m ∈ s'.places.all := fun m hm hmn =>
        mem_all_unlink hs.order hm hmn
      have hpaused : (s'.node n).isPaused = false := by
        rw [hself]
        exact hs.unpaused n
      split
      · rename_i hrun
        rw [if_pos hrun] at horder hsteady hclear
        exact hs.one n horder hsteady
          (hrung.arm hlined hlo hgone (hclear _ (List.mem_append_right _ List.mem_cons_self)))
          hs.runs hpaused hother (fun _ _ hg _ => hg)
          (fun m hm hmn => (mem_all_arm s' n m).2 (.inr (hstay m hm hmn)))
          fun _ _ _ _ => (mem_all_arm s' n n).2 (.inl rfl)
      · rename_i hrun
        rw [if_neg hrun] at horder hsteady
        refine hs.one n horder hsteady hrung hs.runs hpaused hother (fun _ _ hg _ => hg) hstay
          fun g _ henabled _ => absurd ?_ hrun
        have henabled' : (s.node n).enabled = true := by
          rw [hself] at henabled
          exact henabled
        rw [henabled', show (s.node n).isPaused = false from hs.unpaused n]
        rfl

/-- **Arming, clearing and moving keep the timers in the places of their ticks.** -/
theorem Timed.perform (hlo : lo ≤ s.tick + 1) (hc : Timely c)
    (hclear : ∀ l ∈ (s.perform c).links, Clear l) : Timed (s.perform c) lo :=
  perform_rule (P := fun s' => (∀ l ∈ s'.links, Clear l) → Timed s' lo) c (fun _ => hs)
    (hs.create hlo) (fun handle immediate _ => hs.clear handle immediate) (hs.reschedule hlo)
    (fun _ _ _ _ heq => (heq ▸ hc : Timely (.setEnabled ..)).elim) hclear

end

theorem cursor_lt (hs : Rung s lo) : s.cursor < bucketCount := by
  rw [hs.cursor]
  exact Nat.mod_lt _ bucketCount_pos

theorem Timed.foldl_perform (calls : List TimerCall) (hs : Timed s lo) (hlo : lo ≤ s.tick + 1)
    (hc : ∀ c ∈ calls, Timely c)
    (hclear : ∀ l ∈ (calls.foldl TimerWheel.perform s).links, Clear l) :
    Timed (calls.foldl TimerWheel.perform s) lo ∧ Calm s (calls.foldl TimerWheel.perform s) := by
  induction calls generalizing s with
  | nil => exact ⟨hs, .refl s⟩
  | cons c calls ih =>
    have hcalm := perform_calm (cursor_lt hs.rung) (hc c List.mem_cons_self)
    have hlater := (foldl_perform_onward calls (s.perform c)).2
    have hs' := hs.perform hlo (hc c List.mem_cons_self) fun l hl => hclear l (hlater.subset hl)
    obtain ⟨hs'', hcalm'⟩ := ih hs' (hcalm.tick ▸ hlo)
      (fun c' hc' => hc c' (List.mem_cons_of_mem c hc'))
      hclear
    exact ⟨hs'', hcalm.trans hcalm'⟩

/-! ## A pass -/

/-- **A node of the bucket at the cursor is called at its own tick.** -/
theorem Timed.startFiring (hs : Timed s s.tick) (hn : n ∈ s.places.buckets s.cursor) :
    Timed ((s.unlinkFrom s.cursor n).startFiring n) s.tick := by
  obtain ⟨hall, -, hgone, hlined, -⟩ := hs.order.unlinkedFrom hn
  have hother : ∀ m, m ≠ n →
      ((s.unlinkFrom s.cursor n).startFiring n).book.nodes m = s.book.nodes m := fun m hm =>
    update_of_ne hm ..
  have hself : (((s.unlinkFrom s.cursor n).startFiring n).node n).firing = true :=
    (hs.order.startFiring hn).2
  refine hs.one n (hs.order.startFiring hn).1
    (hs.steady.concat (e := .ran (s.node n).handle (s.node n).callback false) rfl rfl) ?_ ?_ ?_
    hother (fun _ _ hg _ => hg) (fun m hm hmn => ?_) fun g _ _ hfiring => ?_
  · have hunlinked : Rung (s.unlinkFrom s.cursor n) s.tick :=
      hs.rung.congr rfl rfl (fun i m hm => mem_unlinkFrom hm) (fun _ => id) fun _ _ => ⟨rfl, rfl⟩
    refine Rung.congr hunlinked rfl rfl (fun _ _ => id) (fun _ => id) fun m hm => ⟨?_, rfl⟩
    have hmem := mem_all_of (s := s.unlinkFrom s.cursor n) hlined hm
    exact congrArg TimerNode.time (hother m fun heq => hgone (heq ▸ hmem))
  · intro r hr
    change r ∈ s.runs ++ [((s.node n).time, s.armedAt n, s.tick)] at hr
    rw [List.mem_append, List.mem_singleton] at hr
    rcases hr with hr | rfl
    · exact hs.runs r hr
    · exact (hs.rung.slot_eq hn).symm
  · exact Unpaused.set hs.unpaused n (t := { s.node n with firing := true, rearmed := false })
      (hs.unpaused n) n
  · change m ∈ (s.places.unlinkFrom s.cursor n).all
    rw [hall]
    exact (Multiset.mem_erase_of_ne hmn).2 hm
  · cases hself.symm.trans hfiring

/-- **A callback that returns leaves its timer in the place of its next tick**, or ended. -/
theorem Timed.settle (hs : Timed s lo) (hlo : lo ≤ s.tick + 1)
    (hfiring : (s.node n).firing = true)
    (hclear : ∀ l ∈ ((s.set n { s.node n with firing := false }).settle n).links, Clear l) :
    Timed ((s.set n { s.node n with firing := false }).settle n) lo ∧
      Calm s ((s.set n { s.node n with firing := false }).settle n) := by
  have horder := hs.order.settle hfiring
  have hn := hs.order.sound.not_mem_of_firing hfiring
  have hcursor := cursor_lt hs.rung
  have hnode : (s.set n { s.node n with firing := false }).node n =
      { s.node n with firing := false } := update_self ..
  have hother : ∀ t : TimerNode, ∀ m, m ≠ n → (s.book.set n t).nodes m = s.book.nodes m :=
    fun t m hm => update_of_ne hm ..
  suffices h : ∀ r, r = (s.set n { s.node n with firing := false }).settle n → InOrder r →
      (∀ l ∈ r.links, Clear l) → Timed r lo ∧ Calm s r from h _ rfl horder hclear
  intro r hr
  unfold TimerWheel.settle at hr
  rw [hnode] at hr
  dsimp only at hr
  split at hr
  · rename_i hhandle
    subst hr
    intro horder' _
    have hother' : ∀ m, m ≠ n → ((s.book.set n { s.node n with firing := false }).recycle n).nodes
        m = s.book.nodes m := fun m hmn => (recycle_nodes_ne _ hmn).trans (hother _ m hmn)
    have hset : (s.book.set n { s.node n with firing := false }).Unpaused :=
      Unpaused.set hs.unpaused n (hs.unpaused n)
    refine ⟨hs.one n horder' (fun e he => ?_) (hs.rung.book hs.order.lined fun m hm => ?_) hs.runs
      (hset.recycle n n) hother' (fun g m hg _ => ?_) (fun m hm _ => hm) fun g hg _ _ => ?_,
      calm_book s _⟩
    · change e ∈ ((s.book.set n _).recycle n).log at he
      rw [recycle_log] at he
      exact hs.steady e he
    · exact congrArg TimerNode.time (hother' m fun heq => hn (heq ▸ hm))
    · change ((s.book.set n _).recycle n).table g = some m at hg
      rwa [recycle_table] at hg
    · change ((s.book.set n _).recycle n).table g = some n at hg
      rw [recycle_table] at hg
      cases (hs.order.sound.live g n hg).2.symm.trans hhandle
  · rename_i handle hhandle
    have hh := hs.order.sound.named n handle hhandle
    -- the node armed anew, with the time it has or the next one
    have harm : ∀ time, ∀ s' : TimerWheel,
        s' = ((s.note (.returned handle)).set n { s.node n with firing := false, time := time }) →
        InOrder (s'.arm n) → (∀ l ∈ (s'.arm n).links, Clear l) →
        Timed (s'.arm n) lo ∧ Calm s (s'.arm n) := by
      rintro time s' rfl horder' hclear'
      refine ⟨hs.one n horder' (hs.steady.concat (e := .returned handle) rfl trivial) ?_ hs.runs ?_
        (hother _) (fun _ _ hg _ => hg) (fun m hm _ => (mem_all_arm _ n m).2 (.inr hm))
        fun _ _ _ _ => (mem_all_arm _ n n).2 (.inl rfl), ?_⟩
      · have hrung : Rung ((s.note (.returned handle)).set n
            { s.node n with firing := false, time := time }) lo :=
          hs.rung.book hs.order.lined fun m hm =>
            congrArg TimerNode.time (hother _ m fun heq => hn (heq ▸ hm))
        exact hrung.arm hs.order.lined hlo hn
          (hclear' _ (List.mem_append_right _ List.mem_cons_self))
      · exact Unpaused.set hs.unpaused n (t := { s.node n with firing := false, time := time })
          (hs.unpaused n) n
      · refine (calm_book s _).trans (arm_calm _ ?_ n)
        exact hcursor
    split at hr
    · subst hr
      exact harm (s.node n).time _ rfl
    · split at hr
      · subst hr
        refine harm ((s.node n).time + (s.node n).interval) _ ?_
        simp only [TimerWheel.set, TimerWheel.note, TimerBook.set, TimerBook.note,
          update_idem]
      · split at hr
        · subst hr
          intro horder' _
          have hsound := hs.order.sound.touch (t := { s.node n with firing := false }) hh (.inl rfl)
            hhandle ((hs.order.sound.fits handle n hh).rest (s.node n).time)
            fun hmem => absurd hmem hn
          have hstays : ∀ g m, (((s.book.set n { s.node n with firing := false }).note
              (.returned handle)).retire n false).table g = some m →
              s.book.table g = some m ∧ m ≠ n := fun g m hg =>
            hsound.retire_table hh (s.book.log ++ [TimerEvent.returned handle]) false hg
          have hother' : ∀ m, m ≠ n → (((s.book.set n { s.node n with firing := false }).note
              (.returned handle)).retire n false).nodes m = s.book.nodes m := fun m hmn =>
            (retire_nodes_ne _ false hmn).trans (hother _ m hmn)
          have hset : ((s.book.set n { s.node n with firing := false }).note
              (.returned handle)).Unpaused := Unpaused.set hs.unpaused n (hs.unpaused n)
          have hsteady : Steadily ((s.set n { s.node n with firing := false }).note
              (.returned handle)) := hs.steady.concat (e := .returned handle) rfl trivial
          refine ⟨hs.one n horder' (hsteady.retire n)
            (hs.rung.book hs.order.lined fun m hm => ?_) hs.runs (hset.retire n false n) hother'
            (fun g m hg _ => (hstays g m hg).1) (fun m hm _ => hm)
            fun g hg => absurd rfl (hstays g n hg).2, calm_book s _⟩
          exact congrArg TimerNode.time (hother' m fun heq => hn (heq ▸ hm))
        · rename_i hend
          subst hr
          intro horder' _
          refine ⟨hs.set (t := { s.node n with firing := false }) (hs.unpaused n) (fun _ => rfl)
            (fun henabled _ => ?_) horder' (hs.steady.concat (e := .returned handle) rfl trivial),
            calm_book s _⟩
          refine absurd ?_ hend
          rw [show (s.node n).enabled = true from henabled]
          rfl

/-- The callbacks to come arm, clear and move. -/
def TimelyAnswers (answers : List TimerAnswer) : Prop := ∀ a ∈ answers, ∀ c ∈ a.calls, Timely c

/-- **The first node of the bucket at the cursor is fired.** -/
theorem Timed.fire (hs : Timed s s.tick) (hn : n ∈ s.places.buckets s.cursor)
    (hanswers : TimelyAnswers s.answers)
    (hclear : ∀ l ∈ ((s.unlinkFrom s.cursor n).fire n).2.links, Clear l) :
    Timed ((s.unlinkFrom s.cursor n).fire n).2 s.tick ∧
      ((s.unlinkFrom s.cursor n).fire n).2.cursor = s.cursor ∧
      ((s.unlinkFrom s.cursor n).fire n).2.tick = s.tick ∧
      ((s.unlinkFrom s.cursor n).fire n).2.now = s.now ∧
      ((s.unlinkFrom s.cursor n).fire n).2.checkAt = s.checkAt ∧
      ((s.unlinkFrom s.cursor n).fire n).2.answers = s.answers.tail ∧
      (((s.unlinkFrom s.cursor n).fire n).2.places.buckets s.cursor).length <
        (s.places.buckets s.cursor).length := by
  let s₁ : TimerWheel := { (s.unlinkFrom s.cursor n).startFiring n with answers := s.answers.tail }
  let s₂ : TimerWheel := (s.answers.headD {}).calls.foldl TimerWheel.perform s₁
  let s₃ : TimerWheel := { s₂ with fired := s₂.fired + 1 }
  have heq : ((s.unlinkFrom s.cursor n).fire n).2 =
      (s₃.set n { s₃.node n with firing := false }).settle n := rfl
  rw [heq] at hclear ⊢
  have hcalls : ∀ c ∈ (s.answers.headD {}).calls, Timely c := by
    cases hans : s.answers with
    | nil => exact nofun
    | cons a rest => exact hanswers a (by rw [hans]; exact List.mem_cons_self)
  have hstart := hs.startFiring hn
  have hs₁ : Timed s₁ s.tick := { hstart with
    order := { hstart.order with }, rung := { hstart.rung with } }
  have hlinks := (settle_onward (s₃.set n { s₃.node n with firing := false }) n).2
  obtain ⟨hs₂, hcalm⟩ := hs₁.foldl_perform (s.answers.headD {}).calls (Nat.le_succ _) hcalls
    fun l hl => hclear l (hlinks.subset hl)
  have hs₃ : Timed s₃ s.tick := { hs₂ with
    order := { hs₂.order with }, rung := { hs₂.rung with } }
  have hfiring : (s₃.node n).firing = true := by
    have hgoes := (foldl_perform_goes (s.answers.headD {}).calls s₁).2 hs₁.order hs₂.steady
    exact hgoes.2 n (hs.order.startFiring hn).2
  have htick : s₃.tick = s.tick := hcalm.tick
  obtain ⟨hs₄, hcalm'⟩ := hs₃.settle (by rw [htick]; exact Nat.le_succ _) hfiring hclear
  refine ⟨hs₄, hcalm'.cursor.trans hcalm.cursor, hcalm'.tick.trans hcalm.tick,
    hcalm'.now.trans hcalm.now, hcalm'.limits.1.trans hcalm.limits.1,
    hcalm'.limits.2.1.trans hcalm.limits.2.1, ?_⟩
  have hcursor : s₃.cursor = s.cursor := hcalm.cursor
  have hlast := hcalm'.bucket
  rw [hcursor] at hlast
  have hmid : (s₂.places.buckets s.cursor).length ≤ (s₁.places.buckets s.cursor).length :=
    hcalm.bucket
  have hfirst : (s₁.places.buckets s.cursor).length < (s.places.buckets s.cursor).length := by
    change (update s.places.buckets s.cursor _ s.cursor).length < _
    rw [update_self, List.length_erase_of_mem hn]
    have := List.length_pos_of_mem hn
    omega
  exact hlast.trans_lt (hmid.trans_lt hfirst)

/-- Fields the places of the timers do not depend on. -/
theorem Timed.of_eq (hs : Timed s lo) (hbook : s'.book = s.book) (hplaces : s'.places = s.places)
    (hcursor : s'.cursor = s.cursor) (htick : s'.tick = s.tick) (harmed : s'.armedAt = s.armedAt)
    (hruns : s'.runs = s.runs) : Timed s' lo := by
  obtain ⟨book, places, cursor, tick, _, _, _, _, _, _, _, _, _, armedAt, _, runs⟩ := s'
  subst hbook hplaces hcursor htick harmed hruns
  exact ⟨⟨hs.order.sound, hs.order.lined⟩, hs.steady, hs.unpaused,
    ⟨hs.rung.cursor, hs.rung.ring, hs.rung.overflow⟩, hs.runs, hs.linked⟩

/-- What firing the bucket at the cursor leaves; `thrown` if an exception left the pass. -/
structure Passed (s r : TimerWheel) (thrown : Bool) : Prop where
  timed : Timed r (if thrown then s.tick else s.tick + 1)
  unfinished : r.unfinished = thrown
  tick : r.tick = s.tick
  now : r.now = s.now
  checkAt : r.checkAt = none
  answers : TimelyAnswers r.answers

theorem TimelyAnswers.tail (h : TimelyAnswers answers) :
    TimelyAnswers answers.tail := fun a ha => h a (List.mem_of_mem_tail ha)

theorem Timed.emptied (hs : Timed s s.tick) (hempty : s.places.buckets s.cursor = [])
    (hcheck : s.checkAt = none) (hanswers : TimelyAnswers s.answers) :
    Passed s { s with unfinished := false } false := by
  have hlater : Timed s (s.tick + 1) :=
    ⟨hs.order, hs.steady, hs.unpaused, hs.rung.later hempty, hs.runs, hs.linked⟩
  exact ⟨hlater.of_eq rfl rfl rfl rfl rfl rfl, rfl, rfl, rfl, hcheck, hanswers⟩

/-- **Firing the bucket at the cursor fires all of it**, unless an exception leaves the pass. -/
theorem Timed.fireBucket (index fuel : ℕ) (hs : Timed s s.tick) (hindex : s.cursor = index)
    (hfuel : (s.places.buckets index).length ≤ fuel) (hcheck : s.checkAt = none)
    (hanswers : TimelyAnswers s.answers)
    (hclear : ∀ l ∈ (fireBucket index fuel s).2.links, Clear l) :
    Passed s (fireBucket index fuel s).2 (fireBucket index fuel s).1 := by
  induction fuel generalizing s with
  | zero =>
    have hempty := List.length_eq_zero_iff.1 (Nat.le_zero.1 hfuel)
    exact hs.emptied (hindex ▸ hempty) hcheck hanswers
  | succ fuel ih =>
    have hlimits : s.checkLimits = (false, s) := by
      unfold checkLimits
      rw [hcheck]
      rfl
    unfold TimerWheel.fireBucket at hclear ⊢
    cases hbucket : s.places.buckets index with
    | nil => exact hs.emptied (hindex ▸ hbucket) hcheck hanswers
    | cons n rest =>
      rw [hbucket] at hclear
      dsimp only at hclear ⊢
      rw [hlimits] at hclear ⊢
      rw [if_neg Bool.false_ne_true] at hclear ⊢
      subst hindex
      have hn : n ∈ s.places.buckets s.cursor := by
        rw [hbucket]
        exact List.mem_cons_self
      split
      · rename_i henabled
        rw [if_pos henabled] at hclear
        rw [Bool.not_eq_true'] at henabled
        obtain ⟨hall, -, hgone, hlined, hmem⟩ := hs.order.unlinkedFrom hn
        obtain ⟨handle, hh⟩ := hs.order.sound.exists_of_mem hmem
        have hkeeps := reap_keeps hn henabled
        have hsteady : Steadily ((s.unlinkFrom s.cursor n).retire n) :=
          Steadily.retire (s := s.unlinkFrom s.cursor n) hs.steady n
        have hs' : Timed ((s.unlinkFrom s.cursor n).retire n) s.tick := by
          refine hs.retire hh s.book.log (fun m hm hmn => ?_) hgone ?_ hlined
            (hkeeps.2 hs.order hsteady) hsteady
          · change m ∈ (s.places.unlinkFrom s.cursor n).all
            rw [hall]
            exact (Multiset.mem_erase_of_ne hmn).2 hm
          · exact hs.rung.congr rfl rfl (fun i m hm => mem_unlinkFrom hm) (fun _ => id)
              fun _ _ => ⟨rfl, rfl⟩
        have hlen : (((s.unlinkFrom s.cursor n).retire n).places.buckets s.cursor).length ≤
            fuel := by
          change (update s.places.buckets s.cursor _ s.cursor).length ≤ fuel
          rw [update_self, List.length_erase_of_mem hn]
          omega
        obtain ⟨h1, h2, h3, h4, h5, h6⟩ := ih hs' rfl hlen hcheck hanswers hclear
        exact ⟨h1, h2, h3, h4, h5, h6⟩
      · rename_i henabled
        rw [if_neg henabled] at hclear
        have hclear' : ∀ l ∈ ((s.unlinkFrom s.cursor n).fire n).2.links, Clear l := by
          intro l hl
          refine hclear l ?_
          split
          · exact hl
          · exact (onward_kept.fireBucket _ _ _).2.subset hl
        obtain ⟨hs', hcursor, htick, hnow, hcheck', htail, hlen⟩ := hs.fire hn hanswers hclear'
        have hanswers' : TimelyAnswers ((s.unlinkFrom s.cursor n).fire n).2.answers := by
          rw [htail]
          exact hanswers.tail
        split
        · exact ⟨hs'.of_eq rfl rfl rfl rfl rfl rfl, rfl, htick, hnow, hcheck'.trans hcheck,
            hanswers'⟩
        · rename_i hgo
          rw [if_neg hgo] at hclear
          rw [← htick] at hs'
          obtain ⟨h1, h2, h3, h4, h5, h6⟩ := ih hs' hcursor (by omega) (hcheck'.trans hcheck)
            hanswers' hclear
          rw [htick] at h1 h3
          exact ⟨h1, h2, h3, h4.trans hnow, h5, h6⟩

/-! ## The walk of the cursor -/

theorem foldl_link_fields (nodes : List ℕ) (s : TimerWheel) :
    (nodes.foldl link s).tick = s.tick ∧ (nodes.foldl link s).cursor = s.cursor ∧
      (nodes.foldl link s).armedAt = s.armedAt ∧ (nodes.foldl link s).runs = s.runs ∧
      (nodes.foldl link s).links = s.links ∧ (nodes.foldl link s).now = s.now ∧
      (nodes.foldl link s).checkAt = s.checkAt ∧ (nodes.foldl link s).answers = s.answers ∧
      (nodes.foldl link s).places.all = s.places.all + nodes := by
  induction nodes generalizing s with
  | nil => exact ⟨rfl, rfl, rfl, rfl, rfl, rfl, rfl, rfl, (add_zero _).symm⟩
  | cons n nodes ih =>
    obtain ⟨h1, h2, h3, h4, h5, h6, h7, h8, h9⟩ := ih (s.link n)
    refine ⟨h1, h2, h3, h4, h5, h6, h7, h8, h9.trans ?_⟩
    change (s.places.link s.cursor _ n).all + _ = _
    rw [WheelPlaces.all_link, ← Multiset.cons_coe, Multiset.add_cons, Multiset.cons_add]

/-- The overflow put into the ring anew, at a tick at which the cursor is at bucket zero. -/
theorem Rung.foldl_link (nodes : List ℕ) (hs : Rung s s.tick) (hdvd : bucketCount ∣ s.tick)
    (hnodes : ∀ n ∈ nodes, (s.tick : ℤ) < dueTick (s.node n).time ∧
      ¬ (bucketCount : ℤ) ∣ dueTick (s.node n).time ∧
      (s.armedAt n : ℤ) < dueTick (s.node n).time) :
    Rung (nodes.foldl TimerWheel.link s) s.tick := by
  induction nodes generalizing s with
  | nil => exact hs
  | cons n nodes ih =>
    obtain ⟨hdue, hnot, harmed⟩ := hnodes n List.mem_cons_self
    have hslot : s.slotOf n = max (dueTick (s.node n).time) (s.tick + 1) := by
      unfold slotOf
      omega
    exact ih (s := s.link n)
      (hs.link (Nat.le_succ _) (fun _ => harmed) hslot fun hfar => ⟨nextWrap_lt hfar hnot, hnot⟩)
      hdvd fun m hm => hnodes m (List.mem_cons_of_mem n hm)

theorem nextWrap_succ (h : (tick + 1) % bucketCount ≠ 0) : nextWrap (tick + 1) = nextWrap tick := by
  unfold nextWrap
  rw [bucketCount_eq] at h ⊢
  have : (tick + 1) / 512 = tick / 512 := by omega
  rw [this]

theorem nextWrap_of_succ (h : (tick + 1) % bucketCount = 0) : nextWrap tick = tick + 1 := by
  unfold nextWrap
  rw [bucketCount_eq] at h ⊢
  omega

/-- **The cursor goes on by a tick.** -/
theorem Timed.turn (hs : Timed s (s.tick + 1)) :
    Timed s.turn s.turn.tick ∧ s.turn.tick = s.tick + 1 ∧ s.turn.now = s.now ∧
      s.turn.checkAt = s.checkAt ∧ s.turn.answers = s.answers ∧ s.turn.links = s.links := by
  have hcursor : (s.cursor + 1) % bucketCount = (s.tick + 1) % bucketCount := by
    rw [hs.rung.cursor, Nat.mod_add_mod]
  let s₁ : TimerWheel := { s with tick := s.tick + 1, cursor := (s.cursor + 1) % bucketCount }
  have hring : ∀ i, ∀ n ∈ s.places.buckets i, ∃ k : ℕ, i = k % bucketCount ∧ s.tick + 1 ≤ k ∧
      k < s.tick + 1 + bucketCount ∧ (k : ℤ) = s.slotOf n := by
    intro i n hn
    obtain ⟨k, h1, h2, h3, h4⟩ := hs.rung.ring i n hn
    exact ⟨k, h1, h2, by omega, h4⟩
  unfold TimerWheel.turn
  dsimp only
  split
  · rename_i hzero
    have hmod : (s.tick + 1) % bucketCount = 0 := hcursor ▸ hzero
    have hwrap := nextWrap_of_succ hmod
    let s₂ : TimerWheel := { s₁ with places := { s.places with overflow := [] } }
    have hrung : Rung s₂ s₂.tick := ⟨hcursor, hring, nofun⟩
    have hfold := hrung.foldl_link s.places.overflow (Nat.dvd_of_mod_eq_zero hmod) fun n hn => by
      obtain ⟨h1, h2, h3⟩ := hs.rung.overflow n hn
      rw [hwrap] at h1
      exact ⟨h1, h2, h3⟩
    obtain ⟨htick, -, harmed, hruns, hlinks, hnow, hcheck, hanswers, hall⟩ :=
      foldl_link_fields s.places.overflow s₂
    have hbook : (s.places.overflow.foldl link s₂).book = s.book := (foldl_link_book _ _).1
    have hall' : (s.places.overflow.foldl link s₂).places.all = s.places.all := by
      rw [hall]
      change (∑ i ∈ Finset.range bucketCount, (s.places.buckets i : Multiset ℕ)) + 0 + _ = _
      rw [add_zero]
      rfl
    have hsteady : Steadily (s.places.overflow.foldl link s₂) := by
      unfold Steadily
      rw [hbook]
      exact hs.steady
    have horder : InOrder (s.places.overflow.foldl link s₂) :=
      (admitOverflow_keeps s₁).2 ⟨hs.order.sound, hs.order.lined⟩ hsteady
    refine ⟨⟨horder, hsteady, ?_, ?_, ?_, ?_⟩, htick, hnow, hcheck, hanswers, hlinks⟩
    · change (s.places.overflow.foldl link s₂).book.Unpaused
      rw [hbook]
      exact hs.unpaused
    · change Rung (s.places.overflow.foldl link s₂) (s.places.overflow.foldl link s₂).tick
      rw [htick]
      exact hfold
    · change ∀ r ∈ (s.places.overflow.foldl link s₂).runs, _
      rw [hruns]
      exact hs.runs
    · change ∀ h n, (s.places.overflow.foldl link s₂).book.table h = some n →
        ((s.places.overflow.foldl link s₂).book.nodes n).enabled = true →
        ((s.places.overflow.foldl link s₂).book.nodes n).firing = false →
        n ∈ (s.places.overflow.foldl link s₂).places.all
      rw [hbook, hall']
      exact hs.linked
  · rename_i hzero
    have hmod : (s.tick + 1) % bucketCount ≠ 0 := hcursor ▸ hzero
    refine ⟨⟨⟨hs.order.sound, hs.order.lined⟩, hs.steady, hs.unpaused, ⟨hcursor, hring, ?_⟩,
      hs.runs, hs.linked⟩, rfl, rfl, rfl, rfl, rfl⟩
    intro n hn
    rw [nextWrap_succ hmod]
    exact hs.rung.overflow n hn

/-- The wheel between two passes. -/
structure Settled (s : TimerWheel) : Prop where
  timed : Timed s (if s.unfinished then s.tick else s.tick + 1)
  tick : s.tick ≤ targetOf s.now
  reached : s.unfinished = false → s.tick = targetOf s.now

/-- **The walk of a revolution at most** comes to its target, unless an exception ends it. -/
theorem Timed.walk (target fuel walked : ℕ) (hs : Timed s (s.tick + 1))
    (hfuel : target - s.tick ≤ fuel) (hwalked : walked + (target - s.tick) ≤ bucketCount)
    (hle : s.tick ≤ target) (hunfinished : s.unfinished = false) (hcheck : s.checkAt = none)
    (hanswers : TimelyAnswers s.answers)
    (hclear : ∀ l ∈ (walk target fuel walked s).links, Clear l) :
    Timed (walk target fuel walked s) (if (walk target fuel walked s).unfinished then
      (walk target fuel walked s).tick else (walk target fuel walked s).tick + 1) ∧
      (walk target fuel walked s).tick ≤ target ∧
      ((walk target fuel walked s).unfinished = false →
        (walk target fuel walked s).tick = target) ∧ (walk target fuel walked s).now = s.now := by
  induction fuel generalizing walked s with
  | zero =>
    have htick : s.tick = target := by omega
    refine ⟨?_, hle, fun _ => htick, rfl⟩
    change Timed s (if s.unfinished then s.tick else s.tick + 1)
    rw [hunfinished]
    exact hs
  | succ fuel ih =>
    unfold TimerWheel.walk at hclear ⊢
    by_cases hgo : s.tick < target
    · rw [if_pos hgo] at hclear ⊢
      have hskip : ¬ (bucketCount ≤ walked ∧ bucketCount ≤ target - s.tick) := by
        omega
      rw [if_neg hskip] at hclear ⊢
      dsimp only at hclear ⊢
      obtain ⟨hturn, htick, hnow, hcheck', hanswers', -⟩ := hs.turn
      have hclear' : ∀ l ∈ (TimerWheel.fireBucket s.turn.cursor
          (s.turn.places.buckets s.turn.cursor).length s.turn).2.links, Clear l := by
        intro l hl
        refine hclear l ?_
        split
        · exact hl
        · split
          · exact hl
          · exact (onward_kept.walk _ _ _ _).2.subset hl
      obtain ⟨h1, h2, h3, h4, h5, h6⟩ := hturn.fireBucket s.turn.cursor _ rfl le_rfl
        (hcheck'.trans hcheck) (hanswers' ▸ hanswers) hclear'
      set fired := TimerWheel.fireBucket s.turn.cursor
        (s.turn.places.buckets s.turn.cursor).length s.turn
      by_cases hthrown : fired.1 = true
      · rw [hthrown] at h2
        rw [if_pos hthrown] at h1 ⊢
        refine ⟨?_, ?_, fun h => Bool.noConfusion (h2.symm.trans h), h4.trans hnow⟩
        · rw [h2, h3]
          exact h1
        · rw [h3]
          omega
      · rw [Bool.eq_false_of_not_eq_true hthrown] at h2
        rw [if_neg hthrown] at h1 ⊢
        rw [if_neg hthrown, h2] at hclear
        rw [h2]
        rw [← h3] at h1
        obtain ⟨h7, h8, h9, h10⟩ := ih (walked + 1) h1 (by omega) (by omega) (by omega) h2 h5 h6
          hclear
        exact ⟨h7, h8, h9, h10.trans (h4.trans hnow)⟩
    · rw [if_neg hgo]
      refine ⟨?_, hle, fun _ => by omega, rfl⟩
      rw [hunfinished]
      exact hs

/-- Arming, clearing and moving, from outside or from callbacks, and passes of a revolution at
most, not limited in their fires. -/
def InRevolution (s : TimerWheel) : TimerTurn → Prop
  | .call c => Timely c
  | .advance dt maxFires budget answers _ => 0 ≤ dt ∧ maxFires = none ∧ budget = false ∧
      TimelyAnswers answers ∧ targetOf (s.now + dt) ≤ s.tick + bucketCount
  | .onError _ => True

theorem targetOf_mono {a b : ℚ} (h : a ≤ b) : targetOf a ≤ targetOf b :=
  Nat.floor_le_floor (div_le_div_of_nonneg_right h resolution_pos.le)

/-- **A pass keeps the timers in the places of their ticks.** -/
theorem Settled.advanceBy (hs : Settled s) {dt : ℚ} (late : List Bool) (hdt : 0 ≤ dt)
    (hanswers : TimelyAnswers answers) (htarget : targetOf (s.now + dt) ≤ s.tick + bucketCount)
    (hclear : ∀ l ∈ (s.advanceBy dt none false answers late).links, Clear l) :
    Settled (s.advanceBy dt none false answers late) := by
  have hle : s.tick ≤ targetOf (s.now + dt) := hs.tick.trans (targetOf_mono (by linarith))
  -- the walk from the cursor, once its own bucket is empty
  have hwalk : ∀ r : TimerWheel, Timed r (r.tick + 1) → r.tick = s.tick → r.now = s.now + dt →
      r.unfinished = false → r.checkAt = none → TimelyAnswers r.answers →
      (∀ l ∈ (walk (targetOf (s.now + dt)) (targetOf (s.now + dt) - r.tick) 0 r).links, Clear l) →
      Settled (walk (targetOf (s.now + dt)) (targetOf (s.now + dt) - r.tick) 0 r) := by
    intro r hr htick hnow hunfinished hcheck hr' hclear'
    obtain ⟨h1, h2, h3, h4⟩ := hr.walk _ _ 0 le_rfl (by omega) (by omega) hunfinished hcheck hr'
      hclear'
    refine ⟨h1, ?_, fun h => ?_⟩
    · rw [h4, hnow]
      exact h2
    · rw [h4, hnow]
      exact h3 h
  have hbegin : Timed (s.begin dt none false answers late)
      (if s.unfinished then s.tick else s.tick + 1) := hs.timed.of_eq rfl rfl rfl rfl rfl rfl
  unfold TimerWheel.advanceBy at hclear ⊢
  dsimp only at hclear ⊢
  by_cases hun : (s.begin dt none false answers late).unfinished = true
  · have hun' : s.unfinished = true := hun
    rw [if_pos hun] at hclear ⊢
    rw [hun'] at hbegin
    set b := s.begin dt none false answers late
    have hclear' : ∀ l ∈ (fireBucket b.cursor (b.places.buckets b.cursor).length b).2.links,
        Clear l := by
      intro l hl
      refine hclear l ?_
      split
      · exact hl
      · split
        · exact hl
        · exact (onward_kept.walk _ _ _ _).2.subset hl
    obtain ⟨h1, h2, h3, h4, h5, h6⟩ := Timed.fireBucket (s := b) b.cursor _ hbegin rfl le_rfl rfl
      hanswers hclear'
    set fired := fireBucket b.cursor (b.places.buckets b.cursor).length b
    by_cases hthrown : fired.1 = true
    · rw [hthrown] at h2
      rw [if_pos hthrown] at h1 ⊢
      refine ⟨?_, ?_, fun h => Bool.noConfusion (h2.symm.trans h)⟩
      · rw [h2, h3]
        exact h1
      · rw [h3, h4]
        exact hle
    · rw [Bool.eq_false_of_not_eq_true hthrown] at h2
      rw [if_neg hthrown] at h1 ⊢
      rw [if_neg hthrown, h2] at hclear
      rw [h2]
      rw [← h3] at h1
      exact hwalk fired.2 h1 h3 h4 h2 h5 h6 hclear
  · have hun' : s.unfinished = false := by
      rw [Bool.not_eq_true] at hun
      exact hun
    rw [if_neg hun] at hclear ⊢
    rw [hun'] at hbegin
    exact hwalk _ hbegin rfl rfl hun' rfl hanswers hclear

theorem Settled.step (hs : Settled s) {turn : TimerTurn} (hturn : InRevolution s turn)
    (hclear : ∀ l ∈ (s.step turn).links, Clear l) : Settled (s.step turn) := by
  cases turn with
  | call c =>
    have hcalm := perform_calm (cursor_lt hs.timed.rung) hturn
    have hlo : (if s.unfinished then s.tick else s.tick + 1) ≤ s.tick + 1 := by
      split <;> omega
    have htimed := hs.timed.perform hlo hturn hclear
    have hunfinished : (s.perform c).unfinished = s.unfinished := hcalm.limits.2.2
    refine ⟨?_, ?_, fun h => ?_⟩
    · change Timed (s.perform c) (if (s.perform c).unfinished then _ else _)
      rw [hunfinished]
      change Timed (s.perform c) (if s.unfinished then (s.perform c).tick else
        (s.perform c).tick + 1)
      rw [hcalm.tick]
      exact htimed
    · change (s.perform c).tick ≤ targetOf (s.perform c).now
      rw [hcalm.tick, hcalm.now]
      exact hs.tick
    · change (s.perform c).tick = targetOf (s.perform c).now
      rw [hcalm.tick, hcalm.now]
      exact hs.reached (hunfinished.symm.trans h)
  | advance dt maxFires budget answers late =>
    obtain ⟨hdt, rfl, rfl, hanswers, htarget⟩ := hturn
    exact hs.advanceBy late hdt hanswers htarget hclear
  | onError handler => exact ⟨hs.timed.of_eq rfl rfl rfl rfl rfl rfl, hs.tick, hs.reached⟩

instance : DecidablePred Clear := fun l =>
  inferInstanceAs (Decidable (¬ ((l.2 : ℤ) + bucketCount ≤ dueTick l.1 ∧
    (bucketCount : ℤ) ∣ dueTick l.1)))

instance : DecidablePred Timely := fun c => by
  cases c <;> unfold Timely <;> infer_instance

instance (answers : List TimerAnswer) : Decidable (TimelyAnswers answers) :=
  inferInstanceAs (Decidable (∀ a ∈ answers, ∀ c ∈ a.calls, Timely c))

instance (s : TimerWheel) (turn : TimerTurn) : Decidable (InRevolution s turn) := by
  cases turn <;> unfold InRevolution <;> infer_instance

/-- The bucket so many ticks ahead of the cursor. -/
def ahead (s : TimerWheel) (offset : ℕ) : List ℕ :=
  s.places.buckets ((s.cursor + offset) % bucketCount)

/-- The nodes `nextDue` looks at: the first bucket from the cursor on that holds any, and the
overflow. -/
def dueNodes (s : TimerWheel) : List ℕ :=
  ((List.range bucketCount).find? (s.ahead · ≠ [])).elim [] s.ahead ++ s.places.overflow

def nextDue (s : TimerWheel) : Option ℚ := (s.dueNodes.map fun n => (s.node n).time).min?

/-- The due times of the enabled timers that wait in the ring or the overflow. -/
def dueTimes (s : TimerWheel) : Set ℚ :=
  {t | ∃ n ∈ s.places.all, (s.node n).enabled = true ∧ (s.node n).time = t}

/-- The buckets from the cursor on are in the order of the due times of their nodes. -/
def InDueOrder (s : TimerWheel) : Prop :=
  ∀ i < bucketCount, ∀ n ∈ s.ahead i, ∀ j < bucketCount, ∀ m ∈ s.ahead j, i < j →
    (s.node n).time ≤ (s.node m).time

instance (s : TimerWheel) : Decidable s.InDueOrder := by
  unfold InDueOrder
  infer_instance

theorem mem_all_of_mem_ahead {offset : ℕ} (hn : n ∈ s.ahead offset) : n ∈ s.places.all :=
  WheelPlaces.mem_all.2 (.inl ⟨_, Nat.mod_lt _ bucketCount_pos, hn⟩)

theorem mem_all_of_mem_dueNodes (hn : n ∈ s.dueNodes) : n ∈ s.places.all := by
  rcases List.mem_append.1 hn with hn | hn
  · cases hfind : (List.range bucketCount).find? (s.ahead · ≠ []) with
    | none =>
      rw [hfind] at hn
      cases hn
    | some offset =>
      rw [hfind] at hn
      exact mem_all_of_mem_ahead hn
  · exact WheelPlaces.mem_all.2 (.inr hn)

/-- Every node of the ring is some way ahead of the cursor. -/
theorem exists_ahead (hi : i < bucketCount) (hn : n ∈ s.places.buckets i) :
    ∃ offset < bucketCount, n ∈ s.ahead offset := by
  refine ⟨(i + (bucketCount - s.cursor % bucketCount)) % bucketCount,
    Nat.mod_lt _ bucketCount_pos, ?_⟩
  have hindex : (s.cursor + (i + (bucketCount - s.cursor % bucketCount)) % bucketCount) %
      bucketCount = i := by
    rw [bucketCount_eq] at hi ⊢
    omega
  unfold ahead
  rwa [hindex]

/-- Of the nodes looked at, one is due no later than any node in a place. -/
theorem InDueOrder.exists_due_le (hs : s.InDueOrder) (hn : n ∈ s.places.all) :
    ∃ m ∈ s.dueNodes, (s.node m).time ≤ (s.node n).time := by
  rcases WheelPlaces.mem_all.1 hn with ⟨i, hi, hn⟩ | ho
  · obtain ⟨k, hk, hn⟩ := exists_ahead hi hn
    have hne : s.ahead k ≠ [] := List.ne_nil_of_mem hn
    obtain ⟨offset, hfind⟩ : ∃ offset,
        (List.range bucketCount).find? (s.ahead · ≠ []) = some offset := by
      rw [← Option.isSome_iff_exists, List.find?_isSome]
      exact ⟨k, List.mem_range.2 hk, decide_eq_true hne⟩
    have hdue : s.dueNodes = s.ahead offset ++ s.places.overflow := by
      unfold dueNodes
      rw [hfind]
      rfl
    rw [List.find?_range_eq_some] at hfind
    obtain ⟨hsome, hlt, hfirst⟩ := hfind
    rcases lt_trichotomy offset k with hless | heq | hmore
    · obtain ⟨m, hm⟩ := List.exists_mem_of_ne_nil _ (of_decide_eq_true hsome)
      exact ⟨m, hdue ▸ List.mem_append_left _ hm,
        hs offset (List.mem_range.1 hlt) m hm k hk n hn hless⟩
    · rw [hdue, heq]
      exact ⟨n, List.mem_append_left _ hn, le_rfl⟩
    · have := hfirst _ hmore
      rw [decide_eq_true hne] at this
      cases this
  · exact ⟨n, List.mem_append_right _ ho, le_rfl⟩

theorem InDueOrder.nextDue (hs : s.InDueOrder)
    (henabled : ∀ n ∈ s.places.all, (s.node n).enabled = true) :
    (s.nextDue = none ↔ s.dueTimes = ∅) ∧ ∀ t, s.nextDue = some t → IsLeast s.dueTimes t := by
  have hdue : ∀ m ∈ s.dueNodes, (s.node m).time ∈ s.dueTimes := fun m hm =>
    ⟨m, mem_all_of_mem_dueNodes hm, henabled m (mem_all_of_mem_dueNodes hm), rfl⟩
  have hleast : ∀ t ∈ s.dueTimes, ∃ m ∈ s.dueNodes, (s.node m).time ≤ t := by
    rintro _ ⟨n, hn, -, rfl⟩
    exact hs.exists_due_le hn
  unfold TimerWheel.nextDue
  constructor
  · rw [List.min?_eq_none_iff, List.map_eq_nil_iff, Set.eq_empty_iff_forall_notMem]
    refine ⟨fun hnil t ht => ?_, fun hempty => ?_⟩
    · obtain ⟨m, hm, -⟩ := hleast t ht
      rw [hnil] at hm
      cases hm
    · exact List.eq_nil_iff_forall_not_mem.2 fun m hm => hempty _ (hdue m hm)
  · intro t ht
    obtain ⟨hmem, hle⟩ := List.min?_eq_some_iff.1 ht
    rw [List.forall_mem_map] at hle
    obtain ⟨m, hm, rfl⟩ := List.mem_map.1 hmem
    refine ⟨hdue m hm, fun t ht => ?_⟩
    obtain ⟨m', hm', hle'⟩ := hleast t ht
    exact (hle m' hm').trans hle'

/-- The heap's queue holds timers due at these times, and the soonest is at its root. -/
structure Queues (heap : TimerHeap) (times : Set ℚ) : Prop where
  times : {t | ∃ n ∈ heap.queue.nodes, (heap.node n).time = t} = times
  root : ∀ n, heap.queue.peek = some n → ∀ m ∈ heap.queue.nodes,
    (heap.node n).time ≤ (heap.node m).time

theorem Queues.nextDue {heap : TimerHeap} {times : Set ℚ} (hq : Queues heap times) :
    (heap.nextDue = none ↔ times = ∅) ∧ ∀ t, heap.nextDue = some t → IsLeast times t := by
  rw [← hq.times]
  unfold TimerHeap.nextDue
  cases hpeek : heap.queue.peek with
  | none =>
    refine ⟨iff_of_true rfl ?_, nofun⟩
    have hlength : ¬ 0 < heap.queue.length := fun hpos => by
      unfold TimerQueue.peek at hpeek
      rw [if_pos hpos] at hpeek
      cases hpeek
    rw [Set.eq_empty_iff_forall_notMem]
    rintro _ ⟨n, hn, rfl⟩
    obtain ⟨i, hi, -⟩ := QueueTable.mem_nodes.1 hn
    omega
  | some n =>
    have hn := TimerQueue.mem_of_peek hpeek
    refine ⟨iff_of_false nofun (Set.nonempty_iff_ne_empty.1 ⟨_, n, hn, rfl⟩), fun t ht => ?_⟩
    obtain rfl := Option.some.inj ht
    refine ⟨⟨n, hn, rfl⟩, ?_⟩
    rintro _ ⟨m, hm, rfl⟩
    exact hq.root n hpeek m hm

end TimerWheel

end CrossByte
