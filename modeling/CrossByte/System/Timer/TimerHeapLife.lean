import CrossByte.System.Timer.TimerHeap

/-!
# The heap keeps its books

Every call of `TimerHeap`, and every turn of a pass, keeps the heap in order, whoever runs the
pass: the books are sound with the nodes of the queue for those queued and the deferred nodes for
those held back, and the nodes whose callbacks are running, one in each pass that called one, are
different.  What it takes is that a callback neither moves its own timer while that is paused nor
pauses it once it has moved or resumed it, and that no node is fired while it is held back.

A node held back was stamped with its pass, so that pass does not fire it.  One resumed while it is
held back is queued all the same, and the pass drops it from the queue when it comes to it; but a
pass that a callback runs in between has a number of its own and fires it, and cleared by its
callback the node is then recycled twice (`recycledTwice`).  Without such a resumption no node is
queued and held back (`Apart`).

## Main results

* `run_inOrder`: in every steady run the heap is in order;
* `run_apart`: in one in which no timer held back is resumed, no node is queued and held back;
* `held_node_recycled_twice`: a node fired while it is held back can become a spare twice.
-/

namespace CrossByte

open TimerBook Serial Function

namespace TimerEvent

/-- Steady, and no timer is resumed that was not paused, or while the pass holds it back. -/
def SteadyOnHeap : TimerEvent → Prop
  | .resumed _ parked held => parked = true ∧ held = false
  | e => e.Steady

instance : DecidablePred SteadyOnHeap := fun e =>
  match e with
  | .resumed _ parked held => inferInstanceAs (Decidable (parked = true ∧ held = false))
  | .moved h firing parked => inferInstanceAs (Decidable (Steady (.moved h firing parked)))
  | .paused h firing rearmed => inferInstanceAs (Decidable (Steady (.paused h firing rearmed)))
  | .ran h callback held => inferInstanceAs (Decidable (Steady (.ran h callback held)))
  | .armed .. | .cleared .. | .returned _ | .retired _ => instDecidableTrue

theorem SteadyOnHeap.steady {e : TimerEvent} (he : e.SteadyOnHeap) : e.Steady := by
  cases e with
  | resumed => trivial
  | _ => exact he

end TimerEvent

namespace TimerHeap

/-- The books are sound for the queue and the nodes held back, no node held back is being called,
and those that are running are different nodes. -/
structure InOrder (s : TimerHeap) : Prop where
  sound : s.book.Sound s.queue.nodes fun n => s.held n = true
  tracked : s.queue.Tracked
  nodup : s.deferred.Nodup
  deferred : ∀ n, n ∈ s.deferred ↔ s.held n = true
  quiet : ∀ n, s.held n = true → (s.node n).firing = false
  apart : s.running.Nodup
  called : ∀ n ∈ s.running, (s.node n).firing = true

/-- Everything that happened was steady. -/
def Steadily (s : TimerHeap) : Prop := ∀ e ∈ s.book.log, e.Steady

variable {s : TimerHeap} {h n : ℕ}

theorem inOrder_new : InOrder {} where
  sound := by
    have hsound := sound_new
    refine hsound.hold fun m _ => ?_
    simp
  tracked := TimerQueue.tracked_new
  nodup := List.nodup_nil
  deferred n := by simp
  quiet n h := by cases h
  apart := List.nodup_nil
  called n hn := by cases hn

variable {q : TimerQueue} {s' s'' : TimerHeap} {nodes : List ℕ} {p : HeapPass}
  {rest : List HeapPass}

section

variable (hs : InOrder s)

include hs

/-- The books, the queue and the stamps may change, as long as they stay in order. -/
theorem InOrder.write {b : TimerBook} {a : ℕ → Word}
    (hsound : b.Sound q.nodes fun n => s.held n = true) (hq : q.Tracked)
    (hfiring : ∀ m, (b.nodes m).firing = (s.book.nodes m).firing) :
    InOrder { s with book := b, queue := q, armPass := a } :=
  { hs with
    sound := hsound
    tracked := hq
    quiet := fun m hm => (hfiring m).trans (hs.quiet m hm)
    called := fun m hm => (hfiring m).trans (hs.called m hm) }

/-- The passes may change, as long as the same callbacks are running. -/
theorem InOrder.pass {passes : List HeapPass} (hpasses : passes.filterMap (·.calling) = s.running) :
    InOrder { s with passes := passes } :=
  { hs with
    apart := by
      change (passes.filterMap (·.calling)).Nodup
      rw [hpasses]
      exact hs.apart
    called := fun m hm => by
      change m ∈ passes.filterMap (·.calling) at hm
      rw [hpasses] at hm
      exact hs.called m hm }

/-- A live node, neither called nor paused, may be queued. -/
theorem InOrder.enqueue (hh : s.book.table h = some n) (hfiring : (s.node n).firing = false)
    (hpaused : (s.node n).isPaused = false) : InOrder (s.enqueue n) := by
  obtain ⟨htracked, hnodes⟩ := hs.tracked.enqueue n (s.node n).time
  refine hs.write ?_ htracked fun _ => rfl
  rw [hnodes]
  split
  · exact hs.sound
  · rename_i hn
    exact hs.sound.place hh hn hfiring hpaused

theorem InOrder.createTimer (time interval : ℚ) (callback : ℕ) :
    InOrder (s.createTimer time interval callback).2 ∧
      (s.createTimer time interval callback).2.held = s.held := by
  unfold TimerHeap.createTimer
  split
  · exact ⟨hs, rfl⟩
  · rename_i handle n book hc
    obtain ⟨hsound, htable, hn, hnode, hheld⟩ := hs.sound.arm hc
    have hheld' : Function.update s.held n false = s.held := by
      rw [Bool.not_eq_true] at hheld
      rw [← hheld, update_eq_self]
    rw [hheld', hs.tracked.rearm hn]
    have hfiring : ∀ m, (book.nodes m).firing = (s.book.nodes m).firing := by
      intro m
      cases hm : (s.book.nodes m).firing with
      | true => rw [hs.sound.create_nodes hc hm, hm]
      | false =>
        by_cases hmn : m = n
        · rw [hmn, hnode]
          rfl
        · rw [create_nodes_ne hc hmn, hm]
    have hs' : InOrder { s with
        book := book, armPass := Function.update s.armPass n s.pass } :=
      hs.write hsound hs.tracked hfiring
    have hnode' : ({ s with
        book := book, armPass := Function.update s.armPass n s.pass } : TimerHeap).node n =
        .rearm handle time interval callback := hnode
    exact ⟨hs'.enqueue htable (by rw [hnode']; rfl) (by rw [hnode']; rfl), rfl⟩

theorem InOrder.removed (n : ℕ) :
    s.book.Sound (s.queue.remove n).nodes (fun n => s.held n = true) ∧
      n ∉ (s.queue.remove n).nodes ∧ (s.queue.remove n).Tracked := by
  obtain ⟨htracked, hnodes⟩ := hs.tracked.remove n
  rw [hnodes]
  exact ⟨hs.sound.le (Multiset.erase_le n _),
    fun hmem => (hs.sound.nodup.mem_erase_iff.1 hmem).1 rfl, htracked⟩

theorem InOrder.clear (handle : ℕ) (immediate : Bool) : InOrder (s.clear handle immediate).2 := by
  unfold TimerHeap.clear
  cases hh : s.book.table handle with
  | none => exact hs
  | some n =>
    dsimp only
    split
    · obtain ⟨hsound, hn, htracked⟩ := hs.removed n
      exact hs.write (hsound.cleared hh hn immediate Iff.rfl) htracked
        fun m => retire_firing _ n _ m
    · rename_i hlazy
      obtain rfl : immediate = false := by simpa using hlazy
      split
      · rename_i hpaused
        exact hs.write (hs.sound.cleared hh (hs.sound.not_mem_of_paused hpaused) false Iff.rfl)
          hs.tracked fun m => retire_firing _ n _ m
      · exact hs.write (hs.sound.lapsed hh) hs.tracked fun m => set_firing s.book n m rfl

theorem InOrder.moved {handle : ℕ} (hh : s.book.table handle = some n) (time : ℚ)
    (hsteady : Steadily (s.moved handle n time)) : InOrder (s.moved handle n time) := by
  unfold TimerHeap.moved at hsteady ⊢
  dsimp only at hsteady ⊢
  split
  · rename_i hfiring
    rw [if_pos hfiring] at hsteady
    have hmoved := hsteady _ (List.mem_append_right _ List.mem_cons_self)
    exact hs.write (hs.sound.moved_firing hh hfiring hmoved time) hs.tracked
      fun m => set_firing s.book n m rfl
  · rename_i hfiring
    rw [Bool.not_eq_true] at hfiring
    obtain ⟨htracked, hnodes⟩ := hs.tracked.update n time
    have hsound := hs.sound.moved hh hfiring time
    rw [← hnodes] at hsound
    have hnode : (((s.note (.moved handle (s.node n).firing (s.node n).isPaused)).set n
        { s.node n with time := time }).node n).time = time := by
      change (Function.update s.book.nodes n _ n).time = time
      rw [update_self]
    unfold TimerHeap.update
    rw [hnode]
    exact hs.write hsound htracked fun m => set_firing s.book n m rfl

theorem InOrder.stamp (n : ℕ) : InOrder (s.stamp n) :=
  hs.write hs.sound hs.tracked fun _ => rfl

theorem InOrder.setEnabledBy (handle : ℕ) (enabled : Bool) (policy : ResumePolicy) (time : ℚ)
    (hsteady : Steadily (s.setEnabledBy handle enabled policy time).2) :
    InOrder (s.setEnabledBy handle enabled policy time).2 := by
  unfold TimerHeap.setEnabledBy at hsteady ⊢
  cases hh : s.book.table handle with
  | none => exact hs
  | some n =>
    rw [hh] at hsteady
    dsimp only at hsteady ⊢
    by_cases hsame : (s.node n).enabled = enabled
    · rw [if_pos hsame]
      exact hs
    rw [if_neg hsame] at hsteady ⊢
    cases enabled with
    | false =>
      have hpaused := hsteady _ (List.mem_append_right _ List.mem_cons_self)
      obtain ⟨hsound, hn, htracked⟩ := hs.removed n
      exact hs.write (hsound.paused hh hn hpaused _) htracked
        fun m => set_firing s.book n m rfl
    | true =>
      rw [if_neg (by decide)] at hsteady ⊢
      obtain ⟨hres, -, -, -, hfire, -⟩ :=
        Fits.resume_fields (s.node n) policy (if time ≠ 0 then time else s.now)
      split
      · exact hs.write (hs.sound.resumed hh policy _ _ _ fun _ => rfl) hs.tracked
          fun m => set_firing s.book n m hfire
      · rename_i hfiring
        rw [Bool.not_eq_true] at hfiring
        let s' : TimerHeap :=
          ((s.note (.resumed handle (s.node n).isPaused (s.held n))).stamp n).set n
            ((s.node n).resume policy (if time ≠ 0 then time else s.now))
        have hs' : InOrder s' :=
          hs.write (hs.sound.resumed hh policy _ _ _
            fun h => absurd (hfiring.symm.trans h) Bool.false_ne_true) hs.tracked
            fun m => set_firing s.book n m hfire
        have hnode : s'.node n = (s.node n).resume policy (if time ≠ 0 then time else s.now) :=
          update_self ..
        refine hs'.enqueue (h := handle) hh ?_ ?_
        · rw [hnode]
          exact hfire.trans hfiring
        · rw [hnode]
          exact hres

end

/-! ## What a call does -/

/-- The log goes on, and the heap stays in order while everything is steady. -/
def Keeps (s s' : TimerHeap) : Prop :=
  s.book.log <+: s'.book.log ∧ (InOrder s → Steadily s' → InOrder s')

theorem Keeps.refl (s : TimerHeap) : Keeps s s := ⟨List.prefix_rfl, fun hs _ => hs⟩

theorem Keeps.trans (h : Keeps s s') (h' : Keeps s' s'') : Keeps s s'' :=
  ⟨h.1.trans h'.1, fun hs hsteady =>
    h'.2 (h.2 hs fun e he => hsteady e (h'.1.subset he)) hsteady⟩

theorem createTimer_log (s : TimerHeap) (time interval : ℚ) (callback : ℕ) :
    s.book.log <+: (s.createTimer time interval callback).2.book.log := by
  unfold TimerHeap.createTimer
  split
  · exact List.prefix_rfl
  · rename_i handle n book hc
    exact create_log hc

theorem clear_log (s : TimerHeap) (handle : ℕ) (immediate : Bool) :
    s.book.log <+: (s.clear handle immediate).2.book.log := by
  unfold TimerHeap.clear
  cases hh : s.book.table handle with
  | none => exact List.prefix_rfl
  | some n =>
    have hretire : s.book.log <+:
        ((s.book.note (.cleared handle immediate)).retire n (s.held n)).log :=
      (List.prefix_append _ _).trans (log_prefix_retire (s.book.note _) n _)
    dsimp only
    split
    · exact hretire
    · split
      · exact hretire
      · exact List.prefix_append _ _

theorem moved_log (s : TimerHeap) (handle n : ℕ) (time : ℚ) :
    s.book.log <+: (s.moved handle n time).book.log := by
  unfold TimerHeap.moved
  dsimp only
  split <;> exact List.prefix_append _ _

theorem setEnabledBy_log (s : TimerHeap) (handle : ℕ) (enabled : Bool) (policy : ResumePolicy)
    (time : ℚ) : s.book.log <+: (s.setEnabledBy handle enabled policy time).2.book.log := by
  unfold TimerHeap.setEnabledBy
  cases hh : s.book.table handle with
  | none => exact List.prefix_rfl
  | some n =>
    dsimp only
    split
    · exact List.prefix_rfl
    · split
      · exact List.prefix_append _ _
      · split <;> exact List.prefix_append _ _

/-- What holds after a call: it makes a timer, clears, moves or enables one, or does nothing. -/
theorem perform_rule {P : TimerHeap → Prop} (c : TimerCall) (hs : P s)
    (hcreate : ∀ time interval callback, P (s.createTimer time interval callback).2)
    (hclear : ∀ handle immediate, P (s.clear handle immediate).2)
    (hmove : ∀ handle n, s.book.table handle = some n → ∀ time,
      P ((s.stamp n).moved handle n time) ∧ P (s.moved handle n time))
    (henable : ∀ handle enabled policy time, P (s.setEnabledBy handle enabled policy time).2) :
    P (s.perform c) := by
  cases c with
  | setTimeout delay callback => exact hcreate _ _ _
  | setInterval delay interval callback =>
    change P (s.setInterval delay interval callback).2
    unfold TimerHeap.setInterval
    split
    · exact hcreate _ _ _
    · exact hs
  | clear handle immediate => exact hclear handle immediate
  | reschedule handle time =>
    change P (s.reschedule handle time).2
    unfold TimerHeap.reschedule
    split
    · exact hs
    · exact (hmove handle _ ‹_› time).1
  | delay handle dt =>
    change P (s.delay handle dt).2
    unfold TimerHeap.delay
    split
    · exact hs
    · split
      · exact hs
      · exact (hmove handle _ ‹_› _).2
  | setEnabled handle enabled policy time => exact henable handle enabled policy time

/-- **Every call keeps the heap in order.** -/
theorem perform_keeps (s : TimerHeap) (c : TimerCall) : Keeps s (s.perform c) :=
  perform_rule (P := Keeps s) c (.refl s)
    (fun time interval callback => ⟨createTimer_log s time interval callback,
      fun hs _ => (hs.createTimer time interval callback).1⟩)
    (fun handle immediate => ⟨clear_log s handle immediate, fun hs _ => hs.clear handle immediate⟩)
    (fun handle n hh time => ⟨⟨moved_log (s.stamp n) handle n time,
        fun hs => (hs.stamp n).moved hh time⟩,
      moved_log s handle n time, fun hs => hs.moved hh time⟩)
    fun handle enabled policy time => ⟨setEnabledBy_log s handle enabled policy time,
      fun hs => hs.setEnabledBy handle enabled policy time⟩

/-! ## A pass -/

/-- The books in the middle of `__readmit`, with `nodes` still to come. -/
structure Readmitting (s : TimerHeap) (nodes : List ℕ) : Prop where
  sound : s.book.Sound s.queue.nodes fun n => s.held n = true
  tracked : s.queue.Tracked
  nodup : nodes.Nodup
  rest : ∀ n, n ∈ nodes ↔ s.held n = true
  quiet : ∀ n ∈ nodes, (s.node n).firing = false

/-- What `__readmit` leaves alone: the log goes on, and what runs is the same. -/
def Unmoved (s s' : TimerHeap) : Prop :=
  s.book.log <+: s'.book.log ∧ (∀ m, (s'.node m).firing = (s.node m).firing) ∧
    s'.passes = s.passes

theorem Unmoved.refl (s : TimerHeap) : Unmoved s s := ⟨List.prefix_rfl, fun _ => rfl, rfl⟩

theorem Unmoved.trans (h : Unmoved s s') (h' : Unmoved s' s'') : Unmoved s s'' :=
  ⟨h.1.trans h'.1, fun m => (h'.2.1 m).trans (h.2.1 m), h'.2.2.trans h.2.2⟩

theorem readmitNode_unmoved (s : TimerHeap) (n : ℕ) : Unmoved s (s.readmitNode n) := by
  unfold readmitNode
  dsimp only
  split
  · refine ⟨?_, recycle_firing s.book n, rfl⟩
    change s.book.log <+: (s.book.recycle n).log
    rw [recycle_log]
  · split
    · split
      · exact .refl s
      · exact ⟨log_prefix_retire s.book n _, retire_firing s.book n _, rfl⟩
    · exact .refl s

theorem foldl_readmitNode_unmoved (nodes : List ℕ) (s : TimerHeap) :
    Unmoved s (nodes.foldl readmitNode s) := by
  induction nodes generalizing s with
  | nil => exact .refl s
  | cons n nodes ih => exact (readmitNode_unmoved s n).trans (ih _)

theorem Readmitting.step (hs : Readmitting s (n :: nodes)) :
    Readmitting (s.readmitNode n) nodes := by
  have hheld : s.held n = true := (hs.rest n).1 List.mem_cons_self
  have hfiring : (s.node n).firing = false := hs.quiet n List.mem_cons_self
  obtain ⟨hnotin, hnodup⟩ := List.nodup_cons.1 hs.nodup
  have hself : Function.update s.held n false n = false := update_self ..
  have hother : ∀ m, m ≠ n → Function.update s.held n false m = s.held m := fun m hm =>
    update_of_ne hm ..
  have hrest : ∀ m, m ∈ nodes ↔ Function.update s.held n false m = true := by
    intro m
    by_cases hmn : m = n
    · rw [hmn]
      simpa using hnotin
    · rw [hother m hmn, ← hs.rest m]
      simp [hmn]
  have hmade : n < s.book.made := by
    by_contra hge
    exact (hs.sound.unmade n (not_lt.1 hge)).2 hheld
  have hquiet : ∀ m ∈ nodes, ((s.readmitNode n).node m).firing = false := fun m hm =>
    ((readmitNode_unmoved s n).2.1 m).trans (hs.quiet m (List.mem_cons_of_mem n hm))
  unfold readmitNode at hquiet ⊢
  dsimp only at hquiet ⊢
  split
  · rename_i hhandle
    rw [if_pos hhandle] at hquiet
    have hhandle' : (s.book.nodes n).handle = none := hhandle
    have hsound : s.book.Sound s.queue.nodes
        fun m => Function.update s.held n false m = true ∨ m = n := by
      refine hs.sound.hold_ended (fun m _ _ => ?_) fun m hm hor => ?_
      · by_cases hmn : m = n
        · rw [hmn]
          simp [hheld]
        · simp [hmn]
      · by_cases hmn : m = n
        · omega
        · rw [hother m hmn] at hor
          exact (hs.sound.unmade m hm).2 (hor.resolve_right hmn)
    exact ⟨hsound.recycle hmade hhandle' hfiring (by rw [hself]; decide), hs.tracked, hnodup, hrest,
      hquiet⟩
  · rename_i hhandle
    rw [if_neg hhandle] at hquiet
    obtain ⟨handle, hhandle'⟩ := Option.ne_none_iff_exists'.1 hhandle
    have hh := hs.sound.named n handle hhandle'
    have hsound : s.book.Sound s.queue.nodes fun m => Function.update s.held n false m = true := by
      refine hs.sound.hold fun m hm => ?_
      have hmn : m ≠ n := by
        rintro rfl
        exact hhandle hm
      rw [hother m hmn]
    split
    · rename_i hidle
      rw [if_pos hidle] at hquiet
      simp only [Bool.and_eq_true, decide_eq_true_eq, Bool.not_eq_true'] at hidle
      obtain ⟨⟨hindex, -⟩, hpaused⟩ := hidle
      have hn : n ∉ s.queue.nodes := hs.tracked.heapIndex_eq_none.1 hindex
      split
      · rename_i henabled
        rw [if_pos henabled] at hquiet
        obtain ⟨htracked, hnodes⟩ := hs.tracked.enqueue n (s.node n).time
        rw [if_neg hn] at hnodes
        refine ⟨?_, htracked, hnodup, hrest, hquiet⟩
        change s.book.Sound (s.queue.enqueue n (s.node n).time).nodes _
        rw [hnodes]
        exact hsound.place hh hn hfiring hpaused
      · rename_i henabled
        rw [if_neg henabled] at hquiet
        rw [Bool.not_eq_true] at henabled
        have hfits := hs.sound.fits handle n hh
        have hlapsing := (hfits.stopped henabled).resolve_left fun h => by
          cases hpaused.symm.trans h
        exact ⟨hsound.retire hh hn (.inl rfl) (hfits.lapsed hlapsing) Iff.rfl, hs.tracked,
          hnodup, hrest, hquiet⟩
    · rename_i hidle
      rw [if_neg hidle] at hquiet
      exact ⟨hsound, hs.tracked, hnodup, hrest, hquiet⟩

theorem Readmitting.foldl (hs : Readmitting s nodes) :
    Readmitting (nodes.foldl readmitNode s) [] := by
  induction nodes generalizing s with
  | nil => exact hs
  | cons n nodes ih => exact ih hs.step

theorem InOrder.readmitting (hs : InOrder s) : Readmitting s s.deferred :=
  ⟨hs.sound, hs.tracked, hs.nodup, hs.deferred, fun n hn => hs.quiet n ((hs.deferred n).1 hn)⟩

/-- **`__readmit`** leaves nothing held back. -/
theorem InOrder.readmitAll (hs : InOrder s) : InOrder s.readmitAll := by
  have hend := hs.readmitting.foldl
  obtain ⟨-, hfiring, hpasses⟩ := foldl_readmitNode_unmoved s.deferred s
  have hrunning : s.readmitAll.running = s.running := congrArg (List.filterMap _) hpasses
  refine ⟨hend.sound, hend.tracked, List.nodup_nil, hend.rest, fun n hn => ?_, ?_, fun n hn => ?_⟩
  · exact absurd ((hend.rest n).2 hn) List.not_mem_nil
  · rw [hrunning]
    exact hs.apart
  · rw [hrunning] at hn
    exact (hfiring n).trans (hs.called n hn)

/-- A pass that calls nothing leaves the stack with the same callbacks running. -/
theorem running_of_passes (hpasses : s.passes = p :: rest) (hp : p.calling = none) :
    rest.filterMap (·.calling) = s.running := by
  unfold running
  rw [hpasses, List.filterMap_cons_none hp]

/-- **The innermost pass is left.** -/
theorem leave_keeps (hpasses : s.passes = p :: rest) (hp : p.calling = none) :
    Keeps s { s.readmitAll with passes := rest } := by
  obtain ⟨hlog, -, hstack⟩ := foldl_readmitNode_unmoved s.deferred s
  exact ⟨hlog, fun hs _ => hs.readmitAll.pass (running_of_passes (hstack.trans hpasses) hp)⟩

theorem finish_eq (s : TimerHeap) (rest : List HeapPass) :
    s.finish rest = { s.readmitAll with passes := rest } := by
  unfold finish
  split
  · rename_i hempty
    unfold readmitAll
    rw [hempty]
    cases s
    cases hempty
    rfl
  · rfl

theorem InOrder.dequeued (hs : InOrder s) (hq : q.Tracked)
    (hnodes : q.nodes = s.queue.nodes.erase n) : InOrder { s with queue := q } := by
  refine hs.write (a := s.armPass) ?_ hq fun _ => rfl
  rw [hnodes]
  exact hs.sound.le (Multiset.erase_le n _)

theorem InOrder.startFiring (hs : InOrder s) (hn : n ∈ s.queue.nodes) (hq : q.Tracked)
    (hnodes : q.nodes = s.queue.nodes.erase n) (hheld : s.held n = false)
    (hpasses : s.passes = p :: rest) (hp : p.calling = none) {p' : HeapPass} :
    InOrder { { s with queue := q }.startFiring n with
      passes := { p' with calling := some n } :: rest } := by
  obtain ⟨⟨handle, hhandle⟩, hfiring, hpaused⟩ := hs.sound.placed n hn
  have hsound := (hs.dequeued hq hnodes).sound
  have hgone : n ∉ q.nodes := by
    rw [hnodes]
    exact fun hmem => (hs.sound.nodup.mem_erase_iff.1 hmem).1 rfl
  have hrunning := running_of_passes hpasses hp
  have hnot : n ∉ s.running := fun hmem => by cases hfiring.symm.trans (hs.called n hmem)
  have hother : ∀ m, m ≠ n → (({ s with queue := q }.startFiring n).node m).firing =
      (s.node m).firing := fun m hmn =>
    congrArg TimerNode.firing (update_of_ne hmn _ s.book.nodes)
  refine ⟨hsound.called hhandle hgone hpaused _, hq, hs.nodup, hs.deferred, fun m hm => ?_, ?_,
    fun m hm => ?_⟩
  · have hmn : m ≠ n := by
      rintro rfl
      cases hheld.symm.trans hm
    exact (hother m hmn).trans (hs.quiet m hm)
  · change (n :: rest.filterMap (·.calling)).Nodup
    rw [hrunning]
    exact List.nodup_cons.2 ⟨hnot, hs.apart⟩
  · change m ∈ n :: rest.filterMap (·.calling) at hm
    rw [hrunning] at hm
    rcases List.mem_cons.1 hm with rfl | hm
    · exact congrArg TimerNode.firing (update_self m _ s.book.nodes)
    · have hmn : m ≠ n := fun h => hnot (h ▸ hm)
      exact (hother m hmn).trans (hs.called m hm)

/-- **A callback returns**: its timer is recycled, queued again, retired or left paused. -/
theorem settle_eq (s : TimerHeap) (n : ℕ) :
    s.settle n = settleWith (fun b => { s with book := b })
      (fun b => { s with book := b }.enqueue n) s.book n (s.held n) := rfl

theorem InOrder.settled (hs : InOrder s) (hpasses : s.passes = p :: rest)
    (hp : p.calling = some n) : InOrder (s.settled p rest n) := by
  have hrunning : s.running = n :: rest.filterMap (·.calling) := by
    unfold running
    rw [hpasses, List.filterMap_cons_some hp]
  have hapart := hs.apart
  rw [hrunning, List.nodup_cons] at hapart
  have hfiring : (s.node n).firing = true :=
    hs.called n (by rw [hrunning]; exact List.mem_cons_self)
  have hkept : ¬ s.held n = true := fun hheld => by cases (hs.quiet n hheld).symm.trans hfiring
  have horder : ∀ b', b'.Sound s.queue.nodes (fun n => s.held n = true) →
      (∀ m, (b'.nodes m).firing = true ↔ m ≠ n ∧ (s.book.nodes m).firing = true) →
      InOrder { s with
        book := b', passes := { p with fired := p.fired + 1, calling := none } :: rest } := by
    intro b' hsound hquiet
    refine ⟨hsound, hs.tracked, hs.nodup, hs.deferred, fun m hm => ?_, hapart.2, fun m hm => ?_⟩
    · rw [← Bool.not_eq_true]
      exact fun h => by cases (hs.quiet m hm).symm.trans ((hquiet m).1 h).2
    · have hm' : m ∈ rest.filterMap (·.calling) := hm
      refine (hquiet m).2 ⟨fun h => hapart.1 (h ▸ hm'), hs.called m ?_⟩
      rw [hrunning]
      exact List.mem_cons_of_mem n hm'
  exact hs.sound.settles (Q := InOrder) hfiring hkept Iff.rfl horder
    fun b' h hsound hquiet hh => (horder b' hsound hquiet).enqueue hh

theorem settle_log (s : TimerHeap) (n : ℕ) :
    s.book.log <+: (s.settle n).book.log ∧ (s.settle n).passes = s.passes := by
  rw [settle_eq]
  exact settleWith_rule (Q := fun s' : TimerHeap => s.book.log <+: s'.book.log ∧
    s'.passes = s.passes) fun b' hlog _ => ⟨⟨hlog, rfl⟩, hlog, rfl⟩

theorem settled_log (s : TimerHeap) (p : HeapPass) (rest : List HeapPass) (n : ℕ) :
    s.book.log <+: (s.settled p rest n).book.log ∧
      (s.settled p rest n).passes = { p with fired := p.fired + 1, calling := none } :: rest :=
  settle_log { s.set n { s.node n with firing := false } with
    passes := { p with fired := p.fired + 1, calling := none } :: rest } n

theorem settled_keeps (hpasses : s.passes = p :: rest) (hp : p.calling = some n) :
    Keeps s (s.settled p rest n) :=
  ⟨(settled_log s p rest n).1, fun hs _ => hs.settled hpasses hp⟩

theorem InOrder.defer (hs : InOrder s) (hlive : ∃ h, (s.node n).handle = some h)
    (hfiring : (s.node n).firing = false) : InOrder (s.defer n) := by
  obtain ⟨handle, hhandle⟩ := hlive
  unfold TimerHeap.defer
  split
  · exact hs
  · rename_i hheld
    have hother : ∀ m, m ≠ n → Function.update s.held n true m = s.held m := fun m hm =>
      update_of_ne hm ..
    have hnot : n ∉ s.deferred := fun hmem => hheld ((hs.deferred n).1 hmem)
    refine
      { hs with
        sound := hs.sound.hold fun m hm => ?_
        nodup := ?_
        deferred := fun m => ?_
        quiet := fun m hm => ?_ }
    · have hmn : m ≠ n := by
        rintro rfl
        cases hhandle.symm.trans hm
      change Function.update s.held n true m = true ↔ _
      rw [hother m hmn]
    · rw [List.nodup_append]
      exact ⟨hs.nodup, List.nodup_singleton n, fun a ha b hb hab =>
        hnot (by rw [← List.mem_singleton.1 hb, ← hab]; exact ha)⟩
    · change m ∈ s.deferred ++ [n] ↔ Function.update s.held n true m = true
      by_cases hmn : m = n
      · rw [hmn]
        simp
      · rw [hother m hmn, ← hs.deferred m]
        simp [hmn]
    · by_cases hmn : m = n
      · rw [hmn]
        exact hfiring
      · change Function.update s.held n true m = true at hm
        rw [hother m hmn] at hm
        exact hs.quiet m hm

/-- **One turn of the loop keeps the heap in order.** -/
theorem turn_keeps {p' : HeapPass} (hpasses : s.passes = p :: rest) (hp : p.calling = none)
    (hp' : p'.calling = none) (hn : n ∈ s.queue.nodes) (hq : s.queue.Tracked → q.Tracked)
    (hnodes : s.queue.Tracked → q.nodes = s.queue.nodes.erase n) :
    Keeps s ({ s with queue := q }.turn p' rest n) := by
  have hrunning : (p' :: rest).filterMap (·.calling) = s.running := by
    rw [List.filterMap_cons_none hp']
    exact running_of_passes hpasses hp
  unfold turn
  split
  · rename_i henabled
    rw [Bool.not_eq_true'] at henabled
    refine ⟨log_prefix_retire s.book n _, fun hs _ => ?_⟩
    obtain ⟨⟨handle, hhandle⟩, -, hpaused⟩ := hs.sound.placed n hn
    have hh := hs.sound.named n handle hhandle
    have hfits := hs.sound.fits handle n hh
    have hlapsing := (hfits.stopped henabled).resolve_left fun h => by
      cases hpaused.symm.trans h
    have hsound : (s.book.retire n (s.held n)).Sound q.nodes fun n => s.held n = true := by
      rw [hnodes hs.tracked]
      exact (hs.sound.le (Multiset.erase_le n _)).retire hh
        (fun hmem => (hs.sound.nodup.mem_erase_iff.1 hmem).1 rfl) (.inl rfl)
        (hfits.lapsed hlapsing) Iff.rfl
    exact (hs.write (a := s.armPass) hsound (hq hs.tracked)
      fun m => retire_firing s.book n _ m).pass hrunning
  · split
    · have hdefer : ({ s with queue := q }.defer n).book = s.book ∧
          ({ s with queue := q }.defer n).passes = s.passes := by
        unfold defer
        split <;> exact ⟨rfl, rfl⟩
      refine ⟨?_, fun hs _ => ?_⟩
      · change _ <+: ({ s with queue := q }.defer n).book.log
        rw [hdefer.1]
      · obtain ⟨hlive, hfiring, -⟩ := hs.sound.placed n hn
        have hs' := (hs.dequeued (hq hs.tracked) (hnodes hs.tracked)).defer (n := n) hlive hfiring
        refine hs'.pass ?_
        rw [hrunning]
        exact congrArg (List.filterMap _) hdefer.2.symm
    · refine ⟨List.prefix_append _ _, fun hs hsteady => ?_⟩
      have hheld : s.held n = false :=
        hsteady (.ran (s.node n).handle (s.node n).callback (s.held n))
          (List.mem_append_right _ List.mem_cons_self)
      exact hs.startFiring hn (hq hs.tracked) (hnodes hs.tracked) hheld hpasses hp

/-- **A pass begins**, from outside or from a callback. -/
theorem begin_keeps (s : TimerHeap) (dt : ℚ) (maxFires : Option ℤ) (budget : Bool) :
    Keeps s (s.begin dt maxFires budget) := by
  refine ⟨List.prefix_rfl, fun hs _ => ?_⟩
  have hs' : InOrder { s with now := s.now + dt, pass := s.pass + 1, cutShort := false } :=
    { hs with }
  refine hs'.pass ?_
  split <;> rfl

/-! ## What a turn is made of -/

/-- A relation that the parts of a turn keep. -/
structure Kept (R : TimerHeap → TimerHeap → Prop) : Prop where
  trans : ∀ {s s' s''}, R s s' → R s' s'' → R s s''
  marks : ∀ (s : TimerHeap) (cutShort onError : Bool),
    R s { s with cutShort := cutShort, onError := onError }
  perform : ∀ s c, R s (s.perform c)
  begin : ∀ s dt maxFires budget, R s (s.begin dt maxFires budget)
  leave : ∀ {s : TimerHeap} {p rest}, s.passes = p :: rest → p.calling = none →
    R s { s.readmitAll with passes := rest }
  turn : ∀ {s : TimerHeap} {p p' : HeapPass} {rest n q}, s.passes = p :: rest →
    p.calling = none → p'.calling = none → n ∈ s.queue.nodes →
    (s.queue.Tracked → q.Tracked) → (s.queue.Tracked → q.nodes = s.queue.nodes.erase n) →
    R s ({ s with queue := q }.turn p' rest n)
  settled : ∀ {s : TimerHeap} {p rest n}, s.passes = p :: rest → p.calling = some n →
    R s (s.settled p rest n)

section Kept

variable {R : TimerHeap → TimerHeap → Prop} (hR : Kept R)

include hR

theorem Kept.finish (hpasses : s.passes = p :: rest) (hp : p.calling = none) :
    R s (s.finish rest) := by
  rw [finish_eq]
  exact hR.leave hpasses hp

theorem Kept.next (hpasses : s.passes = p :: rest) (hp : p.calling = none) (late : Bool) :
    R s (s.next p rest late) := by
  unfold TimerHeap.next
  split
  · exact hR.finish hpasses hp
  · rename_i n hpeek
    have hturn : ∀ p' : HeapPass, p'.calling = none →
        R s ({ s with queue := s.queue.dequeue }.turn p' rest n) := fun p' hp' =>
      hR.turn hpasses hp hp' (TimerQueue.mem_of_peek hpeek) (fun h => (h.dequeue hpeek).1)
        fun h => (h.dequeue hpeek).2
    split
    · exact hR.finish hpasses hp
    · split
      · split
        · exact hR.trans (hR.marks s true s.onError) (hR.finish hpasses hp)
        · exact hturn _ hp
      · exact hturn p hp

theorem Kept.returns (hpasses : s.passes = p :: rest) (hp : p.calling = some n) (throws : Bool) :
    R s (s.returns p rest n throws) := by
  have hsettled := hR.settled hpasses hp
  unfold TimerHeap.returns
  dsimp only
  split
  · exact hR.trans hsettled (hR.leave (settled_log s p rest n).2 rfl)
  · exact hsettled

/-- **A turn keeps what its parts keep.** -/
theorem Kept.step (s : TimerHeap) (turn : PassTurn) : R s (s.step turn) := by
  have hrefl : R s s := hR.marks s s.cutShort s.onError
  cases turn with
  | call c =>
    unfold TimerHeap.step
    dsimp only
    split
    · exact hR.perform s c
    · exact hrefl
  | begin dt maxFires budget =>
    unfold TimerHeap.step
    dsimp only
    split
    · exact hR.begin s dt maxFires budget
    · exact hrefl
  | next late =>
    unfold TimerHeap.step
    dsimp only
    split
    · exact hrefl
    · rename_i p rest hpasses
      split
      · rename_i hp
        exact hR.next hpasses hp late
      · exact hrefl
  | returns throws =>
    unfold TimerHeap.step
    dsimp only
    split
    · exact hrefl
    · rename_i p rest hpasses
      split
      · exact hrefl
      · rename_i n hp
        exact hR.returns hpasses hp throws
  | onError handler => exact hR.marks s s.cutShort handler

end Kept

/-- **Every turn keeps the heap in order.** -/
theorem keeps_kept : Kept Keeps where
  trans := Keeps.trans
  marks _ _ _ := ⟨List.prefix_rfl, fun hs _ => { hs with }⟩
  perform := perform_keeps
  begin := begin_keeps
  leave := leave_keeps
  turn := turn_keeps
  settled := settled_keeps

/-- **A run keeps the heap in order**, if everything in it is steady. -/
theorem run_inOrder (turns : List PassTurn) (hsteady : Steadily (run turns)) :
    InOrder (run turns) := by
  have hkeeps : Keeps {} (run turns) := by
    refine Runs.run_invariant (P := Keeps {}) (.refl _) (fun s turn hs => ?_) turns
    exact hs.trans (keeps_kept.step s turn)
  exact hkeeps.2 inOrder_new hsteady

/-- The second callback of a pass pauses and resumes a timer that the pass holds back, and runs a
pass of its own, which fires it; the timer's callback clears it. -/
def recycledTwice : List PassTurn :=
  [.call (.setTimeout 1 7), .call (.setTimeout 1 8), .begin 1 none false,
    .next false, .call (.setTimeout 0 9), .call (.reschedule 2 (1 / 2)), .returns false,
    .next false,
    .next false, .call (.setEnabled 2 false .keepPhase 0), .call (.setEnabled 2 true .keepPhase 0),
    .begin 0 none false, .next false, .call (.clear 2 true), .returns false, .next false]

/-- The node is a spare when its callback has returned, and again when it is no longer held back. -/
theorem held_node_recycled_twice : (run recycledTwice).book.spare = [2, 2, 0] := by
  decide +kernel

/-! ## Queued or held back -/

/-- No node is queued while the pass holds it back. -/
def Apart (s : TimerHeap) : Prop := ∀ n ∈ s.queue.nodes, s.held n = false

/-- Everything was steady, and no timer was resumed while it was held back. -/
def Separately (s : TimerHeap) : Prop := ∀ e ∈ s.book.log, e.SteadyOnHeap

theorem Separately.steadily (hs : Separately s) : Steadily s := fun e he => (hs e he).steady

theorem Separately.of_log (hs : Separately s') (hlog : s.book.log <+: s'.book.log) : Separately s :=
  fun e he => hs e (hlog.subset he)

theorem Apart.of_mem (ha : Apart s) (hheld : s'.held = s.held)
    (hmem : ∀ m ∈ s'.queue.nodes, m ∈ s.queue.nodes ∨ s.held m = false) : Apart s' := by
  intro m hm
  rw [hheld]
  rcases hmem m hm with hm' | hm'
  · exact ha m hm'
  · exact hm'

theorem mem_enqueue (hq : q.Tracked) {m : ℕ} {time : ℚ} (hm : m ∈ (q.enqueue n time).nodes) :
    m ∈ q.nodes ∨ m = n := by
  rw [(hq.enqueue n time).2] at hm
  split at hm
  · exact .inl hm
  · exact (Multiset.mem_cons.1 hm).symm

theorem Apart.enqueue (ha : Apart s) (hq : s.queue.Tracked) (hn : s.held n = false) :
    Apart (s.enqueue n) := by
  refine ha.of_mem rfl fun m hm => ?_
  rcases mem_enqueue hq hm with hm' | rfl
  · exact .inl hm'
  · exact .inr hn

theorem Apart.remove (ha : Apart s) (hq : s.queue.Tracked) (n : ℕ) : Apart (s.remove n) := by
  refine ha.of_mem rfl fun m hm => .inl ?_
  change m ∈ (s.queue.remove n).nodes at hm
  rw [(hq.remove n).2] at hm
  exact Multiset.mem_of_mem_erase hm

theorem Apart.update (ha : Apart s) (hq : s.queue.Tracked) (n : ℕ) : Apart (s.update n) := by
  refine ha.of_mem rfl fun m hm => .inl ?_
  change m ∈ (s.queue.update n _).nodes at hm
  rwa [(hq.update n _).2] at hm

section

variable (hs : InOrder s)

include hs

theorem Apart.createTimer (ha : Apart s) (time interval : ℚ) (callback : ℕ) :
    Apart (s.createTimer time interval callback).2 := by
  have hheld := (hs.createTimer time interval callback).2
  unfold TimerHeap.createTimer at hheld ⊢
  split
  · exact ha
  · rename_i handle n book hc
    rw [hc] at hheld
    obtain ⟨-, -, hn, -, hnheld⟩ := hs.sound.arm hc
    refine ha.of_mem hheld fun m hm => ?_
    rw [hs.tracked.rearm hn] at hm
    rcases mem_enqueue hs.tracked hm with hm' | rfl
    · exact .inl hm'
    · exact .inr (Bool.eq_false_of_not_eq_true hnheld)

theorem Apart.moved (ha : Apart s) (handle n : ℕ) (time : ℚ) : Apart (s.moved handle n time) := by
  unfold TimerHeap.moved
  dsimp only
  split
  · exact ha
  · let s' : TimerHeap := (s.note (.moved handle (s.node n).firing (s.node n).isPaused)).set n
      { s.node n with time := time }
    have ha' : Apart s' := ha
    exact ha'.update hs.tracked n

theorem Apart.setEnabledBy (ha : Apart s) (handle : ℕ) (enabled : Bool) (policy : ResumePolicy)
    (time : ℚ) (hlog : Separately (s.setEnabledBy handle enabled policy time).2) :
    Apart (s.setEnabledBy handle enabled policy time).2 := by
  unfold TimerHeap.setEnabledBy at hlog ⊢
  cases hh : s.book.table handle with
  | none => exact ha
  | some n =>
    rw [hh] at hlog
    dsimp only at hlog ⊢
    by_cases hsame : (s.node n).enabled = enabled
    · rw [if_pos hsame]
      exact ha
    rw [if_neg hsame] at hlog ⊢
    cases enabled with
    | false =>
      let s' : TimerHeap := (s.note (.paused handle (s.node n).firing (s.node n).rearmed)).set n
        { s.node n with
          enabled := false, pausedAt := some (if time ≠ 0 then time else s.now) }
      have ha' : Apart s' := ha
      exact ha'.remove hs.tracked n
    | true =>
      rw [if_neg (by decide)] at hlog ⊢
      have hheld : s.held n = false := by
        refine (hlog (TimerEvent.resumed handle (s.node n).isPaused (s.held n)) ?_).2
        split <;> exact List.mem_append_right _ List.mem_cons_self
      split
      · exact ha
      · let s' : TimerHeap :=
          ((s.note (.resumed handle (s.node n).isPaused (s.held n))).stamp n).set n
            ((s.node n).resume policy (if time ≠ 0 then time else s.now))
        have ha' : Apart s' := ha
        exact ha'.enqueue hs.tracked hheld

theorem Apart.clear (ha : Apart s) (handle : ℕ) (immediate : Bool) :
    Apart (s.clear handle immediate).2 := by
  unfold TimerHeap.clear
  split
  · exact ha
  · rename_i n _
    dsimp only
    split
    · have ha' : Apart (s.note (.cleared handle immediate)) := ha
      exact ha'.remove hs.tracked n
    · split <;> exact ha

theorem Apart.perform (ha : Apart s) (c : TimerCall) (hlog : Separately (s.perform c)) :
    Apart (s.perform c) :=
  perform_rule (P := fun s' => Separately s' → Apart s') c (fun _ => ha)
    (fun time interval callback _ => ha.createTimer hs time interval callback)
    (fun handle immediate _ => ha.clear hs handle immediate)
    (fun handle n _ time => ⟨fun _ => Apart.moved (hs.stamp n) ha handle n time,
      fun _ => ha.moved hs handle n time⟩)
    (fun handle enabled policy time => ha.setEnabledBy hs handle enabled policy time) hlog

end

theorem Apart.settle (ha : Apart s) (hq : s.queue.Tracked) (hn : s.held n = false) :
    Apart (s.settle n) := by
  rw [settle_eq]
  refine settleWith_rule fun b' _ _ => ?_
  have ha' : Apart { s with book := b' } := ha
  exact ⟨ha', ha'.enqueue hq hn⟩

theorem Apart.readmitNode (hs : Readmitting s (n :: nodes)) (ha : Apart s) :
    Apart (s.readmitNode n) := by
  have hwrite : ∀ m, s.held m = false → Function.update s.held n false m = false := by
    intro m hm
    rw [update_apply]
    split
    · rfl
    · exact hm
  let s' : TimerHeap := { s with held := Function.update s.held n false }
  have ha' : Apart s' := fun m hm => hwrite m (ha m hm)
  unfold TimerHeap.readmitNode
  dsimp only
  split
  · exact ha'
  · split
    · split
      · exact ha'.enqueue hs.tracked (update_self ..)
      · exact ha'
    · exact ha'

theorem Apart.readmitAll (hs : InOrder s) (ha : Apart s) : Apart s.readmitAll := by
  have hfold : ∀ (nodes : List ℕ) (t : TimerHeap), Readmitting t nodes → Apart t →
      Apart (nodes.foldl TimerHeap.readmitNode t) := by
    intro nodes
    induction nodes with
    | nil => exact fun t _ ht => ht
    | cons n nodes ih => exact fun t ht hat => ih _ ht.step (hat.readmitNode ht)
  exact hfold s.deferred s hs.readmitting ha

/-- The log goes on, and the heap stays in order, with no node both queued and held back. -/
def Parts (s s' : TimerHeap) : Prop :=
  s.book.log <+: s'.book.log ∧ (InOrder s → Apart s → Separately s' → InOrder s' ∧ Apart s')

theorem Parts.refl (s : TimerHeap) : Parts s s := ⟨List.prefix_rfl, fun hs ha _ => ⟨hs, ha⟩⟩

theorem Parts.trans (h : Parts s s') (h' : Parts s' s'') : Parts s s'' := by
  refine ⟨h.1.trans h'.1, fun hs ha hlog => ?_⟩
  obtain ⟨hs', ha'⟩ := h.2 hs ha (hlog.of_log h'.1)
  exact h'.2 hs' ha' hlog

theorem Keeps.parts (h : Keeps s s')
    (ha : InOrder s → Apart s → Separately s' → Apart s') : Parts s s' :=
  ⟨h.1, fun hs ha' hlog => ⟨h.2 hs hlog.steadily, ha hs ha' hlog⟩⟩

theorem turn_parts {p' : HeapPass} (hpasses : s.passes = p :: rest) (hp : p.calling = none)
    (hp' : p'.calling = none) (hn : n ∈ s.queue.nodes) (hq : s.queue.Tracked → q.Tracked)
    (hnodes : s.queue.Tracked → q.nodes = s.queue.nodes.erase n) :
    Parts s ({ s with queue := q }.turn p' rest n) := by
  refine (turn_keeps hpasses hp hp' hn hq hnodes).parts fun hs ha _ => ?_
  have ha' : Apart { s with queue := q } := by
    refine ha.of_mem rfl fun m hm => .inl ?_
    rw [hnodes hs.tracked] at hm
    exact Multiset.mem_of_mem_erase hm
  unfold turn
  split
  · exact ha'
  · split
    · unfold defer
      split
      · exact ha'
      · -- the node taken off the queue is no longer on it
        intro m hm
        have hm' : m ∈ s.queue.nodes.erase n := by
          rw [← hnodes hs.tracked]
          exact hm
        have hmn : m ≠ n := (hs.sound.nodup.mem_erase_iff.1 hm').1
        change Function.update s.held n true m = false
        rw [update_of_ne hmn]
        exact ha' m hm
    · exact ha'

theorem settled_parts (hpasses : s.passes = p :: rest) (hp : p.calling = some n) :
    Parts s (s.settled p rest n) := by
  refine (settled_keeps hpasses hp).parts fun hs ha _ => ?_
  have hfiring : (s.node n).firing = true := by
    refine hs.called n ?_
    unfold running
    rw [hpasses, List.filterMap_cons_some hp]
    exact List.mem_cons_self
  have hheld : s.held n = false := by
    rw [← Bool.not_eq_true]
    exact fun hheld => by cases (hs.quiet n hheld).symm.trans hfiring
  let back : TimerHeap := { s.set n { s.node n with firing := false } with
    passes := { p with fired := p.fired + 1, calling := none } :: rest }
  have ha' : Apart back := ha
  exact ha'.settle hs.tracked hheld

theorem parts_kept : Kept Parts where
  trans := Parts.trans
  marks s cutShort onError := (keeps_kept.marks s cutShort onError).parts fun _ ha _ => ha
  perform s c := (perform_keeps s c).parts fun hs ha hlog => ha.perform hs c hlog
  begin s dt maxFires budget := (begin_keeps s dt maxFires budget).parts fun _ ha _ => ha
  leave hpasses hp := (leave_keeps hpasses hp).parts fun hs ha _ => ha.readmitAll hs
  turn := turn_parts
  settled := settled_parts

/-- **No node is both queued and held back**, in a run in which no timer held back is resumed. -/
theorem run_apart (turns : List PassTurn) (hlog : Separately (run turns)) : Apart (run turns) := by
  have hparts : Parts {} (run turns) := by
    refine Runs.run_invariant (P := Parts {}) (.refl _) (fun s turn hs => ?_) turns
    exact hs.trans (parts_kept.step s turn)
  exact (hparts.2 inOrder_new (fun _ _ => rfl) hlog).2

end TimerHeap

end CrossByte
