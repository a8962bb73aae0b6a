import Mathlib
import CrossByte.Http.RequestBodyMemoryCalls

/-!
# Runs of the room for request bodies

`Sound` is what a run keeps of the memory, the calls that are telling and the bytes the holders
hold; the calls that are telling are a list up to order, so that one of them can be looked at apart
from the others (`Sound.wake`).

## Main results

* `room_conserved`: nothing is lost or counted twice.  It needs every `configure` that lifts the
  limit to find less than `2 ^ 31` bytes to give, granted or lost: what a call of `__wake` has to
  give back is summed in an `Int`, and past that sum it is given back never
  (`lost_room_overflows`).
* `no_waiter_stranded`: the first waiter is short of room and is served first.  It needs no
  `cancel` to leave room for the next (`cancel_strands_next`).
-/

namespace CrossByte

open LinkedQueue Runs
open WrappingInt (wrap wrap_eq)

namespace RequestBodyMemory

variable {W H : Type} {m : RequestBodyMemory W} {l : List W} {t : Teller W} {ts : List (Teller W)}

theorem capOf_lt (limit floor : BitVec 32) : capOf limit.toInt floor.toInt < 2 ^ 31 := by
  have h1 := BitVec.toInt_lt (x := limit)
  have h2 := BitVec.toInt_lt (x := floor)
  unfold capOf
  split
  · norm_num
  · split
    · simpa using h1
    · simpa using h2

section Telling

variable {held : ℤ}

/-! ## The telling -/

/-- A waiter in the course of being told, or one that could not be, whose room is to go back. -/
def BeingTold (ts : List (Teller W)) (w : W) : Prop :=
  ∃ t ∈ ts, t.phase = .telling w ∨ t.phase = .untold w

/-- What the calls of `__wake` have collected and not given back. -/
def lostBy (ts : List (Teller W)) : ℤ := (ts.map Teller.lost).sum

@[simp] theorem lostBy_cons : lostBy (t :: ts) = t.lost + lostBy ts := by simp [lostBy]

theorem lostBy_nonneg (h : ∀ t ∈ ts, 0 ≤ t.lost) : 0 ≤ lostBy ts :=
  List.sum_nonneg fun a ha => by
    obtain ⟨t, ht, rfl⟩ := List.mem_map.1 ha
    exact h t ht

/-- What a run keeps. -/
structure Sound [Fintype W] (m : RequestBodyMemory W) (ts : List (Teller W)) (held : ℤ) : Prop where
  standing : ∃ l, m.Standing l
  cap_lt : m.cap < 2 ^ 31
  books : m.Books held (lostBy ts)
  lost_nonneg : ∀ t ∈ ts, 0 ≤ t.lost
  chained : m.Chained (ts.map Teller.chain)
  told : m.Told (BeingTold ts)

theorem Told.mono {now now' : W → Prop} (h : m.Told now) (hn : ∀ w, now w → now' w) :
    m.Told now' := fun w hw => (h w hw).imp id (Or.imp_left (hn w))

variable [Fintype W]

theorem Sound.perm {ts' : List (Teller W)} (h : m.Sound ts held) (hp : ts.Perm ts') :
    m.Sound ts' held where
  standing := h.standing
  cap_lt := h.cap_lt
  books := by
    have hsum : lostBy ts' = lostBy ts := (hp.map Teller.lost).symm.sum_eq
    rw [hsum]
    exact h.books
  lost_nonneg t ht := h.lost_nonneg t (hp.mem_iff.2 ht)
  chained := h.chained.perm (hp.map Teller.chain)
  told := h.told.mono fun w => by
    rintro ⟨t, ht, hw⟩
    exact ⟨t, hp.mem_iff.1 ht, hw⟩

theorem Sound.forget_told (h : m.Sound (t :: ts) held) (hphase : t.phase = .walking) :
    m.Told (BeingTold ts) := h.told.mono fun x ⟨u, hu, hux⟩ => by
  rcases List.mem_cons.1 hu with rfl | hu
  · simp [hphase] at hux
  · exact ⟨u, hu, hux⟩

/-- A call that keeps the books leaves a chain for one more call of `__wake`. -/
theorem Sound.call {m' : RequestBodyMemory W} {link : Option W} {held' : ℤ}
    (h : m.Sound ts held) (hcall : m.Call m' link l) (hcap : m'.cap < 2 ^ 31)
    (hbooks : m'.Books held' (lostBy ts)) : m'.Sound ({ chain := link } :: ts) held' := by
  refine ⟨⟨l, hcall.standing⟩, hcap, ?_, fun u hu => ?_, hcall.chained h.chained,
    (hcall.told h.told).mono ?_⟩
  · rw [lostBy_cons, zero_add]
    exact hbooks
  · rcases List.mem_cons.1 hu with rfl | hu
    · exact le_refl 0
    · exact h.lost_nonneg u hu
  · rintro x ⟨u, hu, hux⟩
    exact ⟨u, List.mem_cons_of_mem _ hu, hux⟩

theorem Sound.quietCall {m' : RequestBodyMemory W} {held' : ℤ} (h : m.Sound ts held)
    (hcall : m.Call m' none l) (hcap : m'.cap < 2 ^ 31) (hbooks : m'.Books held' (lostBy ts)) :
    m'.Sound ts held' :=
  ⟨⟨l, hcall.standing⟩, hcap, hbooks, h.lost_nonneg, chained_none.1 (hcall.chained h.chained),
    hcall.told h.told⟩

theorem Sound.wake_return (h : m.Sound (t :: ts) held) (hphase : t.phase = .walking)
    (hchain : t.chain = none) (hlost : ¬ 0 < t.lost) : m.Sound ts held := by
  have hb := h.books
  have htl := h.lost_nonneg t List.mem_cons_self
  have hzero : t.lost = 0 := by omega
  rw [lostBy_cons, hzero, zero_add] at hb
  have hc := h.chained
  rw [List.map_cons, hchain] at hc
  exact ⟨h.standing, h.cap_lt, hb, fun u hu => h.lost_nonneg u (List.mem_cons_of_mem t hu),
    chained_none.1 hc, h.forget_told hphase⟩

variable [DecidableEq W]

theorem Standing.wake (h : m.Standing l) (t : Teller W) (told : Bool) :
    ∃ l', (m.wake t told).1.Standing l' ∧ (m.Starved l → (m.wake t told).1.Starved l') ∧
      (m.wake t told).1.cap = m.cap := by
  unfold RequestBodyMemory.wake
  split
  · split
    · exact ⟨l, ⟨⟨h.lined.queue, h.lined.queued, h.lined.want_pos⟩, h.tickets.congr rfl rfl rfl,
        h.opens, h.used_nonneg⟩, id, rfl⟩
    · exact ⟨l, h, id, rfl⟩
  · rename_i w _
    exact ⟨l, h.collect w, fun hs => hs.of_used_le rfl (le_refl _)
      fun x _ => modify_apply (f := collected) (fun y => y.want) (fun _ => rfl) x, rfl⟩
  · split
    · exact ⟨l, ⟨h.lined.modify (fun _ => rfl) (fun _ => rfl) fun _ => rfl,
        h.tickets.congr rfl rfl rfl, h.opens, h.used_nonneg⟩,
        fun hs => hs.of_used_le rfl (le_refl _)
          fun x _ => modify_apply (f := offChain) (fun y => y.want) (fun _ => rfl) x, rfl⟩
    · split
      · obtain ⟨l', hcall, hstarved, hcap⟩ := h.release t.lost
        exact ⟨l', hcall.standing, hstarved, hcap⟩
      · exact ⟨l, h, id, rfl⟩

/-! ### What `__wake` keeps, phase by phase -/

section

variable (h : m.Sound (t :: ts) held)

include h

omit [DecidableEq W] in
theorem Sound.lost_nonneg_cons {t' : Teller W} (ht : 0 ≤ t'.lost) :
    ∀ u ∈ t' :: ts, 0 ≤ u.lost :=
  List.forall_mem_cons.2 ⟨ht, fun u hu => h.lost_nonneg u (List.mem_cons_of_mem t hu)⟩

theorem Sound.wake_telling {w : W} (hphase : t.phase = .telling w) {t' : Teller W}
    (hlost : t'.lost = t.lost) (hchain : t'.chain = t.chain) :
    ({ m with account := { m.account with told := Function.update m.account.told w true } } :
      RequestBodyMemory W).Sound (t' :: ts) held := by
  obtain ⟨l, hl⟩ := h.standing
  refine ⟨⟨l, ⟨hl.lined.queue, hl.lined.queued, hl.lined.want_pos⟩, hl.tickets.congr rfl rfl rfl,
    hl.opens, hl.used_nonneg⟩, h.cap_lt, ?_,
    h.lost_nonneg_cons (hlost ▸ h.lost_nonneg t List.mem_cons_self), ?_, fun x hx => ?_⟩
  · rw [lostBy_cons, hlost]
    exact h.books.congr rfl (fun _ => rfl) rfl rfl
  · rw [List.map_cons, hchain]
    exact h.chained.congr rfl fun _ => rfl
  · by_cases hxw : x = w
    · exact .inr (.inr (by rw [hxw]; exact Function.update_self ..))
    · refine (h.told x hx).imp id (Or.imp (fun hnow => ?_) fun htold => ?_)
      · obtain ⟨u, hu, hux⟩ := hnow
        rcases List.mem_cons.1 hu with rfl | hu
        · simp [hphase, Ne.symm hxw] at hux
        · exact ⟨u, List.mem_cons_of_mem t' hu, hux⟩
      · exact (Function.update_of_ne hxw ..).trans htold

omit [DecidableEq W] in
/-- A waiter that could not be told is in the hands of the same call. -/
theorem Sound.wake_failed {w : W} (hphase : t.phase = .telling w) :
    m.Sound ({ t with phase := .untold w } :: ts) held := by
  refine ⟨h.standing, h.cap_lt, ?_, h.lost_nonneg_cons (h.lost_nonneg t List.mem_cons_self), ?_,
    h.told.mono ?_⟩
  · have hb := h.books
    rwa [lostBy_cons] at hb ⊢
  · exact h.chained
  · rintro x ⟨u, hu, hux⟩
    rcases List.mem_cons.1 hu with rfl | hu
    · simp only [hphase, Phase.telling.injEq, reduceCtorEq, or_false] at hux
      exact ⟨_, List.mem_cons_self, .inr (by rw [hux])⟩
    · exact ⟨u, List.mem_cons_of_mem _ hu, hux⟩

/-- What is collected for a waiter whose runtime has gone is the call's to give back. -/
theorem Sound.wake_untold {w : W} (hphase : t.phase = .untold w) :
    (m.modify w collected).Sound
      ({ t with lost := wrap (t.lost + (m.waiters w).granted), phase := .walking } :: ts) held := by
  obtain ⟨l, hl⟩ := h.standing
  have hb := h.books
  rw [lostBy_cons] at hb
  have hgranted := hb.granted_nonneg w
  have hle := FinSum.le_sum hb.granted_nonneg w
  have hsmall := hb.small
  have htl := h.lost_nonneg t List.mem_cons_self
  have hts := lostBy_nonneg fun u hu => h.lost_nonneg u (List.mem_cons_of_mem t hu)
  have hwrap : wrap (t.lost + (m.waiters w).granted) = t.lost + (m.waiters w).granted :=
    wrap_eq (by omega) (by omega)
  refine ⟨⟨l, hl.collect w⟩, h.cap_lt, ?_, h.lost_nonneg_cons (by simp only; omega),
    h.chained.collect w, ?_⟩
  · rw [lostBy_cons]
    exact hb.collect w _ _ (le_refl held) (by simp only; omega) (by simp only; omega)
  · intro x hx
    have hxw : x ≠ w := by
      rintro rfl
      exact hx (by rw [collected_granted, if_pos rfl])
    refine (h.told.collect w x hx).imp id (Or.imp (fun hnow => ?_) id)
    obtain ⟨u, hu, hux⟩ := hnow
    rcases List.mem_cons.1 hu with rfl | hu
    · simp [hphase, Ne.symm hxw] at hux
    · exact ⟨u, List.mem_cons_of_mem _ hu, hux⟩

theorem Sound.wake_walking {w : W} (hphase : t.phase = .walking) (hchain : t.chain = some w) :
    (m.modify w offChain).Sound
      ({ t with chain := (m.waiters w).nextToTell, phase := .telling w } :: ts) held := by
  obtain ⟨l, hl⟩ := h.standing
  have hc := h.chained
  rw [List.map_cons, hchain] at hc
  refine ⟨⟨l, hl.lined.modify (fun _ => rfl) (fun _ => rfl) fun _ => rfl,
    hl.tickets.congr rfl rfl rfl, hl.opens, hl.used_nonneg⟩, h.cap_lt, ?_,
    h.lost_nonneg_cons (h.lost_nonneg t List.mem_cons_self), hc.pop, fun x hx => ?_⟩
  · exact h.books.congr rfl (modify_apply (f := offChain) (fun y => y.granted) fun _ => rfl) rfl rfl
  · rw [modify_apply (f := offChain) (fun y => y.granted) fun _ => rfl] at hx
    by_cases hxw : x = w
    · exact .inr (.inl ⟨_, List.mem_cons_self, .inl (by rw [hxw])⟩)
    · rw [modify_of_ne hxw]
      refine (h.told x hx).imp id (Or.imp (fun hnow => ?_) id)
      obtain ⟨u, hu, hux⟩ := hnow
      rcases List.mem_cons.1 hu with rfl | hu
      · simp [hphase] at hux
      · exact ⟨u, List.mem_cons_of_mem _ hu, hux⟩

/-- The chain told, what was lost is given back, and that may make another chain. -/
theorem Sound.wake_release (hphase : t.phase = .walking) (hchain : t.chain = none)
    (hlost : 0 < t.lost) :
    (m.release t.lost).1.Sound ({ chain := (m.release t.lost).2 } :: ts) held := by
  obtain ⟨l, hl⟩ := h.standing
  obtain ⟨l', hcall, -, hcap⟩ := hl.release t.lost
  have hb := h.books
  rw [lostBy_cons] at hb
  have hts := lostBy_nonneg fun u hu => h.lost_nonneg u (List.mem_cons_of_mem t hu)
  have hc := h.chained
  rw [List.map_cons, hchain] at hc
  refine ⟨⟨l', hcall.standing⟩, hcap ▸ h.cap_lt, ?_, h.lost_nonneg_cons (le_refl 0),
    hcall.chained (chained_none.1 hc), (hcall.told (h.forget_told hphase)).mono ?_⟩
  · have hreleased := hb.release_lost hl h.cap_lt (by omega) hlost
    rw [add_sub_cancel_left] at hreleased
    rw [lostBy_cons, zero_add]
    exact hreleased
  · rintro x ⟨u, hu, hux⟩
    exact ⟨u, List.mem_cons_of_mem _ hu, hux⟩

/-- Whatever a call of `__wake` does next. -/
theorem Sound.wake (told : Bool) :
    (m.wake t told).1.Sound ((m.wake t told).2.toList ++ ts) held := by
  unfold RequestBodyMemory.wake
  split
  · rename_i w hphase
    split
    · exact h.wake_telling hphase rfl rfl
    · exact h.wake_failed hphase
  · rename_i w hphase
    exact h.wake_untold hphase
  · rename_i hphase
    split
    · rename_i w hchain
      exact h.wake_walking hphase hchain
    · rename_i hchain
      split
      · rename_i hlost
        exact h.wake_release hphase hchain hlost
      · rename_i hlost
        exact h.wake_return hphase hchain hlost

end

end Telling

namespace System

variable {s : System W H}

/-! ## What the holders hold -/

theorem hold_nonneg [DecidableEq H] (hs : ∀ h, 0 ≤ s.holds h) {h : H} {bytes : ℤ} (hb : 0 ≤ s.holds h + bytes)
    (x : H) : 0 ≤ (s.hold h bytes).holds x := by
  by_cases hx : x = h
  · subst hx
    exact (Function.update_self (f := s.holds) ..).ge.trans' hb
  · exact (Function.update_of_ne (f := s.holds) hx ..).ge.trans' (hs x)

section Holders

variable [Fintype H]

/-- What the holders hold, the calls of `__wake` that collected for waiters gone among them. -/
def held (s : System W H) : ℤ := ∑ h, s.holds h + lostBy s.tellers

variable [DecidableEq H]

theorem sum_hold (s : System W H) (h : H) (bytes : ℤ) :
    ∑ x, (s.hold h bytes).holds x = ∑ x, s.holds x + bytes := by
  rw [FinSum.sum_eq_of_differ (f := s.holds) (i := h) fun x hx => Function.update_of_ne hx ..]
  have hself : (s.hold h bytes).holds h = s.holds h + bytes := Function.update_self ..
  omega

end Holders

section Conservation

/-! ## Room is conserved -/

variable [Fintype W] [Fintype H]

/-- No room is lost, given twice or given without a word: a waiter with granted room uncollected is
on a chain, being told, told since, or one that could not be told and whose room a call is about to
take back. -/
structure Conserved (s : System W H) : Prop where
  used_eq : s.memory.used = s.held + ∑ w, (s.memory.waiters w).granted
  clamped : s.memory.account.clamped = false
  queue : Queue s.memory.next s.memory.head s.memory.tail s.memory.queue
  queued : ∀ w, (s.memory.waiters w).queued = true ↔ w ∈ s.memory.queue
  pastLimit : s.memory.account.pastLimit = false
  told : ∀ w, (s.memory.waiters w).granted ≠ 0 →
    (∃ t ∈ s.tellers, w ∈ s.memory.chainFrom t.chain ∨ t.phase = .telling w ∨
      t.phase = .untold w) ∨ s.memory.account.told w = true

/-- The invariant of a run. -/
structure Kept (s : System W H) : Prop where
  sound : s.memory.Sound s.tellers (∑ h, s.holds h)
  holds_nonneg : ∀ h, 0 ≤ s.holds h

theorem kept_init (limit floor : BitVec 32) : (init W H limit floor).Kept where
  sound :=
    { standing := ⟨[], standing_new _ _⟩
      cap_lt := capOf_lt limit floor
      books := by constructor <;> simp [init, new, lostBy]
      lost_nonneg := nofun
      chained := ⟨[], .refl _, nofun, .nil,
        fun w => by simp [init, new]⟩
      told := fun w hw => absurd rfl hw }
  holds_nonneg _ := le_refl 0

theorem Kept.conserved (hs : s.Kept) : s.Conserved := by
  obtain ⟨l, hl⟩ := hs.sound.standing
  have hb := hs.sound.books
  have hqueue := hl.lined.queue_eq
  refine ⟨?_, hb.clamped, hqueue.symm ▸ hl.lined.queue, hqueue.symm ▸ hl.lined.queued, hb.pastLimit,
    fun w hw => ?_⟩
  · have := hb.balance
    unfold held
    omega
  · rcases hs.sound.told w hw with hmark | ⟨t, ht, hphase⟩ | hdone
    · obtain ⟨link, hlink, hin⟩ := hs.sound.chained.mem_chainFrom hmark
      obtain ⟨t, ht, rfl⟩ := List.mem_map.1 hlink
      exact .inl ⟨t, ht, .inl hin⟩
    · exact .inl ⟨t, ht, .inr hphase⟩
    · exact .inr hdone

variable [DecidableEq W]

/-- A `configure` that lifts the limit finds less to give than an `Int` can count, with what has
been granted or lost already. -/
def Bounded (s : System W H) : Step W H → Prop
  | .configure limit floor => capOf limit.toInt floor.toInt ≤ 0 →
      ∑ w, (s.memory.waiters w).granted + lostBy s.tellers +
        (s.memory.queue.map fun w => (s.memory.waiters w).want).sum < 2 ^ 31
  | _ => True

instance (s : System W H) : ∀ a, Decidable (s.Bounded a)
  | .configure limit floor => inferInstanceAs (Decidable (capOf limit.toInt floor.toInt ≤ 0 → _))
  | .take .. | .charge .. | .release .. | .collect .. | .cancel .. | .wake .. =>
    inferInstanceAs (Decidable True)

variable [DecidableEq H]

theorem Kept.step (hs : s.Kept) {a : Step W H} (hd : s.Disciplined a) (hb : s.Bounded a) :
    (s.step a).Kept := by
  obtain ⟨hsound, hnonneg⟩ := hs
  obtain ⟨l, hl⟩ := hsound.standing
  cases a with
  | take h w want =>
    obtain ⟨l', hcall, -, hcap⟩ := hl.take want.toInt w
    have hgiven := take_nonneg s.memory want.toInt w
    refine ⟨hsound.quietCall hcall (hcap ▸ hsound.cap_lt) ?_,
      hold_nonneg hnonneg (by have := hnonneg h; omega)⟩
    rw [show ∑ x, (s.step (.take h w want)).holds x = _ from sum_hold s h _]
    exact hsound.books.take want.toInt w
  | charge h bytes =>
    obtain ⟨hcall, -, hcap⟩ := hl.charge bytes.toInt
    refine ⟨hsound.quietCall hcall (hcap ▸ hsound.cap_lt) ?_,
      hold_nonneg hnonneg (by have := hnonneg h; omega)⟩
    rw [show ∑ x, (s.step (.charge h bytes)).holds x = _ from sum_hold s h _]
    exact hsound.books.charge bytes.toInt
  | release h bytes =>
    obtain ⟨l', hcall, -, hcap⟩ := hl.release bytes.toInt
    have hd : bytes.toInt ≤ s.holds h := hd
    have hle := FinSum.le_sum hnonneg h
    have hh := hnonneg h
    refine ⟨hsound.call hcall (hcap ▸ hsound.cap_lt) ?_, hold_nonneg hnonneg (by omega)⟩
    rw [show ∑ x, (s.step (.release h bytes)).holds x = _ from sum_hold s h _]
    exact hsound.books.release_held hl hsound.cap_lt (by omega)
  | collect h w =>
    have hgranted := hsound.books.granted_nonneg w
    refine ⟨hsound.quietCall ⟨hl.collect w, fun hc => chained_none.2 (hc.collect w),
      fun ht => ht.collect w⟩ hsound.cap_lt ?_,
      hold_nonneg hnonneg (add_nonneg (hnonneg h) hgranted)⟩
    rw [show ∑ x, (s.step (.collect h w)).holds x = _ from sum_hold s h _]
    exact hsound.books.collect w _ _ (le_add_of_nonneg_right hgranted) (le_refl _) (by
      change _ + (s.memory.waiters w).granted + _ = _
      omega)
  | cancel w =>
    obtain ⟨l', hcall, -, hcap⟩ := hl.cancel w
    exact ⟨hsound.call hcall (hcap ▸ hsound.cap_lt) (hsound.books.cancel hl hsound.cap_lt w),
      hnonneg⟩
  | configure limit floor =>
    obtain ⟨l', hcall, -, hcap⟩ := hl.configure limit.toInt floor.toInt
    refine ⟨hsound.call hcall (hcap ▸ capOf_lt limit floor) ?_, hnonneg⟩
    refine hsound.books.configure hl (capOf_lt limit floor) fun hlift => ?_
    rw [← hl.lined.queue_eq]
    exact hb hlift
  | wake i told =>
    unfold System.step
    simp only
    split
    · exact ⟨hsound, hnonneg⟩
    · rename_i t ht
      obtain ⟨hi, rfl⟩ := List.getElem?_eq_some_iff.1 ht
      have hperm := List.getElem_cons_eraseIdx_perm hi
      have hwake := (hsound.perm hperm.symm).wake told
      refine ⟨hwake.perm ?_, hnonneg⟩
      split
      · rename_i hnone
        rw [hnone]
        exact .refl _
      · rename_i t' hsome
        rw [hsome]
        exact (List.set_perm_cons_eraseIdx hi t').symm

/-- In every run whose holders release no more than they hold, and in which no limit is lifted
with `2 ^ 31` bytes or more to give, room is conserved. -/
theorem room_conserved (limit floor : BitVec 32) (l : List (Step W H))
    (hl : Along step (fun s a => s.Disciplined a ∧ s.Bounded a) (init W H limit floor) l) :
    (run step (init W H limit floor) l).Conserved :=
  (run_invariant_along (P := Kept) (kept_init limit floor)
    (fun _ _ hs ha => hs.step ha.1 ha.2) hl).conserved

/-- Two waiters are given room beside a holder that keeps one byte; one of them has gone by the
time it is told. -/
theorem room_conserved_two_waiters :
    (run step (init (Fin 2) Unit 1 0)
      [.take () 0 1, .take () 0 8, .take () 1 5, .configure 0 0, .wake 0 true, .wake 0 false,
        .wake 0 true, .cancel 0, .wake 1 true]).Conserved :=
  room_conserved 1 0 _ (by decide +kernel)

/-- Two waiters for `2 ^ 30` bytes each are given them when the limit is lifted, and both have
gone: what is to be given back is `2 ^ 31`, no positive `Int`, and is counted as held for good. -/
theorem lost_room_overflows :
    let l : List (Step (Fin 2) Unit) :=
      [.take () 0 1, .take () 0 (2 ^ 30), .take () 1 (2 ^ 30), .configure 0 0,
        .wake 0 true, .wake 0 false, .wake 0 true, .wake 0 true, .wake 0 false, .wake 0 true,
        .wake 0 true]
    let s := run step (init (Fin 2) Unit 1 0) l
    Along step Disciplined (init (Fin 2) Unit 1 0) l ∧ s.tellers = [] ∧ s.holds () = 1 ∧
      (∀ w, (s.memory.waiters w).granted = 0) ∧ s.memory.used = 1 + 2 ^ 31 ∧ ¬ s.Conserved := by
  have hused : (run step (init (Fin 2) Unit 1 0)
      [.take () 0 1, .take () 0 (2 ^ 30), .take () 1 (2 ^ 30), .configure 0 0,
        .wake 0 true, .wake 0 false, .wake 0 true, .wake 0 true, .wake 0 false, .wake 0 true,
        .wake 0 true]).memory.used = 1 + 2 ^ 31 := by decide +kernel
  refine ⟨by decide +kernel, by decide +kernel, by decide +kernel, by decide +kernel, hused,
    fun hc => ?_⟩
  have heq := hc.used_eq
  revert heq
  decide +kernel

end Conservation

/-! ## No waiter is stranded -/

variable [Fintype W] [DecidableEq W]

/-- A `cancel` does not leave room for the next waiter. -/
def Fair (s : System W H) : Step W H → Prop
  | .cancel w => ¬ s.memory.LeavesRoom w
  | _ => True

instance (s : System W H) : ∀ a, Decidable (s.Fair a)
  | .cancel w => inferInstanceAs (Decidable (¬ s.memory.LeavesRoom w))
  | .take .. | .charge .. | .release .. | .collect .. | .configure .. | .wake .. =>
    inferInstanceAs (Decidable True)

/-- The queue is a list served in order, and its first waiter is short of room. -/
def InOrder (s : System W H) : Prop := ∃ l, s.memory.Standing l ∧ s.memory.Starved l

/-- The first waiter is short of room, waiters are served in the order they queued, and no `take`
overtakes them. -/
structure Unstranded (m : RequestBodyMemory W) : Prop where
  first : ∀ w, m.head = some w → 0 < m.cap →
    m.cap - m.used < (m.waiters w).want ∧ m.cap - m.used < minGrant
  line : m.queue.Pairwise fun v w => m.account.ticket v < m.account.ticket w
  served : m.account.served.Pairwise (· < ·)
  before : ∀ t ∈ m.account.served, ∀ w ∈ m.queue, t < m.account.ticket w
  overtakes : 0 < m.cap → m.head ≠ none → ∀ want w, (m.take want w).1 = 0

theorem least_le (want : ℤ) : least want ≤ want ∧ least want ≤ minGrant := by
  unfold least
  split <;> omega

theorem InOrder.unstranded (hs : s.InOrder) : Unstranded s.memory := by
  obtain ⟨l, hl, hstarved⟩ := hs
  have hqueue := hl.lined.queue_eq
  refine ⟨fun w hw hcap => ?_, hqueue.symm ▸ hl.tickets.line, hl.tickets.served,
    hqueue.symm ▸ hl.tickets.before, take_eq_zero⟩
  have hfirst : w ∈ l.head? := by
    rw [← hl.lined.queue.head_eq, hw]
    rfl
  have hroom := hstarved w hfirst
  obtain ⟨h1, h2⟩ := least_le (s.memory.waiters w).want
  exact ⟨by omega, by omega⟩

variable [DecidableEq H]

theorem InOrder.step (hs : s.InOrder) {a : Step W H} (ha : s.Fair a) : (s.step a).InOrder := by
  obtain ⟨l, hl, hstarved⟩ := hs
  cases a with
  | take h w want =>
    obtain ⟨l', hcall, hkeep, -⟩ := hl.take want.toInt w
    exact ⟨l', hcall.standing, hkeep hstarved⟩
  | charge h bytes =>
    obtain ⟨hcall, hkeep, -⟩ := hl.charge bytes.toInt
    exact ⟨l, hcall.standing, hkeep hstarved⟩
  | release h bytes =>
    obtain ⟨l', hcall, hkeep, -⟩ := hl.release bytes.toInt
    exact ⟨l', hcall.standing, hkeep hstarved⟩
  | collect h w =>
    exact ⟨l, hl.collect w, hstarved.of_used_le rfl (le_refl _)
      fun x _ => modify_apply (f := collected) (fun y => y.want) (fun _ => rfl) x⟩
  | cancel w =>
    obtain ⟨l', hcall, hkeep, -⟩ := hl.cancel w
    exact ⟨l', hcall.standing, hkeep ha hstarved⟩
  | configure limit floor =>
    obtain ⟨l', hcall, hkeep, -⟩ := hl.configure limit.toInt floor.toInt
    exact ⟨l', hcall.standing, hkeep hstarved⟩
  | wake i told =>
    unfold System.step
    simp only
    split
    · exact ⟨l, hl, hstarved⟩
    · rename_i t _
      obtain ⟨l', hstanding, hkeep, -⟩ := hl.wake t told
      exact ⟨l', hstanding, hkeep hstarved⟩

/-- In every run in which no `cancel` leaves room for the next waiter, no waiter is stranded. -/
theorem no_waiter_stranded (limit floor : BitVec 32) (l : List (Step W H))
    (hl : Along step Fair (init W H limit floor) l) :
    Unstranded (run step (init W H limit floor) l).memory :=
  (run_invariant_along (P := InOrder) ⟨[], standing_new _ _, starved_nil⟩
    (fun _ _ hs ha => hs.step ha) hl).unstranded

/-- A waiter is cancelled, the next is served by a release, and a third is still short. -/
theorem no_waiter_stranded_three :
    Unstranded (run step (init (Fin 3) Unit 100 0)
      [.take () 0 90, .take () 0 50, .take () 1 60, .take () 2 70, .cancel 0,
        .release () 70]).memory :=
  no_waiter_stranded 100 0 _ (by decide +kernel)

/-- A hundred bytes are held; the first waiter wants forty more and the next five.  Ten are let
go, too few for the first.  The first cancelled, the next is left waiting for room that there
is. -/
theorem cancel_strands_next :
    let l : List (Step (Fin 2) Unit) :=
      [.take () 0 90, .take () 0 50, .take () 1 5, .release () 10, .cancel 0]
    let m := (run step (init (Fin 2) Unit 100 0) l).memory
    Along step Disciplined (init (Fin 2) Unit 100 0) l ∧ m.head = some 1 ∧
      (m.waiters 1).want = 5 ∧ m.cap - m.used = 10 ∧ ¬ Unstranded m := by
  refine ⟨by decide +kernel, by decide +kernel, by decide +kernel, by decide +kernel, fun hu => ?_⟩
  have hfirst := hu.first 1 (by decide +kernel) (by decide +kernel)
  revert hfirst
  decide +kernel

end System

end RequestBodyMemory

end CrossByte
