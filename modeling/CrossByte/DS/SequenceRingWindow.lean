import CrossByte.DS.SequenceRing

/-!
# The ring as a map with a window

What the ring is for, said without slots: a `WindowMap` is a partial function on
sequence numbers and the newest number put, and moving the newest number drops
every entry that falls `capacity` or more behind it, for good.

The ring refines it step by step, except where a `put` moves the window round
the circle onto a number that still lies stale in its slot.  There the slot's
number and bit are read as if the value had been filed just now.  `Revives` is
that situation, decided on the ring and the number before the call, and
`reads_as_filed_iff_no_revival` says that it is the only way the two can part:
a run reads as the history says at every moment exactly when no call of it
revives anything.

The history is told by `Filed`, which says of a run what the documentation says
of the class: a value reads as held exactly when it was the last one filed under
its number, was not taken out since, and the window has at no moment since ended
`capacity` or more past it.
-/

namespace CrossByte

open Serial

namespace SequenceRing

variable {T : Type*}

/-! ## Calls and runs -/

inductive Call (T : Type*) where
  | put (sequence : Word) (value : T)
  | remove (sequence : Word)
  | clear
  | get (sequence : Word)
  | has (sequence : Word)
  deriving DecidableEq

/-- The ring after a call.  Looking a number up changes nothing. -/
def call (r : SequenceRing T) : Call T → SequenceRing T
  | .put sequence value => (r.put sequence value).2
  | .remove sequence => (r.remove sequence).2
  | .clear => r.clear
  | .get _ => r
  | .has _ => r

def calls (r : SequenceRing T) (l : List (Call T)) : SequenceRing T := Runs.run call r l

/-- The newest number is `capacity` or more ahead of `sequence`.  A `put` moves the newest
number by less than `2 ^ 31` and the capacity is at most `2 ^ 30`, so a window that has just
passed a number is not yet round the circle, and the distance tells. -/
def AgedOut (r : SequenceRing T) (sequence : Word) : Prop :=
  r.capacity ≤ dist r.newest sequence

instance (r : SequenceRing T) (sequence : Word) : Decidable (r.AgedOut sequence) :=
  inferInstanceAs (Decidable (_ ≤ _))

/-- The call ends what was filed under `sequence`. -/
def Supersedes (r : SequenceRing T) (sequence : Word) : Call T → Prop
  | .put other _ => other = sequence ∧ r.Accepts other
  | .remove other => other = sequence
  | .clear => True
  | .get _ => False
  | .has _ => False

/-- `value` is what the history of a run files under `sequence`: some accepted `put` filed it,
no later call put another there, removed it or cleared the ring, and at no moment since has
the newest number been `capacity` or more ahead. -/
def Filed (r : SequenceRing T) (l : List (Call T)) (sequence : Word) (value : T) : Prop :=
  ∃ before after, l = before ++ .put sequence value :: after ∧
    (r.calls before).Accepts sequence ∧
    (∀ mid c rest, after = mid ++ c :: rest →
      ¬ (r.calls (before ++ .put sequence value :: mid)).Supersedes sequence c) ∧
    ∀ mid, mid <+: after → ¬ (r.calls (before ++ .put sequence value :: mid)).AgedOut sequence

/-- Every lookup answers as the history of the run says. -/
def ReadsAsFiled (r : SequenceRing T) (l : List (Call T)) : Prop :=
  ∀ sequence,
    (∀ value, (r.calls l).get sequence = some value ↔ r.Filed l sequence value) ∧
    ((r.calls l).has sequence = true ↔ ∃ value, r.Filed l sequence value)

/-! ## The map with a window -/

/-- A partial function on sequence numbers, with the newest number put. -/
structure WindowMap (T : Type*) where
  newest : Option Word
  held : Word → Option T

namespace WindowMap

def init : WindowMap T := ⟨none, fun _ => none⟩

/-- Whether a number is fewer than `capacity` behind the newest. -/
def admits (capacity : ℕ) (m : WindowMap T) (sequence : Word) : Bool :=
  match m.newest with
  | none => true
  | some newest => -(capacity : ℤ) < ahead sequence newest

/-- The newest number once `sequence` is filed. -/
def newestAfter (m : WindowMap T) (sequence : Word) : Word :=
  match m.newest with
  | none => sequence
  | some newest => if ahead sequence newest > 0 then sequence else newest

/-- The map after a call: filing drops whatever the moved window has passed. -/
def call (capacity : ℕ) (m : WindowMap T) : Call T → WindowMap T
  | .put sequence value =>
    if m.admits capacity sequence then
      ⟨some (m.newestAfter sequence), fun k =>
        if k = sequence then some value
        else if dist (m.newestAfter sequence) k < capacity then m.held k
        else none⟩
    else m
  | .remove sequence => { m with held := fun k => if k = sequence then none else m.held k }
  | .clear => init
  | .get _ => m
  | .has _ => m

end WindowMap

variable {r : SequenceRing T} {m : WindowMap T} {l : List (Call T)} {c : Call T}
  {s sequence : Word} {value : T} {n : ℤ}

/-! ## What the two agree on in every run

The newest number and what is accepted do not depend on the slots, so the ring and
the map agree on them whatever the calls. -/

/-- The map's newest number is the ring's. -/
def Tracks (r : SequenceRing T) (m : WindowMap T) : Prop :=
  m.newest = if r.empty then none else some r.newest

theorem Tracks.admits_iff (h : r.Tracks m) : m.admits r.capacity s = true ↔ r.Accepts s := by
  unfold WindowMap.admits Accepts
  rw [h]
  cases r.empty <;> simp

theorem Tracks.newestAfter (h : r.Tracks m) : m.newestAfter s = r.newestAfter s := by
  unfold WindowMap.newestAfter SequenceRing.newestAfter
  rw [h]
  cases r.empty <;> simp

@[simp] theorem call_capacity (r : SequenceRing T) (c : Call T) :
    (r.call c).capacity = r.capacity := by
  cases c with
  | put s v =>
    simp only [call, put_eq]
    split <;> rfl
  | remove s =>
    simp only [call, SequenceRing.remove]
    split <;> rfl
  | clear => rfl
  | get s => rfl
  | has s => rfl

@[simp] theorem calls_capacity (r : SequenceRing T) (l : List (Call T)) :
    (r.calls l).capacity = r.capacity :=
  Runs.run_invariant (P := fun r' => r'.capacity = r.capacity) rfl
    (fun r' c h => (call_capacity r' c).trans h) l

/-- A call that is not an accepted `put` or a `clear` leaves the window alone. -/
theorem remove_window : (r.remove s).2.newest = r.newest ∧ (r.remove s).2.empty = r.empty := by
  unfold SequenceRing.remove
  split <;> exact ⟨rfl, rfl⟩

theorem Tracks.call (h : r.Tracks m) : (r.call c).Tracks (m.call r.capacity c) := by
  cases c with
  | put s v =>
    simp only [SequenceRing.call, put_eq, WindowMap.call, h.admits_iff, h.newestAfter]
    split
    · simp [Tracks]
    · exact h
  | remove s =>
    unfold Tracks
    rw [SequenceRing.call, remove_window.1, remove_window.2]
    exact h
  | clear => rfl
  | get s => exact h
  | has s => exact h

theorem tracks_new (h : new T n = .ok r) : r.Tracks WindowMap.init := by
  unfold new at h
  split at h <;> cases h
  rfl

theorem WellFiled.call (h : r.WellFiled) (c : Call T) : (r.call c).WellFiled := by
  cases c with
  | put s v => exact h.put
  | remove s => exact h.remove
  | clear => exact WellFiled.clear
  | get s => exact h
  | has s => exact h

/-! ## The history and the map -/

def WindowMap.calls (capacity : ℕ) (l : List (Call T)) : WindowMap T :=
  Runs.run (WindowMap.call capacity) WindowMap.init l

theorem calls_concat : r.calls (l ++ [c]) = (r.calls l).call c := Runs.run_concat l c

theorem tracks_calls (h : new T n = .ok r) (l : List (Call T)) :
    (r.calls l).Tracks (WindowMap.calls r.capacity l) := by
  induction l using List.reverseRecOn with
  | nil => exact tracks_new h
  | append_singleton l c ih =>
    have := ih.call (c := c)
    rw [calls_capacity] at this
    rwa [calls_concat, WindowMap.calls, Runs.run_concat]

theorem Filed.not_agedOut (h : r.Filed l sequence value) : ¬ (r.calls l).AgedOut sequence := by
  obtain ⟨before, after, rfl, -, -, haged⟩ := h
  exact haged after (List.prefix_refl after)

theorem filed_concat :
    r.Filed (l ++ [c]) sequence value ↔
      (c = .put sequence value ∧ (r.calls l).Accepts sequence) ∨
      (r.Filed l sequence value ∧ ¬ (r.calls l).Supersedes sequence c ∧
        ¬ (r.calls (l ++ [c])).AgedOut sequence) := by
  constructor
  · rintro ⟨before, after, heq, hacc, hsup, haged⟩
    rcases Runs.split_concat heq with ⟨rfl, hc, -⟩ | ⟨after, rfl, rfl⟩
    · exact .inl ⟨hc, hacc⟩
    · refine .inr ⟨⟨before, after, rfl, hacc, ?_, ?_⟩, hsup after c [] rfl, ?_⟩
      · rintro mid d rest rfl
        exact hsup mid d (rest ++ [c]) (by simp)
      · intro mid hmid
        exact haged mid (hmid.trans (List.prefix_append _ _))
      · have := haged (after ++ [c]) (List.prefix_refl _)
        rwa [← List.cons_append, ← List.append_assoc] at this
  · rintro (⟨rfl, hacc⟩ | ⟨⟨before, after, rfl, hacc, hsup, haged⟩, hc, hage⟩)
    · refine ⟨l, [], rfl, hacc, by simp, ?_⟩
      intro mid hmid
      obtain rfl := List.prefix_nil.1 hmid
      rw [calls_concat, AgedOut, not_le, call, put_eq, if_pos hacc]
      exact dist_newestAfter_lt hacc
    · refine ⟨before, after ++ [c], by simp, hacc, ?_, ?_⟩
      · intro mid d rest heq
        rcases Runs.split_concat heq with ⟨rfl, rfl, -⟩ | ⟨rest, -, rfl⟩
        · exact hc
        · exact hsup mid d rest rfl
      · intro mid hmid
        rcases List.prefix_concat_iff.1 hmid with rfl | hmid
        · rwa [← List.cons_append, ← List.append_assoc]
        · exact haged mid hmid

theorem agedOut_call_iff (hkeep : (r.call c).newest = r.newest) :
    (r.call c).AgedOut sequence ↔ r.AgedOut sequence := by
  rw [AgedOut, AgedOut, call_capacity, hkeep]

/-- The map holds exactly what the history files. -/
theorem held_iff_filed (h : new T n = .ok r) (l : List (Call T)) (sequence : Word) (value : T) :
    (WindowMap.calls r.capacity l).held sequence = some value ↔ r.Filed l sequence value := by
  induction l using List.reverseRecOn generalizing value with
  | nil =>
    constructor
    · intro hv
      cases hv
    · rintro ⟨before, after, heq, -⟩
      simp at heq
  | append_singleton l c ih =>
    have htrack := tracks_calls h l
    have hcap : (r.calls l).capacity = r.capacity := calls_capacity r l
    have hadm : ∀ s, (WindowMap.calls r.capacity l).admits r.capacity s = true ↔
        (r.calls l).Accepts s := fun s => by rw [← htrack.admits_iff, hcap]
    rw [filed_concat, ← ih, calls_concat, WindowMap.calls, Runs.run_concat]
    change ((WindowMap.calls r.capacity l).call r.capacity c).held sequence = some value ↔ _
    -- where the window stays, what was filed has not aged
    have hkept : (WindowMap.calls r.capacity l).held sequence = some value →
        ¬ (r.calls l).AgedOut sequence := fun hv => ((ih value).1 hv).not_agedOut
    cases c with
    | put s v =>
      simp only [WindowMap.call, hadm, htrack.newestAfter, Supersedes]
      by_cases hacc : (r.calls l).Accepts s
      · have hage : ((r.calls l).call (.put s v)).AgedOut sequence ↔
            r.capacity ≤ dist ((r.calls l).newestAfter s) sequence := by
          rw [AgedOut, call_capacity, call, put_eq, if_pos hacc, hcap]
          rfl
        rw [hage]
        by_cases hk : sequence = s
        · subst hk
          simp [hacc]
        · have hk' : s ≠ sequence := fun h => hk h.symm
          by_cases hd : dist ((r.calls l).newestAfter s) sequence < r.capacity
          · simp [hacc, hk, hk', hd]
          · simp [hacc, hk, hk', hd]
      · have hage : ((r.calls l).call (.put s v)).AgedOut sequence ↔
            (r.calls l).AgedOut sequence := by
          rw [call, put_eq, if_neg hacc]
        simp only [hacc, hage, and_false, not_false_iff, true_and]
        constructor
        · intro hv
          exact .inr ⟨hv, hkept hv⟩
        · rintro (⟨⟨rfl, -⟩, hacc'⟩ | ⟨hv, -⟩)
          · exact absurd hacc' hacc
          · exact hv
    | remove s =>
      simp only [WindowMap.call, Supersedes, agedOut_call_iff (r := r.calls l) (c := .remove s) remove_window.1]
      by_cases hk : sequence = s
      · simp [hk]
      · have hk' : s ≠ sequence := fun h => hk h.symm
        simpa [hk, hk'] using hkept
    | clear => simp [WindowMap.call, WindowMap.init, Supersedes]
    | get s =>
      simpa [WindowMap.call, Supersedes, agedOut_call_iff (r := r.calls l) (c := .get s) rfl]
        using hkept
    | has s =>
      simpa [WindowMap.call, Supersedes, agedOut_call_iff (r := r.calls l) (c := .has s) rfl]
        using hkept

/-- The lookups of the ring are those of the map. -/
def Agrees (r : SequenceRing T) (m : WindowMap T) : Prop := ∀ k, r.get k = m.held k

theorem WellFiled.has_iff (h : r.WellFiled) :
    r.has sequence = true ↔ ∃ v, r.get sequence = some v := by
  unfold has get
  cases hs : r.holds sequence with
  | false => simp
  | true =>
    have hbit := (holds_iff.1 hs).2.2.1
    simpa [Option.isSome_iff_exists] using h.value_of_bit _ hbit

theorem wellFiled_calls (h : new T n = .ok r) (l : List (Call T)) : (r.calls l).WellFiled :=
  Runs.run_invariant (wellFiled_new h) (fun _ c h => h.call c) l

/-- Reading as the history says is agreeing with the map. -/
theorem readsAsFiled_iff_agrees (h : new T n = .ok r) (l : List (Call T)) :
    r.ReadsAsFiled l ↔ (r.calls l).Agrees (WindowMap.calls r.capacity l) := by
  unfold ReadsAsFiled Agrees
  simp only [(wellFiled_calls h l).has_iff, ← held_iff_filed h]
  constructor
  · intro hread k
    exact Option.ext fun v => (hread k).1 v
  · intro hagree k
    simp [hagree k]

/-! ## Where they part -/

/-- The call is a `put` that moves the window onto a number lying stale in its slot: one the
window had passed, and that is fewer than `capacity` behind the new end. -/
def Revives (r : SequenceRing T) : Call T → Prop
  | .put s _ => r.empty = false ∧ 0 < ahead s r.newest ∧
      ∃ i < r.capacity, r.Lying (r.sequences i) ∧ r.AgedOut (r.sequences i) ∧
        r.sequences i ≠ s ∧ dist s (r.sequences i) < r.capacity
  | _ => False

instance (r : SequenceRing T) : ∀ c, Decidable (r.Revives c)
  | .put _ _ => inferInstanceAs (Decidable (_ ∧ _))
  | .remove _ => inferInstanceAs (Decidable False)
  | .clear => inferInstanceAs (Decidable False)
  | .get _ => inferInstanceAs (Decidable False)
  | .has _ => inferInstanceAs (Decidable False)

theorem slot_lt (r : SequenceRing T) (s : Word) : r.slot s < r.capacity := by
  rw [slot_eq_mod]
  exact Nat.mod_lt _ r.capacity_pos

/-- After an accepted `put`, the two agree exactly when every number that lies in its slot,
inside the moved window, was held before. -/
theorem agrees_put_iff (hw : r.WellFiled) (htrack : r.Tracks m) (hagree : r.Agrees m)
    (hacc : r.Accepts s) :
    (r.call (.put s value)).Agrees (m.call r.capacity (.put s value)) ↔
      ∀ k ≠ s, dist (r.newestAfter s) k < r.capacity → r.Lying k →
        r.empty = false ∧ dist r.newest k < r.capacity := by
  have hheld : ∀ k, m.held k = r.get k := fun k => (hagree k).symm
  unfold Agrees
  simp only [call, get_put hacc, WindowMap.call, htrack.admits_iff, hacc, htrack.newestAfter, hheld, get_eq]
  refine forall_congr' fun k => ?_
  by_cases hk : k = s
  · simp [hk]
  · by_cases hd : dist (r.newestAfter s) k < r.capacity
    · by_cases hl : r.Lying k
      · obtain ⟨v, hv⟩ := Option.isSome_iff_exists.1 (hw.value_of_bit _ hl.1)
        simp [hk, hd, hl, hv]
      · simp [hl]
    · simp [hd]

/-- A call from agreeing states keeps them agreeing exactly when it revives nothing. -/
theorem agrees_call_iff (hw : r.WellFiled) (htrack : r.Tracks m) (hagree : r.Agrees m)
    (c : Call T) : (r.call c).Agrees (m.call r.capacity c) ↔ ¬ r.Revives c := by
  cases c with
  | put s v =>
    by_cases hacc : r.Accepts s
    · rw [agrees_put_iff hw htrack hagree hacc]
      simp only [Revives]
      cases he : r.empty with
      | true =>
        -- nothing lies in the slots of an empty ring
        have hno : ∀ k, ¬ r.Lying k := fun k hk => by
          simpa [hw.no_bit_of_empty he] using hk.1
        simp [hno]
      | false =>
        by_cases hmove : 0 < ahead s r.newest
        · have hnewest : r.newestAfter s = s := by simp [newestAfter, hmove]
          rw [hnewest]
          constructor
          · rintro h ⟨-, -, i, -, hlying, haged, hne, hd⟩
            exact absurd (h _ hne hd hlying).2 (not_lt.2 haged)
          · intro h k hne hd hlying
            refine ⟨rfl, not_le.1 fun haged => h ?_⟩
            refine ⟨rfl, hmove, r.slot k, r.slot_lt k, ?_⟩
            rw [hlying.2]
            exact ⟨hlying, haged, hne, hd⟩
        · have hnewest : r.newestAfter s = r.newest := by simp [newestAfter, hmove, he]
          rw [hnewest]
          simp only [hmove, false_and, not_false_iff, iff_true, true_and]
          exact fun k _ hd _ => hd
    · have hm : ¬ m.admits r.capacity s = true := by rwa [htrack.admits_iff]
      have hmove : ¬ 0 < ahead s r.newest := fun h => hacc (.inr (by omega))
      simp [call, put_eq, hacc, WindowMap.call, hm, Revives, hmove, hagree]
  | remove s =>
    have : ((r.call (.remove s)).Agrees (m.call r.capacity (.remove s))) := fun k => by
      simp [call, get_remove, WindowMap.call, hagree k]
    simpa [Revives] using this
  | clear =>
    have : ((r.call .clear).Agrees (m.call r.capacity .clear)) := fun k => by
      simp [call, get_clear, WindowMap.call, WindowMap.init]
    simpa [Revives] using this
  | get s => simpa [Revives, call, WindowMap.call] using hagree
  | has s => simpa [Revives, call, WindowMap.call] using hagree

/-- What holds of the ring and the map in every run, whatever the calls revive. -/
structure Together (capacity : ℕ) (r : SequenceRing T) (m : WindowMap T) : Prop where
  capacity_eq : r.capacity = capacity
  wellFiled : r.WellFiled
  tracks : r.Tracks m

theorem Together.call {capacity : ℕ} (h : Together capacity r m) (c : Call T) :
    Together capacity (r.call c) (m.call capacity c) where
  capacity_eq := (call_capacity r c).trans h.capacity_eq
  wellFiled := h.wellFiled.call c
  tracks := h.capacity_eq ▸ h.tracks.call

theorem agrees_new (h : new T n = .ok r) : r.Agrees WindowMap.init := by
  have he : r.empty = true := by
    unfold new at h
    split at h <;> cases h
    rfl
  intro k
  simp [get_eq, he, WindowMap.init]

/-- **The ring is a map with a window, but for revived slots.**  At every moment of a run the
lookups answer as the history says, exactly when no call of the run moves the window onto a
number lying stale in its slot; and `put` refuses exactly the numbers `capacity` or more
behind the newest. -/
theorem reads_as_filed_iff_no_revival (h : new T n = .ok r) (l : List (Call T)) :
    ((∀ p, p <+: l → r.ReadsAsFiled p) ↔ Runs.Along call (fun r c => ¬ r.Revives c) r l) ∧
    ∀ p, p <+: l → ∀ s value, ((r.calls p).put s value).1 = false ↔
      (r.calls p).empty = false ∧ ahead s (r.calls p).newest ≤ -(r.capacity : ℤ) := by
  constructor
  · simp only [readsAsFiled_iff_agrees h]
    refine Runs.forall_prefix_iff_along (Q := Together r.capacity) (R := Agrees)
      ⟨rfl, wellFiled_new h, tracks_new h⟩ (agrees_new h) (fun r m c hq => hq.call c) ?_ l
    intro r' m c hq hagree
    rw [← hq.capacity_eq]
    exact agrees_call_iff hq.wellFiled hq.tracks hagree c
  · intro p _ s value
    rw [← Bool.not_eq_true, put_answer, Accepts, calls_capacity, not_or, Bool.not_eq_true, not_lt]

/-- A run that revives nothing, across the wrap of the sequence numbers. -/
theorem reads_as_filed_across_the_wrap :
    ∃ r, new ℕ 3 = .ok r ∧ r.capacity = 4 ∧
      ∀ p, p <+: [.put 0xFFFFFFFE#32 1, .put 0x00000000#32 2, .remove 0xFFFFFFFE#32,
          .put 0x00000005#32 3] → r.ReadsAsFiled p :=
  ⟨_, rfl, rfl, (reads_as_filed_iff_no_revival (n := 3) rfl _).1.2 (by decide)⟩

/-- One value, and then four jumps of a quarter of the circle that never use its slot. -/
def roundTheCircle : List (Call ℕ) :=
  [.put 0x00000000#32 7, .put 0x40000001#32 8, .put 0x80000001#32 9, .put 0xC0000001#32 10,
    .put 0x00000001#32 11]

/-- After a turn of the circle the ring of four answers for a number that aged out four
`put`s before. -/
theorem stale_slot_reads_as_held :
    ∃ r, new ℕ 4 = .ok r ∧ (r.calls roundTheCircle).get 0x00000000#32 = some 7 ∧
      ¬ r.Filed roundTheCircle 0x00000000#32 7 := by
  refine ⟨_, rfl, by decide, ?_⟩
  rw [← held_iff_filed (n := 4) rfl]
  decide

end SequenceRing
end CrossByte
