import CrossByte.Lib.Runs

/-!
# What came into view and what left it

`InterestSet` keeps the committed view and the round being gathered, each as bits and as a list.
`commit` draws the ids that left and those that entered from the lists, with the bits as the
judge, lets the round become the view, and then calls back.  A callback may add to the next round,
forget, clear, or throw, which ends the reports.

## Main results

* `reports_changes`: in every run a commit reports the ids of the view not gathered and those
  gathered not in the view, in order and once each; and an observer told of them, and of what is
  forgotten and cleared, holds the view, while every callback is given and returns, and none takes
  an id out of the view that is still to be reported;
* `forgotten_then_reported`: a callback that does leaves the observer with an id not in view.
-/

namespace CrossByte

namespace InterestSet

/-- The calls that may also be made from a callback; `commit` is refused there. -/
inductive Edit where
  | add (id : ℤ)
  | addAll (ids : List ℤ)
  | forget (id : ℤ)
  | clear

/-- What a callback does, and whether it then throws. -/
structure Answer where
  edits : List Edit := []
  throws : Bool := false

inductive Turn where
  | edit (e : Edit)
  /-- `commit`, with or without a callback for what entered and one for what left. -/
  | commit (entered left : Bool) (answers : List Answer)

def maxId : ℤ := 2 ^ 24 - 1

end InterestSet

open InterestSet

/-- The bits and the lists.  `reports` are the calls of the callbacks, `true` for an id that
entered, and `seen` the set of an observer that spawns and despawns by them, and despawns what it
is told is forgotten or cleared. -/
structure InterestSet where
  view : Finset ℕ := ∅
  viewIds : List ℕ := []
  next : Finset ℕ := ∅
  nextIds : List ℕ := []
  length : ℤ := 0
  reports : List (Bool × ℕ) := []
  seen : Finset ℕ := ∅

namespace InterestSet

/-- The error `add` throws, if it does, and the set. -/
def add (s : InterestSet) (id : ℤ) : Option String × InterestSet :=
  if id < 0 then (some "An id cannot be negative.", s)
  else if maxId < id then
    (some ("An id is at most " ++ toString maxId ++ ", not " ++ toString id ++ "."), s)
  else if id.toNat ∈ s.next then (none, s)
  else (none, { s with next := insert id.toNat s.next, nextIds := s.nextIds ++ [id.toNat] })

def addAll (s : InterestSet) : List ℤ → Option String × InterestSet
  | [] => (none, s)
  | id :: ids => if (s.add id).1.isSome then s.add id else addAll (s.add id).2 ids

def has (s : InterestSet) (id : ℤ) : Bool := decide (0 ≤ id) && decide (id.toNat ∈ s.view)

def forget (s : InterestSet) (id : ℤ) : Bool × InterestSet :=
  if s.has id then
    (true, { s with
      view := s.view.erase id.toNat, length := s.length - 1, seen := s.seen.erase id.toNat })
  else (false, s)

def clear (s : InterestSet) : InterestSet :=
  { view := s.viewIds.foldl Finset.erase s.view, next := s.nextIds.foldl Finset.erase s.next
    reports := s.reports }

def edit (s : InterestSet) : Edit → InterestSet
  | .add id => (s.add id).2
  | .addAll ids => (s.addAll ids).2
  | .forget id => (s.forget id).2
  | .clear => s.clear

/-- What a loop over the set gives: `__stillInView` passes over what is forgotten. -/
def ids (s : InterestSet) : List ℕ := s.viewIds.filter (· ∈ s.view)

/-- `__left`, as `commit` fills it. -/
def left (s : InterestSet) : List ℕ := s.viewIds.filter fun id => id ∈ s.view ∧ id ∉ s.next

def entered (s : InterestSet) : List ℕ := s.nextIds.filter (· ∉ s.view)

/-- The gathered round becomes the view. -/
def turn (s : InterestSet) : InterestSet :=
  { s with
    view := s.next, viewIds := s.nextIds, next := s.viewIds.foldl Finset.erase s.view
    nextIds := [], length := s.nextIds.length }

/-- A callback is called. -/
def told (s : InterestSet) (r : Bool × ℕ) : InterestSet :=
  { s with
    reports := s.reports ++ [r], seen := if r.1 then insert r.2 s.seen else s.seen.erase r.2 }

/-- The callbacks, until one throws. -/
def report : List (Bool × ℕ) → List Answer → InterestSet → InterestSet
  | [], _, s => s
  | r :: rs, answers, s =>
    let s' := (answers.headD {}).edits.foldl edit (s.told r)
    if (answers.headD {}).throws then s' else report rs answers.tail s'

/-- What `commit` has to report: the ids that left, then those that entered. -/
def changes (s : InterestSet) (entered left : Bool) : List (Bool × ℕ) :=
  (if left then s.left.map (false, ·) else []) ++ if entered then s.entered.map (true, ·) else []

def commit (s : InterestSet) (entered left : Bool) (answers : List Answer) : InterestSet :=
  report (s.changes entered left) answers s.turn

def step (s : InterestSet) : Turn → InterestSet
  | .edit e => s.edit e
  | .commit entered left answers => s.commit entered left answers

def run (turns : List Turn) : InterestSet := Runs.run step {} turns

/-! ## The bits and the lists -/

structure Sound (s : InterestSet) : Prop where
  viewed : s.view ⊆ s.viewIds.toFinset
  nodup : s.viewIds.Nodup
  gathered : s.next = s.nextIds.toFinset
  distinct : s.nextIds.Nodup
  length : s.length = s.view.card

variable {s : InterestSet} {rs : List (Bool × ℕ)} {answers : List Answer}

theorem sound_new : Sound {} := ⟨by simp, List.nodup_nil, by simp, List.nodup_nil, rfl⟩

theorem foldl_erase (l : List ℕ) (bits : Finset ℕ) :
    l.foldl Finset.erase bits = bits \ l.toFinset := by
  induction l generalizing bits with
  | nil => simp
  | cons a l ih => rw [List.foldl_cons, ih, List.toFinset_cons, Finset.erase_sdiff_comm,
      Finset.sdiff_insert]

/-- `add` changes only the round being gathered. -/
theorem add_eq (s : InterestSet) (id : ℤ) :
    ∃ bits l, (s.add id).2 = { s with next := bits, nextIds := l } := by
  unfold InterestSet.add
  split_ifs <;> exact ⟨_, _, rfl⟩

/-- `addAll` is `add` of each, up to one that is refused. -/
theorem addAll_rule {P : InterestSet → Prop} (hs : P s) (hadd : ∀ s id, P s → P (s.add id).2)
    (ids : List ℤ) : P (s.addAll ids).2 := by
  induction ids generalizing s with
  | nil => exact hs
  | cons id ids ih =>
    unfold addAll
    split
    · exact hadd s id hs
    · exact ih (hadd s id hs)

theorem has_iff (s : InterestSet) (id : ℤ) : s.has id = true ↔ 0 ≤ id ∧ id.toNat ∈ s.view := by
  simp [has]

/-- What an edit does: the lists and bits stay in order, nothing is reported, and what leaves the
view the observer hears of. -/
structure Removes (s s' : InterestSet) : Prop where
  sound : Sound s'
  reports : s'.reports = s.reports
  gone : ∃ gone : ℕ → Prop, ∀ id, (id ∈ s'.view ↔ id ∈ s.view ∧ ¬ gone id) ∧
    (id ∈ s'.seen ↔ id ∈ s.seen ∧ ¬ gone id)

theorem Removes.trans {s' s'' : InterestSet} (h : Removes s s') (h' : Removes s' s'') :
    Removes s s'' := by
  obtain ⟨gone, hgone⟩ := h.gone
  obtain ⟨gone', hgone'⟩ := h'.gone
  refine ⟨h'.sound, h'.reports.trans h.reports, fun id => gone id ∨ gone' id, fun id => ?_⟩
  rw [(hgone' id).1, (hgone' id).2, (hgone id).1, (hgone id).2]
  tauto

section

variable (h : Sound s)

include h

theorem Sound.removes : Removes s s := ⟨h, rfl, fun _ => False, by simp⟩

theorem Sound.erased : s.viewIds.foldl Finset.erase s.view = ∅ ∧
    s.nextIds.foldl Finset.erase s.next = ∅ := by
  rw [foldl_erase, foldl_erase, h.gathered]
  exact ⟨Finset.sdiff_eq_empty_iff_subset.2 h.viewed, Finset.sdiff_self _⟩

theorem Sound.add (id : ℤ) : Sound (s.add id).2 := by
  unfold InterestSet.add
  split_ifs with _ _ hnew
  · exact h
  · exact h
  · exact h
  · rw [h.gathered, List.mem_toFinset] at hnew
    refine { h with gathered := ?_, distinct := ?_ }
    · simp [h.gathered]
    · rw [← List.concat_eq_append]
      exact h.distinct.concat hnew

theorem Sound.edit (e : Edit) : Removes s (s.edit e) := by
  have hadd : ∀ t id, Removes s t → Removes s (t.add id).2 := by
    intro t id ht
    obtain ⟨bits, l, heq⟩ := add_eq t id
    exact ht.trans ⟨ht.sound.add id, by rw [heq], fun _ => False, by simp [heq]⟩
  cases e with
  | add id => exact hadd s id h.removes
  | addAll ids => exact addAll_rule h.removes hadd ids
  | forget id =>
    change Removes s (s.forget id).2
    unfold InterestSet.forget
    split
    · rename_i hhas
      have hid := ((has_iff s id).1 hhas).2
      refine ⟨{ h with viewed := (Finset.erase_subset _ _).trans h.viewed, length := ?_ },
        rfl, (· = id.toNat), fun x => by simp only [Finset.mem_erase]; tauto⟩
      rw [h.length, Finset.card_erase_of_mem hid, Nat.cast_pred (Finset.card_pos.2 ⟨_, hid⟩)]
    · exact h.removes
  | clear =>
    change Removes s s.clear
    unfold InterestSet.clear
    rw [h.erased.1, h.erased.2]
    exact ⟨{ sound_new with }, rfl, fun _ => True, by simp⟩

theorem Sound.turn : Sound s.turn where
  viewed := h.gathered.subset
  nodup := h.distinct
  gathered := h.erased.1
  distinct := List.nodup_nil
  length := by
    change (s.nextIds.length : ℤ) = s.next.card
    rw [h.gathered, List.toFinset_card_of_nodup h.distinct]

theorem Sound.answer (r : Bool × ℕ) (a : Answer) :
    Removes (s.told r) (a.edits.foldl InterestSet.edit (s.told r)) :=
  Runs.run_invariant (P := Removes (s.told r))
    (Sound.removes { h with }) (fun _ e ht => ht.trans (ht.sound.edit e)) a.edits

/-- What is reported is what there is to report, up to the first callback that throws. -/
theorem Sound.report : Sound (report rs answers s) ∧ (report rs answers s).reports =
    s.reports ++ (answers.findIdx? (·.throws)).elim rs fun k => rs.take (k + 1) := by
  induction rs generalizing answers s with
  | nil => exact ⟨h, by cases answers.findIdx? (·.throws) <;> simp [InterestSet.report]⟩
  | cons r rs ih =>
    have hr := h.answer r (answers.headD {})
    have hreports : _ = s.reports ++ [r] := hr.reports
    unfold InterestSet.report
    split
    · rename_i hthrows
      cases answers with
      | nil => cases hthrows
      | cons a answers =>
        rw [List.findIdx?_cons, if_pos (c := a.throws) hthrows]
        exact ⟨hr.sound, hreports⟩
    · rename_i hthrows
      refine ⟨(ih hr.sound).1, ?_⟩
      rw [(ih hr.sound).2, hreports, List.append_assoc]
      cases answers with
      | nil => rfl
      | cons a answers =>
        rw [List.findIdx?_cons, if_neg (c := a.throws) hthrows, List.tail_cons]
        cases answers.findIdx? (·.throws) <;> rfl

end

theorem run_sound (turns : List Turn) : Sound (run turns) := by
  refine Runs.run_invariant (P := Sound) sound_new (fun s turn hs => ?_) turns
  cases turn with
  | edit e => exact (hs.edit e).sound
  | commit entered left answers => exact hs.turn.report.1

/-! ## The round -/

/-- An id gathered after others: one out of range is refused, one that is there is not added. -/
def gather (ids : List ℕ) (id : ℤ) : List ℕ :=
  if 0 ≤ id ∧ id ≤ maxId ∧ id.toNat ∉ ids then ids ++ [id.toNat] else ids

/-- What an edit makes of the round being gathered; `addAll` stops at the first id refused. -/
def roundAfter (ids : List ℕ) : Edit → List ℕ
  | .add id => gather ids id
  | .addAll l => (l.takeWhile fun id => 0 ≤ id ∧ id ≤ maxId).foldl gather ids
  | .forget _ => ids
  | .clear => []

section

variable (h : Sound s)

include h

theorem Sound.add_spec (id : ℤ) : (s.add id).2.nextIds = gather s.nextIds id ∧
    ((s.add id).1.isSome = true ↔ ¬ (0 ≤ id ∧ id ≤ maxId)) := by
  have hmem : id.toNat ∈ s.next ↔ id.toNat ∈ s.nextIds := by rw [h.gathered, List.mem_toFinset]
  unfold InterestSet.add gather
  split_ifs <;> simp_all
  · omega
  · omega

theorem Sound.addAll_nextIds (l : List ℤ) :
    (s.addAll l).2.nextIds = (l.takeWhile fun id => 0 ≤ id ∧ id ≤ maxId).foldl gather s.nextIds := by
  induction l generalizing s with
  | nil => rfl
  | cons id l ih =>
    obtain ⟨hadd, hrefused⟩ := h.add_spec id
    unfold addAll
    split
    · rename_i hsome
      have hout := hrefused.1 hsome
      rw [hadd, gather, if_neg fun hin => hout ⟨hin.1, hin.2.1⟩, List.takeWhile_cons_of_neg]
      · rfl
      · simpa using hout
    · rename_i hsome
      have hin := not_not.1 fun hout => hsome (hrefused.2 hout)
      rw [ih (h.add id), hadd, List.takeWhile_cons_of_pos (by simpa using hin), List.foldl_cons]

theorem Sound.edit_nextIds (e : Edit) : (s.edit e).nextIds = roundAfter s.nextIds e := by
  cases e with
  | add id => exact (h.add_spec id).1
  | addAll l => exact h.addAll_nextIds l
  | forget id =>
    change (s.forget id).2.nextIds = s.nextIds
    unfold InterestSet.forget
    split <;> rfl
  | clear => rfl

theorem Sound.edits_nextIds (edits : List Edit) :
    (edits.foldl InterestSet.edit s).nextIds = edits.foldl roundAfter s.nextIds := by
  induction edits generalizing s with
  | nil => rfl
  | cons e edits ih => rw [List.foldl_cons, ih (h.edit e).sound, h.edit_nextIds, List.foldl_cons]

/-- The callbacks called gather what their edits gather. -/
theorem Sound.report_nextIds : (InterestSet.report rs answers s).nextIds =
    ((answers.take ((InterestSet.report rs answers s).reports.length - s.reports.length)).flatMap
      (·.edits)).foldl roundAfter s.nextIds := by
  induction rs generalizing answers s with
  | nil => simp [InterestSet.report]
  | cons r rs ih =>
    have hr := h.answer r (answers.headD {})
    have hreports : (_ : List (Bool × ℕ)) = s.reports ++ [r] := hr.reports
    have hedits := Sound.edits_nextIds (s := s.told r) { h with } (answers.headD {}).edits
    unfold InterestSet.report
    dsimp only
    split
    · rw [hedits, hreports, List.length_append]
      cases answers <;> simp [told]
    · have hmore : (InterestSet.report rs answers.tail _).reports = _ := hr.sound.report.2
      rw [ih hr.sound, hedits, hmore, hreports]
      cases answers with
      | nil => simp [told]
      | cons a answers =>
        rw [List.length_append, List.length_append, List.length_singleton, Nat.add_sub_cancel_left,
          Nat.add_assoc, Nat.add_sub_cancel_left, Nat.add_comm 1, List.take_succ_cons,
          List.flatMap_cons, List.foldl_append]
        rfl

end

/-! ## The observer -/

/-- No callback throws, or takes an id out of the view that is still to be reported. -/
def prompt : List (Bool × ℕ) → List Answer → InterestSet → Bool
  | [], _, _ => true
  | r :: rs, answers, s =>
    let s' := (answers.headD {}).edits.foldl edit (s.told r)
    decide ((answers.headD {}).throws = false ∧ ∀ r' ∈ rs, r'.1 = true → r'.2 ∈ s'.view) &&
      prompt rs answers.tail s'

/-- Once told of what is left to report, the observer holds the view. -/
theorem Sound.observed (h : Sound s) (hd : ∀ id, (true, id) ∈ rs → (false, id) ∉ rs)
    (hp : prompt rs answers s = true)
    (hview : ∀ id, id ∈ s.view ↔ (true, id) ∈ rs ∨ id ∈ s.seen ∧ (false, id) ∉ rs) :
    (InterestSet.report rs answers s).seen = (InterestSet.report rs answers s).view := by
  induction rs generalizing answers s with
  | nil => exact Finset.ext fun id => by simp [InterestSet.report, hview id]
  | cons r rs ih =>
    rw [prompt, Bool.and_eq_true, decide_eq_true_eq] at hp
    obtain ⟨⟨hreturns, hkept⟩, hp⟩ := hp
    have hr := h.answer r (answers.headD {})
    obtain ⟨gone, hgone⟩ := hr.gone
    unfold InterestSet.report
    rw [hreturns]
    refine ih hr.sound (fun id hid hleft => ?_) hp fun id => ?_
    · exact hd id (List.mem_cons_of_mem r hid) (List.mem_cons_of_mem r hleft)
    · have hkeep := fun hid => hkept (true, id) hid rfl
      have hd' := hd id
      rw [(hgone id).1] at hkeep
      rw [(hgone id).1, (hgone id).2]
      change (id ∈ s.view ∧ _ ↔ _)
      rw [hview id]
      obtain ⟨_ | _, x⟩ := r <;> simp [told] at hd' ⊢ <;> tauto

/-- What a turn is to meet for the observer to keep up. -/
def heard (s : InterestSet) : Turn → Bool
  | .edit _ => true
  | .commit entered left answers =>
    entered && left && prompt (s.changes entered left) answers s.turn

theorem Sound.mem_changes (h : Sound s) (id : ℕ) :
    ((true, id) ∈ s.changes true true ↔ id ∈ s.next ∧ id ∉ s.view) ∧
      ((false, id) ∈ s.changes true true ↔ id ∈ s.view ∧ id ∉ s.next) := by
  have hview := @h.viewed id
  rw [List.mem_toFinset] at hview
  simp [changes, left, entered, h.gathered]
  tauto

theorem run_observed (turns : List Turn) (h : Runs.Along step (heard · ·) {} turns) :
    (run turns).seen = (run turns).view := by
  refine (Runs.run_invariant_along (P := fun s => Sound s ∧ s.seen = s.view)
    ⟨sound_new, rfl⟩ (fun s turn hs hturn => ?_) h).2
  obtain ⟨hs, hseen⟩ := hs
  cases turn with
  | edit e =>
    obtain ⟨gone, hgone⟩ := (hs.edit e).gone
    exact ⟨(hs.edit e).sound, Finset.ext fun id => by rw [step, (hgone id).1, (hgone id).2, hseen]⟩
  | commit entered left answers =>
    simp only [heard, Bool.and_eq_true] at hturn
    obtain ⟨⟨rfl, rfl⟩, hprompt⟩ := hturn
    refine ⟨hs.turn.report.1, hs.turn.observed (fun id => ?_) hprompt fun id => ?_⟩
    · rw [(hs.mem_changes id).1, (hs.mem_changes id).2]
      tauto
    · rw [(hs.mem_changes id).1, (hs.mem_changes id).2]
      change id ∈ s.next ↔ _ ∨ id ∈ s.seen ∧ _
      rw [hseen]
      tauto

/-! ## The changes -/

theorem Sound.toFinset_ids (h : Sound s) : s.ids.toFinset = s.view := by
  simpa [ids, Finset.filter_mem_eq_inter] using h.viewed

theorem Sound.length_ids (h : Sound s) : s.length = s.ids.length := by
  have hnodup : s.ids.Nodup := h.nodup.filter _
  rw [h.length, ← List.toFinset_card_of_nodup hnodup, h.toFinset_ids]

theorem forget_ids (s : InterestSet) (id : ℤ) :
    (s.forget id).2.ids = s.ids.filter fun x : ℕ => decide ((x : ℤ) ≠ id) := by
  unfold InterestSet.forget ids
  split
  · rename_i hhas
    rw [List.filter_filter]
    refine List.filter_congr fun x _ => ?_
    have h0 := ((has_iff s id).1 hhas).1
    have hx : x ≠ id.toNat ↔ (x : ℤ) ≠ id := by omega
    simp [hx]
  · rename_i hhas
    refine (List.filter_eq_self.2 fun x hx => ?_).symm
    rw [decide_eq_true_iff]
    rintro rfl
    exact hhas ((has_iff s x).2 ⟨by omega, by simpa using (List.mem_filter.1 hx).2⟩)

/-- **The changes are reported, and an observer keeps up.**  After every run, a commit draws the
ids in view that were not gathered and those gathered that are not in view, in their order and
each once, and reports them up to a callback that throws; every edit gathers what it names, and a
commit starts a new round, of what its callbacks gather; the set then answers for the round
gathered, but for what is forgotten or cleared; and an observer that hears of all this holds the
view. -/
theorem reports_changes (turns : List Turn) :
    let s := run turns
    (s.left = s.ids.filter (· ∉ s.nextIds) ∧ s.entered = s.nextIds.filter (· ∉ s.ids) ∧
      s.left.Nodup ∧ s.entered.Nodup) ∧
    (∀ entered left answers, (s.commit entered left answers).reports = s.reports ++
      (answers.findIdx? (·.throws)).elim (s.changes entered left)
        fun k => (s.changes entered left).take (k + 1)) ∧
    (∀ e, (s.edit e).nextIds = roundAfter s.nextIds e) ∧
    (∀ entered left answers, let s' := s.commit entered left answers
      s'.nextIds = ((answers.take (s'.reports.length - s.reports.length)).flatMap
        (·.edits)).foldl roundAfter []) ∧
    (s.turn.ids = s.nextIds ∧ s.turn.nextIds = [] ∧ s.turn.length = s.nextIds.length ∧
      ∀ id, s.turn.has id = true ↔ 0 ≤ id ∧ id.toNat ∈ s.nextIds) ∧
    s.length = s.ids.length ∧
    (∀ (t : InterestSet) id, (t.add id).2.ids = t.ids ∧
      (t.forget id).2.ids = t.ids.filter (fun x : ℕ => decide ((x : ℤ) ≠ id)) ∧
      t.clear.ids = [] ∧ t.clear.nextIds = []) ∧
    (Runs.Along step (heard · ·) {} turns → s.seen = s.ids.toFinset) := by
  intro s
  have h : Sound s := run_sound turns
  refine ⟨⟨?_, ?_, h.nodup.filter _, h.distinct.filter _⟩, fun _ _ _ => h.turn.report.2,
    h.edit_nextIds, fun _ _ _ => h.turn.report_nextIds, ⟨?_, rfl, rfl, fun id => ?_⟩, h.length_ids, fun t id => ⟨?_, forget_ids t id, rfl, rfl⟩,
    fun hheard => ?_⟩
  · unfold left ids
    rw [List.filter_filter]
    exact List.filter_congr fun x _ => by simp [h.gathered, Bool.and_comm]
  · exact List.filter_congr fun x _ => by simp [← List.mem_toFinset, h.toFinset_ids]
  · exact List.filter_eq_self.2 fun x hx => by simpa [turn, h.gathered] using hx
  · rw [has_iff, ← List.mem_toFinset, ← h.gathered]
    rfl
  · obtain ⟨bits, l, heq⟩ := add_eq t id
    rw [heq]
    rfl
  · rw [h.toFinset_ids]
    exact run_observed turns hheard

theorem two_rounds_observed :
    let turns : List Turn := [.edit (.addAll [4, 7]), .commit true true [⟨[.add 9], false⟩],
      .edit (.forget 4), .edit (.add 7), .commit true true []]
    (run turns).seen = (run turns).ids.toFinset ∧ (run turns).ids = [9, 7] := by
  intro turns
  exact ⟨(reports_changes turns).2.2.2.2.2.2.2 (by decide), by decide⟩

/-- The callback told that 1 left forgets 2, which is then reported as entered; and a callback
that throws leaves 3 unreported for good. -/
theorem forgotten_then_reported :
    let first : List Turn := [.edit (.add 1), .commit true true []]
    let forgets := run (first ++ [.edit (.add 2), .commit true true [⟨[.forget 2], false⟩]])
    let throws := run (first ++ [.edit (.addAll [1, 2, 3]), .commit true true [⟨[], true⟩],
      .edit (.addAll [1, 2, 3]), .commit true true []])
    (forgets.ids = [] ∧ forgets.seen = {2}) ∧
      throws.ids = [1, 2, 3] ∧ throws.seen = {1, 2} := by
  decide

end InterestSet

end CrossByte
