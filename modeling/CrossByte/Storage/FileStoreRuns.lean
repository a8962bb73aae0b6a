import CrossByte.Storage.FileStore

/-!
# What becomes of the values of a file store

A temporary is written by one call only, and nothing but the whole value is in it once the call has
come to its rename.  So every value is the whole value of a put, and changes only by the rename of
a put, or the delete of a `remove` or a `clear`, of its own store; or it is the one that a file of
the older format held before the run, and the rename of an `open` has made it a value.

## Main results

* `Kept`: what holds between turns.
* `keeps_whole_values`: every run, from any files, for stores whose names are directories of their
  own and writers whose tags differ.
* `dotdot_clears_outside`: the store called `..` is the application's storage directory itself.
* `promotion_loses_put`: a put that comes in between the test and the rename of an `open` is lost.
-/

namespace CrossByte

open Function

namespace FileStore

/-- A name that is a directory under `stores`. -/
def Plain (name : Name) : Prop := name ≠ [] ∧ name ≠ ['.'] ∧ name ≠ ['.', '.']

/-- An entry of the older format, which `open` promotes. -/
def Leftover (entry : Name) : Prop :=
  tempSuffix <:+ entry ∧ entrySuffix <:+ stem entry tempSuffix

/-- The last change of a value, or what it was before the run. -/
def latest (files₀ : Files) (log : List Change) (name : Name) (key : Key) : Option Content :=
  ((log.filter fun ch => ch.name = name ∧ ch.key = key).getLast?.map Change.value).getD
    (files₀.lookup (pathFor name key))

section Paths

variable {name name' : Name} {key key' : Key} {tag tag' : Tag} {files files₀ : Files}
  {log : List Change}

theorem not_leftover_valueName : ¬ Leftover (valueName key) := fun h =>
  not_both_suffixes (List.suffix_append _ entrySuffix) h.1

theorem not_leftover_tempName : ¬ Leftover (tempName key tag) := fun h => not_entrySuffix_stem h.2

/-- What is promoted to a value is the file of its key. -/
theorem Leftover.eq_of_keyOf {entry : Name} (h : Leftover entry)
    (hkey : keyOf (stem entry tempSuffix) = some key) : entry = valueName key ++ tempSuffix := by
  obtain ⟨front, rfl⟩ := h.1
  rw [stem_append] at hkey
  rw [keyOf_eq_some_iff.1 hkey]

section

variable (h : Plain name)

include h

theorem directory_eq : directory name = [stores, name] := by
  obtain ⟨hnil, hdot, hdots⟩ := h
  simp [directory, normalize, stores, hnil, hdot, hdots]

theorem pathFor_eq : pathFor name key = [stores, name, valueName key] := by
  simp [pathFor, directory_eq h]

theorem temporary_eq : temporary name key tag = [stores, name, tempName key tag] := by
  simp [temporary, directory_eq h]

theorem keyAt_eq (entry : Name) : keyAt name [stores, name, entry] = keyOf entry := by
  simp [keyAt, directory_eq h]

theorem mem_readDirectory {entry : Name} :
    entry ∈ readDirectory files (directory name) ↔
      (files.lookup [stores, name, entry]).isSome = true := by
  rw [directory_eq h, AList.lookup_isSome]
  unfold readDirectory
  rw [List.mem_filterMap]
  constructor
  · rintro ⟨path, hpath, hentry⟩
    split at hentry
    · rename_i hdrop
      have hne : path ≠ [] := by
        rintro rfl
        cases hentry
      have := List.dropLast_append_getLast hne
      rw [hdrop, List.getLast?_eq_some_getLast hne] at *
      obtain rfl := Option.some.inj hentry
      rwa [← this] at hpath
    · cases hentry
  · intro hpath
    exact ⟨_, hpath, by simp⟩

theorem mem_keysIn : key ∈ keysIn files name ↔ (files.lookup (pathFor name key)).isSome = true := by
  rw [keysIn, List.mem_filterMap, pathFor_eq h]
  constructor
  · rintro ⟨entry, hentry, hkey⟩
    rw [keyOf_eq_some_iff.1 hkey] at hentry
    exact (mem_readDirectory h).1 hentry
  · intro hsome
    exact ⟨valueName key, (mem_readDirectory h).2 hsome, keyOf_eq_some_iff.2 rfl⟩

end

theorem latest_concat_self (i : ℕ) (value : Option Content) :
    latest files₀ (log ++ [⟨i, name, key, value⟩]) name key = value := by
  simp [latest]

theorem latest_concat_ne {ch : Change} (h : ¬ (ch.name = name ∧ ch.key = key)) :
    latest files₀ (log ++ [ch]) name key = latest files₀ log name key := by
  simp [latest, h]

theorem mem_of_latest {value : Content} (h : latest files₀ log name key = some value) :
    (∃ ch ∈ log, ch.name = name ∧ ch.key = key ∧ ch.value = some value) ∨
      files₀.lookup (pathFor name key) = some value := by
  unfold latest at h
  cases hlast : (log.filter fun ch => ch.name = name ∧ ch.key = key).getLast? with
  | none =>
    rw [hlast] at h
    exact .inr h
  | some ch =>
    rw [hlast] at h
    have hmem := List.mem_filter.1 (List.mem_of_getLast? hlast)
    obtain ⟨hname, hkey⟩ := of_decide_eq_true hmem.2
    exact .inl ⟨ch, hmem.1, hname, hkey, h⟩

/-- A change that no later one is of the same key is the last. -/
theorem latest_of_last {before after : List Change} {i : ℕ} {value : Option Content}
    (hafter : ∀ ch ∈ after, ¬ (ch.name = name ∧ ch.key = key)) :
    latest files₀ (before ++ ⟨i, name, key, value⟩ :: after) name key = value := by
  have hnone : (after.filter fun ch => ch.name = name ∧ ch.key = key) = [] :=
    List.filter_eq_nil_iff.2 fun ch hch hof => hafter ch hch (of_decide_eq_true hof)
  rw [latest, List.filter_append, List.filter_cons_of_pos (by simp), hnone, List.getLast?_concat]
  rfl

end Paths

/-! ## What every turn keeps -/

/-- The entry `open` has in hand: one of the older format, or a temporary. -/
def Point.Entries : Point → Prop
  | .promoting entry _ => Leftover entry
  | .discarding entry _ => tempSuffix <:+ entry
  | _ => True

/-- The changes a put has made: one, once it has come past its rename. -/
def Counted (own : List Change) (i : ℕ) : Call → Prop
  | ⟨name, .put key value _, .flushing⟩ | ⟨name, .put key value _, .ended .ok⟩ =>
    own = [⟨i, name, key, some value⟩]
  | ⟨name, .put key value _, .dead⟩ => own = [] ∨ own = [⟨i, name, key, some value⟩]
  | ⟨_, .put _ _ _, _⟩ => own = []
  | _ => True

/-- The change is one that its call makes. -/
def Call.Makes (files₀ : Files) (c : Call) (ch : Change) : Prop :=
  c.name = ch.name ∧
  match ch.value with
  | some value => (∃ tag, c.op = .put ch.key value tag) ∨ c.op = .open_ ∧
      files₀.lookup [stores, c.name, valueName ch.key ++ tempSuffix] = some value
  | none => c.op = .remove ch.key ∨ c.op = .clear

/-- An `open` changes only keys without a value. -/
def Fresh (files₀ : Files) (calls : ℕ → Option Call) (log : List Change) : Prop :=
  ∀ before ch after, log = before ++ ch :: after → ∀ c, calls ch.call = some c → c.op = .open_ →
    latest files₀ before ch.name ch.key = none

def changesBy (log : List Change) (i : ℕ) : List Change := log.filter (·.call = i)

/-- A call between turns. -/
structure Call.Stands (files₀ files : Files) (log : List Change) (i : ℕ) (c : Call) : Prop where
  plain : Plain c.name
  whole : ∀ key value tag, c.op = .put key value tag → c.point = .syncing ∨ c.point = .replacing →
    ∀ content, files.lookup (temporary c.name key tag) = some content → content = value
  entries : c.point.Entries
  counted : Counted (changesBy log i) i c
  got : ∀ key value, c.op = .get key → c.point = .ended (.value (some value)) →
    (∃ ch ∈ log, ch.name = c.name ∧ ch.key = key ∧ ch.value = some value) ∨
      files₀.lookup (pathFor c.name key) = some value

/-- The files and the calls between turns. -/
structure Kept (files₀ : Files) (s : State) : Prop where
  outside : ∀ path, (∀ name entry, path ≠ [stores, name, entry]) →
    s.files.lookup path = files₀.lookup path
  leftovers : ∀ name entry content, Leftover entry →
    s.files.lookup [stores, name, entry] = some content →
      files₀.lookup [stores, name, entry] = some content
  values : ∀ name key, Plain name → s.value name key = latest files₀ s.log name key
  stands : ∀ i c, s.calls i = some c → c.Stands files₀ s.files s.log i
  made : ∀ ch ∈ s.log, ∃ c, s.calls ch.call = some c ∧ c.Makes files₀ ch
  fresh : Fresh files₀ s.calls s.log
  tags : ∀ i j c d key value value' tag, s.calls i = some c → s.calls j = some d →
    c.name = d.name → c.op = .put key value tag → d.op = .put key value' tag → i = j

section Steps

variable {files₀ : Files} {s : State} {i j : ℕ} {c : Call} {point : Point}

theorem Kept.changesBy_eq_nil (h : Kept files₀ s) (hi : s.calls i = none) :
    changesBy s.log i = [] := by
  refine List.filter_eq_nil_iff.2 fun ch hch hcall => ?_
  obtain ⟨c, hc, -⟩ := h.made ch hch
  rw [of_decide_eq_true hcall, hi] at hc
  cases hc

/-- A call that does something to the files and stands at another point. -/
theorem Kept.act (h : Kept files₀ s) (hc : s.calls i = some c) (files : Files)
    (new : List Change)
    (houtside : ∀ path, (∀ name entry, path ≠ [stores, name, entry]) →
      files.lookup path = s.files.lookup path)
    (hleft : ∀ name entry content, Leftover entry →
      files.lookup [stores, name, entry] = some content →
        s.files.lookup [stores, name, entry] = some content)
    (hvalues : ∀ name key, Plain name →
      files.lookup (pathFor name key) = latest files₀ (s.log ++ new) name key)
    (hothers : ∀ j d key value tag, j ≠ i → s.calls j = some d → d.op = .put key value tag →
      ∀ content, files.lookup (temporary d.name key tag) = some content →
        s.files.lookup (temporary d.name key tag) = some content)
    (hnew : ∀ ch ∈ new, ch.call = i ∧ c.Makes files₀ ch)
    (hfresh : ∀ before ch after, new = before ++ ch :: after → c.op = .open_ →
      latest files₀ (s.log ++ before) ch.name ch.key = none)
    (hstands : { c with point }.Stands files₀ files (s.log ++ new) i) :
    Kept files₀ ⟨files, update s.calls i (some { c with point }), s.log ++ new⟩ := by
  have hcalls : ∀ j d, update s.calls i (some { c with point }) j = some d →
      ∃ d', s.calls j = some d' ∧ d'.name = d.name ∧ d'.op = d.op := by
    intro j d hd
    by_cases hj : j = i
    · subst hj
      obtain rfl : { c with point } = d := by simpa using hd
      exact ⟨c, hc, rfl, rfl⟩
    · exact ⟨d, by simpa [hj] using hd, rfl, rfl⟩
  constructor
  case outside => exact fun path hpath => (houtside path hpath).trans (h.outside path hpath)
  case leftovers =>
    exact fun name entry content hentry hcontent =>
      h.leftovers name entry content hentry (hleft name entry content hentry hcontent)
  case values => exact hvalues
  case stands =>
    intro j d hd
    by_cases hj : j = i
    · subst hj
      obtain rfl : { c with point } = d := by simpa using hd
      exact hstands
    · have hd : s.calls j = some d := by simpa [hj] using hd
      obtain ⟨hplain, hwhole, hentries, hcounted, hgot⟩ := h.stands j d hd
      have hown : changesBy (s.log ++ new) j = changesBy s.log j := by
        have : new.filter (·.call = j) = [] := by
          refine List.filter_eq_nil_iff.2 fun ch hch hcall => ?_
          exact hj ((of_decide_eq_true hcall).symm.trans (hnew ch hch).1)
        rw [changesBy, List.filter_append, this, List.append_nil, changesBy]
      refine ⟨hplain, fun key value tag hop hpoint content hcontent => ?_, hentries,
        hown ▸ hcounted, fun key value hop hpoint => ?_⟩
      · exact hwhole key value tag hop hpoint content
          (hothers j d key value tag hj hd hop _ hcontent)
      · refine (hgot key value hop hpoint).imp_left fun hlogged => ?_
        obtain ⟨ch, hch, hrest⟩ := hlogged
        exact ⟨ch, List.mem_append_left _ hch, hrest⟩
  case made =>
    intro ch hch
    rcases List.mem_append.1 hch with hch | hch
    · obtain ⟨d, hd, hmakes⟩ := h.made ch hch
      by_cases hj : ch.call = i
      · rw [hj, hc] at hd
        obtain rfl := Option.some.inj hd
        exact ⟨{ c with point }, by simp [hj], hmakes⟩
      · exact ⟨d, by simpa [hj] using hd, hmakes⟩
    · obtain ⟨hcall, hmakes⟩ := hnew ch hch
      exact ⟨{ c with point }, by simp [hcall], hmakes⟩
  case fresh =>
    intro before ch after hlog d hd hop
    have hlog : s.log ++ new = before ++ ch :: after := hlog
    obtain ⟨d', hd', -, hdo⟩ := hcalls ch.call d hd
    -- the change is one of the new ones, or was there before
    have hnewest : ∀ front, new = front ++ ch :: after → before = s.log ++ front →
        latest files₀ before ch.name ch.key = none := by
      rintro front hsplit rfl
      refine hfresh front ch after hsplit ?_
      have hcall := (hnew ch (by rw [hsplit]; simp)).1
      rw [hcall, hc] at hd'
      rw [Option.some.inj hd', hdo, hop]
    rcases List.append_eq_append_iff.1 hlog with ⟨front, hbefore, hsplit⟩ | ⟨rest, hold, hsplit⟩
    · exact hnewest front hsplit hbefore
    · cases rest with
      | nil => exact hnewest [] (by simpa using hsplit.symm) (by simpa using hold.symm)
      | cons ch' rest =>
        obtain ⟨rfl, -⟩ := List.cons.inj hsplit
        exact h.fresh before ch rest hold d' hd' (hdo.trans hop)
  case tags =>
    intro j k d e key value value' tag hd he hname hop hop'
    obtain ⟨d', hd', hdn, hdo⟩ := hcalls j d hd
    obtain ⟨e', he', hen, heo⟩ := hcalls k e he
    exact h.tags j k d' e' key value value' tag hd' he' (by rw [hdn, hen, hname])
      (hdo.trans hop) (heo.trans hop')

theorem Kept.idle (h : Kept files₀ s) (hc : s.calls i = some c)
    (hstands : { c with point }.Stands files₀ s.files s.log i) :
    Kept files₀ ⟨s.files, update s.calls i (some { c with point }), s.log⟩ := by
  have := h.act hc s.files [] (fun _ _ => rfl) (fun _ _ _ _ hcontent => hcontent)
    (by simpa [State.value] using h.values)
    (fun _ _ _ _ _ _ _ _ _ hcontent => hcontent) (by simp) (by simp)
    (by simpa using hstands)
  simpa using this

variable {entry : Name} {key : Key} {value : Content} {tag : Tag}

/-- What is logged when the file of an entry is changed. -/
def logged (i : ℕ) (name entry : Name) (value : Option Content) : List Change :=
  ((keyOf entry).map fun key => (⟨i, name, key, value⟩ : Change)).toList

/-- One entry of the call's store is changed, and no temporary of another call is written. -/
theorem Kept.change (h : Kept files₀ s) (hc : s.calls i = some c) (files : Files)
    (hne : ∀ path, path ≠ [stores, c.name, entry] → files.lookup path = s.files.lookup path)
    (hleft : (files.lookup [stores, c.name, entry]).isSome = true → ¬ Leftover entry)
    (hothers : (files.lookup [stores, c.name, entry]).isSome = true →
      ∀ j d key value tag, j ≠ i → s.calls j = some d → d.op = .put key value tag →
        temporary d.name key tag ≠ [stores, c.name, entry])
    (hmakes : ∀ key, keyOf entry = some key →
      c.Makes files₀ ⟨i, c.name, key, files.lookup [stores, c.name, entry]⟩)
    (hfresh : ∀ key, keyOf entry = some key → c.op = .open_ → s.value c.name key = none)
    (hstands : { c with point }.Stands files₀ files
      (s.log ++ logged i c.name entry (files.lookup [stores, c.name, entry])) i) :
    Kept files₀ ⟨files, update s.calls i (some { c with point }),
      s.log ++ logged i c.name entry (files.lookup [stores, c.name, entry])⟩ := by
  refine h.act hc files _ (fun path hpath => hne path (hpath _ _))
    (fun name entry' content hentry hcontent => ?_)
    (fun name key' hname => ?_) (fun j d key' value' tag' hj hd hop content hcontent => ?_) ?_
    (fun before ch after hsplit hop => ?_) hstands
  · by_cases heq : [stores, name, entry'] = [stores, c.name, entry]
    · obtain ⟨rfl, rfl⟩ : name = c.name ∧ entry' = entry := by simpa using heq
      exact absurd hentry (hleft (by rw [hcontent]; rfl))
    · rwa [hne _ heq] at hcontent
  · rw [pathFor_eq hname]
    by_cases heq : [stores, name, valueName key'] = [stores, c.name, entry]
    · obtain ⟨rfl, rfl⟩ : name = c.name ∧ valueName key' = entry := by simpa using heq
      rw [logged, keyOf_eq_some_iff.2 rfl]
      exact (latest_concat_self i _).symm
    · rw [hne _ heq, ← pathFor_eq hname]
      refine (h.values name key' hname).trans ?_
      cases hkey : keyOf entry with
      | none => simp [logged, hkey]
      | some key =>
        rw [logged, hkey]
        refine (latest_concat_ne ?_).symm
        rintro ⟨rfl, rfl⟩
        exact heq (by rw [keyOf_eq_some_iff.1 hkey])
  · by_cases heq : temporary d.name key' tag' = [stores, c.name, entry]
    · rw [heq] at hcontent
      exact absurd heq (hothers (by rw [hcontent]; rfl) j d key' value' tag' hj hd hop)
    · rwa [hne _ heq] at hcontent
  · intro ch hch
    obtain ⟨key, hkey, rfl⟩ := Option.map_eq_some_iff.1 (Option.mem_toList.1 hch)
    exact ⟨rfl, hmakes key hkey⟩
  · cases hkey : keyOf entry with
    | none => simp [logged, hkey] at hsplit
    | some key =>
      have hone : [(⟨i, c.name, key, files.lookup [stores, c.name, entry]⟩ : Change)] =
          before ++ ch :: after := by simpa [logged, hkey] using hsplit
      obtain ⟨rfl, rfl, rfl⟩ : before = [] ∧
          ch = ⟨i, c.name, key, files.lookup [stores, c.name, entry]⟩ ∧ after = [] := by
        cases before with
        | nil => simpa [eq_comm] using hone
        | cons b before => simp at hone
      rw [List.append_nil]
      exact (h.values c.name key (h.stands i c hc).plain).symm.trans (hfresh key hkey hop)

theorem Kept.delete (h : Kept files₀ s) (hc : s.calls i = some c)
    (hmakes : ∀ key, keyOf entry = some key → c.op = .remove key ∨ c.op = .clear)
    (hstands : { c with point }.Stands files₀ (s.files.erase [stores, c.name, entry])
      (s.log ++ logged i c.name entry none) i) :
    Kept files₀ ⟨s.files.erase [stores, c.name, entry],
      update s.calls i (some { c with point }),
      s.log ++ logged i c.name entry none⟩ := by
  have hself : (s.files.erase [stores, c.name, entry]).lookup [stores, c.name, entry] = none :=
    AList.lookup_erase ..
  have hchange := h.change hc (s.files.erase [stores, c.name, entry])
    (fun path hpath => AList.lookup_erase_ne hpath) (by simp [hself]) (by simp [hself])
    (fun key hkey => ⟨rfl, by rw [hself]; exact hmakes key hkey⟩)
    (fun key hkey hop => by rcases hmakes key hkey with hop' | hop' <;> simp [hop] at hop')
    (hself ▸ hstands)
  rwa [hself] at hchange

theorem Kept.insert (h : Kept files₀ s) (hc : s.calls i = some c) (content : Content)
    (hleft : ¬ Leftover entry)
    (hothers : ∀ j d key value tag, j ≠ i → s.calls j = some d → d.op = .put key value tag →
      temporary d.name key tag ≠ [stores, c.name, entry])
    (hmakes : ∀ key, keyOf entry = some key → (∃ tag, c.op = .put key content tag) ∨
      c.op = .open_ ∧ files₀.lookup [stores, c.name, valueName key ++ tempSuffix] = some content)
    (hfresh : ∀ key, keyOf entry = some key → c.op = .open_ → s.value c.name key = none)
    (hstands : { c with point }.Stands files₀ (s.files.insert [stores, c.name, entry] content)
      (s.log ++ logged i c.name entry (some content)) i) :
    Kept files₀ ⟨s.files.insert [stores, c.name, entry] content,
      update s.calls i (some { c with point }),
      s.log ++ logged i c.name entry (some content)⟩ := by
  have hself : (s.files.insert [stores, c.name, entry] content).lookup [stores, c.name, entry] =
      some content := AList.lookup_insert _
  have hchange := h.change hc (s.files.insert [stores, c.name, entry] content)
    (fun path hpath => AList.lookup_insert_ne hpath) (fun _ => hleft) (fun _ => hothers)
    (fun key hkey => ⟨rfl, by rw [hself]; exact hmakes key hkey⟩) hfresh (hself ▸ hstands)
  rwa [hself] at hchange

variable {name : Name}

theorem logged_tempName (value' : Option Content) :
    logged i name (tempName key tag) value' = [] := by
  simp [logged, keyOf_tempName]

theorem logged_valueName (value' : Option Content) :
    logged i name (valueName key) value' = [⟨i, name, key, value'⟩] := by
  rw [logged, keyOf_eq_some_iff.2 rfl]
  rfl

/-- The points at which nothing is in a call's hands. -/
def Point.bare : Point → Bool
  | .start | .reading | .undoing | .deleting | .clearing _ | .dead => true
  | .ended (.value (some _)) => false
  | .ended _ => true
  | _ => false

/-- A call with nothing in its hands, that as a put has changed nothing. -/
theorem Call.stands_of_bare {files : Files} {log : List Change} (hplain : Plain c.name)
    (hbare : point.bare = true)
    (hput : ∀ key value tag, c.op = .put key value tag →
      changesBy log i = [] ∧ point ≠ .ended .ok) : { c with point }.Stands files₀ files log i := by
  obtain ⟨name, op, old⟩ := c
  refine ⟨hplain, fun key value tag hop hpoint => ?_, ?_, ?_, fun key value hop hpoint => ?_⟩
  · rcases hpoint with rfl | rfl <;> cases hbare
  · cases point <;> trivial
  · cases op with
    | put key value tag =>
      obtain ⟨hnil, hok⟩ := hput key value tag rfl
      cases point with
      | ended answer => cases answer <;> first | exact hnil | exact absurd rfl hok
      | dead => exact .inl hnil
      | flushing => cases hbare
      | _ => exact hnil
    | _ => trivial
  · subst hpoint
    cases hbare

/-! ### The steps of a call -/

section Go

variable {seam : Seam}

theorem go_idle (h : c.next s.files seam = (.idle, point)) : s.go i c seam =
    ⟨s.files, update s.calls i (some { c with point }), s.log⟩ := by
  simp [State.go, h, Act.run, Act.target]

theorem go_delete (hplain : Plain c.name)
    (h : c.next s.files seam = (.delete (directory c.name ++ [entry]), point)) : s.go i c seam =
    ⟨s.files.erase [stores, c.name, entry], update s.calls i (some { c with point }),
      s.log ++ logged i c.name entry none⟩ := by
  have herase := AList.lookup_erase (a := [stores, c.name, entry]) s.files
  simp [State.go, h, Act.run, Act.target, directory_eq hplain, keyAt_eq hplain, logged]

section

variable (h : Kept files₀ s)

include h

section

variable (hc : s.calls i = some c)

include hc

/-- A step that does nothing to the files, to a point with nothing in the call's hands. -/
theorem Kept.goIdle {p : Point} (hnext : c.next s.files seam = (.idle, p)) (hbare : p.bare = true)
    (hput : ∀ key value tag, c.op = .put key value tag → changesBy s.log i = [] ∧ p ≠ .ended .ok) :
    Kept files₀ (s.go i c seam) := by
  rw [go_idle hnext]
  exact h.idle hc (Call.stands_of_bare (h.stands i c hc).plain hbare hput)

theorem Kept.stay (hnext : c.next s.files seam = (.idle, c.point)) :
    Kept files₀ (s.go i c seam) := by
  rw [go_idle hnext]
  exact h.idle hc (h.stands i c hc)

section

variable (hop : c.op = .put key value tag)

include hop

theorem Kept.others (j : ℕ) (d : Call) (key' : Key) (value' : Content) (tag' : Tag) (hj : j ≠ i)
    (hd : s.calls j = some d) (hop' : d.op = .put key' value' tag') :
    temporary d.name key' tag' ≠ [stores, c.name, tempName key tag] := by
  rw [temporary_eq (h.stands j d hd).plain]
  intro heq
  obtain ⟨hname, hentry⟩ : d.name = c.name ∧ tempName key' tag' = tempName key tag := by
    simpa using heq
  obtain ⟨rfl, rfl⟩ := tempName_injective hentry
  exact hj (h.tags j i d c _ _ _ _ hd hc hname hop' hop)

theorem Kept.save {content : Content}
    (hnext : c.next s.files seam = (.save (temporary c.name key tag) content, point))
    (hstands : { c with point }.Stands files₀
      (s.files.insert (temporary c.name key tag) content) s.log i) :
    Kept files₀ (s.go i c seam) := by
  have htemp : temporary c.name key tag = [stores, c.name, tempName key tag] :=
    temporary_eq (h.stands i c hc).plain
  rw [htemp] at hnext hstands
  have hinsert := h.insert hc content not_leftover_tempName (h.others hc hop)
    (by simp [keyOf_tempName]) (by simp [keyOf_tempName])
    (by simpa [logged_tempName] using hstands)
  simpa [State.go, hnext, Act.run, Act.target, logged_tempName] using hinsert

/-- The rename of a put that has written its whole value. -/
theorem Kept.rename (hpoint : c.point = .replacing) (hnil : changesBy s.log i = [])
    (hcontent : s.files.lookup (temporary c.name key tag) = some value)
    (hnext : c.next s.files seam =
      (.rename (temporary c.name key tag) (pathFor c.name key), .flushing)) :
    Kept files₀ (s.go i c seam) := by
  have hplain := (h.stands i c hc).plain
  have htemp : temporary c.name key tag = [stores, c.name, tempName key tag] := temporary_eq hplain
  have hpath : pathFor c.name key = [stores, c.name, valueName key] := pathFor_eq hplain
  -- the temporary goes, and then its content is the value's
  have herased : Kept files₀ ⟨s.files.erase [stores, c.name, tempName key tag],
      update s.calls i (some { c with point := .undoing }), s.log⟩ := by
    have hbare : { c with point := .undoing }.Stands files₀
        (s.files.erase [stores, c.name, tempName key tag])
        (s.log ++ logged i c.name (tempName key tag) none) i :=
      Call.stands_of_bare hplain rfl fun _ _ _ _ =>
        ⟨by simpa [logged_tempName] using hnil, by simp⟩
    simpa [logged_tempName] using h.delete hc (by simp [keyOf_tempName]) hbare
  have hflushing : { c with point := .flushing }.Stands files₀
      ((s.files.erase [stores, c.name, tempName key tag]).insert [stores, c.name, valueName key]
        value)
      (s.log ++ logged i c.name (valueName key) (some value)) i := by
    refine ⟨hplain, fun _ _ _ _ hp => by simp at hp, trivial, ?_, fun _ _ _ hp => by simp at hp⟩
    obtain ⟨name, op, point⟩ := c
    obtain rfl : op = .put key value tag := hop
    rw [logged_valueName]
    show changesBy _ _ = _
    rw [changesBy, List.filter_append, ← changesBy, hnil]
    simp
  have hvalue := herased.insert (update_self ..) value not_leftover_valueName
    (fun j d key' value' tag' hj hd _ heq => by
      rw [temporary_eq (h.stands j d (by simpa [hj] using hd)).plain] at heq
      have hentry : d.name = c.name ∧ tempName key' tag' = valueName key := by simpa using heq
      exact absurd (keyOf_eq_some_iff.2 hentry.2) (by simp [keyOf_tempName]))
    (fun key' hkey => .inl ⟨tag, by rw [hop, valueName_injective (keyOf_eq_some_iff.1 hkey)]⟩)
    (fun _ _ hopen => by simp [hop] at hopen) hflushing
  rw [logged_valueName] at hvalue
  rw [htemp] at hcontent
  have hkey : keyOf (valueName key) = some key := keyOf_eq_some_iff.2 rfl
  simpa [State.go, hnext, Act.run, Act.target, htemp, hpath, hcontent, keyAt_eq hplain, hkey]
    using hvalue

end

end

theorem Kept.goPut (hc : s.calls i = some ⟨name, .put key value tag, point⟩)
    (seam : Seam) : Kept files₀ (s.go i ⟨name, .put key value tag, point⟩ seam) := by
  have hstands := h.stands i _ hc
  have hplain : Plain name := hstands.plain
  have hcounted := hstands.counted
  cases point with
  | start =>
    have hnil : changesBy s.log i = [] := hcounted
    cases seam with
    | cut length =>
      exact h.save hc rfl rfl
        (Call.stands_of_bare hplain rfl fun _ _ _ _ => ⟨hnil, by simp⟩)
    | returns =>
      refine h.save hc rfl rfl ⟨hplain, ?_, trivial, hnil, by simp⟩
      intro key' value' tag' hop _ content hcontent
      obtain ⟨rfl, rfl, rfl⟩ := Op.put.inj hop
      simpa using hcontent.symm
    | fails => exact h.goIdle hc rfl rfl fun _ _ _ _ => ⟨hnil, by simp⟩
  | syncing =>
    have hnil : changesBy s.log i = [] := hcounted
    cases seam with
    | returns =>
      rw [go_idle rfl]
      exact h.idle hc ⟨hplain, fun key' value' tag' hop _ => hstands.whole key' value' tag' hop
        (.inl rfl), trivial, hnil, by simp⟩
    | cut | fails => exact h.goIdle hc rfl rfl fun _ _ _ _ => ⟨hnil, by simp⟩
  | replacing =>
    have hnil : changesBy s.log i = [] := hcounted
    cases seam with
    | returns =>
      cases hcontent : s.files.lookup (temporary name key tag) with
      | none =>
        have hnext : Call.next ⟨name, .put key value tag, .replacing⟩ s.files .returns =
            (.idle, .undoing) := by simp [Call.next, hcontent]
        exact h.goIdle hc hnext rfl fun _ _ _ _ => ⟨hnil, by simp⟩
      | some content =>
        obtain rfl : content = value :=
          hstands.whole key value tag rfl (.inr rfl) content hcontent
        exact h.rename hc rfl rfl hnil hcontent (by simp [Call.next, hcontent])
    | cut | fails => exact h.goIdle hc rfl rfl fun _ _ _ _ => ⟨hnil, by simp⟩
  | flushing =>
    have hnext : Call.next ⟨name, .put key value tag, .flushing⟩ s.files seam =
        (.idle, .ended .ok) := by cases seam <;> rfl
    rw [go_idle hnext]
    exact h.idle hc ⟨hplain, by simp, trivial, hcounted, by simp⟩
  | undoing =>
    have hnil : changesBy s.log i = [] := hcounted
    cases seam with
    | returns =>
      rw [go_delete hplain rfl]
      exact h.delete hc (by simp [keyOf_tempName]) (Call.stands_of_bare hplain rfl
        fun _ _ _ _ => ⟨by simpa [logged_tempName] using hnil, by simp⟩)
    | cut | fails => exact h.goIdle hc rfl rfl fun _ _ _ _ => ⟨hnil, by simp⟩
  | reading | deleting =>
    exact h.goIdle hc (by cases seam <;> rfl) rfl fun _ _ _ _ => ⟨hcounted, by simp⟩
  | sweeping entries | clearing entries =>
    exact h.stay hc (by cases entries <;> cases seam <;> rfl)
  | promoting | discarding | ended | dead => exact h.stay hc (by cases seam <;> rfl)

end

/-- `open` looks at an entry: it leaves it, or promotes it, or is to delete it. -/
theorem sweep_next (name entry : Name) (entries : List Name) (files : Files) (seam : Seam) :
    ∃ p : Point, Call.next ⟨name, .open_, .sweeping (entry :: entries)⟩ files seam = (.idle, p) ∧
      p.Entries := by
  have hnext : Call.next ⟨name, .open_, .sweeping (entry :: entries)⟩ files seam =
      if ¬ tempSuffix <:+ entry then (.idle, .sweeping entries)
      else if entrySuffix <:+ stem entry tempSuffix ∧
          (files.lookup (directory name ++ [stem entry tempSuffix])).isNone then
        (.idle, .promoting entry entries)
      else (.idle, .discarding entry entries) := by cases seam <;> rfl
  rw [hnext]
  split
  · exact ⟨_, rfl, trivial⟩
  · rename_i htemp
    split
    · rename_i hleft
      exact ⟨_, rfl, not_not.1 htemp, hleft.1⟩
    · exact ⟨_, rfl, not_not.1 htemp⟩

section

variable (h : Kept files₀ s)

include h

/-- The rename of an `open`: what a file of the older format holds becomes the value of its key. -/
theorem Kept.promote {entries : List Name} {content : Content} (hplain : Plain name)
    (hc : s.calls i = some ⟨name, .open_, .promoting entry entries⟩) (hentry : Leftover entry)
    (hcontent : s.files.lookup [stores, name, entry] = some content)
    (habsent : s.files.lookup [stores, name, stem entry tempSuffix] = none) :
    Kept files₀ ⟨(s.files.erase [stores, name, entry]).insert
        [stores, name, stem entry tempSuffix] content,
      update s.calls i (some ⟨name, .open_, .sweeping entries⟩),
      s.log ++ logged i name (stem entry tempSuffix) (some content)⟩ := by
  have hstands : ∀ files log, Call.Stands files₀ files log i ⟨name, .open_, .sweeping entries⟩ :=
    fun _ _ => ⟨hplain, by simp, trivial, trivial, by simp⟩
  have hkey := keyOf_of_tempSuffix hentry.1
  have herased : Kept files₀ ⟨s.files.erase [stores, name, entry],
      update s.calls i (some ⟨name, .open_, .sweeping entries⟩), s.log⟩ := by
    have hdelete := h.delete hc (fun key hof => by simp [hkey] at hof)
      (hstands (s.files.erase [stores, name, entry]) (s.log ++ logged i name entry none))
    simpa [logged, hkey] using hdelete
  have hne : stem entry tempSuffix ≠ entry := fun heq =>
    not_both_suffixes hentry.2 (heq.symm ▸ hentry.1)
  have hinsert := herased.insert (update_self ..) content
    (fun hleft => not_both_suffixes hentry.2 hleft.1)
    (fun j d key' value' tag' hj hd _ heq => by
      rw [temporary_eq (h.stands j d (by simpa [hj] using hd)).plain] at heq
      have hstem : d.name = name ∧ tempName key' tag' = stem entry tempSuffix := by simpa using heq
      exact not_both_suffixes hentry.2 (hstem.2 ▸ tempSuffix_suffix_tempName))
    (fun key' hkey' => .inr ⟨rfl, by
      rw [← hentry.eq_of_keyOf hkey']
      exact h.leftovers name entry content hentry hcontent⟩)
    (fun key' hkey' _ => by
      show (s.files.erase _).lookup _ = none
      rw [pathFor_eq hplain, ← keyOf_eq_some_iff.1 hkey', AList.lookup_erase_ne (by simpa using hne)]
      exact habsent)
    (hstands ((s.files.erase [stores, name, entry]).insert
      [stores, name, stem entry tempSuffix] content)
      (s.log ++ logged i name (stem entry tempSuffix) (some content)))
  simpa using hinsert

theorem Kept.goOpen (hc : s.calls i = some ⟨name, .open_, point⟩) (seam : Seam)
    (hsafe : s.Safe (.go i seam)) : Kept files₀ (s.go i ⟨name, .open_, point⟩ seam) := by
  have hstands := h.stands i _ hc
  have hplain : Plain name := hstands.plain
  have hentries := hstands.entries
  have hstay : ∀ {files : Files} {log : List Change} {p : Point}, p.Entries →
      Call.Stands files₀ files log i ⟨name, .open_, p⟩ :=
    fun hp => ⟨hplain, by simp, hp, trivial, by simp⟩
  cases point with
  | start =>
    cases seam with
    | returns =>
      rw [go_idle rfl]
      exact h.idle hc (hstay trivial)
    | cut | fails => exact h.goIdle hc rfl rfl nofun
  | sweeping entries =>
    cases entries with
    | nil => exact h.goIdle hc (by cases seam <;> rfl) rfl nofun
    | cons entry entries =>
      obtain ⟨p, hnext, hp⟩ := sweep_next name entry entries s.files seam
      rw [go_idle hnext]
      exact h.idle hc (hstay hp)
  | promoting entry entries =>
    have hleft : Leftover entry := hentries
    have habsent := hsafe name entry entries hc
    have hdir : ∀ e, directory name ++ [e] = [stores, name, e] := by simp [directory_eq hplain]
    have hdiscard : Kept files₀ ⟨s.files,
        update s.calls i (some ⟨name, .open_, .discarding entry entries⟩), s.log⟩ :=
      h.idle hc (hstay hleft.1)
    cases seam with
    | returns =>
      cases hcontent : s.files.lookup [stores, name, entry] with
      | none =>
        have hnext : Call.next ⟨name, .open_, .promoting entry entries⟩ s.files .returns =
            (.idle, .discarding entry entries) := by
          rw [← hdir] at hcontent
          simp [Call.next, hcontent]
        rw [go_idle hnext]
        exact hdiscard
      | some content =>
        rw [hdir] at habsent
        have hpromote := h.promote hplain hc hleft hcontent habsent
        have hnext : Call.next ⟨name, .open_, .promoting entry entries⟩ s.files .returns =
            (.rename [stores, name, entry] [stores, name, stem entry tempSuffix],
              .sweeping entries) := by
          rw [← hdir, ← hdir]
          rw [← hdir] at hcontent
          simp [Call.next, hcontent]
        simpa [State.go, hnext, Act.run, Act.target, hcontent, keyAt_eq hplain, logged]
          using hpromote
    | cut | fails =>
      rw [go_idle rfl]
      exact hdiscard
  | discarding entry entries =>
    have htemp : tempSuffix <:+ entry := hentries
    cases seam with
    | returns =>
      rw [go_delete hplain rfl]
      exact h.delete hc (by simp [keyOf_of_tempSuffix htemp]) (hstay trivial)
    | cut | fails =>
      rw [go_idle rfl]
      exact h.idle hc (hstay trivial)
  | reading | deleting => exact h.goIdle hc (by cases seam <;> rfl) rfl nofun
  | clearing entries => exact h.stay hc (by cases entries <;> cases seam <;> rfl)
  | _ => exact h.stay hc (by cases seam <;> rfl)

theorem Kept.goGet (hc : s.calls i = some ⟨name, .get key, point⟩) (seam : Seam) :
    Kept files₀ (s.go i ⟨name, .get key, point⟩ seam) := by
  have hplain : Plain name := (h.stands i _ hc).plain
  cases point with
  | start =>
    cases seam with
    | returns =>
      cases hlookup : s.files.lookup (pathFor name key) with
      | none =>
        exact h.goIdle (p := .ended (.value none)) hc (by simp [Call.next, hlookup]) rfl nofun
      | some value => exact h.goIdle (p := .reading) hc (by simp [Call.next, hlookup]) rfl nofun
    | cut | fails => exact h.goIdle hc rfl rfl nofun
  | reading =>
    cases seam with
    | returns =>
      rw [go_idle rfl]
      refine h.idle hc ⟨hplain, by simp, trivial, trivial, fun key' value hop hpoint => ?_⟩
      obtain rfl : key = key' := Op.get.inj hop
      have hvalue : s.value name key = some value := by simpa [State.value] using hpoint
      exact mem_of_latest (h.values name key hplain ▸ hvalue)
    | cut | fails => exact h.goIdle hc rfl rfl nofun
  | deleting => exact h.goIdle hc (by cases seam <;> rfl) rfl nofun
  | sweeping entries | clearing entries =>
    exact h.stay hc (by cases entries <;> cases seam <;> rfl)
  | _ => exact h.stay hc (by cases seam <;> rfl)

theorem Kept.goRemove (hc : s.calls i = some ⟨name, .remove key, point⟩)
    (seam : Seam) : Kept files₀ (s.go i ⟨name, .remove key, point⟩ seam) := by
  have hplain : Plain name := (h.stands i _ hc).plain
  cases point with
  | start =>
    cases seam with
    | returns =>
      cases hlookup : s.files.lookup (pathFor name key) with
      | none => exact h.goIdle (p := .ended .ok) hc (by simp [Call.next, hlookup]) rfl nofun
      | some value => exact h.goIdle (p := .deleting) hc (by simp [Call.next, hlookup]) rfl nofun
    | cut | fails => exact h.goIdle hc rfl rfl nofun
  | deleting =>
    cases seam with
    | returns =>
      cases hlookup : s.files.lookup (pathFor name key) with
      | none => exact h.goIdle (p := .ended .error) hc (by simp [Call.next, hlookup]) rfl nofun
      | some value =>
        have hnext : Call.next ⟨name, .remove key, .deleting⟩ s.files .returns =
            (.delete (directory name ++ [valueName key]), .ended .ok) := by
          rw [pathFor] at hlookup
          simp [Call.next, hlookup, pathFor]
        rw [go_delete hplain hnext]
        refine h.delete hc (fun key' hkey => .inl ?_) (Call.stands_of_bare hplain rfl nofun)
        rw [valueName_injective (keyOf_eq_some_iff.1 hkey)]
    | cut | fails => exact h.goIdle hc rfl rfl nofun
  | reading => exact h.goIdle hc (by cases seam <;> rfl) rfl nofun
  | sweeping entries | clearing entries =>
    exact h.stay hc (by cases entries <;> cases seam <;> rfl)
  | _ => exact h.stay hc (by cases seam <;> rfl)

theorem Kept.goKeys (hc : s.calls i = some ⟨name, .keys, point⟩) (seam : Seam) :
    Kept files₀ (s.go i ⟨name, .keys, point⟩ seam) := by
  cases point with
  | start | reading | deleting => cases seam <;> exact h.goIdle hc rfl rfl nofun
  | sweeping entries | clearing entries =>
    exact h.stay hc (by cases entries <;> cases seam <;> rfl)
  | _ => exact h.stay hc (by cases seam <;> rfl)

theorem Kept.goClear (hc : s.calls i = some ⟨name, .clear, point⟩) (seam : Seam) :
    Kept files₀ (s.go i ⟨name, .clear, point⟩ seam) := by
  have hplain : Plain name := (h.stands i _ hc).plain
  cases point with
  | start | reading | deleting => cases seam <;> exact h.goIdle hc rfl rfl nofun
  | clearing entries =>
    cases entries with
    | nil => cases seam <;> exact h.goIdle hc rfl rfl nofun
    | cons entry entries =>
      cases seam with
      | returns =>
        rw [go_delete hplain rfl]
        exact h.delete hc (fun _ _ => .inr rfl) (Call.stands_of_bare hplain rfl nofun)
      | cut | fails => exact h.goIdle hc rfl rfl nofun
  | sweeping entries => exact h.stay hc (by cases entries <;> cases seam <;> rfl)
  | _ => exact h.stay hc (by cases seam <;> rfl)

end

end Go

/-- **Every turn that meets the condition keeps the state.** -/
theorem Kept.step (h : Kept files₀ s) (t : Turn) (ht : s.Safe t) : Kept files₀ (s.step t) := by
  cases t with
  | call i name op =>
    rw [State.step]
    split
    · rename_i hnew
      obtain ⟨hnone, haccepts⟩ := hnew
      obtain ⟨hdot, hdots, htags⟩ := ht
      have hplain : Plain name := ⟨by rintro rfl; simp [accepts] at haccepts, hdot, hdots⟩
      have hold : ∀ {j d}, update s.calls i (some ⟨name, op, .start⟩) j = some d →
          j = i ∧ d = ⟨name, op, .start⟩ ∨ j ≠ i ∧ s.calls j = some d := by
        intro j d hd
        by_cases hj : j = i
        · subst hj
          exact .inl ⟨rfl, by simpa using hd.symm⟩
        · exact .inr ⟨hj, by simpa [hj] using hd⟩
      refine ⟨h.outside, h.leftovers, h.values, fun j d hd => ?_, fun ch hch => ?_, ?_, ?_⟩
      · rcases hold hd with ⟨rfl, rfl⟩ | ⟨-, hd⟩
        · exact Call.stands_of_bare (c := ⟨name, op, .start⟩) hplain rfl fun _ _ _ _ =>
            ⟨h.changesBy_eq_nil hnone, by simp⟩
        · exact h.stands j d hd
      · obtain ⟨d, hd, hmakes⟩ := h.made ch hch
        have hj : ch.call ≠ i := by
          rintro heq
          rw [heq, hnone] at hd
          cases hd
        exact ⟨d, by simpa [hj] using hd, hmakes⟩
      · intro before ch after hlog d hd hopen
        obtain ⟨d', hd', -⟩ := h.made ch (by rw [show s.log = _ from hlog]; simp)
        rcases hold hd with ⟨hj, -⟩ | ⟨-, hd⟩
        · rw [hj, hnone] at hd'
          cases hd'
        · exact h.fresh before ch after hlog d hd hopen
      · intro j k d e key value value' tag hd he hname hop hop'
        rcases hold hd with ⟨rfl, rfl⟩ | ⟨-, hd'⟩ <;> rcases hold he with ⟨rfl, rfl⟩ | ⟨-, he'⟩
        · rfl
        · exact absurd hop' (htags key value tag hop k e value' he' hname.symm)
        · exact absurd hop (htags key value' tag hop' j d value hd' hname)
        · exact h.tags j k d e key value value' tag hd' he' hname hop hop'
    · exact h
  | go i seam =>
    rw [State.step]
    split
    · rename_i c hc
      obtain ⟨name, op, point⟩ := c
      cases op with
      | open_ => exact h.goOpen hc seam ht
      | get => exact h.goGet hc seam
      | put => exact h.goPut hc seam
      | remove => exact h.goRemove hc seam
      | keys => exact h.goKeys hc seam
      | clear => exact h.goClear hc seam
    · exact h
  | die i =>
    rw [State.step]
    split
    · exact h
    · rename_i c hended hc
      obtain ⟨hplain, -, -, hcounted, -⟩ := h.stands i c hc
      refine h.idle hc ⟨hplain, by simp, trivial, ?_, by simp⟩
      obtain ⟨name, op, point⟩ := c
      cases op with
      | put key value tag =>
        cases point with
        | ended answer => exact absurd rfl (hended name _ answer)
        | flushing => exact .inr hcounted
        | dead => exact hcounted
        | _ => exact .inl hcounted
      | _ => trivial
    · exact h

end Steps

/-! ## A call and other stores -/

/-- All that is done is done in a directory. -/
def Act.Within (directory : Path) : Act → Prop
  | .idle => True
  | .save path _ | .delete path => ∃ entry, path = directory ++ [entry]
  | .rename old new => (∃ entry, old = directory ++ [entry]) ∧ ∃ entry, new = directory ++ [entry]

theorem next_within (c : Call) (files : Files) (seam : Seam) :
    (c.next files seam).1.Within (directory c.name) := by
  unfold Call.next
  split <;> (try split) <;> (try split) <;>
    simp [Act.Within, temporary, pathFor]

/-- A step of a call leaves the files outside its store's directory alone. -/
theorem go_elsewhere {s : State} {i : ℕ} {c : Call} (hplain : Plain c.name) (seam : Seam)
    {path : Path} (hpath : ∀ entry, path ≠ [stores, c.name, entry]) :
    (s.go i c seam).files.lookup path = s.files.lookup path := by
  have hwithin := next_within c s.files seam
  have hne : ∀ entry, path ≠ directory c.name ++ [entry] := by
    simpa [directory_eq hplain] using hpath
  show ((c.next s.files seam).1.run s.files).lookup path = s.files.lookup path
  generalize (c.next s.files seam).1 = act at hwithin
  cases act with
  | idle => rfl
  | save path' content =>
    obtain ⟨entry, rfl⟩ := hwithin
    exact AList.lookup_insert_ne (hne entry)
  | delete path' =>
    obtain ⟨entry, rfl⟩ := hwithin
    exact AList.lookup_erase_ne (hne entry)
  | rename old new =>
    obtain ⟨⟨entry, rfl⟩, entry', rfl⟩ := hwithin
    rw [Act.run]
    split
    · rw [AList.lookup_insert_ne (hne entry'), AList.lookup_erase_ne (hne entry)]
    · rfl

/-! ## The results -/

/-- Files, and no calls yet. -/
def State.new (files : Files) : State := ⟨files, fun _ => none, []⟩

/-- What `get` and `keys` answer, a file operation after the files were as they are: the value of the
key, and the keys that have one. -/
structure Answers (files₀ : Files) (s : State) : Prop where
  tested : ∀ i name key, s.calls i = some ⟨name, .get key, .start⟩ →
    (s.step (.go i .returns)).calls i = some ⟨name, .get key,
      if (latest files₀ s.log name key).isSome then .reading else .ended (.value none)⟩
  read : ∀ i name key, s.calls i = some ⟨name, .get key, .reading⟩ →
    (s.step (.go i .returns)).calls i =
      some ⟨name, .get key, .ended (.value (latest files₀ s.log name key))⟩
  listed : ∀ i name, s.calls i = some ⟨name, .keys, .start⟩ →
    ∃ keys, (s.step (.go i .returns)).calls i = some ⟨name, .keys, .ended (.listed keys)⟩ ∧
      ∀ key, key ∈ keys ↔ (latest files₀ s.log name key).isSome = true

theorem Kept.answers {files₀ : Files} {s : State} (h : Kept files₀ s) : Answers files₀ s where
  tested i name key hc := by
    have hvalue : s.files.lookup (pathFor name key) = latest files₀ s.log name key :=
      h.values name key (h.stands i _ hc).plain
    simp only [State.step, hc, State.go, update_self, Call.next, hvalue]
    split <;> rfl
  read i name key hc := by
    have hvalue : s.files.lookup (pathFor name key) = latest files₀ s.log name key :=
      h.values name key (h.stands i _ hc).plain
    simp only [State.step, hc, State.go, update_self, Call.next, hvalue]
  listed i name hc := by
    have hplain : Plain name := (h.stands i _ hc).plain
    refine ⟨keysIn s.files name, by simp only [State.step, hc, State.go, update_self, Call.next],
      fun key => ?_⟩
    rw [mem_keysIn hplain, ← h.values name key hplain]
    rfl

/-- From any files, of which a value and a file of the older format may be the whole value of a
put: what `get` answers is null, or the whole value of a put of that key of that store, or what an
earlier run left; the value of a key, which `get` and `keys` answer, is the one of its last change,
and only puts, removes and clears of its store change it, or an `open` that promotes the file of an
older format of a key without a value; a put that answered has changed it once, to its whole value,
which it is until another change; one that answered an error not at all, and one that died at most
once; and a call leaves every file outside its store's directory alone. -/
theorem keeps_whole_values (files₀ : Files) (turns : List Turn)
    (hsafe : Runs.Along State.step State.Safe (.new files₀) turns) :
    let s := Runs.run State.step (.new files₀) turns
    (∀ i name key value, s.calls i = some ⟨name, .get key, .ended (.value (some value))⟩ →
      (∃ ch ∈ s.log, ch.name = name ∧ ch.key = key ∧ ch.value = some value) ∨
        files₀.lookup (pathFor name key) = some value) ∧
    (∀ name key, Plain name → s.value name key = latest files₀ s.log name key) ∧
    Answers files₀ s ∧
    (∀ ch ∈ s.log, ∃ c, s.calls ch.call = some c ∧ c.Makes files₀ ch) ∧
    Fresh files₀ s.calls s.log ∧
    (∀ i name key value tag, s.calls i = some ⟨name, .put key value tag, .ended .ok⟩ →
      changesBy s.log i = [⟨i, name, key, some value⟩] ∧
      ∀ before after, s.log = before ++ ⟨i, name, key, some value⟩ :: after →
        (∀ ch ∈ after, ¬ (ch.name = name ∧ ch.key = key)) →
          latest files₀ s.log name key = some value) ∧
    (∀ i name key value tag, s.calls i = some ⟨name, .put key value tag, .ended .error⟩ →
      changesBy s.log i = []) ∧
    (∀ i name key value tag, s.calls i = some ⟨name, .put key value tag, .dead⟩ →
      changesBy s.log i = [] ∨ changesBy s.log i = [⟨i, name, key, some value⟩]) ∧
    (∀ i c seam path, s.calls i = some c → (∀ entry, path ≠ [stores, c.name, entry]) →
      (s.go i c seam).files.lookup path = s.files.lookup path) ∧
    ∀ path, (∀ name entry, path ≠ [stores, name, entry]) →
      s.files.lookup path = files₀.lookup path := by
  intro s
  have hnew : Kept files₀ (.new files₀) := by
    refine ⟨fun _ _ => rfl, fun _ _ _ _ hcontent => hcontent, fun _ _ _ => rfl,
      fun _ _ hc => (nomatch hc), fun _ hch => (List.not_mem_nil hch).elim,
      fun before ch after hlog => ?_, fun _ _ _ _ _ _ _ _ hc => (nomatch hc)⟩
    have hlog : [] = before ++ ch :: after := hlog
    simp at hlog
  have h : Kept files₀ s := Runs.run_invariant_along hnew (fun _ t hs ht => hs.step t ht) hsafe
  refine ⟨fun i name key value hc => (h.stands i _ hc).got key value rfl rfl, h.values, h.answers,
    h.made, h.fresh, fun i name key value tag hc => ⟨(h.stands i _ hc).counted, ?_⟩,
    fun i name key value tag hc => (h.stands i _ hc).counted,
    fun i name key value tag hc => (h.stands i _ hc).counted,
    fun i c seam path hc hpath => go_elsewhere (h.stands i c hc).plain seam hpath, h.outside⟩
  intro before after hlog hafter
  rw [hlog]
  exact latest_of_last hafter

/-- A writer's tag. -/
def zeroTag : Tag := ⟨List.replicate 16 '0', List.length_replicate, fun c hc => by
  rw [List.eq_of_mem_replicate hc]
  decide⟩

/-- Where a call is about to promote, the value is absent. -/
def promotesFresh (files : Files) : Call → Bool
  | ⟨name, .open_, .promoting entry _⟩ =>
    (files.lookup (directory name ++ [stem entry tempSuffix])).isNone
  | _ => true

theorem safe_go {s : State} {i : ℕ} {seam : Seam}
    (h : (s.calls i).all (promotesFresh s.files) = true) : s.Safe (.go i seam) := by
  intro name entry entries hc
  rw [hc] at h
  exact Option.isNone_iff_eq_none.1 h

/-- The file of the key 2 in the older format, whose value it is the only copy of. -/
def oldFormat : Files := AList.insert [stores, ['a'], valueName [2] ++ tempSuffix] [5] ∅

/-- An `open` that promotes it, a put of another key whose write is cut short and begins again, and
a read of either value. -/
def promoteAndPut : List Turn :=
  [.call 1 ['a'] (.put [1] [7, 8] zeroTag), .call 0 ['a'] .open_, .go 0 .returns, .go 0 .returns,
    .go 0 .returns, .go 0 .returns, .go 1 (.cut 1), .go 1 .returns, .go 1 .returns,
    .go 1 .returns, .go 1 .returns, .call 2 ['a'] (.get [1]), .go 2 .returns, .go 2 .returns,
    .call 3 ['a'] (.get [2]), .go 3 .returns]

theorem promoteAndPut_reads :
    let s := Runs.run State.step (.new oldFormat) promoteAndPut
    s.calls 2 = some ⟨['a'], .get [1], .ended (.value (some [7, 8]))⟩ ∧
    (∃ ch ∈ s.log, ch.name = ['a'] ∧ ch.key = [1] ∧ ch.value = some [7, 8]) ∧
    (s.step (.go 3 .returns)).calls 3 = some ⟨['a'], .get [2], .ended (.value (some [5]))⟩ := by
  intro s
  have hget : s.calls 2 = some ⟨['a'], .get [1], .ended (.value (some [7, 8]))⟩ := by
    decide +kernel
  have hreading : s.calls 3 = some ⟨['a'], .get [2], .reading⟩ := by decide +kernel
  have hlatest : latest oldFormat s.log ['a'] [2] = some [5] := by decide +kernel
  have hbefore : oldFormat.lookup (pathFor ['a'] [1]) ≠ some [7, 8] := by decide +kernel
  have hsafe : Runs.Along State.step State.Safe (.new oldFormat) promoteAndPut :=
    ⟨⟨by decide, by decide, fun _ _ _ _ _ _ _ hc => nomatch hc⟩, ⟨by decide, by decide, nofun⟩,
      safe_go (by decide +kernel), safe_go (by decide +kernel), safe_go (by decide +kernel),
      safe_go (by decide +kernel), safe_go (by decide +kernel), safe_go (by decide +kernel),
      safe_go (by decide +kernel), safe_go (by decide +kernel), safe_go (by decide +kernel),
      ⟨by decide, by decide, nofun⟩, safe_go (by decide +kernel), safe_go (by decide +kernel),
      ⟨by decide, by decide, nofun⟩, safe_go (by decide +kernel), trivial⟩
  obtain ⟨hgot, -, hanswers, -⟩ := keeps_whole_values oldFormat promoteAndPut hsafe
  refine ⟨hget, (hgot 2 ['a'] [1] [7, 8] hget).resolve_right hbefore, ?_⟩
  rw [hanswers.read 3 ['a'] [2] hreading]
  exact congrArg (fun v => some (Call.mk ['a'] (.get [2]) (.ended (.value v)))) hlatest

/-- A file of the application, and none of a store. -/
def settings : Files := AList.insert [['s']] [1] ∅

/-- The store called `..` is opened and cleared. -/
def clearDotdot : List Turn := [.call 0 ['.', '.'] .clear, .go 0 .returns, .go 0 .returns]

theorem dotdot_clears_outside :
    accepts ['.', '.'] = true ∧ (State.new settings).files.lookup [['s']] = some [1] ∧
    (Runs.run State.step (.new settings) clearDotdot).files.lookup [['s']] = none := by
  decide +kernel

/-- The `open` tests that the key has no value; a put of it is made and answers; the `open` renames
the file of the older format over it. -/
def promoteOverPut : List Turn :=
  [.call 0 ['a'] .open_, .go 0 .returns, .go 0 .returns, .call 1 ['a'] (.put [2] [7, 8] zeroTag),
    .go 1 .returns, .go 1 .returns, .go 1 .returns, .go 1 .returns, .go 0 .returns]

/-- A put that has answered is lost to a promotion, with no other put, remove or clear. -/
theorem promotion_loses_put :
    let s := Runs.run State.step (.new oldFormat) promoteOverPut
    s.calls 1 = some ⟨['a'], .put [2] [7, 8] zeroTag, .ended .ok⟩ ∧
      s.value ['a'] [2] = some [5] := by
  decide +kernel

end FileStore
end CrossByte
