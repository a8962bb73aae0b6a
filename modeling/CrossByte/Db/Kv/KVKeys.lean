import CrossByte.Errors

/-!
# KVKeys

Keys as every store orders and bounds them (`crossbyte/db/kv/_internal/KVKeys.hx`): by
code point.  A text is the list of its code points, as the targets that hold it so do.

A scan's bounds make one range, from a low key to a high one: no key holds
U+10FFFF, so a prefix followed by it is above every key that starts with the prefix;
and none holds a NUL, so a key followed by U+0001 is the first after it.

## Main results

* `compare_neg_iff`, `compare_eq_zero_iff`: `compare` is the lexicographic order.
* `mem_rangeOf_iff`: the range of a scan holds the keys its bounds name.
-/

namespace CrossByte

/-- A text, as the list of its code points. -/
abbrev Text := List (Fin 0x110000)

instance neZero_codes : NeZero (0x110000 : ℕ) := ⟨by decide⟩

namespace KVKeys

/-- U+10FFFF, which no key holds: above every key. -/
def END : Text := [Fin.last 0x10FFFF]

/-- U+0001: the least a key can go on with. -/
def SUCCESSOR : Text := [1]

/-- The message of a refused text. -/
def nul (what : String) : Thrown := .argumentError (what ++ " holds a NUL, which no key may.")

def surrogate (what : String) : Thrown :=
  .argumentError (what ++ " holds a surrogate that is not half of a pair, which has no UTF-8.")

def end_ (what : String) : Thrown :=
  .argumentError (what ++ " holds U+10FFFF, which no key may: the store keeps it to bound its scans.")

/-- `__utf8Size`: the size of a text in UTF-8, refusing a NUL, a surrogate and U+10FFFF. -/
def utf8Size (what : String) : Text → Except Thrown ℕ
  | [] => .ok 0
  | code :: rest =>
    if code.val = 0 then .error (nul what)
    else if 0xD800 ≤ code.val ∧ code.val < 0xE000 then .error (surrogate what)
    else if code.val = 0x10FFFF then .error (end_ what)
    else do
      let size ← utf8Size what rest
      return size + if code.val < 0x80 then 1 else if code.val < 0x800 then 2
        else if code.val < 0x10000 then 3 else 4

/-- `check`: refuses `text` as a key. -/
def check (text : Option Text) (maxBytes : ℕ) (what : String) (allowEmpty : Bool) :
    Except Thrown Unit :=
  match text with
  | none => .error (.argumentError (what ++ " is null."))
  | some [] =>
    if allowEmpty then .ok ()
    else .error (.argumentError (what ++ " is empty: a key is at least one character."))
  | some text => do
    let size ← utf8Size what text
    if maxBytes < size then
      .error (.argumentError (what ++ " is " ++ toString size ++
        " bytes in UTF-8, past the store's maxKeyBytes of " ++ toString maxBytes ++ "."))
    else .ok ()

/-- `compare`: negative when `a` comes first, 0 when they are equal. -/
def compare : Text → Text → ℤ
  | [], [] => 0
  | [], _ :: _ => -1
  | _ :: _, [] => 1
  | x :: a, y :: b => if x ≠ y then (if x < y then -1 else 1) else compare a b

def max (a b : Text) : Text := if 0 ≤ compare a b then a else b

def min (a b : Text) : Text := if compare a b ≤ 0 then a else b

/-- `KVScanOptions`. -/
structure ScanOptions where
  startsWith : Option Text := none
  startAt : Option Text := none
  startAfter : Option Text := none
  endBefore : Option Text := none
  limit : ℤ := 100
  includeTombstones : Bool := false

/-- `KVRange`: from `low`, inclusive, to `high`, exclusive. -/
structure Range where
  low : Text
  high : Text
  deriving DecidableEq

/-- A bound that was not given narrows nothing; one that was is checked and `narrow`s. -/
def bound (given : Option Text) (maxKeyBytes : ℕ) (what : String) (range : Range)
    (narrow : Text → Range → Range) : Except Thrown Range :=
  match given with
  | none => .ok range
  | some text => do
    check (some text) maxKeyBytes what true
    return narrow text range

/-- `rangeOf`, for a store with no prefix of its own; `none` when no key is in it. -/
def rangeOf (options : ScanOptions) (maxKeyBytes : ℕ) (maxScanLimit : ℤ) :
    Except Thrown (Option Range) := do
  if options.limit < 1 ∨ maxScanLimit < options.limit then
    .error (.argumentError ("A scan's limit is from 1 to the store's maxScanLimit of " ++
      toString maxScanLimit ++ ": " ++ toString options.limit ++ " is not."))
  else
    let range : Range := ⟨[], END⟩
    let range ← bound (options.startsWith.filter (· ≠ [])) maxKeyBytes "A scan's prefix" range
      fun text r => ⟨max r.low text, min r.high (text ++ END)⟩
    let range ← bound options.startAt maxKeyBytes "A scan's startAt" range
      fun text r => { r with low := max r.low text }
    let range ← bound options.startAfter maxKeyBytes "A scan's startAfter" range
      fun text r => { r with low := max r.low (text ++ SUCCESSOR) }
    let range ← bound options.endBefore maxKeyBytes "A scan's endBefore" range
      fun text r => { r with high := min r.high text }
    return if compare range.low range.high < 0 then some range else none

/-! ## The order -/

theorem compare_spec (a b : Text) : (compare a b < 0 ↔ a < b) ∧ (compare a b = 0 ↔ a = b) := by
  induction a generalizing b with
  | nil =>
    cases b with
    | nil => simp [compare]
    | cons y b => simp [compare]
  | cons x a ih =>
    cases b with
    | nil => simp [compare]
    | cons y b =>
      simp only [compare, List.cons_lt_cons_iff]
      by_cases hxy : x = y
      · subst hxy
        simpa using ih b
      · by_cases hlt : x < y
        · simp [hlt, hxy]
        · simp [hlt, hxy]

variable {a b k key : Text} {n : ℕ} {what : String}

theorem compare_neg_iff : compare a b < 0 ↔ a < b := (compare_spec a b).1

theorem compare_eq_zero_iff : compare a b = 0 ↔ a = b := (compare_spec a b).2

theorem max_le_iff : max a b ≤ k ↔ a ≤ k ∧ b ≤ k := by
  have h : 0 ≤ compare a b ↔ b ≤ a := by rw [← not_lt, compare_neg_iff, not_lt]
  simp only [max, h, ← max_def', sup_le_iff]

theorem lt_min_iff : k < min a b ↔ k < a ∧ k < b := by
  have h : compare a b ≤ 0 ↔ a ≤ b := by
    rw [le_iff_lt_or_eq, compare_neg_iff, compare_eq_zero_iff, le_iff_lt_or_eq]
  simp only [min, h, ← min_def, lt_inf_iff]

/-! ## Keys, and what bounds them -/

/-- What a key that passed `check` holds: at least one code point, none of them U+0000 or at or
past U+10FFFF. -/
def IsKey (key : Text) : Prop := key ≠ [] ∧ ∀ code ∈ key, 0 < code ∧ code < Fin.last 0x10FFFF

theorem lt_end (h : ∀ code ∈ key, code < Fin.last 0x10FFFF) : key < END := by
  cases key with
  | nil => exact List.nil_lt_cons _ _
  | cons x key => exact List.cons_lt_cons_iff.2 (.inl (h x List.mem_cons_self))

/-- The keys that start with `p` are those from `p` to `p` followed by U+10FFFF. -/
theorem startsWith_iff {p : Text} (h : ∀ code ∈ key, code < Fin.last 0x10FFFF) :
    p.isPrefixOf key = true ↔ p ≤ key ∧ key < p ++ END := by
  induction p generalizing key with
  | nil => simpa [← not_lt] using lt_end h
  | cons x p ih =>
    cases key with
    | nil => simp [← not_lt]
    | cons y key =>
      have hrest := ih fun code hc => h code (List.mem_cons_of_mem _ hc)
      rw [List.cons_append, List.cons_lt_cons_iff, ← not_lt, List.cons_lt_cons_iff]
      simp only [List.isPrefixOf, Bool.and_eq_true, beq_iff_eq]
      rw [hrest, ← not_lt]
      constructor
      · rintro ⟨rfl, h₁, h₂⟩
        exact ⟨by simp [h₁], .inr ⟨rfl, h₂⟩⟩
      · rintro ⟨h₁, h₂ | ⟨rfl, h₂⟩⟩
        · exact absurd (.inl h₂) h₁
        · exact ⟨rfl, fun h => h₁ (.inr ⟨rfl, h⟩), h₂⟩

/-- The first key after `a` is `a` followed by U+0001. -/
theorem after_iff (h : ∀ code ∈ key, 0 < code) : a ++ SUCCESSOR ≤ key ↔ a < key := by
  induction a generalizing key with
  | nil =>
    cases key with
    | nil => simp [SUCCESSOR]
    | cons y key =>
      have hy := h y List.mem_cons_self
      simp only [SUCCESSOR, List.nil_append, List.nil_lt_cons, iff_true, ← not_lt,
        List.cons_lt_cons_iff]
      rintro (hlt | ⟨-, hlt⟩)
      · omega
      · exact absurd hlt (List.not_lt_nil _)
  | cons x a ih =>
    cases key with
    | nil => simp [← not_lt]
    | cons y key =>
      have hrest := ih fun code hc => h code (List.mem_cons_of_mem _ hc)
      rw [List.cons_append, List.cons_lt_cons_iff, ← hrest, ← not_lt, List.cons_lt_cons_iff,
        ← not_lt]
      constructor
      · intro hn
        rcases lt_trichotomy x y with hlt | rfl | hgt
        · exact .inl hlt
        · exact .inr ⟨rfl, fun hlt => hn (.inr ⟨rfl, hlt⟩)⟩
        · exact absurd (.inl hgt) hn
      · rintro (hlt | ⟨rfl, hn⟩) (hgt | ⟨heq, hlt'⟩)
        · omega
        · omega
        · omega
        · exact hn hlt'

/-- What the bounds of a scan ask of a key. -/
def ScanOptions.Reads (options : ScanOptions) (key : Text) : Prop :=
  (∀ p ∈ options.startsWith, p.isPrefixOf key = true) ∧ (∀ a ∈ options.startAt, a ≤ key) ∧
    (∀ a ∈ options.startAfter, a < key) ∧ ∀ b ∈ options.endBefore, key < b

def Range.Holds (r : Range) (key : Text) : Prop := r.low ≤ key ∧ key < r.high

/-- A bound that was accepted narrows the range by what it asks. -/
theorem bound_holds_iff {given : Option Text} {range range' : Range} {narrow : Text → Range → Range}
    (key : Text) {P : Text → Prop} (h : bound given n what range narrow = .ok range')
    (hnarrow : ∀ text, (narrow text range).Holds key ↔ range.Holds key ∧ P text) :
    range'.Holds key ↔ range.Holds key ∧ ∀ text ∈ given, P text := by
  cases given with
  | none =>
    obtain rfl := Except.ok.inj h
    simp
  | some text =>
    simp only [bound] at h
    cases hc : check (some text) n what true with
    | error e => rw [hc] at h; cases h
    | ok u =>
      rw [hc] at h
      obtain rfl := Except.ok.inj h
      simp [hnarrow]

/-- The range of a scan holds the keys that its bounds name, and no others. -/
theorem mem_rangeOf_iff {options : ScanOptions} {m : ℤ} {range : Option Range}
    (h : rangeOf options n m = .ok range) (hkey : IsKey key) :
    options.Reads key ↔ ∃ r ∈ range, r.Holds key := by
  have hlt : ∀ code ∈ key, code < Fin.last 0x10FFFF := fun c hc => (hkey.2 c hc).2
  have hpos : ∀ code ∈ key, 0 < code := fun c hc => (hkey.2 c hc).1
  simp only [rangeOf] at h
  split at h
  · cases h
  simp only [bind, Except.bind] at h
  split at h
  · cases h
  next r₁ h₁ =>
  split at h
  · cases h
  next r₂ h₂ =>
  split at h
  · cases h
  next r₃ h₃ =>
  split at h
  · cases h
  next r₄ h₄ =>
  have h₁ := bound_holds_iff key (P := fun p => p.isPrefixOf key = true) h₁ fun p => by
    rw [startsWith_iff hlt]
    simp only [Range.Holds, max_le_iff, lt_min_iff]
    tauto
  have h₂ := bound_holds_iff key (P := fun a => a ≤ key) h₂ fun a => by
    simp only [Range.Holds, max_le_iff]
    tauto
  have h₃ := bound_holds_iff key (P := fun a => a < key) h₃ fun a => by
    rw [← after_iff hpos]
    simp only [Range.Holds, max_le_iff]
    tauto
  have h₄ := bound_holds_iff key (P := fun b => key < b) h₄ fun b => by
    simp only [Range.Holds, lt_min_iff]
    tauto
  have hall : (⟨[], END⟩ : Range).Holds key :=
    ⟨not_lt.1 (List.not_lt_nil _), lt_end hlt⟩
  -- an empty prefix narrows nothing, and every key starts with it
  have hempty : (∀ p ∈ options.startsWith.filter (· ≠ []), p.isPrefixOf key = true) ↔
      ∀ p ∈ options.startsWith, p.isPrefixOf key = true := by
    cases options.startsWith with
    | none => simp
    | some p => cases p <;> simp [Option.filter]
  have hreads : r₄.Holds key ↔ options.Reads key := by
    rw [h₄, h₃, h₂, h₁, ScanOptions.Reads, hempty]
    tauto
  obtain rfl := Except.ok.inj h
  rw [← hreads]
  split
  · simp
  · next hge =>
    have hge : r₄.high ≤ r₄.low := not_lt.1 fun hlt => hge (compare_neg_iff.2 hlt)
    simpa [Range.Holds] using fun h => hge.trans h

/-- A text that passes `check` as a key is one. -/
theorem isKey_of_check (h : check (some key) n what false = .ok ()) : IsKey key := by
  have hsize : ∀ (text : Text) (m : ℕ), utf8Size what text = .ok m →
      ∀ code ∈ text, code.val ≠ 0 ∧ code.val ≠ 0x10FFFF := by
    intro text
    induction text with
    | nil => simp
    | cons x text ih =>
      intro m hm
      rw [utf8Size] at hm
      split at hm
      · cases hm
      split at hm
      · cases hm
      split at hm
      · cases hm
      rename_i h0 _ he
      cases hr : utf8Size what text with
      | error e => rw [hr] at hm; cases hm
      | ok size =>
        intro code hc
        rcases List.mem_cons.1 hc with rfl | hc
        · exact ⟨h0, he⟩
        · exact ih size hr code hc
  cases key with
  | nil => simp [check] at h
  | cons x key =>
    simp only [check] at h
    cases hr : utf8Size what (x :: key) with
    | error e => rw [hr] at h; cases h
    | ok size =>
      refine ⟨by simp, fun code hc => ?_⟩
      have h₁ := hsize _ _ hr code hc
      simp only [Fin.lt_def, Fin.val_last]
      omega

end KVKeys

end CrossByte
