import CrossByte.Lib.Bytes
import CrossByte.Lib.Runs
import Mathlib.Data.List.AList

/-!
# The file store

`FileStore` keeps each key of a store in a file of its own, named by the hexadecimal digits of the
key in `stores/<name>`.  A `put` writes a temporary file that only it writes, and renames it over
the value; `open` deletes the temporaries it finds, but for one of an older format, which it
promotes; `clear` deletes all it finds.

A `Turn` starts a call, lets the file operation a call has come to return or fail, cuts a write
short, or lets the process of a call die.  So a list of turns is any interleaving of any number of
calls, with a crash at any point.  Renames and deletes happen at once.  Paths are those of a POSIX
filesystem, relative to the application's storage directory; a key is given by the UTF-8 bytes of a
well-formed string.

Every change of a value is in `log`, with the call that made it.  Nothing reads it.
-/

namespace CrossByte

namespace FileStore

open Bytes (Byte)

/-! ## Names -/

/-- A name in a directory. -/
abbrev Name := List Char

/-- A path, from the storage directory down. -/
abbrev Path := List Name

abbrev Key := List Byte

abbrev Content := List Byte

/-- A digit of `Bytes.toHex`. -/
def hexDigit (n : Fin 16) : Char :=
  ['0', '1', '2', '3', '4', '5', '6', '7', '8', '9', 'a', 'b', 'c', 'd', 'e', 'f'].get n

/-- The value of such a digit. -/
def digitOf (c : Char) : Option (Fin 16) := (List.finRange 16).find? fun n => hexDigit n = c

def highDigit (b : Byte) : Fin 16 := ⟨b.toNat / 16, by omega⟩

def lowDigit (b : Byte) : Fin 16 := ⟨b.toNat % 16, by omega⟩

/-- `Bytes.toHex`. -/
def toHex : Key → Name
  | [] => []
  | b :: key => hexDigit (highDigit b) :: hexDigit (lowDigit b) :: toHex key

/-- `__decode`: nothing but an even number of such digits is a key. -/
def decode : Name → Option Key
  | [] => some []
  | [_] => none
  | a :: b :: rest =>
    match digitOf a, digitOf b, decode rest with
    | some high, some low, some key => some (BitVec.ofNat 8 (16 * high + low) :: key)
    | _, _, _ => none

def entrySuffix : Name := ['.', 'v', 'a', 'l', 'u', 'e']

def tempSuffix : Name := ['.', 'w', 'r', 'i', 't', 'i', 'n', 'g']

def valueName (key : Key) : Name := toHex key ++ entrySuffix

/-- The name without its last characters. -/
def stem (entry suffix : Name) : Name := entry.take (entry.length - suffix.length)

/-- The key of an entry of a directory, if it is the file of one. -/
def keyOf (entry : Name) : Option Key :=
  if entrySuffix <:+ entry then decode (stem entry entrySuffix) else none

/-- A digit of `StringTools.hex`. -/
def upperDigits : List Char :=
  ['0', '1', '2', '3', '4', '5', '6', '7', '8', '9', 'A', 'B', 'C', 'D', 'E', 'F']

/-- `__writerTag`: sixteen digits. -/
structure Tag where
  digits : Name
  length_eq : digits.length = 16
  upper : ∀ c ∈ digits, c ∈ upperDigits
  deriving DecidableEq

def tempName (key : Key) (tag : Tag) : Name := valueName key ++ '.' :: tag.digits ++ tempSuffix

section Names

variable {key key' : Key} {tag tag' : Tag} {entry : Name}

theorem digitOf_hexDigit : ∀ n, digitOf (hexDigit n) = some n := by decide

theorem hexDigit_ne_dot : ∀ n, hexDigit n ≠ '.' := by decide

theorem hexDigit_of_digitOf {c : Char} {n : Fin 16} (h : digitOf c = some n) : hexDigit n = c := by
  have := List.find?_some h
  exact of_decide_eq_true this

theorem decode_toHex (key : Key) : decode (toHex key) = some key := by
  induction key with
  | nil => rfl
  | cons b key ih =>
    have hb : BitVec.ofNat 8 (16 * (highDigit b : ℕ) + (lowDigit b : ℕ)) = b := by
      apply BitVec.eq_of_toNat_eq
      simp only [highDigit, lowDigit, BitVec.toNat_ofNat]
      omega
    simp only [toHex, decode, digitOf_hexDigit, ih, hb]

theorem toHex_of_decode (h : decode entry = some key) : toHex key = entry := by
  fun_induction decode entry generalizing key with
  | case1 => rw [← Option.some.inj h]; rfl
  | case2 => cases h
  | case3 a b rest high low key' hrest hhigh hlow ih =>
    rw [← Option.some.inj h, toHex, ih hrest]
    have hh : highDigit (BitVec.ofNat 8 (16 * (high : ℕ) + (low : ℕ))) = high := by
      apply Fin.ext
      simp only [highDigit, BitVec.toNat_ofNat]
      omega
    have hl : lowDigit (BitVec.ofNat 8 (16 * (high : ℕ) + (low : ℕ))) = low := by
      apply Fin.ext
      simp only [lowDigit, BitVec.toNat_ofNat]
      omega
    rw [hh, hl, hexDigit_of_digitOf hhigh, hexDigit_of_digitOf hlow]
  | case4 => cases h

theorem stem_append (front suffix : Name) : stem (front ++ suffix) suffix = front := by
  simp [stem]

theorem keyOf_eq_some_iff : keyOf entry = some key ↔ entry = valueName key := by
  unfold keyOf
  constructor
  · intro h
    split at h
    · rename_i hsuffix
      obtain ⟨front, rfl⟩ := hsuffix
      rw [stem_append] at h
      rw [valueName, toHex_of_decode h]
    · cases h
  · rintro rfl
    rw [valueName, if_pos (List.suffix_append _ _), stem_append, decode_toHex]

theorem valueName_injective (h : valueName key = valueName key') : key = key' :=
  Option.some.inj ((keyOf_eq_some_iff.2 rfl).symm.trans (keyOf_eq_some_iff.2 h))

theorem getLast?_of_suffix {suffix : Name} {c : Char} (h : suffix <:+ entry)
    (hlast : suffix.getLast? = some c) : entry.getLast? = some c := by
  obtain ⟨front, rfl⟩ := h
  rw [List.getLast?_append, hlast]
  rfl

theorem tempSuffix_suffix_tempName : tempSuffix <:+ tempName key tag := ⟨_, rfl⟩

theorem not_both_suffixes (hvalue : entrySuffix <:+ entry) : ¬ tempSuffix <:+ entry := by
  intro htemp
  have hlast : entry.getLast? = some 'e' := getLast?_of_suffix hvalue rfl
  have hlast' : entry.getLast? = some 'g' := getLast?_of_suffix htemp rfl
  exact absurd (hlast.symm.trans hlast') (by decide)

/-- A temporary is no value. -/
theorem keyOf_of_tempSuffix (h : tempSuffix <:+ entry) : keyOf entry = none := by
  rw [keyOf, if_neg]
  exact fun hvalue => not_both_suffixes hvalue h

theorem keyOf_tempName : keyOf (tempName key tag) = none :=
  keyOf_of_tempSuffix tempSuffix_suffix_tempName

theorem stem_tempName : stem (tempName key tag) tempSuffix = valueName key ++ '.' :: tag.digits :=
  stem_append _ _

/-- A writer's temporary is not of the older format, whose stem is a value's name. -/
theorem not_entrySuffix_stem : ¬ entrySuffix <:+ stem (tempName key tag) tempSuffix := by
  rw [stem_tempName]
  intro h
  have hlast := getLast?_of_suffix h (c := 'e') rfl
  have hmem : 'e' ∈ tag.digits := by
    rw [List.getLast?_append, List.getLast?_cons] at hlast
    cases hdigits : tag.digits.getLast? with
    | none => simp [hdigits] at hlast
    | some c =>
      obtain rfl : c = 'e' := by simpa [hdigits] using hlast
      exact List.mem_of_getLast? hdigits
  exact absurd (tag.upper _ hmem) (by decide)

theorem toHex_ne_dot : ∀ c ∈ toHex key, c ≠ '.' := by
  induction key with
  | nil => simp [toHex]
  | cons b key ih =>
    intro c hc
    simp only [toHex, List.mem_cons] at hc
    rcases hc with rfl | rfl | hc
    · exact hexDigit_ne_dot _
    · exact hexDigit_ne_dot _
    · exact ih c hc

theorem takeWhile_tempName (key : Key) (tag : Tag) :
    (tempName key tag).takeWhile (fun c => decide (c ≠ '.')) = toHex key := by
  rw [tempName, valueName, List.append_assoc, List.append_assoc,
    List.takeWhile_append_of_pos fun c hc => by simpa using toHex_ne_dot c hc]
  simp [entrySuffix]

theorem tempName_injective (h : tempName key tag = tempName key' tag') :
    key = key' ∧ tag = tag' := by
  have hkey : key = key' := by
    have hhex : toHex key = toHex key' := by
      rw [← takeWhile_tempName key tag, h, takeWhile_tempName]
    exact Option.some.inj ((decode_toHex key).symm.trans (hhex ▸ decode_toHex key'))
  subst hkey
  obtain ⟨digits, _, _⟩ := tag
  obtain ⟨digits', _, _⟩ := tag'
  simpa [tempName] using h

end Names

/-! ## Directories -/

/-- `Path.normalize`. -/
def normalize (path : Path) : Path :=
  path.foldl (fun done part =>
    if part = [] ∨ part = ['.'] then done
    else if part = ['.', '.'] then done.dropLast
    else done ++ [part]) []

/-- The directory of all stores. -/
def stores : Name := ['s', 't', 'o', 'r', 'e', 's']

/-- `directory` of a store. -/
def directory (name : Name) : Path := normalize [stores, name]

/-- The characters of a store's name. -/
def nameChar (c : Char) : Bool := c.isAlphanum || c ∈ ['.', '_', '-']

/-- What `Store.open` accepts. -/
def accepts (name : Name) : Bool := name ≠ [] && name.all nameChar

/-- The files, each with its bytes. -/
abbrev Files := AList fun _ : Path => Content

def readDirectory (files : Files) (directory : Path) : List Name :=
  files.keys.filterMap fun path =>
    if path.dropLast = directory then path.getLast? else none

/-- `keys` of a store, in the files there are. -/
def keysIn (files : Files) (name : Name) : List Key :=
  (readDirectory files (directory name)).filterMap keyOf

def pathFor (name : Name) (key : Key) : Path := directory name ++ [valueName key]

/-- The path of a writer's temporary file. -/
def temporary (name : Name) (key : Key) (tag : Tag) : Path := directory name ++ [tempName key tag]

/-! ## Calls -/

inductive Op
  | open_
  | get (key : Key)
  | put (key : Key) (value : Content) (tag : Tag)
  | remove (key : Key)
  | keys
  | clear
  deriving DecidableEq

inductive Answer
  | ok
  | value (value : Option Content)
  | listed (keys : List Key)
  | error
  deriving DecidableEq

/-- The file operation a call has come to. -/
inductive Point
  /-- The first: of `put` the write of its temporary, of the others a listing or a test. -/
  | start
  /-- `get`: the read. -/
  | reading
  /-- `put`: the flush, the rename, the flush of the directory, and the delete after a failure. -/
  | syncing
  | replacing
  | flushing
  | undoing
  /-- `remove`: the delete. -/
  | deleting
  /-- `open`: a look at the next entry, the promotion of one, and its delete. -/
  | sweeping (entries : List Name)
  | promoting (entry : Name) (entries : List Name)
  | discarding (entry : Name) (entries : List Name)
  /-- `clear`: the delete of the next entry. -/
  | clearing (entries : List Name)
  | ended (answer : Answer)
  /-- The process died. -/
  | dead
  deriving DecidableEq

/-- A call of the store `name`. -/
structure Call where
  name : Name
  op : Op
  point : Point
  deriving DecidableEq

/-- What a file operation does: it returns, it fails and does nothing, or, a write, it has got so
far. -/
inductive Seam
  | returns
  | fails
  | cut (length : ℕ)

/-- What is done to the files. -/
inductive Act
  | idle
  | save (path : Path) (content : Content)
  | delete (path : Path)
  | rename (old new : Path)

/-- The files afterwards. -/
def Act.run (files : Files) : Act → Files
  | .idle => files
  | .save path content => files.insert path content
  | .delete path => files.erase path
  | .rename old new =>
    match files.lookup old with
    | some content => (files.erase old).insert new content
    | none => files

/-- The file operation of a call: what it does to the files, and where the call is then. -/
def Call.next (c : Call) (files : Files) (seam : Seam) : Act × Point :=
  match c.point, c.op, seam with
  | .start, .put key value tag, .cut length =>
    (.save (temporary c.name key tag) (value.take length), .start)
  | .start, .put key value tag, .returns => (.save (temporary c.name key tag) value, .syncing)
  | .start, .put _ _ _, .fails => (.idle, .undoing)
  | .syncing, .put _ _ _, .returns => (.idle, .replacing)
  | .syncing, .put _ _ _, _ => (.idle, .undoing)
  | .replacing, .put key _ tag, .returns =>
    if (files.lookup (temporary c.name key tag)).isSome then
      (.rename (temporary c.name key tag) (pathFor c.name key), .flushing)
    else (.idle, .undoing)
  | .replacing, .put _ _ _, _ => (.idle, .undoing)
  | .flushing, .put _ _ _, _ => (.idle, .ended .ok)
  | .undoing, .put key _ tag, .returns => (.delete (temporary c.name key tag), .ended .error)
  | .undoing, .put _ _ _, _ => (.idle, .ended .error)
  | .start, .get key, .returns =>
    if (files.lookup (pathFor c.name key)).isSome then (.idle, .reading)
    else (.idle, .ended (.value none))
  | .reading, .get key, .returns => (.idle, .ended (.value (files.lookup (pathFor c.name key))))
  | .start, .remove key, .returns =>
    if (files.lookup (pathFor c.name key)).isSome then (.idle, .deleting) else (.idle, .ended .ok)
  | .deleting, .remove key, .returns =>
    if (files.lookup (pathFor c.name key)).isSome then (.delete (pathFor c.name key), .ended .ok)
    else (.idle, .ended .error)
  | .start, .keys, .returns => (.idle, .ended (.listed (keysIn files c.name)))
  | .start, .clear, .returns => (.idle, .clearing (readDirectory files (directory c.name)))
  | .clearing [], .clear, _ => (.idle, .ended .ok)
  | .clearing (entry :: entries), .clear, .returns =>
    (.delete (directory c.name ++ [entry]), .clearing entries)
  | .clearing (_ :: entries), .clear, _ => (.idle, .clearing entries)
  | .start, .open_, .returns => (.idle, .sweeping (readDirectory files (directory c.name)))
  | .sweeping [], .open_, _ => (.idle, .ended .ok)
  | .sweeping (entry :: entries), .open_, _ =>
    if ¬ tempSuffix <:+ entry then (.idle, .sweeping entries)
    else if entrySuffix <:+ stem entry tempSuffix ∧
        (files.lookup (directory c.name ++ [stem entry tempSuffix])).isNone then
      (.idle, .promoting entry entries)
    else (.idle, .discarding entry entries)
  | .promoting entry entries, .open_, .returns =>
    if (files.lookup (directory c.name ++ [entry])).isSome then
      (.rename (directory c.name ++ [entry]) (directory c.name ++ [stem entry tempSuffix]),
        .sweeping entries)
    else (.idle, .discarding entry entries)
  | .promoting entry entries, .open_, _ => (.idle, .discarding entry entries)
  | .discarding entry entries, .open_, .returns =>
    (.delete (directory c.name ++ [entry]), .sweeping entries)
  | .discarding _ entries, .open_, _ => (.idle, .sweeping entries)
  | .start, _, _ | .reading, _, _ | .deleting, _, _ => (.idle, .ended .error)
  | point, _, _ => (.idle, point)

/-- A change of a value, and the call that made it. -/
structure Change where
  call : ℕ
  name : Name
  key : Key
  value : Option Content
  deriving DecidableEq

/-- The path an operation leaves otherwise, unless it is a write of a temporary. -/
def Act.target : Act → Option Path
  | .idle | .save _ _ => none
  | .delete path | .rename _ path => some path

/-- The key of a store whose file a path is. -/
def keyAt (name : Name) (path : Path) : Option Key :=
  if path.dropLast = directory name then path.getLast?.bind keyOf else none

/-- The files, the calls, and what became of the values. -/
structure State where
  files : Files
  calls : ℕ → Option Call
  log : List Change

inductive Turn
  | call (i : ℕ) (name : Name) (op : Op)
  | go (i : ℕ) (seam : Seam)
  | die (i : ℕ)

namespace State

variable (s : State)

def value (name : Name) (key : Key) : Option Content := s.files.lookup (pathFor name key)

def go (i : ℕ) (c : Call) (seam : Seam) : State :=
  let (act, point) := c.next s.files seam
  let files := act.run s.files
  { files
    calls := Function.update s.calls i (some { c with point })
    log := s.log ++ ((act.target.bind fun path => (keyAt c.name path).map fun key =>
      (⟨i, c.name, key, files.lookup path⟩ : Change)).toList) }

def step (s : State) : Turn → State
  | .call i name op =>
    if s.calls i = none ∧ accepts name = true then
      { s with calls := Function.update s.calls i (some ⟨name, op, .start⟩) }
    else s
  | .go i seam =>
    match s.calls i with
    | some c => s.go i c seam
    | none => s
  | .die i =>
    match s.calls i with
    | some ⟨_, _, .ended _⟩ => s
    | some c => { s with calls := Function.update s.calls i (some { c with point := .dead }) }
    | none => s

/-- The name of a call is a directory's own, no two puts of one key draw one tag, and what `open`
promotes is no value's yet: no put has come in between its test and its rename. -/
def Safe : Turn → Prop
  | .call _ name op => name ≠ ['.'] ∧ name ≠ ['.', '.'] ∧
      ∀ key value tag, op = .put key value tag →
        ∀ j d value', s.calls j = some d → d.name = name → d.op ≠ .put key value' tag
  | .go i _ => ∀ name entry entries, s.calls i = some ⟨name, .open_, .promoting entry entries⟩ →
      s.files.lookup (directory name ++ [stem entry tempSuffix]) = none
  | .die _ => True

end State

end FileStore
end CrossByte
