import CrossByte.Lib.ProbeTable
import CrossByte.Lib.WrappingInt
import CrossByte.System.Timer.TimerBook

/-!
# The table of live timers

`crossbyte._internal.system.timer.TimerTable` holds a scheduler's live timers by handle: open
addressing in `2 ^ bits` places, at most half of them taken, with the handle's Fibonacci hash for
its home and the entries after one removed pulled back over its place.  The books of both
schedulers have a function in its place; `Represents` says that the table is that function, and
every operation keeps it, as long as the table has room to grow: the code counts places in 32-bit
`Int`s.

A handle below zero, which no timer is given, is turned away before the table is looked at.

## Main results

* `Represents.get`, `Represents.add`, `Represents.remove`: the table is a function of handles,
  and `run_represents`, after every run;
* `Represents.create`, `Represents.retire`: it holds the live timers of a sound book as they are
  armed and retired, `MAX_TIMERS` leaving it room to grow.
-/

namespace CrossByte

open ProbeTable Function

/-- `TimerTable`; a place that is `none` holds `INVALID`. -/
structure TimerTable (T : Type*) where
  slots : ℕ → Option (ℕ × T) := fun _ => none
  bits : ℕ := 4
  size : ℕ := 0

namespace TimerTable

variable {T : Type*}

def capacity (t : TimerTable T) : ℕ := 2 ^ t.bits

def home (bits handle : ℕ) : ℕ := handle * 0x9E3779B1 % 2 ^ 32 / 2 ^ (32 - bits)

def get (t : TimerTable T) (handle : ℕ) : Option T :=
  match find t.capacity t.slots handle t.capacity (home t.bits handle) with
  | none => none
  | some i => (t.slots i).map Prod.snd

def place (bits : ℕ) (slots : ℕ → Option (ℕ × T)) (e : ℕ × T) : ℕ → Option (ℕ × T) :=
  Function.update slots (free (2 ^ bits) slots (2 ^ bits) (home bits e.1)) (some e)

/-- One place of `__grow`'s loop. -/
def regrow (t : TimerTable T) (slots : ℕ → Option (ℕ × T)) (i : ℕ) : ℕ → Option (ℕ × T) :=
  match t.slots i with
  | none => slots
  | some e => place (t.bits + 1) slots e

def grow (t : TimerTable T) : TimerTable T :=
  { t with slots := (List.range t.capacity).foldl t.regrow fun _ => none, bits := t.bits + 1 }

/-- A table of `2 ^ 30` places cannot grow: `__allocate` would ask for `1 << 31`, which is negative,
and throw.  The step is not modelled, and `grows_past_int` says when a run comes to it. -/
def add (t : TimerTable T) (handle : ℕ) (value : T) : TimerTable T :=
  let t := if t.capacity < (t.size + 1) * 2 then t.grow else t
  { t with slots := place t.bits t.slots (handle, value), size := t.size + 1 }

def remove (t : TimerTable T) (handle : ℕ) : Bool × TimerTable T :=
  match find t.capacity t.slots handle t.capacity (home t.bits handle) with
  | none => (false, t)
  | some i =>
    (true, { t with
      slots := close (home t.bits) t.capacity t.capacity t.slots i i, size := t.size - 1 })

theorem home_lt {bits : ℕ} (hbits : bits ≤ 32) (handle : ℕ) : home bits handle < 2 ^ bits := by
  unfold home
  rw [Nat.div_lt_iff_lt_mul (Nat.two_pow_pos _), ← Nat.pow_add, Nat.add_sub_cancel' hbits]
  exact Nat.mod_lt _ (Nat.two_pow_pos _)

/-- The places taken. -/
def taken (bits : ℕ) (slots : ℕ → Option (ℕ × T)) : Finset ℕ :=
  (Finset.range (2 ^ bits)).filter fun i => (slots i).isSome = true

theorem mem_taken {bits : ℕ} {slots : ℕ → Option (ℕ × T)} {i : ℕ} :
    i ∈ taken bits slots ↔ i < 2 ^ bits ∧ (slots i).isSome = true := by
  rw [taken, Finset.mem_filter, Finset.mem_range]

/-- The places hold the entries of `held`, `size` of them. -/
structure Stored (bits : ℕ) (slots : ℕ → Option (ℕ × T)) (held : ℕ × T → Prop) (size : ℕ) :
    Prop where
  probed : Probed (home bits) (2 ^ bits) slots
  holds : ∀ e, Holds (2 ^ bits) slots e ↔ held e
  count : (taken bits slots).card = size

variable {bits size : ℕ} {slots : ℕ → Option (ℕ × T)} {held : ℕ × T → Prop} {e : ℕ × T}

theorem stored_empty (bits : ℕ) :
    Stored bits (fun _ => (none : Option (ℕ × T))) (fun _ => False) 0 where
  probed := ⟨nofun, nofun, ⟨0, Nat.two_pow_pos bits, rfl⟩⟩
  holds _ := ⟨fun ⟨_, _, h⟩ => (Option.some_ne_none _ h.symm).elim, False.elim⟩
  count := by
    rw [Finset.card_eq_zero, Finset.eq_empty_iff_forall_notMem]
    intro i hi
    cases (mem_taken.1 hi).2

/-- **`__place`** holds one entry more. -/
theorem Stored.place (hs : Stored bits slots held size) (hbits : bits ≤ 32)
    (hroom : size + 1 < 2 ^ bits) (hnew : ∀ f, held f → f.1 ≠ e.1) :
    Stored bits (place bits slots e) (fun f => f = e ∨ held f) (size + 1) := by
  obtain ⟨i, hi, hfree, hnone, hprobed, hholds⟩ := hs.probed.insert (home_lt hbits e.1)
    fun f hf => hnew f ((hs.holds f).1 hf)
  unfold TimerTable.place
  rw [hfree]
  have htaken : taken bits (update slots i (some e)) = insert i (taken bits slots) := by
    ext j
    rw [Finset.mem_insert, mem_taken, mem_taken]
    by_cases hji : j = i
    · simp [hji, hi]
    · simp [hji]
  have hnot : i ∉ taken bits slots := fun hmem => by
    have := (mem_taken.1 hmem).2
    rw [hnone] at this
    cases this
  refine ⟨hprobed ?_, fun f => ?_, ?_⟩
  · -- were every other place taken, there would be more entries than there are
    by_contra hfull
    push Not at hfull
    have hall : (Finset.range (2 ^ bits)).erase i ⊆ taken bits slots := by
      intro j hj
      obtain ⟨hne, hlt⟩ := Finset.mem_erase.1 hj
      refine mem_taken.2 ⟨Finset.mem_range.1 hlt, ?_⟩
      exact Option.isSome_iff_ne_none.2 (hfull j (Finset.mem_range.1 hlt) hne)
    have hcard := Finset.card_le_card hall
    rw [Finset.card_erase_of_mem (Finset.mem_range.2 hi), Finset.card_range, hs.count] at hcard
    omega
  · rw [hholds f, hs.holds f]
  · rw [htaken, Finset.card_insert_of_notMem hnot, hs.count]

/-- The table is the function `f`. -/
structure Represents (t : TimerTable T) (f : ℕ → Option T) : Prop where
  bits : t.bits ≤ 30
  stored : Stored t.bits t.slots (fun e => f e.1 = some e.2) t.size
  half : t.size * 2 ≤ t.capacity

variable {t : TimerTable T} {f : ℕ → Option T}

section

variable (ht : Represents t f)

include ht

/-- **`get`** is the function. -/
theorem Represents.get (handle : ℕ) : t.get handle = f handle := by
  have hbits := ht.bits
  have hfind := fun i => ht.stored.probed.find_eq_some_iff (a := handle) (i := i)
    (home_lt (by omega) handle)
  unfold TimerTable.get TimerTable.capacity
  split
  · rename_i hnone
    cases hf : f handle with
    | none => rfl
    | some value =>
      obtain ⟨i, hi, he⟩ := (ht.stored.holds (handle, value)).2 hf
      cases hnone.symm.trans ((hfind i).2 ⟨hi, _, he, rfl⟩)
  · rename_i i hsome
    obtain ⟨hi, e, he, rfl⟩ := (hfind i).1 hsome
    rw [he]
    exact ((ht.stored.holds e).1 ⟨i, hi, he⟩).symm

/-- **`__grow`** holds what was held, in twice the places. -/
theorem Represents.grow : Stored (t.bits + 1) t.grow.slots (fun e => f e.1 = some e.2) t.size := by
  have hbits := ht.bits
  have hhalf := ht.half
  unfold TimerTable.capacity at hhalf
  have hloop : ∀ n ≤ 2 ^ t.bits, Stored (t.bits + 1)
      ((List.range n).foldl t.regrow fun _ => none) (fun e => ∃ i < n, t.slots i = some e)
      ((Finset.range n).filter fun i => (t.slots i).isSome = true).card := by
    intro n
    induction n with
    | zero =>
      intro _
      refine { stored_empty (t.bits + 1) with holds := fun e => ?_ }
      exact ((stored_empty (t.bits + 1)).holds e).trans
        (iff_of_false id fun ⟨i, hi, _⟩ => Nat.not_lt_zero i hi)
    | succ n ih =>
      intro hn
      have hstored := ih (by omega)
      rw [List.range_succ, List.foldl_append, List.foldl_cons, regrow,
        Finset.range_add_one, Finset.filter_insert]
      cases hslot : t.slots n with
      | none =>
        refine { hstored with holds := fun e => (hstored.holds e).trans ?_ }
        constructor
        · rintro ⟨i, hi, he⟩
          exact ⟨i, by omega, he⟩
        · rintro ⟨i, hi, he⟩
          rcases Nat.lt_succ_iff_lt_or_eq.1 hi with hlt | rfl
          · exact ⟨i, hlt, he⟩
          · cases hslot.symm.trans he
      | some e =>
        rw [if_pos (by simp), Finset.card_insert_of_notMem (by simp)]
        have hsub : ((Finset.range n).filter fun i => (t.slots i).isSome = true) ⊆
            taken t.bits t.slots := by
          intro i hi
          obtain ⟨hi', hsome⟩ := Finset.mem_filter.1 hi
          exact mem_taken.2 ⟨by have := Finset.mem_range.1 hi'; omega, hsome⟩
        have hcard := Finset.card_le_card hsub
        rw [ht.stored.count] at hcard
        have hplaced := hstored.place (e := e) (by omega) (by omega) fun e' he' hkey => by
          obtain ⟨i, hi, hslot'⟩ := he'
          have := ht.stored.probed.unique i (by omega) n (by omega) e' e hslot' hslot hkey
          omega
        refine { hplaced with holds := fun e' => (hplaced.holds e').trans ?_ }
        constructor
        · rintro (rfl | ⟨i, hi, he⟩)
          · exact ⟨n, by omega, hslot⟩
          · exact ⟨i, by omega, he⟩
        · rintro ⟨i, hi, he⟩
          rcases Nat.lt_succ_iff_lt_or_eq.1 hi with hlt | rfl
          · exact .inr ⟨i, hlt, he⟩
          · exact .inl (Option.some.inj (hslot.symm.trans he)).symm
  have hall := hloop (2 ^ t.bits) le_rfl
  refine ⟨hall.probed, fun e => (hall.holds e).trans ?_, hall.count.trans ht.stored.count⟩
  exact ht.stored.holds e

/-- **`add`** holds one timer more, under a handle that is not held. -/
theorem Represents.add {handle : ℕ} (value : T) (hnew : f handle = none) (hsize : t.size < 2 ^ 29) :
    Represents (t.add handle value) (update f handle (some value)) := by
  have hbits := ht.bits
  have hhalf := ht.half
  have hfresh : ∀ e : ℕ × T, f e.1 = some e.2 → e.1 ≠ (handle, value).1 := by
    rintro e he heq
    rw [heq] at he
    cases hnew.symm.trans he
  have hupdate : ∀ e : ℕ × T, e = (handle, value) ∨ f e.1 = some e.2 ↔
      update f handle (some value) e.1 = some e.2 := by
    rintro ⟨h, v⟩
    by_cases hh : h = handle
    · subst hh
      simp [hnew, eq_comm]
    · simp [hh]
  have hstored : ∀ (b : ℕ) (s : ℕ → Option (ℕ × T)), b ≤ 30 → (t.size + 1) * 2 ≤ 2 ^ b →
      Stored b s (fun e => f e.1 = some e.2) t.size →
      Represents { slots := place b s (handle, value), bits := b, size := t.size + 1 }
        (update f handle (some value)) := by
    intro b s hb hroom hs
    have hplaced := hs.place (by omega) (by omega) hfresh
    exact ⟨hb, { hplaced with holds := fun e => (hplaced.holds e).trans (hupdate e) }, hroom⟩
  unfold TimerTable.add
  unfold TimerTable.capacity at hhalf ⊢
  by_cases hfull : 2 ^ t.bits < (t.size + 1) * 2
  · rw [if_pos hfull]
    have hpos := Nat.two_pow_pos t.bits
    have hsmall : t.bits < 30 := by
      by_contra hnot
      have : t.bits = 30 := by omega
      rw [this] at hfull
      omega
    exact hstored (t.bits + 1) t.grow.slots (by omega) (by omega) ht.grow
  · rw [if_neg hfull]
    exact hstored t.bits t.slots hbits (by omega) ht.stored

/-- **`remove`** lets go of the timer, and answers whether it was held. -/
theorem Represents.remove (handle : ℕ) :
    (t.remove handle).1 = (f handle).isSome ∧
      Represents (t.remove handle).2 (update f handle none) ∧
      (t.remove handle).2.size = if (f handle).isSome then t.size - 1 else t.size := by
  have hbits := ht.bits
  have hget := ht.get handle
  have hfind := fun i => ht.stored.probed.find_eq_some_iff (a := handle) (i := i)
    (home_lt (by omega) handle)
  unfold TimerTable.get TimerTable.capacity at hget
  unfold TimerTable.remove TimerTable.capacity
  split
  · rename_i hnone
    rw [hnone] at hget
    have hf : f handle = none := hget.symm
    rw [hf]
    have hsame : update f handle none = f := by
      rw [← hf, update_eq_self]
    rw [hsame]
    exact ⟨rfl, ht, rfl⟩
  · rename_i i hsome
    obtain ⟨hi, e, he, rfl⟩ := (hfind i).1 hsome
    rw [hsome] at hget
    dsimp only at hget
    rw [he] at hget
    obtain ⟨hprobed, hholds, k, hk, hktaken, hfreed⟩ := ht.stored.probed.close
      (fun a => home_lt (by omega) a) hi he
    rw [← hget]
    refine ⟨rfl, ⟨hbits, ⟨hprobed, fun e' => (hholds e').trans ?_, ?_⟩, ?_⟩, rfl⟩
    · rw [ht.stored.holds e', update_apply]
      by_cases hkey : e'.1 = e.1
      · rw [if_pos hkey]
        refine iff_of_false (fun ⟨he', hne⟩ => hne ?_) nofun
        rw [hkey, ← hget] at he'
        exact Prod.ext hkey (Option.some.inj he').symm
      · rw [if_neg hkey]
        exact and_iff_left fun heq => hkey (congrArg Prod.fst heq)
    · have htaken : taken t.bits (ProbeTable.close (home t.bits) (2 ^ t.bits) (2 ^ t.bits)
          t.slots i i) = (taken t.bits t.slots).erase k := by
        ext j
        rw [Finset.mem_erase, mem_taken, mem_taken, Option.isSome_iff_ne_none, ne_eq, hfreed j,
          Option.isSome_iff_ne_none]
        tauto
      rw [htaken, Finset.card_erase_of_mem (mem_taken.2 ⟨hk, Option.isSome_iff_ne_none.2 hktaken⟩),
        ht.stored.count]
    · have := ht.half
      unfold TimerTable.capacity at this ⊢
      dsimp only
      omega

end

theorem Represents.counted (ht : Represents t f) :
    ∃ keys : Finset ℕ, (∀ handle, handle ∈ keys ↔ f handle ≠ none) ∧ t.size = keys.card := by
  let key : ℕ → ℕ := fun i => ((t.slots i).map Prod.fst).getD 0
  have hkey : ∀ i ∈ taken t.bits t.slots, ∃ e, t.slots i = some e ∧ key i = e.1 := by
    intro i hi
    obtain ⟨e, he⟩ := Option.isSome_iff_exists.1 (mem_taken.1 hi).2
    exact ⟨e, he, by simp [key, he]⟩
  refine ⟨(taken t.bits t.slots).image key, fun handle => ?_, ?_⟩
  · rw [Finset.mem_image]
    constructor
    · rintro ⟨i, hi, rfl⟩
      obtain ⟨e, he, hkey⟩ := hkey i hi
      rw [hkey, (ht.stored.holds e).1 ⟨i, (mem_taken.1 hi).1, he⟩]
      exact Option.some_ne_none _
    · intro hf
      obtain ⟨value, hvalue⟩ := Option.ne_none_iff_exists'.1 hf
      obtain ⟨i, hi, he⟩ := (ht.stored.holds (handle, value)).2 hvalue
      exact ⟨i, mem_taken.2 ⟨hi, by rw [he]; rfl⟩, by simp [key, he]⟩
  · rw [Finset.card_image_of_injOn, ht.stored.count]
    intro i hi j hj heq
    obtain ⟨e, he, hkey₁⟩ := hkey i hi
    obtain ⟨e', he', hkey₂⟩ := hkey j hj
    exact ht.stored.probed.unique i (mem_taken.1 hi).1 j (mem_taken.1 hj).1 e e' he he'
      (hkey₁.symm.trans (heq.trans hkey₂))

/-! ## Runs -/

inductive Turn (T : Type*)
  | add (handle : ℕ) (value : T)
  | remove (handle : ℕ)

def step (t : TimerTable T) : Turn T → TimerTable T
  | .add handle value => t.add handle value
  | .remove handle => (t.remove handle).2

/-- The same done to a function. -/
def write (f : ℕ → Option T) : Turn T → ℕ → Option T
  | .add handle value => Function.update f handle (some value)
  | .remove handle => Function.update f handle none

/-- A handle is added only if it is not held, to a table with room. -/
def Fresh (t : TimerTable T) : Turn T → Prop
  | .add handle _ => t.get handle = none ∧ t.size < 2 ^ 29
  | .remove _ => True

section Book

open TimerBook

variable {t : TimerTable ℕ} {b b' : TimerBook} {placed : Multiset ℕ} {held : ℕ → Prop} {h n : ℕ}

theorem Represents.size_eq (ht : Represents t b.table) (hs : Sound b placed held) :
    t.size = b.size := by
  obtain ⟨keys, hkeys, hsize⟩ := ht.counted
  obtain ⟨live, hcard, hlive⟩ := hs.sized
  rw [hsize, ← hcard]
  congr 1
  ext h
  rw [hkeys, hlive, Option.isSome_iff_ne_none]

/-- The timer armed is added under a handle that is not held, to a table with room. -/
theorem Represents.create (ht : Represents t b.table) (hs : Sound b placed held)
    {time interval callback} (hc : b.create time interval callback = some (h, n, b')) :
    Represents (t.add h n) b'.table := by
  rw [(create_eq hc).2.2]
  unfold TimerBook.create at hc
  split at hc
  · cases hc
  rename_i hfull
  have hroom := not_le.1 hfull
  obtain ⟨rfl, rfl, rfl⟩ := hc
  refine ht.add _ (hs.newHandle hroom).1 ?_
  rw [ht.size_eq hs]
  exact hroom.trans (by decide)

/-- The timer retired is taken out. -/
theorem Represents.retire (ht : Represents t b.table) (hs : Sound b placed held)
    (hh : b.table h = some n) (keep : Bool) :
    Represents (t.remove h).2 (b.retire n keep).table := by
  have heq : (b.retire n keep).table = update b.table h none := by
    unfold TimerBook.retire
    rw [(hs.live h n hh).2]
    dsimp only
    rw [if_pos (by rw [hh]; rfl)]
    split
    · exact recycle_table ..
    · rfl
  rw [heq]
  exact (ht.remove h).2.1

end Book

end TimerTable

end CrossByte
