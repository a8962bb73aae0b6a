import Mathlib.Data.List.Nodup

/-!
# Singly linked lists

A program links its objects through a field: `next` says what follows each, and a list is the
objects reached from a first one.  `Linked next a l` says that `l` is that list.  It ends, so no
object is on it twice, and writing the field of an object that is not on the list leaves it.

A queue also keeps its last object.  `Queue` adds that, and the theorems are the three writes a
queue is changed by: one object put at the end, the first taken off, and one taken out of the
middle after the walk that finds what stands before it.
-/

namespace LinkedQueue

variable {α : Type*}

/-- `l` is what is reached from `a` by following `next`. -/
def Linked (next : α → Option α) : Option α → List α → Prop
  | a, [] => a = none
  | a, b :: l => a = some b ∧ Linked next (next b) l

/-- The objects reached from `a`, `fuel` of them at most. -/
def follow (next : α → Option α) : ℕ → Option α → List α
  | 0, _ => []
  | _ + 1, none => []
  | fuel + 1, some a => a :: follow next fuel (next a)

variable {next next' : α → Option α} {a head tail : Option α} {l p q : List α} {w : α} {fuel : ℕ}

@[simp] theorem linked_nil : Linked next a [] ↔ a = none := Iff.rfl

@[simp] theorem linked_cons : Linked next a (w :: l) ↔ a = some w ∧ Linked next (next w) l := Iff.rfl

theorem Linked.follow_eq (h : Linked next a l) (hl : l.length ≤ fuel) : follow next fuel a = l := by
  induction fuel generalizing a l with
  | zero => rw [List.eq_nil_of_length_eq_zero (Nat.le_zero.1 hl)]; rfl
  | succ fuel ih =>
    cases l with
    | nil => rw [linked_nil.1 h]; rfl
    | cons b l =>
      obtain ⟨rfl, hrest⟩ := h
      rw [follow, ih hrest (Nat.le_of_succ_le_succ hl)]

theorem Linked.first_eq (h : Linked next a l) : a = l.head? := by
  cases l with
  | nil => exact h
  | cons b l => exact h.1

theorem Linked.congr (h : Linked next a l) (hnext : ∀ b ∈ l, next' b = next b) :
    Linked next' a l := by
  induction l generalizing a with
  | nil => exact h
  | cons b l ih =>
    refine ⟨h.1, ?_⟩
    rw [hnext b List.mem_cons_self]
    exact ih h.2 fun c hc => hnext c (List.mem_cons_of_mem b hc)

/-! ## Queues -/

/-- A linked list and its last object. -/
structure Queue (next : α → Option α) (head tail : Option α) (l : List α) : Prop where
  linked : Linked next head l
  tail_eq : tail = l.getLast?
  nodup : l.Nodup

theorem queue_nil : Queue next none none [] := ⟨rfl, rfl, List.nodup_nil⟩

theorem Queue.head_eq (h : Queue next head tail l) : head = l.head? := h.linked.first_eq

variable [DecidableEq α]

/-! ## Writing the links -/

theorem Linked.update (h : Linked next a l) (hw : w ∉ l) (b : Option α) :
    Linked (Function.update next w b) a l := by
  refine h.congr fun c hc => Function.update_of_ne ?_ ..
  rintro rfl
  exact hw hc

/-- A list that ends in `w`, with an object linked after it. -/
theorem Linked.snoc (h : Linked next a (l ++ [w])) {b : α} (hb : next b = none) (hbw : b ≠ w)
    (hl : w ∉ l) : Linked (Function.update next w (some b)) a (l ++ [w, b]) := by
  induction l generalizing a with
  | nil =>
    obtain ⟨rfl, -⟩ := h
    refine ⟨rfl, ?_⟩
    rw [Function.update_self]
    exact ⟨rfl, by rw [Function.update_of_ne hbw, hb]; rfl⟩
  | cons c l ih =>
    obtain ⟨rfl, hrest⟩ := h
    refine ⟨rfl, ?_⟩
    have hcw : c ≠ w := fun he => hl (he ▸ List.mem_cons_self)
    rw [Function.update_of_ne hcw]
    exact ih hrest fun hw => hl (List.mem_cons_of_mem c hw)

/-- What follows the last object before `w` made what follows `w`: `w` is off the list. -/
theorem Linked.bypass (h : Linked next a (p ++ w :: q)) {b : α} {p' : List α} (hp : p = p' ++ [b])
    (hb : b ∉ p') (hbq : b ∉ q) : Linked (Function.update next b (next w)) a (p ++ q) := by
  subst hp
  induction p' generalizing a with
  | nil =>
    obtain ⟨rfl, hw, hq⟩ := h
    refine ⟨rfl, ?_⟩
    rw [Function.update_self]
    exact hq.update hbq _
  | cons c p' ih =>
    obtain ⟨rfl, hrest⟩ := h
    refine ⟨rfl, ?_⟩
    have hcb : c ≠ b := fun he => hb (he ▸ List.mem_cons_self)
    rw [Function.update_of_ne hcb]
    exact ih (fun hin => hb (List.mem_cons_of_mem c hin)) hrest

/-! ## The walk to an object -/

/-- The walk along a list to `w`: what stands before it, and `w`, or nothing when it is not
there. -/
def walk (next : α → Option α) (w : α) : ℕ → Option α → Option α → Option α × Option α
  | 0, previous, at' => (previous, at')
  | _ + 1, previous, none => (previous, none)
  | fuel + 1, previous, some a =>
    if a = w then (previous, some a) else walk next w fuel (some a) (next a)

theorem Linked.walk_eq (h : Linked next a (p ++ w :: q)) (hp : w ∉ p) (hl : p.length ≤ fuel)
    (previous : Option α) : walk next w fuel previous a = (p.getLast?.or previous, some w) := by
  induction p generalizing a fuel previous with
  | nil =>
    obtain ⟨rfl, -⟩ := h
    cases fuel with
    | zero => rfl
    | succ fuel => simp [walk]
  | cons b p ih =>
    obtain ⟨rfl, hrest⟩ := h
    cases fuel with
    | zero => exact absurd hl (by simp)
    | succ fuel =>
      have hb : b ≠ w := fun he => hp (he ▸ List.mem_cons_self)
      rw [walk, if_neg hb, ih hrest (fun hin => hp (List.mem_cons_of_mem b hin))
        (Nat.le_of_succ_le_succ hl)]
      cases hlast : p.getLast? with
      | none =>
        rw [List.getLast?_eq_none_iff] at hlast
        subst hlast
        rfl
      | some c => simp [List.getLast?_cons, hlast]

/-! ## What a queue is changed by -/

theorem Queue.single (h : Queue next head none l) (w : α) :
    l = [] ∧ Queue (Function.update next w none) (some w) (some w) [w] := by
  have hl : l = [] := List.getLast?_eq_none_iff.1 h.tail_eq.symm
  refine ⟨hl, ⟨⟨rfl, ?_⟩, rfl, List.nodup_singleton w⟩⟩
  rw [Function.update_self]
  rfl

theorem Queue.push {t : α} (h : Queue next head (some t) l) (hw : w ∉ l) :
    Queue (Function.update (Function.update next w none) t (some w)) head (some w) (l ++ [w]) := by
  obtain ⟨l', rfl⟩ := List.getLast?_eq_some_iff.1 h.tail_eq.symm
  have hnodup := List.nodup_append.1 h.nodup
  have ht : t ∉ l' := fun hin => hnodup.2.2 t hin t (by simp) rfl
  have hwt : w ≠ t := fun he => hw (by simp [he])
  refine ⟨?_, by simp, ?_⟩
  · have := (h.linked.update hw none).snoc (b := w) (Function.update_self ..) hwt ht
    simpa using this
  · rw [List.nodup_append]
    exact ⟨h.nodup, List.nodup_singleton w, fun x hx y hy he => by
      rw [List.mem_singleton] at hy
      exact hw (hy ▸ he ▸ hx)⟩

theorem Queue.unlink_head (h : Queue next head tail (w :: l)) :
    Queue (Function.update next w none) (next w) (if tail = some w then none else tail) l := by
  obtain ⟨hlinked, htail, hnodup⟩ := h
  rw [List.nodup_cons] at hnodup
  refine ⟨hlinked.2.update hnodup.1 none, ?_, hnodup.2⟩
  cases l with
  | nil => rw [htail]; simp
  | cons b l =>
    have hne : tail ≠ some w := by
      intro he
      rw [htail] at he
      exact hnodup.1 (List.mem_of_getLast? he)
    rw [if_neg hne, htail, List.getLast?_cons_cons]

theorem Queue.unlink_after {b : α} {p' : List α} (h : Queue next head tail (p ++ w :: q))
    (hp : p = p' ++ [b]) :
    Queue (Function.update (Function.update next b (next w)) w none) head
      (if tail = some w then some b else tail) (p ++ q) := by
  obtain ⟨hlinked, htail, hnodup⟩ := h
  have hsplit := List.nodup_append.1 hnodup
  have hwq := List.nodup_cons.1 hsplit.2.1
  have hbp : b ∉ p' := by
    have := hsplit.1
    rw [hp, List.nodup_append] at this
    exact fun hin => this.2.2 b hin b (by simp) rfl
  have hb : b ∈ p := by rw [hp]; simp
  have hbq : b ∉ q := fun hin => hsplit.2.2 b hb b (List.mem_cons_of_mem w hin) rfl
  have hwp : w ∉ p := fun hin => hsplit.2.2 w hin w List.mem_cons_self rfl
  refine ⟨(hlinked.bypass hp hbp hbq).update ?_ none, ?_, ?_⟩
  · rw [List.mem_append]
    exact fun hin => hin.elim hwp hwq.1
  · cases q with
    | nil =>
      have hlast : tail = some w := by rw [htail, List.getLast?_append]; rfl
      rw [if_pos hlast, hp]
      simp
    | cons c q =>
      have hlast : tail = (c :: q).getLast? := by
        rw [htail, List.getLast?_append, List.getLast?_cons_cons, List.getLast?_cons, Option.some_or]
      have hne : tail ≠ some w := fun he =>
        hwq.1 (List.mem_of_getLast? (hlast.symm.trans he))
      rw [if_neg hne, hlast, List.getLast?_append, List.getLast?_cons, Option.some_or]
  · rw [List.nodup_append]
    exact ⟨hsplit.1, hwq.2, fun x hx y hy => hsplit.2.2 x hx y (List.mem_cons_of_mem w hy)⟩

end LinkedQueue
