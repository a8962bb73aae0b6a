import Mathlib.Tactic

/-!
# Walking two ascending lists together

A merge walks two ascending lists from the front, at each step taking the smaller
head, or both heads when they are equal.  `walk` is the sequence of what it finds:
each element with the side it is on.

* `lefts_walk`, `rights_walk`, `boths_walk`: what is found on one side only, and on
  both, is what a filter of the lists by membership finds, in the lists' order.
* `mem_elements_walk`, `pairwise_elements_walk`: the walk meets every element once,
  ascending.
-/

namespace SortedMerge

variable {α : Type*}

/-- An element and the side it was found on. -/
inductive Side (α : Type*) where
  | left (a : α)
  | right (a : α)
  | both (a : α)
  deriving DecidableEq, Repr

namespace Side

def element : Side α → α
  | left a | right a | both a => a

/-- The element, when it is on the left only. -/
def left? : Side α → Option α
  | left a => some a
  | _ => none

/-- The element, when it is on the right only. -/
def right? : Side α → Option α
  | right a => some a
  | _ => none

def both? : Side α → Option α
  | both a => some a
  | _ => none

def inRight? : Side α → Option α
  | right a | both a => some a
  | left _ => none

end Side

variable [LinearOrder α] {as bs : List α} {fuel : ℕ}

/-- The loop of the walk.  The two lengths together are enough fuel. -/
def walkLoop : ℕ → List α → List α → List (Side α)
  | 0, _, _ => []
  | _ + 1, [], [] => []
  | fuel + 1, a :: as, [] => .left a :: walkLoop fuel as []
  | fuel + 1, [], b :: bs => .right b :: walkLoop fuel [] bs
  | fuel + 1, a :: as, b :: bs =>
    if a < b then .left a :: walkLoop fuel as (b :: bs)
    else if b < a then .right b :: walkLoop fuel (a :: as) bs
    else .both a :: walkLoop fuel as bs

/-- Walk two lists together. -/
def walk (as bs : List α) : List (Side α) := walkLoop (as.length + bs.length) as bs

theorem notMem_of_forall_lt {a : α} {l : List α} (h : ∀ x ∈ l, a < x) : a ∉ l := fun hin =>
  lt_irrefl a (h a hin)

theorem filter_notMem_cons {b : α} (h : b ∉ as) :
    as.filter (· ∉ b :: bs) = as.filter (· ∉ bs) := by
  refine List.filter_congr fun a ha => ?_
  have hne : a ≠ b := fun heq => h (heq ▸ ha)
  simp [hne]

theorem filter_mem_cons {b : α} (h : b ∉ as) :
    as.filter (· ∈ b :: bs) = as.filter (· ∈ bs) := by
  refine List.filter_congr fun a ha => ?_
  have hne : a ≠ b := fun heq => h (heq ▸ ha)
  simp [hne]

/-- What is below the head of an ascending list is below all of it. -/
theorem forall_lt {a b : α} (hb : (b :: bs).Pairwise (· < ·)) (h : a < b) : ∀ x ∈ b :: bs, a < x :=
  List.forall_mem_cons.2 ⟨h, fun x hx => h.trans ((List.pairwise_cons.1 hb).1 x hx)⟩

section

variable (ha : as.Pairwise (· < ·)) (hb : bs.Pairwise (· < ·))

include ha hb

/-- **What the walk of two ascending lists meets**: an element of one of them below everything
that is still to come, or one of both. -/
theorem walk_rule {P : List α → List α → List (Side α) → Prop} (hnil : P [] [] [])
    (hleft : ∀ {a as bs l}, (∀ x ∈ as, a < x) → (∀ x ∈ bs, a < x) → P as bs l →
      P (a :: as) bs (.left a :: l))
    (hright : ∀ {b as bs l}, (∀ x ∈ as, b < x) → (∀ x ∈ bs, b < x) → P as bs l →
      P as (b :: bs) (.right b :: l))
    (hboth : ∀ {a as bs l}, (∀ x ∈ as, a < x) → (∀ x ∈ bs, a < x) → P as bs l →
      P (a :: as) (a :: bs) (.both a :: l)) : P as bs (walk as bs) := by
  suffices h : ∀ fuel, as.length + bs.length ≤ fuel → P as bs (walkLoop fuel as bs) from h _ le_rfl
  intro fuel hfuel
  fun_induction walkLoop fuel as bs with
  | case1 as bs =>
    obtain rfl : as = [] := List.length_eq_zero_iff.1 (by omega)
    obtain rfl : bs = [] := List.length_eq_zero_iff.1 (by omega)
    exact hnil
  | case2 => exact hnil
  | case3 fuel a as ih =>
    exact hleft (List.pairwise_cons.1 ha).1 nofun (ih ha.of_cons hb (by simpa using hfuel))
  | case4 fuel b bs ih =>
    exact hright nofun (List.pairwise_cons.1 hb).1 (ih ha hb.of_cons (by simpa using hfuel))
  | case5 fuel a as b bs hlt ih =>
    exact hleft (List.pairwise_cons.1 ha).1 (forall_lt hb hlt)
      (ih ha.of_cons hb (by simp at hfuel ⊢; omega))
  | case6 fuel a as b bs hnlt hlt ih =>
    exact hright (forall_lt ha hlt) (List.pairwise_cons.1 hb).1
      (ih ha hb.of_cons (by simp at hfuel ⊢; omega))
  | case7 fuel a as b bs hnlt hnlt' ih =>
    obtain rfl : a = b := le_antisymm (not_lt.1 hnlt') (not_lt.1 hnlt)
    exact hboth (List.pairwise_cons.1 ha).1 (List.pairwise_cons.1 hb).1
      (ih ha.of_cons hb.of_cons (by simp at hfuel ⊢; omega))

theorem lefts_walk : (walk as bs).filterMap Side.left? = as.filter (· ∉ bs) := by
  refine walk_rule ha hb (P := fun as bs l => l.filterMap Side.left? = as.filter (· ∉ bs)) rfl
    (fun has hbs ih => ?_) (fun has hbs ih => ?_) fun has hbs ih => ?_
  · rw [List.filter_cons_of_pos (by simpa using notMem_of_forall_lt hbs), ← ih]
    rfl
  · rw [filter_notMem_cons (notMem_of_forall_lt has), ← ih]
    rfl
  · rw [List.filter_cons_of_neg (by simp), filter_notMem_cons (notMem_of_forall_lt has), ← ih]
    rfl

theorem rights_walk : (walk as bs).filterMap Side.right? = bs.filter (· ∉ as) := by
  refine walk_rule ha hb (P := fun as bs l => l.filterMap Side.right? = bs.filter (· ∉ as)) rfl
    (fun has hbs ih => ?_) (fun has hbs ih => ?_) fun has hbs ih => ?_
  · rw [filter_notMem_cons (notMem_of_forall_lt hbs), ← ih]
    rfl
  · rw [List.filter_cons_of_pos (by simpa using notMem_of_forall_lt has), ← ih]
    rfl
  · rw [List.filter_cons_of_neg (by simp), filter_notMem_cons (notMem_of_forall_lt hbs), ← ih]
    rfl

theorem boths_walk : (walk as bs).filterMap Side.both? = as.filter (· ∈ bs) := by
  refine walk_rule ha hb (P := fun as bs l => l.filterMap Side.both? = as.filter (· ∈ bs)) rfl
    (fun has hbs ih => ?_) (fun has hbs ih => ?_) fun has hbs ih => ?_
  · rw [List.filter_cons_of_neg (by simpa using notMem_of_forall_lt hbs), ← ih]
    rfl
  · rw [filter_mem_cons (notMem_of_forall_lt has), ← ih]
    rfl
  · rw [List.filter_cons_of_pos (by simp), filter_mem_cons (notMem_of_forall_lt has), ← ih]
    rfl

/-- What is found on the right is the list on the right. -/
theorem inRights_walk : (walk as bs).filterMap Side.inRight? = bs :=
  walk_rule ha hb (P := fun _ bs l => l.filterMap Side.inRight? = bs) rfl (fun _ _ ih => ih)
    (fun _ _ ih => congrArg _ ih) fun _ _ ih => congrArg _ ih

theorem elements_walk : (∀ x, x ∈ (walk as bs).map Side.element ↔ x ∈ as ∨ x ∈ bs) ∧
    ((walk as bs).map Side.element).Pairwise (· < ·) := by
  have hlt : ∀ {a : α} {as bs : List α} {l : List α}, (∀ x ∈ as, a < x) → (∀ x ∈ bs, a < x) →
      (∀ x, x ∈ l ↔ x ∈ as ∨ x ∈ bs) → ∀ x ∈ l, a < x :=
    fun has hbs hl x hx => ((hl x).1 hx).elim (has x) (hbs x)
  refine walk_rule ha hb (P := fun as bs l => (∀ x, x ∈ l.map Side.element ↔ x ∈ as ∨ x ∈ bs) ∧
      (l.map Side.element).Pairwise (· < ·)) ⟨by simp, .nil⟩
    (fun has hbs ih => ⟨fun x => ?_, .cons (hlt has hbs ih.1) ih.2⟩)
    (fun has hbs ih => ⟨fun x => ?_, .cons (hlt has hbs ih.1) ih.2⟩)
    fun has hbs ih => ⟨fun x => ?_, .cons (hlt has hbs ih.1) ih.2⟩
  · rw [List.map_cons, List.mem_cons, ih.1, List.mem_cons, or_assoc]
    rfl
  · rw [List.map_cons, List.mem_cons, ih.1, List.mem_cons, or_left_comm]
    rfl
  · simp only [List.map_cons, List.mem_cons, ih.1]
    tauto

theorem mem_elements_walk {x : α} : x ∈ (walk as bs).map Side.element ↔ x ∈ as ∨ x ∈ bs :=
  (elements_walk ha hb).1 x

theorem pairwise_elements_walk : ((walk as bs).map Side.element).Pairwise (· < ·) :=
  (elements_walk ha hb).2

end

end SortedMerge
