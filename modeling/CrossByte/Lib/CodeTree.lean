import Mathlib.Tactic

/-!
# Trees of a prefix code

The tree a decoder of a prefix code walks: a node is reached by the bits that lead to it, and one
that carries a symbol is the end of that symbol's code.  `leads t code sym` is the check that the
code is such a path and passes no other symbol on its way.
-/

/-- A tree of codes; `absent` is no node. -/
inductive CodeTree (α : Type) where
  | absent
  | node (symbol : Option α) (left right : CodeTree α)
  deriving DecidableEq

namespace CodeTree

variable {α : Type}

/-- The node one bit on. -/
def child : CodeTree α → Bool → CodeTree α
  | absent, _ => absent
  | node _ left _, false => left
  | node _ _ right, true => right

/-- The node some bits on. -/
def descend (t : CodeTree α) (bits : List Bool) : CodeTree α := bits.foldl child t

@[simp] theorem descend_nil (t : CodeTree α) : t.descend [] = t := rfl

/-- Whether there is a node, and it carries no symbol. -/
def isOpen : CodeTree α → Bool
  | node none _ _ => true
  | _ => false

/-- The symbol of a node. -/
def symbol? : CodeTree α → Option α
  | absent => none
  | node symbol _ _ => symbol

/-- A tree with one more code, its nodes made where there are none. -/
def insert (sym : α) : List Bool → CodeTree α → CodeTree α
  | [], absent => node (some sym) absent absent
  | [], node _ left right => node (some sym) left right
  | false :: bits, absent => node none (insert sym bits absent) absent
  | true :: bits, absent => node none absent (insert sym bits absent)
  | false :: bits, node symbol left right => node symbol (insert sym bits left) right
  | true :: bits, node symbol left right => node symbol left (insert sym bits right)

/-- The bits are the path to the symbol, and to no other before it. -/
def leads [DecidableEq α] : CodeTree α → List Bool → α → Bool
  | _, [], _ => false
  | t, [b], sym => (t.child b).symbol? == some sym
  | t, b :: bits, sym => (t.child b).isOpen && leads (t.child b) bits sym

variable {t : CodeTree α}

theorem leads_cons_cons [DecidableEq α] {b b' : Bool} {bits : List Bool} {sym : α} :
    leads t (b :: b' :: bits) sym = ((t.child b).isOpen && leads (t.child b) (b' :: bits) sym) := rfl

theorem isOpen_iff : t.isOpen = true ↔ ∃ left right, t = node none left right := by
  cases t with
  | absent => simp [isOpen]
  | node symbol left right =>
    cases symbol <;> simp [isOpen]

theorem symbol?_eq_some {sym : α} :
    t.symbol? = some sym ↔ ∃ left right, t = node (some sym) left right := by
  cases t <;> simp [symbol?]

/-- The symbols, each with the bits that lead to it. -/
def leaves : CodeTree α → List (List Bool × α)
  | absent => []
  | node symbol left right => symbol.toList.map ([], ·) ++
      (left.leaves.map fun l => (false :: l.1, l.2)) ++ right.leaves.map fun l => (true :: l.1, l.2)

theorem mem_leaves {bits : List Bool} {sym : α}
    (h : (t.descend bits).symbol? = some sym) : (bits, sym) ∈ t.leaves := by
  induction t generalizing bits with
  | absent =>
    have habsent : (absent : CodeTree α).descend bits = absent := by
      induction bits with
      | nil => rfl
      | cons b bits ih => exact ih (by simpa [descend, child] using h)
    simp [habsent, symbol?] at h
  | node symbol left right hleft hright =>
    cases bits with
    | nil => simpa [leaves, symbol?] using h
    | cons b bits =>
      cases b with
      | false => simpa [leaves] using hleft h
      | true => simpa [leaves] using hright h

end CodeTree
