import Mathlib.Data.Nat.Notation
import Mathlib.Logic.Function.Basic

/-!
# Objects by reference

Programs that recycle their objects hold them by reference: one object written through one
reference is seen through every other.  A `Store` gives each reference its content, and
hands out new references in order.
-/

namespace CrossByte

abbrev Ref := ℕ

/-- The objects: the content of each, and the first reference not made yet. -/
structure Store (V : Type) where
  content : Ref → V
  next : Ref

namespace Store

variable {V : Type}

def set (s : Store V) (r : Ref) (v : V) : Store V :=
  { s with content := Function.update s.content r v }

def make (s : Store V) (v : V) : Ref × Store V :=
  (s.next, { content := Function.update s.content s.next v, next := s.next + 1 })

@[simp] theorem set_content_self (s : Store V) (r : Ref) (v : V) : (s.set r v).content r = v :=
  Function.update_self ..

theorem set_content_ne (s : Store V) {r r' : Ref} (h : r' ≠ r) (v : V) :
    (s.set r v).content r' = s.content r' := Function.update_of_ne h ..

theorem make_content_lt (s : Store V) {r : Ref} (h : r < s.next) (v : V) :
    (s.make v).2.content r = s.content r := Function.update_of_ne (Nat.ne_of_lt h) ..

end Store

end CrossByte
