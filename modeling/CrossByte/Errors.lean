import Mathlib.Tactic

/-!
# What the code throws

The errors of the modelled functions, as the source raises them: an error object
of one of its classes, or a bare string.
-/

namespace CrossByte

inductive Thrown where
  | argumentError (message : String)
  | rangeError (message : String)
  | eofError (message : String)
  | illegalOperationError (message : String)
  /-- A string thrown as it is. -/
  | text (message : String)
  /-- A field or a method of `null` used. -/
  | nullAccess
  deriving DecidableEq, Repr

end CrossByte
