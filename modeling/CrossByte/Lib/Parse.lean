import CrossByte.Lib.Bytes

/-!
# Reading bytes

A parser consumes a list of bytes and may fail.  `Reads p bytes x` says that `p`
reads exactly `bytes` as `x`, whatever follows them, and `Fails p bytes e` that it
fails with `e` on them, whatever follows.  A round trip of a writer and a reader
is a `Reads` statement, and the rules here put those of a whole format together
from those of its parts.
-/

namespace Parse

open Bytes (Byte)

variable {ε α β : Type}

/-- A reader of bytes: what it reads and what is left, or an error. -/
abbrev Parser (ε α : Type) := StateT (List Byte) (Except ε) α

def fail (e : ε) : Parser ε α := fun _ => .error e

/-- A parser with its errors renamed. -/
def adapt {ε' : Type} (f : ε → ε') (p : Parser ε α) : Parser ε' α := fun bytes =>
  (p.run bytes).mapError f

def remaining : Parser ε ℕ := fun bytes => .ok (bytes.length, bytes)

/-- `p` reads exactly `bytes` as `x`. -/
def Reads (p : Parser ε α) (bytes : List Byte) (x : α) : Prop :=
  ∀ rest, p.run (bytes ++ rest) = .ok (x, rest)

/-- `p` fails with `e` on `bytes`. -/
def Fails (p : Parser ε α) (bytes : List Byte) (e : ε) : Prop :=
  ∀ rest, p.run (bytes ++ rest) = .error e

theorem run_bind (p : Parser ε α) (f : α → Parser ε β) (bytes : List Byte) :
    (p >>= f).run bytes =
      match p.run bytes with
      | .error e => .error e
      | .ok (x, rest) => (f x).run rest := by
  rw [StateT.run_bind]
  cases p.run bytes <;> rfl

theorem reads_pure (x : α) : Reads (pure x : Parser ε α) [] x := fun _ => rfl

variable {p : Parser ε α} {f : α → Parser ε β}

theorem Reads.bind {b c : List Byte} {x : α} {y : β}
    (hp : Reads p b x) (hf : Reads (f x) c y) : Reads (p >>= f) (b ++ c) y := by
  intro rest
  rw [run_bind, List.append_assoc, hp]
  exact hf rest

theorem Reads.bind_fails {b c : List Byte} {x : α} {e : ε}
    (hp : Reads p b x) (hf : Fails (f x) c e) : Fails (p >>= f) (b ++ c) e := by
  intro rest
  rw [run_bind, List.append_assoc, hp]
  exact hf rest

variable {b : List Byte}

theorem Fails.bind {e : ε}
    (hp : Fails p b e) (c : List Byte) : Fails (p >>= f) (b ++ c) e := by
  intro rest
  rw [run_bind, List.append_assoc, hp]

theorem Reads.map {x : α} (hp : Reads p b x) (f : α → β) :
    Reads (p >>= fun a => pure (f a)) b (f x) := by
  have h := hp.bind (f := fun a => pure (f a)) (reads_pure (f x))
  rwa [List.append_nil] at h

theorem Reads.adapt {ε' : Type} {x : α} (hp : Reads p b x)
    (f : ε → ε') : Reads (Parse.adapt f p) b x := by
  intro rest
  change (p.run (b ++ rest)).mapError f = _
  rw [hp rest]
  rfl

end Parse
