import CrossByte.Lib.Store
import CrossByte.RPC.Keys
import Mathlib.Data.List.AList

/-!
# Replicated values and their codecs

The values a map patch replicates are mutable objects: a map holds references, and a
value is patched, copied over and recycled where it is.  A `Store` gives each reference
its content, and an `IntMap` each key its reference; `view` is the map of contents, which
is what the two ends of a connection have to agree about.

`RPCCodec` is the interface the RPC macros implement for a class of values, as functions
of contents.  `RoundTrips` is what a map patch asks of it.
-/

namespace CrossByte

open Bytes (Byte)
open Serial (Word)
open Parse

/-- A map from keys to value objects. -/
abbrev IntMap := AList fun _ : Key => Ref

/-- The contents a map holds. -/
def view {V : Type} (s : Store V) (m : IntMap) (k : Key) : Option V := (m.lookup k).map s.content

theorem view_isSome {V : Type} {s : Store V} {m : IntMap} {k : Key} :
    (view s m k).isSome ↔ k ∈ m := by
  rw [view, Option.isSome_map, AList.lookup_isSome]

/-- A class's codec, over contents `V` and patch states `S`. -/
structure RPCCodec (V S : Type) where
  /-- The fields of the class. -/
  fieldCount : ℕ
  /-- A value as its constructor makes it. -/
  initial : V
  /-- A bit for each of the first 32 fields that differ. -/
  mask : V → V → Word
  /-- A bit for each field past the first 32 that differs. -/
  maskHigh : V → V → Word
  /-- The bytes of the patch from a base to a current value whose fields the masks name. -/
  writePatch : V → V → Word → Word → List Byte
  /-- A state to read a patch into. -/
  newState : S
  /-- Read a patch into a state. -/
  readPatch : S → Parser Thrown S
  /-- A state's patch, of a base (`none`: a value as made), onto a target. -/
  apply : S → Option V → V → V
  /-- One value copied onto another. -/
  copy : V → V → V
  /-- The most bytes a patch takes, or -1 when that depends on the value. -/
  patchBound : ℤ
  /-- The bytes `writePatch` writes. -/
  patchSize : V → V → Word → Word → ℕ

namespace RPCCodec

variable {V S : Type} (codec : RPCCodec V S)

/-- Whether the class has fields past the first 32. -/
def wide : Bool := codec.fieldCount > 32

/-- The high mask as a patch carries it. -/
def high (x y : V) : Word := if codec.wide then codec.maskHigh x y else 0

/-- Values of which neither mask names a field are the same. -/
def same (x y : V) : Bool := codec.mask x y = 0 ∧ codec.high x y = 0

/-- `from` patched to `to`: a state whose patch, applied to `from` and onto any target,
makes `to` of it. -/
def Patches (s : S) (x : Option V) (y : V) : Prop := ∀ target, codec.apply s x target = y

/-- **A codec whose patch round-trips.**  Values its masks find no difference between are
equal; the patch from one value to another reads back, in whatever state it is read into,
as a state that makes the second of the first; and a copy is equal to what was copied. -/
structure RoundTrips : Prop where
  eq_of_same : ∀ x y, codec.same x y → x = y
  patch : ∀ x y s₀, ∃ s, Reads (codec.readPatch s₀)
    (codec.writePatch x y (codec.mask x y) (codec.high x y)) s ∧ codec.Patches s (some x) y ∧
      (x = codec.initial → codec.Patches s none y)
  /-- A patch is at least the byte of its mask. -/
  patch_ne_nil : ∀ x y m h, codec.writePatch x y m h ≠ []
  copy : ∀ x target, codec.copy x target = x

end RPCCodec

end CrossByte
