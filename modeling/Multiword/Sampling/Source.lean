import Multiword.Bytes
import Multiword.Memory

/-!
# Sources of random bytes

A draw takes bytes from the front of a finite source and counts them. It fails once more are needed
than are left; so a draw that rejects what it took, and tries again, ends on every source.
-/

set_option autoImplicit false

namespace Multiword

/-- Random bytes, read from the front. -/
structure Source where
  /-- The bytes that are left. -/
  bytes : List UInt8
  /-- How many have been taken. -/
  used : Nat
  deriving DecidableEq, Repr

/-- A computation that takes random bytes. -/
abbrev Draw (α : Type) := ActionOn Source α

namespace Source

/-- A source before the first draw. -/
def ofBytes (bytes : List UInt8) : Source := { bytes, used := 0 }

end Source

namespace Draw

open ActionOn (current replace)

/-- Take `count` bytes. -/
def take (count : Nat) : Draw (List UInt8) := do
  let source ← current
  if source.bytes.length < count then
    throw .exhausted
  replace { bytes := source.bytes.drop count, used := source.used + count }
  pure (source.bytes.take count)

/-- Toss a coin: the highest bit of four bytes, the lowest byte first. -/
def coin : Draw Bool := do
  let bytes ← take 4
  pure ((Bytes.toNat bytes).testBit 31)

/-- Try again as long as an attempt rejects what it took, up to `limit` attempts. -/
def retry {α : Type} (attempt : Draw (Option α)) : Nat → Draw α
  | 0 => throw .exhausted
  | limit + 1 => do
    match ← attempt with
    | some x => pure x
    | none => retry attempt limit

/-- Try until an attempt accepts. Every attempt takes a byte at least, so there are no more attempts
than bytes before the source is exhausted. -/
def untilAccepted {α : Type} (attempt : Draw (Option α)) : Draw α := do
  let source ← current
  retry attempt (source.bytes.length + 1)

end Draw

end Multiword
