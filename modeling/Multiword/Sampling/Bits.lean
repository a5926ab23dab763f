import Multiword.Integer.Encoding
import Multiword.Integer.Order
import Multiword.Sampling.Source

/-!
# Random integers of a bit count, and below a bound

An integer of at most `bits` bits is read from as many whole words as it takes; of the highest word
only the high bits are kept. Each value has the same number of blocks of words, so the draw is
uniform. A bound is met by rejection: what is drawn with the bits of the bound is below it at least
every second time.

With a sign, zero would come up twice, as itself and with the other sign; so zero is rejected with
one of the two tosses of the coin.
-/

set_option autoImplicit false

namespace Multiword

namespace Words

/-- Drop the `spare` lowest bits of the highest word. -/
def dropSpare (spare : Nat) : List Word → List Word
  | [] => []
  | [w] => [w >>> UInt32.ofNat spare]
  | w :: ws => w :: dropSpare spare ws

/-- The words of a random magnitude of at most `bits` bits, from a block of random bytes. -/
def ofBlock (bits : Nat) (block : List UInt8) : List Word :=
  dropSpare (32 * wordsFor bits - bits) (Bytes.toWords block)

end Words

namespace Draw

/-- The number of bytes that a random magnitude of at most `bits` bits takes. -/
def blockSize (bits : Nat) : Nat := 4 * wordsFor bits

/-- An integer that is not negative, of at most `bits` bits. -/
def magnitude (bits : Nat) : Draw Integer := do
  let block ← take (blockSize bits)
  let drawn := Integer.ofWords (Words.ofBlock bits block)
  let drawn := tryCatch drawn fun
    | .error _ => throw .noRoomToDraw
    | failure => throw failure
  drawn

/-- One attempt at an integer with a sign. -/
def signedAttempt (bits : Nat) : Draw (Option Integer) := do
  let x ← magnitude bits
  let negative ← coin
  if x.isZero then
    pure (if negative then none else some x)
  else
    pure (some (x.withSign negative))

/-- An integer of at most `bits` bits with a random sign. -/
def signed (bits : Nat) : Draw Integer := untilAccepted (signedAttempt bits)

/-- One attempt at an integer below the magnitude of `bound`. -/
def belowAttempt (bound : Integer) : Draw (Option Integer) := do
  let x ← magnitude bound.bits
  match ← x.compareMagnitudes bound with
  | .lt => pure (some x)
  | _ => pure none

/-- An integer that is not negative, below the magnitude of `bound`. -/
def below (bound : Integer) : Draw Integer := do
  if bound.isZero then
    throw .nothingToDraw
  untilAccepted (belowAttempt bound)

end Draw

end Multiword
