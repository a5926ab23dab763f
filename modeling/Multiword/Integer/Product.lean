import Multiword.Integer.Storage
import Multiword.Words.Product

/-!
# Products

The rows of a product are added into a buffer of zeros that has room for all the words of both
operands. Such a buffer cannot be one of the operands, so a product with the destination is built in
a new integer, which then takes the place of the destination, buffer and all.
-/

set_option autoImplicit false

namespace Multiword

namespace Integer

open ActionOn (current replace)

/-- The destination, which is neither operand, becomes the product of two magnitudes, neither of
them zero. -/
def mulWords (a b : Integer) : Update Unit := do
  let left ← a.words
  let right ← b.words
  let size ← unsigned64 (left.length + right.length)
  if UInt64.size ≤ size * 32 then
    throw (.error .growthRefused)
  ensureCapacity (size * 32)
  let x ← current
  let buffer ← Words.clear x.buffer 0 (max x.size size)
  let buffer ← Words.mulRows left right buffer
  let x ← { x with buffer }.normalized size
  replace x.unsigned

/-- The destination becomes `|a| * |b|`. -/
def mulMagnitudes (a b : Operand) : Update Unit := do
  let x ← current
  if (a.resolve x).isZero || (b.resolve x).isZero then
    replace (← x.cleared)
  else
    match a, b with
    | .value a, .value b => mulWords a b
    | _, _ => replace (← (mulWords (a.resolve x) (b.resolve x)).applyTo zero)

/-- The destination becomes `a * b`. -/
def mul (a b : Operand) : Update Unit := do
  let x ← current
  let negative := (a.resolve x).isNegative ^^ (b.resolve x).isNegative
  mulMagnitudes a b
  replace ((← current).withSign negative)

end Integer

end Multiword
