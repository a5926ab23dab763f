import Multiword.Bytes
import Multiword.Integer.Basic

/-!
# Order and equality

Magnitudes are compared by their bit counts first and, where those agree, by their words. Signs come
before magnitudes: a negative integer is below every other, and between two negative ones the
larger magnitude is below. What a hash is computed from follows equality: a byte for the sign, the
number of words in use, and these words.
-/

set_option autoImplicit false

namespace Multiword

namespace Integer

/-- Order of the magnitudes. -/
def compareMagnitudes (x y : Integer) : Checked Ordering := do
  match Ord.compare x.bits y.bits with
  | .eq => Words.compare (← x.words) (← y.words)
  | order => pure order

/-- Whether the magnitudes are equal. -/
def sameMagnitude (x y : Integer) : Checked Bool := do
  if x.bits = y.bits then
    pure ((← x.words) == (← y.words))
  else
    pure false

/-- Order of the integers. -/
def compare (x y : Integer) : Checked Ordering := do
  match x.isNegative, y.isNegative with
  | false, true => pure .gt
  | true, false => pure .lt
  | false, false => compareMagnitudes x y
  | true, true => pure (← compareMagnitudes x y).swap

/-- Whether the integers are equal. -/
def equal (x y : Integer) : Checked Bool := do
  let same ← sameMagnitude x y
  pure (same && x.isNegative == y.isNegative)

/-- The bytes that a hash of the integer is computed from: the sign as one byte, the number of words
in use as eight bytes and each of them as four, the lowest byte first. -/
def hashBytes (x : Integer) : Checked (List UInt8) := do
  let words ← x.words
  pure ((if x.isNegative then 1 else 0) :: Bytes.ofNat 8 words.length ++
    words.flatMap fun w => Bytes.ofNat 4 w.toNat)

end Integer

end Multiword
