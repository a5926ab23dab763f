import Multiword.Integer.Order
import Multiword.Integer.Shift
import Multiword.Words.Carry

/-!
# Sums and differences

A destination takes `|a| + |b|` or the distance `||a| - |b||`, where `a` and `b` may be integers or
the destination itself. Signed sums and differences come down to these two: equal signs add the
magnitudes, different signs take their distance, and the operand with the larger magnitude decides
the sign.

All growth happens before the destination is written, so a refused growth leaves it as it was.
-/

set_option autoImplicit false

namespace Multiword

namespace Integer

open ActionOn (current replace)

/-! ## Magnitudes -/

/-- Double the magnitude. -/
def doubleMagnitude : Update Unit := do
  shiftLeft 1
  replace (← current).unsigned

/-- Add the words of `other` in place. There is room for a carry, so none is left over. -/
def addWords (other : Integer) : Update Unit := do
  let x ← current
  let top := min (← unsigned64 (max x.size other.size + 1)) x.capacity
  let words ← other.words
  let (buffer, carry) ← Words.onLow x.buffer top (Words.addInto · words)
  require (carry = 0) .brokenPromise
  let x ← { x with buffer }.normalized top
  replace x.unsigned

/-- The destination becomes the sum of its magnitude and that of another integer. -/
def addOnto (other : Integer) : Update Unit := do
  let x ← current
  if other.isZero then
    replace x.unsigned
  else if x.isZero then
    copyMagnitude other
  else if ← x.sameMagnitude other then
    doubleMagnitude
  else
    ensureCapacity (← unsigned64 (max x.bits other.bits + 1))
    addWords other

/-- The destination becomes the sum of the magnitudes of two other integers. -/
def addBoth (a b : Integer) : Update Unit := do
  if a.isZero then
    copyMagnitude b
  else if b.isZero then
    copyMagnitude a
  else
    ensureCapacity (← unsigned64 (max a.bits b.bits + 1))
    copyMagnitude a
    if ← a.sameMagnitude b then
      doubleMagnitude
    else
      addWords b

/-- The destination becomes `|a| + |b|`. -/
def addMagnitudes : Operand → Operand → Update Unit
  | .dest, .dest => doubleMagnitude
  | .dest, .value other | .value other, .dest => addOnto other
  | .value a, .value b => addBoth a b

/-- Take the words of `less` from the destination, whose magnitude is larger. -/
def subWords (less : Integer) : Update Unit := do
  let x ← current
  let size := x.size
  let words ← less.words
  let (buffer, borrow) ← Words.onLow x.buffer size (Words.subInto · words)
  require (borrow = 0) .brokenPromise
  replace (← { x with buffer }.normalized size)

/-- Take the destination from `greater`, whose magnitude is larger, word by word. -/
def subWordsFrom (greater : Integer) : Update Unit := do
  ensureCapacity greater.bits
  let x ← current
  let size := greater.size
  let words ← greater.words
  let (buffer, borrow) ← Words.onLow x.buffer size (Words.subFrom words)
  require (borrow = 0) .brokenPromise
  replace (← { x with buffer }.normalized size)

/-- The destination becomes the difference of a larger magnitude and a smaller one. -/
def subOrdered : Operand → Operand → Update Unit
  | .dest, .value less => subWords less
  | .value greater, .dest => subWordsFrom greater
  | .value greater, .value less => do
    copyFrom greater
    subWords less
  | .dest, .dest => throw (.fault .brokenPromise)

/-- The destination becomes `||a| - |b||`. -/
def subMagnitudes (a b : Operand) : Update Unit := do
  let x ← current
  match ← (a.resolve x).compareMagnitudes (b.resolve x) with
  | .eq => replace (← x.cleared)
  | .gt =>
    subOrdered a b
    replace (← current).unsigned
  | .lt =>
    subOrdered b a
    replace (← current).unsigned

/-! ## Signed integers -/

/-- The destination becomes `a + b`, or `a - b` if `negateB`. The signs and the order of the
magnitudes are those before the destination changes. -/
def addWithSigns (a b : Operand) (negateB : Bool) : Update Unit := do
  let x ← current
  let left := a.resolve x
  let right := b.resolve x
  let leftNegative := left.isNegative
  let rightNegative := right.isNegative ^^ (negateB && !right.isZero)
  let order ← left.compareMagnitudes right
  if leftNegative = rightNegative then
    addMagnitudes a b
    replace ((← current).withSign leftNegative)
  else
    subMagnitudes a b
    replace ((← current).withSign (match order with
      | .gt => leftNegative
      | .lt => rightNegative
      | .eq => false))

/-- The destination becomes `a + b`. -/
def add (a b : Operand) : Update Unit := addWithSigns a b false

/-- The destination becomes `a - b`. -/
def sub (a b : Operand) : Update Unit := addWithSigns a b true

end Integer

end Multiword
