import Multiword.Integer.Storage
import Multiword.Words.Shift

/-!
# Shifts of an integer

A shift moves the magnitude and keeps the sign; only a result of zero has none. The new bit count is
the old one plus or minus the distance, so nothing has to be searched for.
-/

set_option autoImplicit false

namespace Multiword

namespace Integer

open ActionOn (current replace)

/-- Shift left by `n` bits. Zero stays as it is, however far it is shifted. -/
def shiftLeft (n : Nat) : Update Unit := do
  let x ← current
  if n = 0 || x.bits = 0 then
    pure ()
  else if UInt64.size ≤ x.bits + n then
    throw (.error .growthRefused)
  else
    ensureCapacity (x.bits + n)
    let grown ← current
    let buffer ← Words.shiftLeft grown.buffer grown.size n
    replace { grown with buffer, bits := x.bits + n }

/-- Shift right by `n` bits; the bits that fall off are lost. -/
def shiftRight (x : Integer) (n : Nat) : Checked Integer := do
  if n = 0 || x.bits = 0 then
    pure x
  else if x.bits ≤ n then
    x.cleared
  else
    let buffer ← Words.shiftRight x.buffer x.size n
    pure { x with buffer, bits := x.bits - n }

end Integer

end Multiword
