import Multiword.Integer.Native
import Multiword.Integer.Sum

/-!
# Quotients

Division of magnitudes shifts and subtracts. The divisor is moved under the highest bit of the
dividend and then down again by one bit a step; wherever it fits into the remainder, it is
subtracted, and the bit of that step is set in the quotient.

At the head of the step for bit `n` the divisor is that of the caller times `2 ^ n`, the quotient
times that of the caller plus the remainder is the dividend, and the remainder is below twice the
divisor: one subtraction a step is enough. No step needs more room than there is.
-/

set_option autoImplicit false

namespace Multiword

/-- A quotient and the remainder that goes with it. -/
structure Division where
  quotient : Integer
  remainder : Integer
  deriving DecidableEq, Repr

/-- A division between two of its steps. -/
structure LongDivision extends Division where
  divisor : Integer
  /-- How often the divisor has been subtracted so far. -/
  subtractions : Nat
  deriving DecidableEq, Repr

namespace LongDivision

/-- The step for `bit`: subtract the divisor where it fits, then move it down. -/
def step (bit : Nat) (s : LongDivision) : Action LongDivision := do
  let s ← match ← s.remainder.compareMagnitudes s.divisor with
    | .lt => pure s
    | _ => do
      let remainder ← (Integer.subMagnitudes .dest (.value s.divisor)).applyTo s.remainder
      let quotient ← (Integer.setBit bit).applyTo s.quotient
      let subtractions ← unsigned64 (s.subtractions + 1)
      pure { s with quotient, remainder, subtractions }
  let divisor ← s.divisor.shiftRight 1
  pure { s with divisor }

/-- The steps for some bits, one after the other. -/
def steps (bits : List Nat) (s : LongDivision) : Action LongDivision :=
  bits.foldlM (fun s bit => s.step bit) s

/-- Before the first step the remainder is the dividend, and the divisor has its highest bit where
the dividend has it. The quotient has room for all of its bits. -/
def start (a b : Integer) : Action LongDivision := do
  let shift ← unsignedDifference a.bits b.bits
  let quotient ← (Integer.ensureCapacity (← unsigned64 (shift + 1))).applyTo .zero
  let remainder := (← a.copy).unsigned
  let divisor ← (Integer.shiftLeft shift).applyTo (← b.copy).unsigned
  pure { quotient, remainder, divisor, subtractions := 0 }

end LongDivision

namespace Integer

/-- Divide two magnitudes, the first larger than the second and the second more than one. There is a
step for each place that the divisor is moved down to, the highest first. -/
def divideLong (a b : Integer) : Action Division := do
  let places ← unsigned64 ((← unsignedDifference a.bits b.bits) + 1)
  let aligned ← LongDivision.start a b
  let done ← aligned.steps (List.range places).reverse
  Action.record (.division a.bits b.bits places done.subtractions)
  pure done.toDivision

/-- Quotient and remainder of `|a|` by `|b|`. -/
def divideMagnitudes (a b : Integer) : Action Division := do
  if b.isZero then
    throw (.error .divisionByZero)
  else if a.isZero then
    pure { quotient := zero, remainder := zero }
  else if b.bits = 1 then
    pure { quotient := (← a.copy).unsigned, remainder := zero }
  else
    match ← a.compareMagnitudes b with
    | .eq => pure { quotient := ← zero.setUnsigned 1, remainder := zero }
    | .lt => pure { quotient := zero, remainder := (← a.copy).unsigned }
    | .gt => divideLong a b

/-- Quotient, rounded toward zero, and remainder of `a` by `b`; the remainder has the sign of
`a`. -/
def divide (a b : Integer) : Action Division := do
  let division ← divideMagnitudes a b
  pure {
    quotient := division.quotient.withSign (a.isNegative ^^ b.isNegative)
    remainder := division.remainder.withSign a.isNegative }

end Integer

end Multiword
