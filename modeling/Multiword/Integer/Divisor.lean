import Multiword.Integer.Sum

/-!
# Common divisors

The greatest common divisor of two magnitudes is found by shifts and subtractions. The common power
of two is taken out once and put back at the end. Each round makes both numbers odd, orders them,
and replaces the larger by half the difference; that is shorter by a bit at least, so the bit counts
of both bound the number of rounds. No round needs more room than there is, and neither does putting
back the power of two: the result divides both operands.

By convention the result is zero if one operand is zero.
-/

set_option autoImplicit false

namespace Multiword

namespace Integer

open ActionOn (current replace)

/-- Take out the power of two; zero stays zero. -/
def oddPart (x : Integer) : Checked Integer := do
  x.shiftRight ((← x.lowestBit?).getD 0)

/-- Halve the distance of two numbers until it is zero. The other number is then the greatest common
divisor of both, up to a power of two; the result is that number and how many rounds there were,
counted from `rounds`. There are at most `limit` rounds. -/
def gcdRounds (limit : Nat) (u v : Integer) (rounds : Nat) : Action (Integer × Nat) := do
  if u.isZero then
    pure (v, rounds)
  else
    match limit with
    | 0 => throw (.fault .brokenPromise)
    | limit + 1 =>
      let u ← u.oddPart
      let v ← v.oddPart
      let (greater, less) := match ← u.compareMagnitudes v with
        | .lt => (v, u)
        | _ => (u, v)
      let distance ← (subMagnitudes .dest (.value less)).applyTo greater
      let distance ← distance.shiftRight 1
      gcdRounds limit distance less (← unsigned64 (rounds + 1))

/-- The greatest common divisor of two magnitudes, neither of them zero. Both integers are used
up. -/
def gcd (u v : Integer) : Action Integer := do
  require (!u.isZero && !v.isZero) .brokenPromise
  let u := u.unsigned
  let v := v.unsigned
  let shift := min ((← u.lowestBit?).getD 0) ((← v.lowestBit?).getD 0)
  let u ← u.shiftRight shift
  let v ← v.shiftRight shift
  let (odd, rounds) ← gcdRounds (u.bits + v.bits) u v 0
  Action.record (.commonDivisor rounds shift)
  let divisor ← (shiftLeft shift).applyTo odd
  pure divisor.unsigned

/-- The destination becomes the greatest common divisor of `|a|` and `|b|`, or zero if one of them
is zero. Equal magnitudes are their own greatest common divisor. -/
def gcdMagnitudes (a b : Operand) : Update Unit := do
  let x ← current
  let left := a.resolve x
  let right := b.resolve x
  if ← left.sameMagnitude right then
    match a, b with
    | .value a, .value _ => copyFrom a
    | _, _ => pure ()
    replace (← current).unsigned
  else if left.isZero || right.isZero then
    replace (← x.cleared)
  else
    let u ← left.copy
    let v ← right.copy
    replace (← gcd u v)

end Integer

end Multiword
