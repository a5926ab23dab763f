import Multiword.Words.Basic

/-!
# Quotients by one word

Division by a word runs from the highest word down. The remainder so far is below the divisor, so
together with the next word it divides to a single word.
-/

set_option autoImplicit false

namespace Multiword

/-- Quotient and remainder of the two words `high`, `low` by `divisor`, for `high` below
`divisor`. -/
def Word.divideDouble (high low divisor : Word) : Checked (Word × Word) := do
  require (high < divisor) .brokenPromise
  let dividend := Word.double high low
  pure (UInt32.ofNat (dividend / divisor.toNat), UInt32.ofNat (dividend % divisor.toNat))

namespace Words

/-- Divide from the top: the words above are done first, and hand down their remainder. -/
def divideDown (divisor : Word) : List Word → Checked (List Word × Word)
  | [] => pure ([], 0)
  | w :: ws => do
    let (quotients, remainder) ← divideDown divisor ws
    let (quotient, remainder) ← Word.divideDouble remainder w divisor
    pure (quotient :: quotients, remainder)

/-- `a / divisor` in the words of `a`, and the remainder. -/
def divideWord (a : List Word) (divisor : Word) : Checked (List Word × Word) := do
  require (divisor ≠ 0) .zeroDivisor
  divideDown divisor a

end Words

end Multiword
