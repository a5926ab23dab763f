import Multiword.Integer.Basic
import Multiword.Text.Layout
import Multiword.Words.Quotient

/-!
# Writing integers

Decimal digits come from repeated division by `10 ^ 9`, nine digits at a time; hexadecimal digits
are those of the words, eight at a time. The highest group is written without zeros in front, all
others with them.
-/

set_option autoImplicit false

namespace Multiword

namespace Words

/-- The words up to the highest that is not zero. -/
def trimmed (ws : List Word) : List Word :=
  (ws.reverse.dropWhile (· == 0)).reverse

/-- The digits in base `10 ^ 9`, the lowest first. Two divisions make the top word zero, so twice as
many divisions as words are enough. -/
def decimalGroups : Nat → List Word → Checked (List Word)
  | _, [] => pure []
  | 0, _ :: _ => .error .brokenPromise
  | limit + 1, w :: ws => do
    let (quotient, remainder) ← divideWord (w :: ws) 1000000000
    let groups ← decimalGroups limit (trimmed quotient)
    pure (remainder :: groups)

end Words

/-- Digits with zeros in front, up to `width` characters. -/
def zeroPadded (width : Nat) (digits : List Char) : List Char :=
  List.replicate (width - digits.length) '0' ++ digits

/-- The text of a number whose digits in base `radix ^ width` are `groups`, the lowest first: only
the highest group goes without zeros in front. -/
def joinGroups (radix width : Nat) (groups : List Word) : List Char :=
  match groups.reverse with
  | [] => ['0']
  | top :: rest =>
    Nat.toDigits radix top.toNat ++
      rest.flatMap fun group => zeroPadded width (Nat.toDigits radix group.toNat)

namespace Digits

/-- What stands in front of the digits of a radix, where it is asked for. -/
def marker : Digits → List Char
  | .decimal => []
  | .lowerHex | .upperHex => ['0', 'x']

/-- The digits of the number of some words, without zero words at the top. -/
def write : Digits → List Word → Checked (List Char)
  | .decimal, ws => do pure (joinGroups 10 9 (← Words.decimalGroups (2 * ws.length) ws))
  | .lowerHex, ws => pure (joinGroups 16 8 ws)
  | .upperHex, ws => pure ((joinGroups 16 8 ws).map Char.toUpper)

end Digits

namespace Integer

/-- Write an integer. -/
def toText (x : Integer) (layout : Layout) (digits : Digits) : Checked (List Char) := do
  let written ← digits.write (← x.words)
  pure (layout.place x.isNegative digits.marker written)

end Integer

end Multiword
