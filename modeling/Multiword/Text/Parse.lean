import Multiword.Integer.Storage
import Multiword.Words.Carry
import Multiword.Words.Product

/-!
# Reading integers

A text is an optional `-`, then digits: hexadecimal after `0x` or `0X`, decimal otherwise. Digits
are read from the left in groups as long as the scale of a group fits a word. A whole group is
looked at before it is multiplied in, and a shorter group remains at the end.
-/

set_option autoImplicit false

namespace Multiword

/-- The value of a digit; letters may be of either case. -/
def digitValue? (radix : Nat) (c : Char) : Option Nat :=
  let value? :=
    if '0' ≤ c ∧ c ≤ '9' then some (c.toNat - '0'.toNat)
    else if 'a' ≤ c ∧ c ≤ 'z' then some (c.toNat - 'a'.toNat + 10)
    else if 'A' ≤ c ∧ c ≤ 'Z' then some (c.toNat - 'A'.toNat + 10)
    else none
  value?.filter (· < radix)

/-- Whether a text starts with `-`, and the rest. -/
def splitSign : List Char → Bool × List Char
  | '-' :: rest => (true, rest)
  | text => (false, text)

/-- The radix that a text without a sign announces, and the digits. -/
def splitRadix : List Char → Nat × List Char
  | '0' :: 'x' :: digits | '0' :: 'X' :: digits => (16, digits)
  | digits => (10, digits)

/-- The length of a group of digits: the largest whose scale fits a word for both radices. -/
def groupSize (radix : Nat) : Nat := if radix = 16 then 7 else 9

/-- Digits that are multiplied in together. -/
structure DigitGroup where
  length : Nat
  /-- What the digits in front of the group are multiplied by: the radix to the length. -/
  scale : Nat
  /-- The number that the digits stand for. -/
  value : Nat
  deriving DecidableEq, Repr

namespace DigitGroup

/-- No digits yet. -/
def empty : DigitGroup := { length := 0, scale := 1, value := 0 }

/-- One more digit at the end. -/
def push (group : DigitGroup) (radix digit : Nat) : DigitGroup where
  length := group.length + 1
  scale := group.scale * radix
  value := group.value * radix + digit

end DigitGroup

namespace Integer

open ActionOn (current replace)

/-- The magnitude becomes `scale` times itself plus `addend`, which is below `scale`. -/
def mulAddWord (scale addend : Word) : Update Unit := do
  require (addend < scale) .brokenPromise
  let before ← current
  ensureCapacity (← unsigned64 (before.bits + scale.bitLength))
  let x ← current
  let size := x.size
  let (buffer, carry) ← Words.onLow x.buffer size (Words.mulWord · scale)
  let buffer ← if carry = 0 then pure buffer else Words.write buffer size carry
  let top := min (← unsigned64 (size + 1)) x.capacity
  let (buffer, carry) ← Words.onLow buffer top (Words.addInto · [addend])
  require (carry = 0) .brokenPromise
  replace (← { x with buffer }.normalized top)

/-- Multiply a group of digits in. -/
def mulAddGroup (group : DigitGroup) : Update Unit := do
  mulAddWord (← unsigned32 group.scale) (← unsigned32 group.value)

/-- Read digits, after those of an unfinished group. -/
def readDigits (radix : Nat) : List Char → DigitGroup → Update Unit
  | [], group => do
    if group.length ≠ 0 then
      mulAddGroup group
  | c :: cs, group => do
    match digitValue? radix c with
    | none => throw (.error .invalidDigit)
    | some digit =>
      let group := group.push radix digit
      if group.length = groupSize radix then
        mulAddGroup group
        readDigits radix cs .empty
      else
        readDigits radix cs group

/-- Read a text. Zero is never negative. -/
def ofText (text : List Char) : Action Integer := do
  let (negative, unsignedText) := splitSign text
  let (radix, digits) := splitRadix unsignedText
  if digits.isEmpty then
    throw (.error .emptyText)
  else
    let x ← (readDigits radix digits .empty).applyTo zero
    pure (x.withSign negative)

end Integer

end Multiword
