import Multiword.Integer.Basic

/-!
# Native integers

A native integer of 64 bits lies in the two lowest words. So it is compared with, read from and
written into an integer directly, without a second integer and without growth: the smallest buffer
has four words.
-/

set_option autoImplicit false

namespace Multiword

/-- A native integer type, by its width in bits. -/
inductive NativeType where
  | signed (width : Nat)
  | unsigned (width : Nat)
  deriving DecidableEq, Repr

/-- Whether a native type holds `n`. -/
def NativeType.holds : NativeType → Int → Bool
  | .signed width, n =>
    let half : Int := ((1 <<< (width - 1) : Nat) : Int)
    n < half && -half ≤ n
  | .unsigned width, n => 0 ≤ n && n < ((1 <<< width : Nat) : Int)

namespace Integer

/-- The magnitude, if it takes 64 bits at most. -/
def shortMagnitude? (x : Integer) : Checked (Option Nat) := do
  if 64 < x.bits then
    pure none
  else
    let high ← Words.read x.buffer 1
    let low ← Words.read x.buffer 0
    pure (some (Word.double high low))

/-! ## Comparing -/

/-- Order of a magnitude that may be too long, and a native one. -/
def compareShort : Option Nat → Nat → Ordering
  | some magnitude, n => Ord.compare magnitude n
  | none, _ => .gt

/-- Order of an integer and a signed native one. -/
def compareSigned (x : Integer) (n : Int64) : Checked Ordering := do
  match x.isNegative, decide (n < 0) with
  | false, true => pure .gt
  | true, false => pure .lt
  | negative, _ =>
    let order := compareShort (← x.shortMagnitude?) n.toInt.natAbs
    pure (if negative then order.swap else order)

/-- Order of an integer and an unsigned native one. -/
def compareUnsigned (x : Integer) (n : UInt64) : Checked Ordering := do
  if x.isNegative then
    pure .lt
  else
    pure (compareShort (← x.shortMagnitude?) n.toNat)

/-- Whether an integer equals a signed native one. -/
def equalSigned (x : Integer) (n : Int64) : Checked Bool := do
  pure ((← x.compareSigned n) == .eq)

/-- Order of an integer and a native one of 64 bits at most. It is widened to 64 bits of its own
signedness. -/
def compareWidened (x : Integer) (type : NativeType) (n : Int) : Checked Ordering :=
  match type with
  | .signed _ => x.compareSigned (Int64.ofInt n)
  | .unsigned _ => x.compareUnsigned (UInt64.ofNat n.toNat)

/-- Whether an integer equals such a native one. -/
def equalWidened (x : Integer) (type : NativeType) (n : Int) : Checked Bool := do
  pure ((← x.compareWidened type n) == .eq)

/-! ## Setting -/

/-- The buffer of `x` with the value `n`. -/
def setUnsigned (x : Integer) (n : UInt64) : Checked Integer := do
  let x ← x.cleared
  let buffer ← Words.write x.buffer 0 (UInt32.ofNat n.toNat)
  let buffer ← Words.write buffer 1 (UInt32.ofNat (n.toNat / radix))
  { x with buffer }.normalized 2

/-- The buffer of `x` with the value `n`. -/
def setSigned (x : Integer) (n : Int64) : Checked Integer := do
  let x ← x.setUnsigned (UInt64.ofNat n.toInt.natAbs)
  pure (x.withSign (n < 0))

/-- A new integer of the value `n`. -/
def ofUnsigned (n : UInt64) : Checked Integer := zero.setUnsigned n

/-- A new integer of the value `n`. -/
def ofSigned (n : Int64) : Checked Integer := zero.setSigned n

/-- A native integer of any width goes through 64 bits of its own signedness, or not at all. -/
def ofNative? (type : NativeType) (n : Int) : Checked (Option Integer) := do
  match type with
  | .signed _ =>
    if (NativeType.signed 64).holds n then some <$> ofSigned (Int64.ofInt n) else pure none
  | .unsigned _ =>
    if (NativeType.unsigned 64).holds n then some <$> ofUnsigned (UInt64.ofNat n.toNat)
    else pure none

/-! ## Reading -/

/-- The value, if it is a signed native integer. -/
def toSigned? (x : Integer) : Checked (Option Int64) := do
  let some magnitude ← x.shortMagnitude? | pure none
  let value : Int := if x.isNegative then -magnitude else magnitude
  pure (if (NativeType.signed 64).holds value then some (Int64.ofInt value) else none)

/-- The value, if it is an unsigned native integer. -/
def toUnsigned? (x : Integer) : Checked (Option UInt64) := do
  if x.isNegative then
    pure none
  else
    pure ((← x.shortMagnitude?).map UInt64.ofNat)

/-- The value as a native integer of any width, read through 64 bits of its own signedness. -/
def toNative? (x : Integer) (type : NativeType) : Checked (Option Int) := do
  let value ← match type with
    | .signed _ => pure ((← x.toSigned?).map Int64.toInt)
    | .unsigned _ => pure ((← x.toUnsigned?).map fun n => (n.toNat : Int))
  pure (value.filter type.holds)

end Integer

end Multiword
