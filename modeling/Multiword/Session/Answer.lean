import Multiword.Integer.Encoding
import Multiword.Integer.Native
import Multiword.Integer.Order
import Multiword.Text.Print

/-!
# Answers

What a session answers to a question: all that can be read off one integer, and how two integers, or
an integer and a native one, compare.
-/

set_option autoImplicit false

namespace Multiword

/-- What there is to know about one integer. -/
structure Properties where
  zero : Bool
  one : Bool
  negative : Bool
  odd : Bool
  even : Bool
  bits : Nat
  capacity : Nat
  byteSize : Nat
  lowestBit : Option Nat
  words : List Word
  decimal : List Char
  bytes : List UInt8
  deriving DecidableEq, Repr

/-- How two integers compare. -/
structure Comparison where
  order : Ordering
  magnitudes : Ordering
  equal : Bool
  sameMagnitude : Bool
  deriving DecidableEq, Repr

/-- How an integer and a native one compare: as the native type says, and by each of the two 64-bit
comparisons that the native integer fits. -/
structure NativeComparison where
  order : Ordering
  equal : Bool
  signed : Option Ordering
  equalSigned : Option Bool
  unsigned : Option Ordering
  deriving DecidableEq, Repr

/-- What a step answers. -/
inductive Answer where
  /-- The step is done, and the registers show the rest. -/
  | done
  /-- There is no such integer. -/
  | absent
  | properties (properties : Properties)
  | bytes (bytes : List UInt8)
  | truth (value : Bool)
  | natives (values : List (Option Int))
  | comparison (comparison : Comparison)
  | nativeComparison (comparison : NativeComparison)
  deriving DecidableEq, Repr

namespace Integer

/-- What there is to know about an integer. -/
def properties (x : Integer) : Checked Properties := do
  pure {
    zero := x.isZero
    one := ← x.equalWidened (.signed 32) 1
    negative := x.isNegative
    odd := ← x.isOdd
    even := ← x.isEven
    bits := x.bits
    capacity := x.capacity
    byteSize := x.byteSize
    lowestBit := ← x.lowestBit?
    words := ← x.words
    decimal := ← x.toText .bare .decimal
    bytes := ← x.toBytes }

/-- Compare with a native integer. -/
def compareNative (x : Integer) (type : NativeType) (n : Int) : Checked NativeComparison := do
  let signed := Int64.ofInt n
  let unsigned := UInt64.ofNat n.toNat
  let order ← x.compareWidened type n
  let equal ← x.equalWidened type n
  let signedOrder ← if (NativeType.signed 64).holds n then
      some <$> x.compareSigned signed
    else pure none
  let equalSigned ← if (NativeType.signed 64).holds n then
      some <$> x.equalSigned signed
    else pure none
  let unsignedOrder ← if (NativeType.unsigned 64).holds n then
      some <$> x.compareUnsigned unsigned
    else pure none
  pure { order, equal, signed := signedOrder, equalSigned, unsigned := unsignedOrder }

end Integer

end Multiword
