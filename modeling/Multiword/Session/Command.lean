import Multiword.Integer.Native
import Multiword.Integer.Operator
import Multiword.Sampling.Range

/-!
# Commands

A machine works on a bank of integers, its registers. A command names the registers that it reads
and the ones that take its results; whatever the library offers can be asked for by a command.

A session is what a machine of six registers does.
-/

set_option autoImplicit false

namespace Multiword

/-- What can be made of two operands with a destination. -/
inductive Combination where
  | addMagnitudes
  | subMagnitudes
  | mulMagnitudes
  | gcdMagnitudes
  | add
  | sub
  | mul
  deriving DecidableEq, Repr

/-- A change of one integer in place. -/
inductive Edit where
  | negate
  | clear
  | release
  | setSign (negative : Bool)
  | setUnsigned (n : UInt64)
  | setSigned (n : Int64)
  | shiftLeft (n : Nat)
  | shiftRight (n : Nat)
  /-- A shift left where there is no way to report. -/
  | shiftLeftOrAbort (n : Nat)
  | setBit (n : Nat)
  | loadBytes (bytes : List UInt8)
  | loadWords (words : List Word)
  deriving DecidableEq

/-- A new integer that does not come from another one. -/
inductive Origin where
  | zero
  | text (text : List Char)
  | bytes (bytes : List UInt8)
  | words (words : List Word)
  | unsigned (n : UInt64)
  | signed (n : Int64)
  /-- A native integer of any width, which may be too long. -/
  | native (type : NativeType) (n : Int)
  deriving DecidableEq

namespace Machine

/-- One of the integers of a machine. -/
abbrev Register (size : Nat) := Fin size

/-- A question about integers. -/
inductive Query (size : Nat) where
  | properties (a : Register size)
  | hash (a : Register size)
  | testBit (a : Register size) (n : Nat)
  /-- Write the magnitude into an output of `length` bytes. -/
  | writeBytes (a : Register size) (length : Nat)
  | toNative (a : Register size) (types : List NativeType)
  | compare (a b : Register size)
  | compareNative (a : Register size) (type : NativeType) (n : Int)
  deriving DecidableEq

/-- One step of a machine. `x` takes the result, or `q` and `r` take quotient and remainder. An
operand that is owned is a copy made for the step, and the copy is used up. -/
inductive Command (size : Nat) where
  | combine (op : Combination) (x a b : Register size)
  | edit (x : Register size) (edit : Edit)
  | create (x : Register size) (origin : Origin)
  | copyFrom (x a : Register size)
  | swap (x y : Register size)
  /-- A new copy, made where there is a way to report or where there is none. -/
  | copy (x a : Register size) (reports : Bool)
  /-- Division of magnitudes; a result that is not asked for is dropped. -/
  | divideMagnitudes (q r : Option (Register size)) (ownership : Ownership) (a b : Register size)
  | divide (q r a b : Register size)
  | gcd (ownership : Ownership) (x a b : Register size)
  | operate (op : Operator) (ownership : Ownership) (x a b : Register size)
  /-- `x` becomes the result of itself and a copy of `b`. -/
  | assign (op : Operator) (x b : Register size)
  | negate (x a : Register size) (owned : Bool)
  | shiftLeft (x a : Register size) (n : Nat) (owned : Bool)
  | shiftRight (x a : Register size) (n : Nat) (owned : Bool)
  /-- The sum of copies of some registers. -/
  | sum (x : Register size) (terms : List (Register size))
  /-- A random integer, from a source of these bytes. -/
  | draw (x : Register size) (request : Request (Register size)) (bytes : List UInt8)
  | ask (query : Query size)
  deriving DecidableEq

end Machine

/-- One of the six integers of a session. -/
abbrev Register := Machine.Register 6

/-- One step of a session. -/
abbrev Command := Machine.Command 6

end Multiword
