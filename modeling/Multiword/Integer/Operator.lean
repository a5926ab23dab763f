import Multiword.Integer.Divisor
import Multiword.Integer.Product
import Multiword.Integer.Quotient

/-!
# Operators

Operators wrap the computations with a destination for use in expressions. An operand that the
expression owns becomes the destination; where it owns none, the result is built in a new integer.
An operator cannot report an error, so it aborts.
-/

set_option autoImplicit false

namespace Multiword

/-- The operators of two operands. -/
inductive Operator where
  | add
  | sub
  | mul
  | quotient
  | remainder
  deriving DecidableEq, Repr

/-- Which operands an expression owns. -/
inductive Ownership where
  | neither
  | right
  | left
  | both
  deriving DecidableEq, Repr

namespace Ownership

/-- Whether the left operand is owned. -/
def ownsLeft : Ownership → Bool
  | .left | .both => true
  | .neither | .right => false

/-- Whether the right operand is owned. -/
def ownsRight : Ownership → Bool
  | .right | .both => true
  | .neither | .left => false

end Ownership

namespace Operator

open ActionOn (current replace)

/-- The destination becomes the result; an operator of division replaces it as a whole. -/
def into (op : Operator) (a b : Operand) : Update Unit :=
  match op with
  | .add => Integer.add a b
  | .sub => Integer.sub a b
  | .mul => Integer.mul a b
  | .quotient => do
    let x ← current
    replace (← Integer.divide (a.resolve x) (b.resolve x)).quotient
  | .remainder => do
    let x ← current
    replace (← Integer.divide (a.resolve x) (b.resolve x)).remainder

/-- The value of `a op b`, in the destination that the ownership of the operands allows for. -/
def apply (op : Operator) (ownership : Ownership) (a b : Integer) : Action Integer :=
  match ownership with
  | .neither => ((op.into (.value a) (.value b)).applyTo .zero).orAbort
  | .right => ((op.into (.value a) .dest).applyTo b).orAbort
  | .left | .both => ((op.into .dest (.value b)).applyTo a).orAbort

/-- The destination becomes the result of itself and `b`. -/
def assign (op : Operator) (b : Integer) : Update Unit :=
  (op.into .dest (.value b)).orAbort

end Operator

namespace Integer

/-- The greatest common divisor of two magnitudes; `a` is the destination if it is owned. Unlike an
operator it reports. -/
def gcdOf (ownership : Ownership) (a b : Integer) : Action Integer :=
  if ownership.ownsLeft then
    (gcdMagnitudes .dest (.value b)).applyTo a
  else
    (gcdMagnitudes (.value a) (.value b)).applyTo zero

/-- Quotient and remainder of two magnitudes. They are new integers, whichever operands are owned. -/
def divideOf (_ : Ownership) (a b : Integer) : Action Division := divideMagnitudes a b

/-- A copy where there is no way to report. -/
def copyOrAbort (x : Integer) : Action Integer := x.copy.orAbort

/-- The sum of integers, each added onto the sum so far. -/
def sum (xs : List Integer) : Action Integer :=
  xs.foldlM (fun total x => Operator.add.apply .left total x) zero

/-- The integer with the other sign, in its own buffer if the expression owns it. -/
def negated (x : Integer) (owned : Bool) : Action Integer := do
  let x ← if owned then pure x else x.copyOrAbort
  pure x.negate

/-- The integer shifted left, in its own buffer if the expression owns it. -/
def shiftedLeft (x : Integer) (n : Nat) (owned : Bool) : Action Integer := do
  let x ← if owned then pure x else x.copyOrAbort
  ((shiftLeft n).applyTo x).orAbort

/-- The integer shifted right, in its own buffer if the expression owns it. -/
def shiftedRight (x : Integer) (n : Nat) (owned : Bool) : Action Integer := do
  let x ← if owned then pure x else x.copyOrAbort
  x.shiftRight n

end Integer

end Multiword
