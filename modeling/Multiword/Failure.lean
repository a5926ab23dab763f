import Multiword.Fault

/-!
# Errors and failures

A method *reports* an `Error`, and its caller goes on with it. The operators have no way to report:
they *abort* with the same error. These two, a fault, and the ways in which a draw of a random
number can end are the `Failure`s of a computation.
-/

set_option autoImplicit false

namespace Multiword

/-- The causes that methods report. -/
inductive Error where
  /-- A buffer could not grow. The number that was to grow keeps its value. -/
  | growthRefused
  | divisionByZero
  /-- A magnitude of `needed` bytes does not fit an output of `available`. -/
  | bufferTooSmall (needed available : Nat)
  /-- A text holds no digits at all. -/
  | emptyText
  | invalidDigit
  deriving DecidableEq, Repr

namespace Error

/-- The text that goes with an error. -/
def message : Error → String
  | .growthRefused => "big number allocation failed"
  | .divisionByZero => "division by zero"
  | .bufferTooSmall needed available =>
    s!"output buffer too small: {needed} bytes needed, {available} available"
  | .emptyText => "cannot parse big number from empty string"
  | .invalidDigit => "invalid digit found in string"

/-- Every cause lies in the arguments, except for a refused growth. -/
def isInvalidArgument : Error → Bool
  | .growthRefused => false
  | _ => true

end Error

/-- What ends a computation before its result. -/
inductive Failure where
  /-- The computation reports `e`. -/
  | error (e : Error)
  /-- An operator, a copy or a sum gives up because of `e`. -/
  | abort (e : Error)
  /-- An internal check failed. -/
  | fault (f : Fault)
  /-- A sampler is asked for a range without elements. -/
  | emptyRange
  /-- A draw needs a bound, or a range, that has elements. -/
  | nothingToDraw
  /-- There was no room for the number that was drawn. -/
  | noRoomToDraw
  /-- The source of random bytes has too few left. -/
  | exhausted
  deriving DecidableEq, Repr

/-- A result, or the failure that came before it. -/
abbrev Outcome (α : Type) := Except Failure α

/-- A fault in a checked computation is a failure. -/
instance : MonadLift Checked Outcome where
  monadLift checked := checked.mapError Failure.fault

@[simp] theorem mapError_ok {ε ε' α : Type} (f : ε → ε') (a : α) :
    (.ok a : Except ε α).mapError f = .ok a := rfl

@[simp] theorem mapError_error {ε ε' α : Type} (f : ε → ε') (e : ε) :
    (.error e : Except ε α).mapError f = .error (f e) := rfl

namespace Failure

/-- The text that goes with a failure, if it has one. -/
def message? : Failure → Option String
  | .error e | .abort e => some e.message
  | .fault f => f.message?
  | .exhausted => some "rng exhausted"
  | .emptyRange | .nothingToDraw | .noRoomToDraw => none

/-- Where there is no way to report, an error aborts. -/
def aborting : Failure → Failure
  | .error e => .abort e
  | failure => failure

end Failure

end Multiword
