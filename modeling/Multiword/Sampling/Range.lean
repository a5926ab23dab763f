import Multiword.Integer.Operator
import Multiword.Sampling.Bits

/-!
# Random integers of a range

An integer of `[low, high)` is `low` plus one below `high - low`. A sampler keeps `low` and the
distance, so that they are worked out once for many draws. Whichever way a range is drawn from, the
same bytes give the same integer.
-/

set_option autoImplicit false

namespace Multiword

namespace Draw

/-- An integer of `[low, high)`, which must have one. -/
def range (low high : Integer) : Draw Integer := do
  match ← low.compare high with
  | .lt =>
    if low.isZero then
      below high
    else
      let offset ← below (← Operator.sub.apply .neither high low)
      Operator.add.apply .right low offset
  | _ => throw .nothingToDraw

/-- An integer of `[low, high)`; a range without one is reported. -/
def single (low high : Integer) : Draw Integer := do
  match ← low.compare high with
  | .lt => range low high
  | _ => throw .emptyRange

end Draw

/-- A range prepared for many draws. -/
structure Sampler where
  base : Integer
  /-- The number of integers in the range. -/
  width : Integer
  deriving DecidableEq, Repr

namespace Sampler

/-- A sampler of `[low, high)`. -/
def halfOpen (low high : Integer) : Action Sampler := do
  match ← low.compare high with
  | .lt =>
    let width ← Operator.sub.apply .neither high low
    let base ← low.copyOrAbort
    pure { base, width }
  | _ => throw .emptyRange

/-- A sampler of `[low, high]`. -/
def closed (low high : Integer) : Action Sampler := do
  match ← low.compare high with
  | .gt => throw .emptyRange
  | _ => halfOpen low (← Operator.add.apply .neither high (← Integer.ofSigned 1))

/-- Draw from the range. -/
def draw (sampler : Sampler) : Draw Integer := do
  let offset ← Draw.below sampler.width
  Operator.add.apply .right sampler.base offset

end Sampler

/-- What is to be drawn; `α` says how bounds are given. -/
inductive Request (α : Type) where
  /-- Not negative, of at most so many bits. -/
  | bits (bits : Nat)
  /-- Of at most so many bits, with a random sign. -/
  | signedBits (bits : Nat)
  /-- Not negative, below the magnitude of the bound. -/
  | below (bound : α)
  /-- In `[low, high)`. -/
  | range (low high : α)
  /-- In `[low, high)` or `[low, high]`, with the range worked out for each draw. -/
  | single (low high : α) (inclusive : Bool)
  /-- In `[low, high)` or `[low, high]`, with a sampler made once. -/
  | sampler (low high : α) (inclusive : Bool)
  deriving DecidableEq, Repr

namespace Request

/-- Give the bounds in another way. -/
def map {α β : Type} (f : α → β) : Request α → Request β
  | .bits n => .bits n
  | .signedBits n => .signedBits n
  | .below bound => .below (f bound)
  | .range low high => .range (f low) (f high)
  | .single low high inclusive => .single (f low) (f high) inclusive
  | .sampler low high inclusive => .sampler (f low) (f high) inclusive

/-- Draw once from a range that must have an integer. -/
def drawSingle (low high : Integer) (inclusive : Bool) : Draw Integer := do
  let order ← low.compare high
  if inclusive then
    if order = .gt then
      throw .nothingToDraw
    let sampler ← Sampler.closed low high
    sampler.draw
  else
    if order ≠ .lt then
      throw .nothingToDraw
    Draw.single low high

/-- Prepare a request: the result draws once for each time that it is run. -/
def prepare : Request Integer → Action (Draw Integer)
  | .bits n => pure (Draw.magnitude n)
  | .signedBits n => pure (Draw.signed n)
  | .below bound => pure (Draw.below bound)
  | .range low high => pure (Draw.range low high)
  | .single low high inclusive => pure (drawSingle low high inclusive)
  | .sampler low high inclusive => do
    let sampler ← if inclusive then Sampler.closed low high else Sampler.halfOpen low high
    pure sampler.draw

/-- Prepare a request and draw once. -/
def draw (request : Request Integer) : Draw Integer := do
  let prepared ← request.prepare
  prepared

end Request

end Multiword
