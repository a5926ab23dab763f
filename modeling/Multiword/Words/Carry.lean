import Multiword.Words.Basic

/-!
# Carry and borrow

Sums and differences run from the lowest word up. What does not fit into a word is handed to the
next one: a carry in an unsigned 64-bit accumulator, a borrow as a negative value in a signed one.
What is left over at the top is the result beside the words.
-/

set_option autoImplicit false

namespace Multiword

namespace Word

/-- The low word of `carry + a + b`, and the rest as the next carry. -/
def addCarry (a b : Word) (carry : Nat) : Checked (Word × Nat) := do
  let sum ← unsigned64 (carry + a.toNat)
  let sum ← unsigned64 (sum + b.toNat)
  pure (UInt32.ofNat sum, sum / radix)

/-- The low word of `borrow + a - b`, and the rest, rounded down, as the next borrow. -/
def subBorrow (a b : Word) (borrow : Int) : Checked (Word × Int) := do
  let difference ← signed64 (borrow + a.toNat)
  let difference ← signed64 (difference - b.toNat)
  pure (UInt32.ofInt difference, difference / radix)

end Word

namespace Words

/-! ## Sums -/

/-- Hand a carry upward for as long as there is one. -/
def propagateCarry : List Word → Nat → Checked (List Word × Nat)
  | [], carry => pure ([], carry)
  | w :: ws, carry =>
    if carry = 0 then
      pure (w :: ws, 0)
    else do
      let (w, carry) ← w.addCarry 0 carry
      let (ws, carry) ← propagateCarry ws carry
      pure (w :: ws, carry)

/-- Add `b` onto the low words of `a`; above the end of `b` only the carry moves on. -/
def addWithCarry : List Word → List Word → Nat → Checked (List Word × Nat)
  | a, [], carry => propagateCarry a carry
  | [], _ :: _, _ => .error .outOfRange
  | a :: as, b :: bs, carry => do
    let (w, carry) ← a.addCarry b carry
    let (ws, carry) ← addWithCarry as bs carry
    pure (w :: ws, carry)

/-- `a + b` in the words of `a`, which are at least as many, and the carry out of the top. -/
def addInto (a b : List Word) : Checked (List Word × Word) := do
  require (b.length ≤ a.length) .brokenPromise
  let (sum, carry) ← addWithCarry a b 0
  pure (sum, UInt32.ofNat carry)

/-! ## Differences -/

/-- Hand a borrow upward for as long as there is one. -/
def propagateBorrow : List Word → Int → Checked (List Word × Int)
  | [], borrow => pure ([], borrow)
  | w :: ws, borrow =>
    if borrow = 0 then
      pure (w :: ws, 0)
    else do
      let (w, borrow) ← w.subBorrow 0 borrow
      let (ws, borrow) ← propagateBorrow ws borrow
      pure (w :: ws, borrow)

/-- Take `b` from the low words of `a`; above the end of `b` only the borrow moves on. -/
def subWithBorrow : List Word → List Word → Int → Checked (List Word × Int)
  | a, [], borrow => propagateBorrow a borrow
  | [], _ :: _, _ => .error .outOfRange
  | a :: as, b :: bs, borrow => do
    let (w, borrow) ← a.subBorrow b borrow
    let (ws, borrow) ← subWithBorrow as bs borrow
    pure (w :: ws, borrow)

/-- A borrow that is left over counts as one. -/
def borrowWord (borrow : Int) : Word :=
  if borrow = 0 then 0 else 1

/-- `a - b` in the words of `a`, which are at least as many, and whether `b` was the larger. -/
def subInto (a b : List Word) : Checked (List Word × Word) := do
  require (b.length ≤ a.length) .brokenPromise
  let (difference, borrow) ← subWithBorrow a b 0
  pure (difference, borrowWord borrow)

/-- Take the low words of `b` from `a`; the words of `b` above the end of `a` stay. -/
def subReversed : List Word → List Word → Int → Checked (List Word × Int)
  | [], b, borrow => pure (b, borrow)
  | _ :: _, [], _ => .error .outOfRange
  | a :: as, b :: bs, borrow => do
    let (w, borrow) ← a.subBorrow b borrow
    let (ws, borrow) ← subReversed as bs borrow
    pure (w :: ws, borrow)

/-- `a - b` in the words of `b`, which are at least as many and zero above the end of `a`, and
whether `b` was the larger. -/
def subFrom (a b : List Word) : Checked (List Word × Word) := do
  require (a.length ≤ b.length) .brokenPromise
  require ((b.drop a.length).all (· == 0)) .brokenPromise
  let (difference, borrow) ← subReversed a b 0
  pure (difference, borrowWord borrow)

end Words

end Multiword
