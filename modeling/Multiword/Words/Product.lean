import Multiword.Words.Basic

/-!
# Products with one word

A product of two words and a carry below `2 ^ 32` fits an unsigned 64-bit accumulator, also with
another word added on top: `(2 ^ 32 - 1) ^ 2 + 2 * (2 ^ 32 - 1) = 2 ^ 64 - 1`. The carry handed on
is below `2 ^ 32` again.
-/

set_option autoImplicit false

namespace Multiword

namespace Word

/-- The low word of `carry + a * b`, and the rest as the next carry. -/
def mulCarry (a b : Word) (carry : Nat) : Checked (Word × Nat) := do
  let product ← unsigned64 (a.toNat * b.toNat)
  let sum ← unsigned64 (carry + product)
  pure (UInt32.ofNat sum, sum / radix)

/-- The low word of `carry + a + b * c`, and the rest as the next carry. -/
def mulAddCarry (a b c : Word) (carry : Nat) : Checked (Word × Nat) := do
  let sum ← unsigned64 (carry + a.toNat)
  let product ← unsigned64 (b.toNat * c.toNat)
  let sum ← unsigned64 (sum + product)
  pure (UInt32.ofNat sum, sum / radix)

end Word

namespace Words

/-- Multiply every word by `c`, carrying upward. -/
def mulWithCarry (c : Word) : List Word → Nat → Checked (List Word × Nat)
  | [], carry => pure ([], carry)
  | w :: ws, carry => do
    let (w, carry) ← w.mulCarry c carry
    let (ws, carry) ← mulWithCarry c ws carry
    pure (w :: ws, carry)

/-- `a * c` in the words of `a`, and the carry out of the top. -/
def mulWord (a : List Word) (c : Word) : Checked (List Word × Word) := do
  let (product, carry) ← mulWithCarry c a 0
  pure (product, UInt32.ofNat carry)

/-- Add `c` times the words of `b` onto those of `sum`, carrying upward. -/
def mulAddWithCarry (c : Word) : List Word → List Word → Nat → Checked (List Word × Nat)
  | a :: as, b :: bs, carry => do
    let (w, carry) ← a.mulAddCarry b c carry
    let (ws, carry) ← mulAddWithCarry c as bs carry
    pure (w :: ws, carry)
  | sum, _, carry => pure (sum, carry)

/-- `sum + b * c` in the words of `sum`, which are as many as those of `b`, and the carry out of
the top. A zero `c` leaves everything as it is. -/
def mulAddInto (sum b : List Word) (c : Word) : Checked (List Word × Word) := do
  require (sum.length = b.length) .brokenPromise
  if c = 0 then
    pure (sum, 0)
  else
    let (sum, carry) ← mulAddWithCarry c sum b 0
    pure (sum, UInt32.ofNat carry)

/-- One row of a product for each word of `b`, the lowest first. A row adds `a * digit` onto the
low words and puts its carry into the word above them. After that the lowest word is final, and
the next row starts one word higher. -/
def mulRows (a : List Word) : List Word → List Word → Checked (List Word)
  | [], sum => pure sum
  | digit :: digits, sum => do
    let (sum, carry) ← onLow sum a.length (mulAddInto · a digit)
    match ← write sum a.length carry with
    | [] => .error .outOfRange
    | lowest :: higher => do
      let rest ← mulRows a digits higher
      pure (lowest :: rest)

end Words

end Multiword
