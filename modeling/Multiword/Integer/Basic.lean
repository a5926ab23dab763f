import Multiword.Memory
import Multiword.Words.Basic

/-!
# Integers

An integer is a sign and a magnitude. The magnitude lies in the low words of a *buffer*; the length
of the buffer, its capacity, changes only when more room is asked for or when the buffer is given
up. Beside the buffer stands the number of bits in use, so that the words in use are known without
a search.

`Integer.WellFormed` says how the three parts belong together: the bit count is exact, the words
above those in use are zero, and zero is not negative. Operations rely on it, keep it, and do not
repair it.
-/

set_option autoImplicit false

namespace Multiword

/-- A signed integer in a buffer of words. -/
structure Integer where
  /-- The words of the magnitude, the least significant first, and zero words above. -/
  buffer : List Word
  /-- The position of the highest bit that is set, plus one; `0` for zero. -/
  bits : Nat
  negative : Bool
  deriving DecidableEq, Repr

/-- The number of words that `bits` bits take. -/
def wordsFor (bits : Nat) : Nat := (bits + 31) / 32

/-- The capacity of a buffer that needs `words` words: the next multiple of four. -/
def roundedUp (words : Nat) : Nat := (words + 3) / 4 * 4

namespace Integer

/-- Zero in the smallest buffer. -/
def zero : Integer := { buffer := List.replicate 4 0, bits := 0, negative := false }

instance : Inhabited Integer := ⟨zero⟩

/-! ## Meaning -/

/-- The number that the buffer stands for. -/
def magnitude (x : Integer) : Nat := Words.toNat x.buffer

/-- The integer itself. -/
def toInt (x : Integer) : Int := if x.negative then -x.magnitude else x.magnitude

/-- The parts of an integer belong together. -/
structure WellFormed (x : Integer) : Prop where
  buffer_pos : 0 < x.buffer.length
  four_dvd : 4 ∣ x.buffer.length
  /-- The bit count is that of the magnitude; so it fits the buffer, and the highest word in use is
  not zero. -/
  bits_eq : x.bits = bitLength x.magnitude
  /-- The bit count is a machine count, of 64 bits. -/
  bits_lt : x.bits < UInt64.size
  /-- Above the words in use there are zeros. -/
  high_zero : ∀ w ∈ x.buffer.drop (wordsFor x.bits), w = 0
  /-- Zero has no sign. -/
  sign : x.bits = 0 → x.negative = false

/-! ## Reading -/

/-- The size of the buffer in words. -/
def capacity (x : Integer) : Nat := x.buffer.length

/-- The number of words in use. -/
def size (x : Integer) : Nat := wordsFor x.bits

/-- The words in use. -/
def words (x : Integer) : Checked (List Word) := Words.low x.buffer x.size

/-- Zero is the integer without bits. -/
def isZero (x : Integer) : Bool := x.bits == 0

/-- Whether the integer is below zero. -/
def isNegative (x : Integer) : Bool := x.negative && x.bits != 0

/-- Whether the magnitude is odd; its lowest bit decides. -/
def isOdd (x : Integer) : Checked Bool := do
  let lowest ← Words.read x.buffer 0
  pure (lowest % 2 == 1)

/-- Whether the magnitude is even, as zero is. -/
def isEven (x : Integer) : Checked Bool := do
  pure !(← x.isOdd)

/-- The position of the lowest bit that is set; zero has none. -/
def lowestBit? (x : Integer) : Checked (Option Nat) := do
  pure (Words.lowestBit? (← x.words))

/-- Whether bit `n` of the magnitude is set. -/
def testBit (x : Integer) (n : Nat) : Checked Bool := do
  if n < x.bits then
    let word ← Words.read x.buffer (n / 32)
    pure (word.toNat.testBit (n % 32))
  else
    pure false

/-! ## Sign, zero, and the bit count -/

/-- Flip the sign; zero has none. -/
def negate (x : Integer) : Integer :=
  if x.bits = 0 then x else { x with negative := !x.negative }

/-- Set the sign; zero has none. -/
def withSign (x : Integer) (negative : Bool) : Integer :=
  { x with negative := negative && x.bits != 0 }

/-- The same magnitude without a sign. -/
def unsigned (x : Integer) : Integer := { x with negative := false }

/-- Zero in the same buffer. -/
def cleared (x : Integer) : Checked Integer := do
  let buffer ← Words.clear x.buffer 0 x.size
  pure { buffer, bits := 0, negative := false }

/-- Zero in a buffer of the smallest size. -/
def released (_ : Integer) : Integer := zero

/-- Count the bits of the words below `top`, above which all are zero. A value that turns out to be
zero loses its sign. -/
def normalized (x : Integer) (top : Nat) : Checked Integer := do
  let top := min top x.capacity
  require ((x.buffer.drop top).all (· == 0)) .brokenPromise
  let bits := Words.bitLength (x.buffer.take top)
  pure { x with bits, negative := x.negative && bits != 0 }

end Integer

/-- A computation that changes an integer, its destination. -/
abbrev Update (α : Type) := ActionOn Integer α

/-- One operand of a computation with a destination. -/
inductive Operand where
  /-- The destination itself, with the value that it has before the computation. -/
  | dest
  /-- Another integer. -/
  | value (x : Integer)
  deriving DecidableEq, Repr

/-- The integer that an operand names, for the destination `dest`. -/
def Operand.resolve (dest : Integer) : Operand → Integer
  | .dest => dest
  | .value x => x

@[simp] theorem Operand.resolve_dest (dest : Integer) : Operand.dest.resolve dest = dest := rfl

@[simp] theorem Operand.resolve_value (dest x : Integer) : (Operand.value x).resolve dest = x := rfl

end Multiword
