import Multiword.Fault

/-!
# Words

A magnitude is written in base `2 ^ 32`, the least significant digit first. Its digits are *words*,
and `Words.toNat` is the number that a list of them stands for: every operation on words is meant,
and described, through it. High words may be zero, so many lists stand for one number.

Reading and writing at a position, or over a range of positions, is checked.
-/

set_option autoImplicit false

namespace Multiword

/-- One digit of a magnitude: an unsigned number of 32 bits. -/
abbrev Word := UInt32

/-- The base of the notation, `2 ^ 32`: the number of words that there are. -/
def radix : Nat := UInt32.size

theorem radix_eq : radix = 4294967296 := rfl

theorem radix_pos : 0 < radix := by decide

/-- The number of bits up to the highest one that is set, `0` for zero. -/
def bitLength (n : Nat) : Nat :=
  if n = 0 then 0 else n.log2 + 1

namespace Word

theorem toNat_lt_radix (w : Word) : w.toNat < radix := w.toNat_lt

/-- The number of bits up to the highest one that is set, `0` for zero. -/
def bitLength (w : Word) : Nat := Multiword.bitLength w.toNat

/-- The position of the lowest bit that is set; zero has none. -/
def lowestBit? (w : Word) : Option Nat :=
  (List.range 32).find? fun i => w.toNat.testBit i

/-- The number of two words, written high then low. -/
def double (high low : Word) : Nat :=
  low.toNat + radix * high.toNat

end Word

namespace Words

/-- The number that a list of words stands for, the least significant word first. -/
def toNat : List Word → Nat
  | [] => 0
  | w :: ws => w.toNat + radix * toNat ws

/-! ## Bits and order -/

/-- The number of bits up to the highest one that is set, `0` if every word is zero. -/
def bitLength : List Word → Nat
  | [] => 0
  | w :: ws =>
    match bitLength ws with
    | 0 => w.bitLength
    | n + 1 => n + 1 + 32

/-- The position of the lowest bit that is set; there is none if every word is zero. -/
def lowestBit? : List Word → Option Nat
  | [] => none
  | w :: ws =>
    match w.lowestBit? with
    | some i => some i
    | none => (lowestBit? ws).map (· + 32)

/-- Order of two lists of one length: the highest word that differs decides. -/
def compareAligned : List Word → List Word → Ordering
  | a :: as, b :: bs => (compareAligned as bs).then (Ord.compare a b)
  | _, _ => .eq

/-- Order of two magnitudes without a zero top word: the longer one is the larger, and between
equal lengths the highest word that differs decides. -/
def compare (a b : List Word) : Checked Ordering := do
  require (a.getLast? ≠ some 0) .brokenPromise
  require (b.getLast? ≠ some 0) .brokenPromise
  pure ((Ord.compare a.length b.length).then (compareAligned a b))

/-! ## Positions and ranges -/

/-- The word at position `i`. -/
def read (ws : List Word) (i : Nat) : Checked Word :=
  match ws[i]? with
  | some w => .ok w
  | none => .error .outOfRange

/-- Put `w` at position `i`. -/
def write (ws : List Word) (i : Nat) (w : Word) : Checked (List Word) :=
  if i < ws.length then .ok (ws.set i w) else .error .outOfRange

/-- The `n` lowest words. -/
def low (ws : List Word) (n : Nat) : Checked (List Word) :=
  if n ≤ ws.length then .ok (ws.take n) else .error .outOfRange

/-- Change the `n` lowest words by `f`, which also gives a result. -/
def onLow {α : Type} (ws : List Word) (n : Nat) (f : List Word → Checked (List Word × α)) :
    Checked (List Word × α) := do
  let front ← low ws n
  let (front, result) ← f front
  pure (front ++ ws.drop n, result)

/-- Replace the lowest words by `new`. -/
def overwrite (ws new : List Word) : Checked (List Word) :=
  if new.length ≤ ws.length then .ok (new ++ ws.drop new.length) else .error .outOfRange

/-- Make the words from `start` up to, but not including, `stop` zero. -/
def clear (ws : List Word) (start stop : Nat) : Checked (List Word) :=
  if start ≤ stop ∧ stop ≤ ws.length then
    .ok (ws.take start ++ List.replicate (stop - start) 0 ++ ws.drop stop)
  else .error .outOfRange

/-! ## The number of a list of words -/

@[simp] theorem toNat_nil : toNat [] = 0 := rfl

@[simp] theorem toNat_cons (w : Word) (ws : List Word) :
    toNat (w :: ws) = w.toNat + radix * toNat ws := rfl

/-- Zero words stand for zero. -/
@[simp] theorem toNat_replicate_zero (n : Nat) : toNat (List.replicate n 0) = 0 := by
  induction n with
  | zero => rfl
  | succ n ih => simp [List.replicate_succ, ih]

end Words

end Multiword
