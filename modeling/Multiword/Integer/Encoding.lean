import Multiword.Bytes
import Multiword.Integer.Storage

/-!
# Bytes and words of a magnitude

A magnitude is read from bytes, the highest first, or from words, the lowest first; zero digits at
the high end do not count. It is written as bytes, the highest first, without zero bytes in front or
padded with them to a given length. The sign is not part of either form.
-/

set_option autoImplicit false

namespace Multiword

namespace Integer

open ActionOn (current replace)

/-! ## Reading -/

/-- Put a magnitude of `bits` bits, given by its words, in place of the value. -/
def loadMagnitude (words : List Word) (bits : Nat) : Update Unit := do
  ensureCapacity bits
  let x ← (← current).cleared
  let buffer ← Words.overwrite x.buffer words
  replace { x with buffer, bits }

/-- Take over the magnitude that `bytes` stand for, the highest byte first. -/
def loadBytes (bytes : List UInt8) : Update Unit := do
  match bytes.dropWhile (· == 0) with
  | [] => replace (← (← current).cleared)
  | top :: rest =>
    let bits ← unsigned64 (rest.length * 8 + bitLength top.toNat)
    loadMagnitude (Bytes.toWords (top :: rest).reverse) bits

/-- Take over the magnitude that `words` stand for, the lowest word first. -/
def loadWords (words : List Word) : Update Unit := do
  let bits ← unsigned64 (Words.bitLength words)
  loadMagnitude (words.take (wordsFor bits)) bits

/-- A new integer from the bytes of its magnitude, the highest first. -/
def ofBytes (bytes : List UInt8) : Action Integer := (loadBytes bytes).applyTo zero

/-- A new integer from the words of its magnitude, the lowest first. -/
def ofWords (words : List Word) : Action Integer := (loadWords words).applyTo zero

/-! ## Writing -/

/-- The number of bytes that the magnitude takes, `0` for zero. -/
def byteSize (x : Integer) : Nat := (x.bits + 7) / 8

/-- The lowest `count` bytes of the magnitude, the lowest first; there are that many. -/
def lowBytes (x : Integer) (count : Nat) : Checked (List UInt8) := do
  require (count ≤ x.byteSize) .brokenPromise
  (List.range count).mapM fun i => do
    let word ← Words.read x.buffer (i / 4)
    pure (UInt8.ofNat (word.toNat >>> (8 * (i % 4))))

/-- The magnitude as bytes, the highest first, without zero bytes in front; zero is a zero byte. -/
def toBytes (x : Integer) : Checked (List UInt8) := do
  if x.isZero then
    pure [0]
  else
    pure (← x.lowBytes x.byteSize).reverse

/-- Fill an output with the magnitude, the highest byte first, after zero bytes. An output that is
too short stays as it is. -/
def writeBytes (x : Integer) : ActionOn (List UInt8) Unit := do
  let output ← current
  let needed := x.byteSize
  if output.length < needed then
    throw (.error (.bufferTooSmall needed output.length))
  let bytes ← x.lowBytes needed
  replace (List.replicate (output.length - needed) 0 ++ bytes.reverse)

end Integer

end Multiword
