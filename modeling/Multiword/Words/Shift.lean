import Multiword.Words.Basic

/-!
# Shifts

A shift by `n` bits moves whole words by `n / 32` places, and then the remaining `n % 32` bits
across the borders of neighbouring words. Both work on the low words of a buffer and leave it at
its length.
-/

set_option autoImplicit false

namespace Multiword

namespace Words

/-- Shift every word left by `bits`, where `0 < bits < 32`; the bits that leave a word enter the
one above it, and `below` is the word under the first. -/
def shiftUp (bits : UInt32) : Word → List Word → List Word
  | _, [] => []
  | below, w :: ws => (w <<< bits ||| below >>> (32 - bits)) :: shiftUp bits w ws

/-- Shift every word right by `bits`, where `0 < bits < 32`; the bits that leave a word enter the
one below it. -/
def shiftDown (bits : UInt32) : List Word → List Word
  | [] => []
  | [w] => [w >>> bits]
  | w :: above :: ws => (w >>> bits ||| above <<< (32 - bits)) :: shiftDown bits (above :: ws)

/-- Position `n` of a slice, a 64-bit count. Slices lie in memory, so the positions in one and next
to its end are such counts; what lies further out is checked. -/
def position (words : List Word) (n : Nat) : Checked Nat :=
  if n ≤ words.length + 1 then .ok n else unsigned64 n

@[simp] theorem position_of_le {words : List Word} {n : Nat} (h : n ≤ words.length + 1) :
    position words n = .ok n := if_pos h

theorem position_eq_ok {words : List Word} {n i : Nat} (h : position words n = .ok i) : n = i := by
  unfold position unsigned64 at h
  split at h
  · exact Except.ok.inj h
  · split at h
    · exact Except.ok.inj h
    · cases h

/-- In a slice that lies in memory every position is checked alike. -/
theorem position_eq_unsigned64 {words : List Word} (h : words.length + 1 < UInt64.size) (n : Nat) :
    position words n = unsigned64 n := by
  unfold position
  split
  · next hle => exact (unsigned64_of_lt (Nat.lt_of_le_of_lt hle h)).symm
  · rfl

/-- Shift the `len` low words left by `n` bits. The words above them are zero, and the result fits
the buffer: the bits pass into at most one word above the `len` that were moved. -/
def shiftLeft (words : List Word) (len n : Nat) : Checked (List Word) := do
  let places := n / 32
  let bits := n % 32
  let stop ← position words (len + places)
  require (stop ≤ words.length) .brokenPromise
  let moved := List.replicate places 0 ++ words.take len ++ words.drop (places + len)
  if bits = 0 then
    pure moved
  else
    let top := min (← position words (stop + 1)) words.length
    let window := (moved.take top).drop places
    pure (moved.take places ++ shiftUp (UInt32.ofNat bits) 0 window ++ moved.drop top)

/-- Shift the `len` low words right by `n` bits, zero words entering from above. A shift by no bits
touches no word, so there may be fewer of them than `len`. -/
def shiftRight (words : List Word) (len n : Nat) : Checked (List Word) := do
  let places := n / 32
  let bits := n % 32
  require (n = 0 ∨ len ≤ words.length) .outOfRange
  if len ≤ places then
    pure (List.replicate len 0 ++ words.drop len)
  else
    let kept := (words.take len).drop places
    let kept := if bits = 0 then kept else shiftDown (UInt32.ofNat bits) kept
    pure (kept ++ List.replicate places 0 ++ words.drop len)

end Words

end Multiword
