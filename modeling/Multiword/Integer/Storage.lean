import Multiword.Integer.Basic

/-!
# Storage

Growth and copying. A buffer grows to the words that are needed, rounded up to a multiple of four,
and only if they do not fit already. New words are zero, so a growth changes nothing but the
capacity; a refused growth changes nothing at all.
-/

set_option autoImplicit false

namespace Multiword

namespace Integer

open ActionOn (current replace)

/-- The same value in a buffer of `capacity` words, if that is larger. -/
def grownTo (x : Integer) (capacity : Nat) : Integer :=
  { x with buffer := x.buffer ++ List.replicate (capacity - x.capacity) 0 }

/-- Make sure that the buffer holds a magnitude of `bits` bits. -/
def ensureCapacity (bits : Nat) : Update Unit := do
  let x ← current
  let needed := wordsFor bits
  if x.capacity < needed then
    Action.request x.capacity (roundedUp needed)
    replace (x.grownTo (roundedUp needed))

/-- Room that is there already is not asked for; otherwise memory decides, and a refused growth
leaves the integer as it is. -/
theorem exec_ensureCapacity (bits : Nat) (x : Integer) (memory : Memory) :
    (ensureCapacity bits).exec x memory =
      if x.capacity < wordsFor bits then
        match (Action.request x.capacity (roundedUp (wordsFor bits))).exec memory with
        | (.ok (), memory) => (.ok (), x.grownTo (roundedUp (wordsFor bits)), memory)
        | (.error failure, memory) => (.error failure, x, memory)
      else (.ok (), x, memory) := by
  unfold ensureCapacity
  simp only [ActionOn.exec_bind, ActionOn.exec_current]
  split
  · simp only [ActionOn.exec_bind, ActionOn.exec_action]
    rcases (Action.request x.capacity (roundedUp (wordsFor bits))).exec memory with ⟨_ | _, _⟩ <;>
      rfl
  · rfl

@[simp] theorem capacity_grownTo (x : Integer) (capacity : Nat) :
    (x.grownTo capacity).capacity = max x.capacity capacity := by
  simp only [Integer.capacity, grownTo, List.length_append, List.length_replicate]
  omega

/-- Take over the value of `source`. -/
def copyFrom (source : Integer) : Update Unit := do
  ensureCapacity source.bits
  let x ← current
  let words ← source.words
  let buffer ← Words.overwrite x.buffer words
  let buffer ← if words.length < x.size then Words.clear buffer words.length x.size else pure buffer
  replace { buffer, bits := source.bits, negative := source.negative }

/-- Take over the magnitude of `source`. -/
def copyMagnitude (source : Integer) : Update Unit := do
  copyFrom source
  replace (← current).unsigned

/-- A copy in the smallest buffer that holds the value. -/
def copy (x : Integer) : Action Integer :=
  (copyFrom x).applyTo zero

/-- Set bit `n` of the magnitude. -/
def setBit (n : Nat) : Update Unit := do
  if UInt64.size ≤ n + 1 then
    throw (.error .growthRefused)
  ensureCapacity (n + 1)
  let x ← current
  let word ← Words.read x.buffer (n / 32)
  let buffer ← Words.write x.buffer (n / 32) (word ||| 1 <<< UInt32.ofNat (n % 32))
  replace { x with buffer, bits := max x.bits (n + 1) }

end Integer

end Multiword
