import Mathlib.Tactic.Ring
import Multiword.Bytes
import Multiword.Integer.Storage

/-!
# Positional values

Words and bytes are digits in their places. What stands behind `n` of them weighs the base to the
`n`, and `n` of them stand for a number below that. So zero words on top, such as those that a
growth adds, change nothing.
-/

set_option autoImplicit false

namespace Multiword

namespace Words

/-- The words behind the first `n` weigh `radix ^ n`. -/
theorem toNat_append (low high : List Word) :
    toNat (low ++ high) = toNat low + radix ^ low.length * toNat high := by
  induction low with
  | nil => simp
  | cons w ws ih =>
    simp only [List.cons_append, toNat_cons, ih, List.length_cons, pow_succ]
    ring

/-- A list of `n` words stands for a number below `radix ^ n`. -/
theorem toNat_lt (ws : List Word) : toNat ws < radix ^ ws.length := by
  induction ws with
  | nil => simp
  | cons w ws ih =>
    calc w.toNat + radix * toNat ws
        < radix + radix * toNat ws := Nat.add_lt_add_right w.toNat_lt_radix _
      _ = radix * (toNat ws + 1) := by ring
      _ ≤ radix * radix ^ ws.length := Nat.mul_le_mul_left _ ih
      _ = radix ^ (w :: ws).length := by rw [List.length_cons, pow_succ]; ring

end Words

namespace Bytes

/-- The bytes of a number stand for it, up to what they cannot hold. -/
theorem toNat_ofNat (count n : Nat) : toNat (ofNat count n) = n % 256 ^ count := by
  induction count generalizing n with
  | zero => simp [ofNat, toNat, Nat.mod_one]
  | succ count ih =>
    rw [ofNat, toNat, ih, pow_succ, Nat.mul_comm (256 ^ count) 256, Nat.mod_mul]
    simp

end Bytes

namespace Integer

/-- A growth keeps the number that the buffer stands for. -/
@[simp] theorem magnitude_grownTo (x : Integer) (capacity : Nat) :
    (x.grownTo capacity).magnitude = x.magnitude := by
  simp [magnitude, grownTo, Words.toNat_append]

end Integer

end Multiword
