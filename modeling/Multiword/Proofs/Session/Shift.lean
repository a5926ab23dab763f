import Multiword.Proofs.Integer.Shift
import Multiword.Session.Run

/-!
# Shifts in place

A shift to the left asks for room once, and not at all for zero, which stays as it is however far it is
shifted. A shift to the right asks for nothing and keeps the buffer. The bit count moves by the distance
in both, and since it is exact after either of them, the one undoes the other.
-/

set_option autoImplicit false

namespace Multiword

namespace Edit

open ActionOn (attempts_current settles_current settles_checked settles_replace settles_pure)

/-- The capacity that a shift of `x` left by `n` bits leaves. -/
def shiftRoom (x : Integer) (n : Nat) : Nat :=
  if x.bits = 0 then x.capacity else roomFor x.capacity (x.bits + n)

/-- A shift left fails by itself only where its bits are more than the machine counts. -/
def TooFar (x : Integer) (n : Nat) (failure : Failure) : Prop :=
  failure = .error .growthRefused ∧ UInt64.size ≤ x.bits + n

section

variable {x : Integer} (hx : x.WellFormed) (n : Nat)

include hx

theorem attempts_shiftLeft :
    (Edit.shiftLeft n).update.Attempts x 1 (x.bits + n) (TooFar x n) fun _ y =>
      y.Holds (shiftRoom x n) (x.magnitude * 2 ^ n) x.negative :=
  attempts_current (hx.shiftLeft n)

theorem settles_shiftLeft_zero (h : x.magnitude = 0) :
    (Edit.shiftLeft n).update.Settles x fun _ y => y = x := by
  refine settles_current (settles_current ?_)
  rw [if_pos (by simp [hx.bits_eq_zero.2 h])]
  exact settles_pure rfl

theorem settles_shiftRight : (Edit.shiftRight n).update.Settles x fun _ y =>
    y.Holds x.capacity (x.magnitude / 2 ^ n) (x.negative && decide (x.magnitude / 2 ^ n ≠ 0)) := by
  obtain ⟨y, hy, hholds⟩ := hx.shiftRight n
  exact settles_current (settles_checked hy (settles_replace hholds))

/-- What the shift to the left has moved in, the shift to the right moves out again. -/
theorem attempts_shiftLeft_shiftRight :
    ((Edit.shiftLeft n).update >>= fun _ => (Edit.shiftRight n).update).Attempts x 1 (x.bits + n)
      (TooFar x n) fun _ z => z.Holds (shiftRoom x n) x.magnitude x.negative := by
  refine (attempts_shiftLeft hx n).bind_settles fun _ y hy => ?_
  have hdivided : y.magnitude / 2 ^ n = x.magnitude := by
    rw [hy.magnitude_eq, Nat.mul_div_cancel _ (by positivity)]
  have hback := settles_shiftRight hy.wellFormed n
  rw [hdivided, hy.capacity_eq, hy.negative_eq] at hback
  refine hback.mono fun _ z hz => hz.of_eq rfl ?_
  by_cases hzero : x.magnitude = 0
  · simp [hx.sign_of_magnitude hzero]
  · simp [hzero]

/-- The shifts in place are exact, for every distance. To the left the magnitude is multiplied and the
sign kept, and the bit count of an integer other than zero grows by the distance; zero is left alone
without a request, also by a distance that a shift of another integer could not have. To the right the
magnitude is divided, the rest is dropped, a result of zero has no sign, and nothing is asked for. After
the one the other restores the integer. -/
theorem shifts_exact :
    ((Edit.shiftLeft n).update.Attempts x 1 (x.bits + n) (TooFar x n) fun _ y =>
      y.Holds (shiftRoom x n) (x.magnitude * 2 ^ n) x.negative ∧
        (x.magnitude ≠ 0 → y.bits = x.bits + n)) ∧
    (x.magnitude = 0 → (Edit.shiftLeft n).update.Settles x fun _ y => y = x) ∧
    ((Edit.shiftRight n).update.Settles x fun _ y =>
      y.Holds x.capacity (x.magnitude / 2 ^ n)
        (x.negative && decide (x.magnitude / 2 ^ n ≠ 0))) ∧
    ((Edit.shiftLeft n).update >>= fun _ => (Edit.shiftRight n).update).Attempts x 1 (x.bits + n)
      (TooFar x n) fun _ z => z.Holds (shiftRoom x n) x.magnitude x.negative := by
  refine ⟨?_, settles_shiftLeft_zero hx n, settles_shiftRight hx n,
    attempts_shiftLeft_shiftRight hx n⟩
  refine (attempts_shiftLeft hx n).imp fun _ y hy => ⟨hy, fun hzero => ?_⟩
  rw [hy.bits_eq, hx.bits_eq, bitLength_mul_two_pow hzero]

end

theorem shifts_of_minus_seven_and_zero_exact :
    ∃ x : Integer, x.WellFormed ∧ x.toInt = -7 ∧
      ((Edit.shiftLeft 126).update.Attempts x 1 129 (TooFar x 126) fun _ y =>
        y.Holds 8 (7 * 2 ^ 126) true ∧ (x.magnitude ≠ 0 → y.bits = 129)) ∧
      ((Edit.shiftRight 3).update.Settles x fun _ y => y.Holds 4 0 false) ∧
      (((Edit.shiftLeft 126).update >>= fun _ => (Edit.shiftRight 126).update).Attempts x 1
        129 (TooFar x 126) fun _ z => z.Holds 8 7 true) ∧
      (Edit.shiftLeft (2 ^ 64 - 1)).update.Settles .zero fun _ y => y = .zero := by
  have hx : Integer.WellFormed ⟨[7, 0, 0, 0], 3, true⟩ :=
    Integer.wellFormed_of_bits (by decide) (by decide) (by decide) (by decide) (by decide)
  obtain ⟨hleft, -, -, hback⟩ := shifts_exact hx 126
  obtain ⟨-, -, hright, -⟩ := shifts_exact hx 3
  obtain ⟨-, hzero, -, -⟩ := shifts_exact Integer.wellFormed_zero (2 ^ 64 - 1)
  exact ⟨_, hx, rfl, hleft, hright, hback, hzero rfl⟩

end Edit

end Multiword
