import Multiword.Integer.Shift
import Multiword.Proofs.Integer.Storage
import Multiword.Proofs.Words.Shift

/-!
# Shifts multiply and divide by powers of two

The bit count moves by the distance, and so it stays exact without a recount. A shift left asks for
room once, a shift right never.
-/

set_option autoImplicit false

namespace Multiword

namespace Integer

open ActionOn (settles_current settles_checked settles_pure settles_replace attempts_current
  attempts_throw)

namespace WellFormed

variable {x : Integer} (hx : x.WellFormed)

include hx

/-! ## To the left -/

/-- With room for the result the words can be moved in place. -/
theorem shiftLeft_words {n : Nat} (hnonzero : x.bits ≠ 0) (hlt : x.bits + n < UInt64.size)
    (hroom : wordsFor (x.bits + n) ≤ x.capacity) :
    ∃ buffer, Words.shiftLeft x.buffer x.size n = .ok buffer ∧
      Holds { x with buffer, bits := x.bits + n } x.capacity (x.magnitude * 2 ^ n) x.negative := by
  have hbound : x.bits + n ≤ 32 * x.buffer.length := wordsFor_le.1 hroom
  have hlength : x.size + n / 32 ≤ x.buffer.length := by
    unfold size wordsFor
    omega
  have hfits : Words.toNat x.buffer * 2 ^ n < radix ^ x.buffer.length := by
    calc Words.toNat x.buffer * 2 ^ n
        < 2 ^ x.bits * 2 ^ n := Nat.mul_lt_mul_of_pos_right hx.magnitude_lt (by positivity)
      _ = 2 ^ (x.bits + n) := (pow_add 2 _ _).symm
      _ ≤ radix ^ x.buffer.length := by
        rw [Words.radix_pow]
        exact Nat.pow_le_pow_right (by decide) hbound
  obtain ⟨buffer, hbuffer, hsame, hvalue⟩ := Words.shiftLeft_eq hx.high_zero hlength hfits
  have hmagnitude : x.magnitude ≠ 0 := fun h => hnonzero (hx.bits_eq_zero.2 h)
  refine ⟨buffer, hbuffer, hx.holds_of_bits hsame hvalue ?_ hlt fun h => ?_⟩
  · rw [hx.bits_eq, bitLength_mul_two_pow hmagnitude]
  · omega

/-- A shift by nothing, and a shift of zero, changes nothing. -/
theorem shiftLeft_idle {n : Nat} (h : n = 0 ∨ x.bits = 0) :
    x.magnitude = x.magnitude * 2 ^ n := by
  obtain rfl | h := h
  · rw [pow_zero, mul_one]
  · rw [hx.bits_eq_zero.1 h, zero_mul]

theorem settles_shiftLeft {n : Nat} (hlt : x.bits + n < UInt64.size)
    (hroom : wordsFor (x.bits + n) ≤ x.capacity) :
    (Integer.shiftLeft n).Settles x fun _ y =>
      y.Holds x.capacity (x.magnitude * 2 ^ n) x.negative := by
  unfold Integer.shiftLeft
  apply settles_current
  split
  · next h =>
    exact settles_pure (hx.holds.of_eq (hx.shiftLeft_idle (by simpa using h)) rfl)
  · next h =>
    have hnonzero : x.bits ≠ 0 := by
      simp only [Bool.or_eq_true, decide_eq_true_eq, not_or] at h
      exact h.2
    obtain ⟨buffer, hbuffer, hholds⟩ := hx.shiftLeft_words hnonzero hlt hroom
    rw [if_neg (by omega)]
    exact (settles_room hroom).2 (settles_current (settles_checked hbuffer (settles_replace hholds)))

/-- A bit count beyond the machine is refused without a request. -/
theorem shiftLeft (n : Nat) :
    (Integer.shiftLeft n).Attempts x 1 (x.bits + n)
      (fun failure => failure = .error .growthRefused ∧ UInt64.size ≤ x.bits + n) fun _ y =>
      y.Holds (if x.bits = 0 then x.capacity else roomFor x.capacity (x.bits + n))
        (x.magnitude * 2 ^ n) x.negative := by
  unfold Integer.shiftLeft
  apply attempts_current
  split
  · next h =>
    -- nothing moves, and no room is asked for
    have hidle : n = 0 ∨ x.bits = 0 := by simpa using h
    have hcapacity : (if x.bits = 0 then x.capacity else roomFor x.capacity (x.bits + n)) =
        x.capacity := by
      split
      · rfl
      · next hnonzero =>
        rw [hidle.resolve_right hnonzero, add_zero]
        exact roomFor_of_le hx.size_le
    rw [hcapacity]
    refine (settles_pure ?_).attempts
    exact hx.holds.of_eq (hx.shiftLeft_idle hidle) rfl
  · next h =>
    have hnonzero : x.bits ≠ 0 := by
      simp only [Bool.or_eq_true, decide_eq_true_eq, not_or] at h
      exact h.2
    rw [if_neg hnonzero]
    split
    · next hlarge =>
      exact attempts_throw ⟨rfl, hlarge⟩
    · next hlt =>
      refine hx.attempts_of_settles fun y hy => ?_
      have hbits : y.bits = x.bits := by rw [hy.bits_eq, hx.bits_eq]
      have hroom : wordsFor (x.bits + n) ≤ y.capacity := hy.room
      obtain ⟨buffer, hbuffer, hholds⟩ :=
        hy.wellFormed.shiftLeft_words (n := n) (by omega) (by omega) (by rwa [hbits])
      rw [hbits, hy.capacity_eq, hy.magnitude_eq] at hholds
      exact (settles_room hroom).2 (settles_current (settles_checked hbuffer
        (settles_replace (hholds.of_eq rfl hy.negative_eq))))

/-! ## To the right -/

/-- Whatever is left keeps the sign; zero has none. -/
theorem shiftRight (n : Nat) : ∃ y, x.shiftRight n = .ok y ∧
    y.Holds x.capacity (x.magnitude / 2 ^ n) (x.negative && decide (x.magnitude / 2 ^ n ≠ 0)) := by
  have hgone : x.bits ≤ n → x.magnitude / 2 ^ n = 0 := by
    intro hle
    refine Nat.div_eq_of_lt (lt_of_lt_of_le hx.magnitude_lt ?_)
    exact Nat.pow_le_pow_right (by decide) hle
  unfold Integer.shiftRight
  split
  · next h =>
    have hsame : x.magnitude / 2 ^ n = x.magnitude := by
      obtain rfl | hzero : n = 0 ∨ x.bits = 0 := by simpa using h
      · rw [pow_zero, Nat.div_one]
      · rw [hx.bits_eq_zero.1 hzero, Nat.zero_div]
    have hsign : (x.negative && decide (x.magnitude ≠ 0)) = x.negative := by
      by_cases hzero : x.magnitude = 0
      · simp [hzero, hx.sign_of_magnitude hzero]
      · simp [hzero]
    exact ⟨x, rfl, by rw [hsame, hsign]; exact hx.holds⟩
  · split
    · next hle =>
      obtain ⟨y, hy, hholds⟩ := hx.cleared
      refine ⟨y, hy, ?_⟩
      rw [hgone hle]
      simpa using hholds
    · next hlt =>
      obtain ⟨shifted, hshifted, hlength, hvalue⟩ := Words.shiftRight_eq n hx.size_le
      -- the difference of the bit count and the distance is exact, so no recount is needed
      have hbits : x.bits - n = bitLength (x.magnitude / 2 ^ n) := by
        rw [bitLength_div_two_pow, hx.bits_eq]
      have hsign : (x.negative && decide (x.magnitude / 2 ^ n ≠ 0)) = x.negative := by
        have hnonzero : x.magnitude / 2 ^ n ≠ 0 := by
          rw [ne_eq, ← bitLength_eq_zero, ← hbits]
          omega
        simp [hnonzero]
      rw [hsign]
      refine ⟨_, by rw [hshifted]; rfl, hx.holds_of_bits ?_ ?_ hbits ?_ fun h => ?_⟩
      · rw [List.length_append, hlength, List.length_drop]
        have := hx.size_le
        unfold capacity at this ⊢
        omega
      · rw [Words.toNat_append, hvalue, hx.toNat_words, hx.toNat_drop_eq_zero le_rfl, Nat.mul_zero,
          add_zero]
      · exact lt_of_le_of_lt (Nat.sub_le _ _) hx.bits_lt
      · omega

end WellFormed

end Integer

end Multiword
