import Multiword.Proofs.Integer.Storage
import Multiword.Proofs.Run.Success
import Multiword.Proofs.Words.Carry
import Multiword.Proofs.Words.Product
import Multiword.Text.Parse

/-!
# Multiplying and adding a word

A group of digits multiplies the magnitude and adds to it. Room for the result is asked for by the
bits of the two factors, which may be one more than the result has.
-/

set_option autoImplicit false

namespace Multiword

namespace Integer

open ActionOn (current replace settles_current settles_checked settles_replace attempts_current
  attempts_checked attempts_unsigned64 makes_checked makes_pure makes_throw)

variable {x : Integer} {scale addend : Word}

/-- Multiply in place; what leaves the words in use goes into the next one. -/
theorem WellFormed.mulWord_words (hx : x.WellFormed) (scale : Word)
    (hroom : x.magnitude * scale.toNat < radix ^ x.capacity) :
    ∃ product carry buffer,
      Words.onLow x.buffer x.size (Words.mulWord · scale) =
        .ok (product ++ x.buffer.drop x.size, carry) ∧
      (if carry = 0 then pure (product ++ x.buffer.drop x.size)
        else Words.write (product ++ x.buffer.drop x.size) x.size carry) = .ok buffer ∧
      buffer.length = x.capacity ∧ Words.toNat buffer = x.magnitude * scale.toNat := by
  obtain ⟨product, carry, hproduct, hlength, hvalue⟩ :=
    Words.mulWord_eq (x.buffer.take x.size) scale
  rw [hx.length_words] at hlength hvalue
  rw [hx.toNat_words] at hvalue
  have hfront := Words.onLow_eq (f := (Words.mulWord · scale)) hx.size_le hproduct
  have hsize := hx.size_le
  have hzero := hx.toNat_drop_eq_zero le_rfl
  have hwhole : (product ++ x.buffer.drop x.size).length = x.capacity := by
    rw [List.length_append, hlength, List.length_drop]
    unfold capacity at hsize ⊢
    omega
  by_cases hcarry : carry = 0
  · refine ⟨product, carry, _, hfront, if_pos hcarry, hwhole, ?_⟩
    rw [Words.toNat_append, hzero, Nat.mul_zero, add_zero, ← hvalue, hcarry]
    simp
  · -- a carry out of a full buffer would be a product that does not fit
    have hinside : x.size < x.capacity := by
      by_contra hle
      have hsame : x.size = x.capacity := Nat.le_antisymm hsize (Nat.le_of_not_lt hle)
      have := Nat.le_mul_of_pos_right (radix ^ x.size) (Word.toNat_pos hcarry)
      rw [← hsame] at hroom
      omega
    have hne : x.buffer.drop x.size ≠ [] := by
      rw [ne_eq, List.drop_eq_nil_iff, not_le]
      exact hinside
    obtain ⟨buffer, hwrite, hbufferLength, hbufferValue⟩ :=
      @Words.write_above product _ hzero hne carry
    rw [hlength] at hwrite hbufferValue
    refine ⟨product, carry, buffer, hfront, (if_neg hcarry).trans hwrite, ?_, ?_⟩
    · rw [hbufferLength, ← List.length_append, hwhole]
    · rw [hbufferValue, hvalue]

/-- Add one word to what stands in the low words, with a word more for the carry. -/
theorem WellFormed.addWord_words (hx : x.WellFormed) {buffer : List Word} {magnitude : Nat}
    (hlength : buffer.length = x.capacity) (hvalue : Words.toNat buffer = magnitude)
    (addend : Word) (hroom : magnitude + addend.toNat < radix ^ x.capacity)
    (hfits : magnitude + addend.toNat < radix ^ (x.size + 1)) :
    ∃ sum, Words.onLow buffer (min (x.size + 1) x.capacity) (Words.addInto · [addend]) =
        .ok (sum ++ buffer.drop (min (x.size + 1) x.capacity), 0) ∧
      (sum ++ buffer.drop (min (x.size + 1) x.capacity)).length = x.capacity ∧
      Words.toNat (sum ++ buffer.drop (min (x.size + 1) x.capacity)) =
        magnitude + addend.toNat ∧
      Words.toNat ((sum ++ buffer.drop (min (x.size + 1) x.capacity)).drop
        (min (x.size + 1) x.capacity)) = 0 := by
  set top := min (x.size + 1) x.capacity with htop
  have hpos : 0 < x.capacity := hx.buffer_pos
  have htople : top ≤ buffer.length := by
    rw [hlength]
    exact min_le_right _ _
  have hbound : magnitude + addend.toNat < radix ^ top := by
    rcases min_choice (x.size + 1) x.capacity with h | h
    · rwa [htop, h]
    · rwa [htop, h]
  have htake : (buffer.take top).length = top := by
    rw [List.length_take]
    exact min_eq_left htople
  have hlow : Words.toNat (buffer.take top) = magnitude := by
    rw [Words.toNat_take _ htople, hvalue, Nat.mod_eq_of_lt (by omega)]
  have hhigh : Words.toNat (buffer.drop top) = 0 := by
    rw [Words.toNat_drop _ htople, hvalue, Nat.div_eq_of_lt (by omega)]
  obtain ⟨sum, hsum, hsumLength, hsumValue⟩ :=
    Words.addInto_of_lt (a := buffer.take top) (b := [addend])
      (by rw [htake, List.length_singleton]; omega) (by rw [htake, hlow]; simpa using hbound)
  rw [htake] at hsumLength
  rw [hlow] at hsumValue
  refine ⟨sum, Words.onLow_eq (f := (Words.addInto · [addend])) htople hsum, ?_, ?_, ?_⟩
  · rw [List.length_append, hsumLength, List.length_drop]
    omega
  · rw [Words.toNat_append, hhigh, Nat.mul_zero, add_zero, hsumValue]
    simp
  · rw [← hsumLength, List.drop_left, hsumLength, hhigh]

theorem WellFormed.mulAddWord (hx : x.WellFormed) (h : addend < scale) :
    (Integer.mulAddWord scale addend).Attempts x 1 (x.bits + scale.bitLength)
      (TooManyBits (x.bits + scale.bitLength)) fun _ y =>
      y.Holds (roomFor x.capacity (x.bits + scale.bitLength))
        (x.magnitude * scale.toNat + addend.toNat)
        (x.negative && decide (x.magnitude * scale.toNat + addend.toNat ≠ 0)) := by
  unfold Integer.mulAddWord
  refine attempts_checked (require_of _ h) (attempts_current ?_)
  refine attempts_unsigned64 (fun hlt => ?_) fun hle => ⟨.inr rfl, hle⟩
  refine (hx.ensureCapacity _).bind_settles fun _ y hy => settles_current ?_
  have hless : addend.toNat < scale.toNat := UInt32.lt_iff_toNat_lt.1 h
  have hbound : x.magnitude * scale.toNat + addend.toNat < 2 ^ (x.bits + scale.bitLength) := by
    rw [pow_add]
    exact mul_add_lt hx.magnitude_lt (lt_two_pow_bitLength _).le hless
  have hroom : x.magnitude * scale.toNat + addend.toNat < radix ^ y.capacity := by
    rw [Words.radix_pow]
    exact lt_of_lt_of_le hbound (Nat.pow_le_pow_right (by decide) (wordsFor_le.1 hy.room))
  have hfits : x.magnitude * scale.toNat + addend.toNat < radix ^ (y.size + 1) := by
    rw [← hy.magnitude_eq, pow_succ]
    exact mul_add_lt hy.wellFormed.magnitude_lt_radix_pow scale.toNat_lt_radix.le hless
  -- the buffer has its final length now, and what follows is about `y` alone
  rw [← hy.magnitude_eq] at hroom hfits hbound ⊢
  rw [← hy.negative_eq, ← hy.capacity_eq]
  obtain ⟨product, carry, buffer, hproduct, hwrite, hlength, hvalue⟩ :=
    hy.wellFormed.mulWord_words scale (by omega)
  obtain ⟨sum, hsum, hsumLength, hsumValue, hsumHigh⟩ :=
    hy.wellFormed.addWord_words hlength hvalue addend hroom hfits
  obtain ⟨z, hz, hholds⟩ := hy.wellFormed.normalized _ hsumLength hsumValue hsumHigh
    (lt_of_le_of_lt (bitLength_le.2 hbound) hlt)
  have hcount : y.size + 1 < UInt64.size := by
    have hwords := hy.wellFormed.size_lt
    show _ < 2 ^ 64
    omega
  refine settles_checked hproduct ?_
  have hrest : (do
      let top := min (← unsigned64 (y.size + 1)) y.capacity
      let added ← Words.onLow buffer top (Words.addInto · [addend])
      require (added.2 = 0) .brokenPromise
      replace (← Integer.normalized { y with buffer := added.1 } top) : Update Unit).Settles y
        fun _ z => z.Holds y.capacity (y.magnitude * scale.toNat + addend.toNat)
          (y.negative && decide (y.magnitude * scale.toNat + addend.toNat ≠ 0)) :=
    settles_checked (if_pos hcount) (settles_checked hsum (settles_checked (require_of _ rfl)
      (settles_checked hz (settles_replace hholds))))
  by_cases hcarry : carry = 0
  · subst hcarry
    obtain rfl : product ++ y.buffer.drop y.size = buffer := by simpa using hwrite
    exact hrest
  · rw [if_neg hcarry] at hwrite
    show (if carry = 0 then _ else _ : Update Unit).Settles _ _
    rw [if_neg hcarry]
    exact settles_checked hwrite hrest

end Integer

end Multiword
