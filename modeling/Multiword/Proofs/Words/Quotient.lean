import Multiword.Proofs.Words.Carry
import Multiword.Proofs.Words.Product
import Multiword.Words.Quotient

/-!
# Quotients by one word are exact

What is handed down is a remainder, so it is below the divisor, and the quotient of two words fits one.
-/

set_option autoImplicit false

namespace Multiword

theorem Word.divideDouble_eq {high divisor : Word} (low : Word) (h : high < divisor) :
    ∃ quotient remainder, divideDouble high low divisor = .ok (quotient, remainder) ∧
      quotient.toNat * divisor.toNat + remainder.toNat = low.toNat + radix * high.toNat ∧
      remainder < divisor := by
  have hless : high.toNat < divisor.toNat := UInt32.lt_iff_toNat_lt.1 h
  have hpos : 0 < divisor.toNat := Nat.zero_lt_of_lt hless
  have hquotient : double high low / divisor.toNat < radix := by
    rw [Nat.div_lt_iff_lt_mul hpos]
    calc double high low < radix + radix * high.toNat :=
          Nat.add_lt_add_right low.toNat_lt_radix _
      _ = radix * (high.toNat + 1) := by ring
      _ ≤ radix * divisor.toNat := Nat.mul_le_mul_left _ hless
  have hremainder : double high low % divisor.toNat < divisor.toNat := Nat.mod_lt _ hpos
  have hword : double high low % divisor.toNat < radix := hremainder.trans divisor.toNat_lt_radix
  refine ⟨_, _, by rw [divideDouble, require_of _ h]; rfl, ?_, ?_⟩
  · rw [toNat_ofNat_of_lt hquotient, toNat_ofNat_of_lt hword]
    exact Nat.div_add_mod' _ _
  · rw [UInt32.lt_iff_toNat_lt, toNat_ofNat_of_lt hword]
    exact hremainder

namespace Words

theorem divideDown_eq {divisor : Word} (h : divisor ≠ 0) (ws : List Word) :
    ∃ quotients remainder, divideDown divisor ws = .ok (quotients, remainder) ∧
      quotients.length = ws.length ∧
      toNat quotients * divisor.toNat + remainder.toNat = toNat ws ∧ remainder < divisor := by
  induction ws with
  | nil =>
    refine ⟨[], 0, rfl, rfl, by simp, ?_⟩
    rw [UInt32.lt_iff_toNat_lt]
    exact Word.toNat_pos h
  | cons w ws ih =>
    obtain ⟨quotients, high, hrest, hlength, hvalue, hless⟩ := ih
    obtain ⟨quotient, remainder, hword, hvalue', hless'⟩ := Word.divideDouble_eq w hless
    refine ⟨quotient :: quotients, remainder, by simp [divideDown, hrest, hword],
      by simp [hlength], ?_, hless'⟩
    rw [toNat_cons, toNat_cons]
    linear_combination hvalue' + radix * hvalue

/-- Quotient and remainder by a word that is not zero. -/
theorem divideWord_eq (ws : List Word) {divisor : Word} (h : divisor ≠ 0) :
    ∃ quotients remainder, divideWord ws divisor = .ok (quotients, remainder) ∧
      quotients.length = ws.length ∧ toNat quotients = toNat ws / divisor.toNat ∧
      remainder.toNat = toNat ws % divisor.toNat := by
  obtain ⟨quotients, remainder, hdown, hlength, hvalue, hless⟩ := divideDown_eq h ws
  have hless' : remainder.toNat < divisor.toNat := UInt32.lt_iff_toNat_lt.1 hless
  have hpos : 0 < divisor.toNat := Word.toNat_pos h
  refine ⟨quotients, remainder, by simp [divideWord, h, hdown], hlength, ?_, ?_⟩
  · rw [← hvalue, Nat.add_comm, Nat.add_mul_div_right _ _ hpos, Nat.div_eq_of_lt hless', zero_add]
  · rw [← hvalue, Nat.add_comm, Nat.add_mul_mod_self_right, Nat.mod_eq_of_lt hless']

/-- A division by the word that was multiplied with gives the words back. -/
theorem divideWord_mulWord {a product : List Word} {c : Word} (hc : c ≠ 0)
    (h : mulWord a c = .ok (product, 0)) : divideWord product c = .ok (a, 0) := by
  obtain ⟨product', carry, hproduct, hsame, hvalue⟩ := mulWord_eq a c
  cases h.symm.trans hproduct
  rw [UInt32.toNat_zero, Nat.mul_zero, add_zero] at hvalue
  obtain ⟨quotients, remainder, hdivided, hlength, hquotient, hremainder⟩ :=
    divideWord_eq product hc
  rw [hvalue, Nat.mul_div_cancel _ (Word.toNat_pos hc)] at hquotient
  rw [hvalue, Nat.mul_mod_left] at hremainder
  have hzero : remainder = 0 := UInt32.toNat_inj.1 hremainder
  rw [hdivided, toNat_inj (hlength.trans hsame) hquotient, hzero]

/-- Products and quotients by one word are exact. There is a result for all words, so no accumulator
leaves its 64 bits on the way, and what a division hands down is below the divisor at every word. The
carry of a product fits a word, and a row by a zero word is what the loop would make of it, too. A
product without a carry is undone by the division. -/
theorem word_products_and_quotients_exact (a b : List Word) (c : Word) :
    (a.length = b.length → ∃ total carry, mulAddInto a b c = .ok (total, carry) ∧
      mulAddWithCarry c a b 0 = .ok (total, carry.toNat) ∧ total.length = a.length ∧
      toNat total + carry.toNat * 2 ^ (32 * a.length) = toNat a + toNat b * c.toNat) ∧
    (∃ product carry, mulWord a c = .ok (product, carry) ∧
      mulWithCarry c a 0 = .ok (product, carry.toNat) ∧ product.length = a.length ∧
      toNat product + carry.toNat * 2 ^ (32 * a.length) = toNat a * c.toNat) ∧
    (c ≠ 0 →
      (∃ quotients remainder, divideWord a c = .ok (quotients, remainder) ∧
        quotients.length = a.length ∧
        toNat a = toNat quotients * c.toNat + remainder.toNat ∧ remainder < c) ∧
      ∀ product, mulWord a c = .ok (product, 0) → divideWord product c = .ok (a, 0)) := by
  rw [← radix_pow]
  refine ⟨fun hlength => ?_, ?_, fun hc => ⟨?_, fun product => divideWord_mulWord hc⟩⟩
  · obtain ⟨total, carry, htotal, hsame, hvalue⟩ := mulAddInto_eq hlength c
    refine ⟨total, carry, htotal, mulAddWithCarry_of_mulAddInto hlength htotal, hsame, ?_⟩
    rw [← hvalue, Nat.mul_comm]
  · obtain ⟨product, carry, hproduct, hsame, hvalue⟩ := mulWord_eq a c
    refine ⟨product, carry, hproduct, mulWithCarry_of_mulWord hproduct, hsame, ?_⟩
    rw [← hvalue, Nat.mul_comm]
  · obtain ⟨quotients, remainder, hdown, hsame, hvalue, hless⟩ := divideDown_eq hc a
    exact ⟨quotients, remainder, by simp [divideWord, hc, hdown], hsame, hvalue.symm, hless⟩

/-- The accumulator is full here at every word. -/
theorem products_and_quotients_of_full_words :
    (∃ total carry,
      mulAddInto [4294967295, 4294967295] [4294967295, 4294967295] 4294967295 =
        .ok (total, carry) ∧
      toNat total + carry.toNat * 2 ^ 64 = (2 ^ 64 - 1) * 2 ^ 32) ∧
    (∃ quotients remainder, divideWord [7, 1] 10 = .ok (quotients, remainder) ∧
      2 ^ 32 + 7 = toNat quotients * 10 + remainder.toNat ∧ remainder < 10) ∧
    mulWord [2147483648, 0] 4 = .ok ([0, 2], 0) ∧
      divideWord [0, 2] 4 = .ok ([2147483648, 0], 0) := by
  obtain ⟨htotal, -⟩ := word_products_and_quotients_exact [4294967295, 4294967295]
    [4294967295, 4294967295] 4294967295
  obtain ⟨total, carry, hsum, -, -, hvalue⟩ := htotal (by decide)
  obtain ⟨-, -, hquotients⟩ := word_products_and_quotients_exact [7, 1] [] 10
  obtain ⟨⟨quotients, remainder, hdivided, -, hquotient, hless⟩, -⟩ := hquotients (by decide)
  obtain ⟨-, -, hback⟩ := word_products_and_quotients_exact [2147483648, 0] [] 4
  have hproduct : mulWord [2147483648, 0] 4 = .ok ([0, 2], 0) := by decide
  exact ⟨⟨total, carry, hsum, hvalue⟩, ⟨quotients, remainder, hdivided, hquotient, hless⟩,
    hproduct, (hback (by decide)).2 _ hproduct⟩

end Words

end Multiword
