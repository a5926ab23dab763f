import Mathlib.Tactic.LinearCombination
import Multiword.Proofs.Words.Bits
import Multiword.Words.Product

/-!
# Exact products of words

The carry of a product with one word stays below the radix, with nothing to spare: at the largest
words the accumulator is full. In a product of two lists the rows never meet a word that an earlier
row left above them, so writing the carry there loses nothing.
-/

set_option autoImplicit false

namespace Multiword

/-! ## One word -/

namespace Word

theorem mul_le (a b : Word) : a.toNat * b.toNat ≤ 4294967295 * 4294967295 :=
  Nat.mul_le_mul (Nat.le_of_lt_succ a.toNat_lt) (Nat.le_of_lt_succ b.toNat_lt)

theorem mulCarry_eq (a b : Word) {carry : Nat} (hcarry : carry < radix) :
    ∃ w next, a.mulCarry b carry = .ok (w, next) ∧
      w.toNat + radix * next = a.toNat * b.toNat + carry ∧ next < radix := by
  have hproduct := mul_le a b
  rw [radix_eq] at hcarry
  refine ⟨UInt32.ofNat (carry + a.toNat * b.toNat), (carry + a.toNat * b.toNat) / radix, ?_, ?_, ?_⟩
  · simp only [mulCarry, unsigned64_of_lt (show a.toNat * b.toNat < 18446744073709551616 by omega),
      unsigned64_of_lt (show carry + a.toNat * b.toNat < 18446744073709551616 by omega),
      Checked.ok_bind, Checked.pure_eq]
  · simp only [UInt32.toNat_ofNat', radix_eq]
    omega
  · simp only [radix_eq]
    omega

theorem mulAddCarry_eq (a b c : Word) {carry : Nat} (hcarry : carry < radix) :
    ∃ w next, a.mulAddCarry b c carry = .ok (w, next) ∧
      w.toNat + radix * next = a.toNat + b.toNat * c.toNat + carry ∧ next < radix := by
  have ha := a.toNat_lt
  have hproduct := mul_le b c
  rw [radix_eq] at hcarry
  refine ⟨UInt32.ofNat (carry + a.toNat + b.toNat * c.toNat),
    (carry + a.toNat + b.toNat * c.toNat) / radix, ?_, ?_, ?_⟩
  · simp only [mulAddCarry, unsigned64_of_lt (show carry + a.toNat < 18446744073709551616 by omega),
      unsigned64_of_lt (show b.toNat * c.toNat < 18446744073709551616 by omega),
      unsigned64_of_lt (show carry + a.toNat + b.toNat * c.toNat < 18446744073709551616 by omega),
      Checked.ok_bind, Checked.pure_eq]
  · simp only [UInt32.toNat_ofNat', radix_eq]
    omega
  · simp only [radix_eq]
    omega

theorem mulAddCarry_zero (a b : Word) : a.mulAddCarry b 0 0 = .ok (a, 0) := by
  obtain ⟨w, next, hword, hvalue, -⟩ := a.mulAddCarry_eq b 0 radix_pos
  have ha := a.toNat_lt
  rw [UInt32.toNat_zero, Nat.mul_zero, add_zero, add_zero, radix_eq] at hvalue
  obtain rfl : next = 0 := by omega
  rw [hword, UInt32.toNat_inj.1 (show w.toNat = a.toNat by omega)]

theorem toNat_ofNat_of_lt {n : Nat} (h : n < radix) : (UInt32.ofNat n).toNat = n := by
  rw [UInt32.toNat_ofNat']
  exact Nat.mod_eq_of_lt h

end Word

namespace Words

/-! ## Products with one word -/

theorem mulWithCarry_eq (c : Word) (ws : List Word) {carry : Nat} (hcarry : carry < radix) :
    ∃ product next, mulWithCarry c ws carry = .ok (product, next) ∧
      product.length = ws.length ∧
      toNat product + radix ^ ws.length * next = toNat ws * c.toNat + carry ∧ next < radix := by
  induction ws generalizing carry with
  | nil => exact ⟨[], carry, rfl, rfl, by simp, hcarry⟩
  | cons w ws ih =>
    obtain ⟨v, carry', hword, hvalue, hcarry'⟩ := w.mulCarry_eq c hcarry
    obtain ⟨vs, next, hrest, hlength, hvalues, hnext⟩ := ih hcarry'
    refine ⟨v :: vs, next, by simp [mulWithCarry, hword, hrest], by simp [hlength], ?_, hnext⟩
    rw [toNat_cons, toNat_cons, List.length_cons, pow_succ']
    linear_combination hvalue + radix * hvalues

theorem mulWord_eq (a : List Word) (c : Word) :
    ∃ product carry, mulWord a c = .ok (product, carry) ∧ product.length = a.length ∧
      toNat product + radix ^ a.length * carry.toNat = toNat a * c.toNat := by
  obtain ⟨product, next, hproduct, hlength, hvalue, hnext⟩ := mulWithCarry_eq c a radix_pos
  refine ⟨product, UInt32.ofNat next, by simp [mulWord, hproduct], hlength, ?_⟩
  rw [Word.toNat_ofNat_of_lt hnext, hvalue, add_zero]

theorem mulAddWithCarry_eq (c : Word) {sum b : List Word} (hlength : sum.length = b.length)
    {carry : Nat} (hcarry : carry < radix) :
    ∃ total next, mulAddWithCarry c sum b carry = .ok (total, next) ∧
      total.length = sum.length ∧
      toNat total + radix ^ sum.length * next = toNat sum + toNat b * c.toNat + carry ∧
      next < radix := by
  induction sum generalizing b carry with
  | nil =>
    obtain rfl := List.length_eq_zero_iff.1 hlength.symm
    exact ⟨[], carry, rfl, rfl, by simp, hcarry⟩
  | cons w ws ih =>
    obtain _ | ⟨v, vs⟩ := b
    · simp at hlength
    · obtain ⟨d, carry', hword, hvalue, hcarry'⟩ := w.mulAddCarry_eq v c hcarry
      obtain ⟨ds, next, hrest, hlength', hvalues, hnext⟩ :=
        ih (b := vs) (by simpa using hlength) hcarry'
      refine ⟨d :: ds, next, by simp [mulAddWithCarry, hword, hrest], by simp [hlength'], ?_, hnext⟩
      rw [toNat_cons, toNat_cons, toNat_cons, List.length_cons, pow_succ']
      linear_combination hvalue + radix * hvalues

/-- The shortcut for a zero word agrees with the loop. -/
theorem mulAddInto_eq {sum b : List Word} (hlength : sum.length = b.length) (c : Word) :
    ∃ total carry, mulAddInto sum b c = .ok (total, carry) ∧ total.length = sum.length ∧
      toNat total + radix ^ sum.length * carry.toNat = toNat sum + toNat b * c.toNat := by
  by_cases hc : c = 0
  · subst hc
    exact ⟨sum, 0, by simp [mulAddInto, hlength], rfl, by simp⟩
  · obtain ⟨total, next, htotal, hlength', hvalue, hnext⟩ := mulAddWithCarry_eq c hlength radix_pos
    refine ⟨total, UInt32.ofNat next, by simp [mulAddInto, hlength, hc, htotal], hlength', ?_⟩
    rw [Word.toNat_ofNat_of_lt hnext, hvalue, add_zero]

/-! The carry that comes back is the accumulator after the last word, with nothing cut off, also where
the shortcut is taken. -/

theorem mulWithCarry_of_mulWord {a product : List Word} {c carry : Word}
    (h : mulWord a c = .ok (product, carry)) :
    mulWithCarry c a 0 = .ok (product, carry.toNat) := by
  obtain ⟨product', next, hproduct, -, -, hnext⟩ := mulWithCarry_eq c a radix_pos
  rw [mulWord, hproduct] at h
  cases h
  rw [hproduct, Word.toNat_ofNat_of_lt hnext]

/-- A row of zeros changes no word. -/
theorem mulAddWithCarry_zero (sum b : List Word) : mulAddWithCarry 0 sum b 0 = .ok (sum, 0) := by
  induction sum generalizing b with
  | nil => cases b <;> rfl
  | cons w ws ih =>
    cases b with
    | nil => rfl
    | cons v vs => simp [mulAddWithCarry, Word.mulAddCarry_zero, ih]

theorem mulAddWithCarry_of_mulAddInto {sum b total : List Word} {c carry : Word}
    (hlength : sum.length = b.length) (h : mulAddInto sum b c = .ok (total, carry)) :
    mulAddWithCarry c sum b 0 = .ok (total, carry.toNat) := by
  rw [mulAddInto, require_of _ hlength, Checked.ok_bind] at h
  split at h
  · next hc =>
    cases h
    rw [hc, mulAddWithCarry_zero, UInt32.toNat_zero]
  · obtain ⟨total', next, htotal, -, -, hnext⟩ := mulAddWithCarry_eq c hlength radix_pos
    rw [htotal] at h
    cases h
    rw [htotal, Word.toNat_ofNat_of_lt hnext]

/-! ## Products of two lists -/

theorem onLow_eq {α : Type} {ws front : List Word} {n : Nat} (h : n ≤ ws.length)
    {f : List Word → Checked (List Word × α)} {result : α}
    (hf : f (ws.take n) = .ok (front, result)) :
    onLow ws n f = .ok (front ++ ws.drop n, result) := by
  simp [onLow, low, h, hf]

/-- A carry goes into the word above a row, which is zero as all words there are. -/
theorem write_above {row rest : List Word} (hzero : toNat rest = 0) (hne : rest ≠ [])
    (carry : Word) :
    ∃ whole, write (row ++ rest) row.length carry = .ok whole ∧
      whole.length = row.length + rest.length ∧
      toNat whole = toNat row + radix ^ row.length * carry.toNat := by
  obtain ⟨w, zeros, rfl⟩ := List.exists_cons_of_ne_nil hne
  have hzeros : toNat zeros = 0 := by
    rw [toNat_cons] at hzero
    exact (Nat.mul_eq_zero.1 (Nat.eq_zero_of_add_eq_zero hzero).2).resolve_left radix_pos.ne'
  have hset : (row ++ w :: zeros).set row.length carry = row ++ carry :: zeros := by
    rw [List.set_append_right _ _ le_rfl, Nat.sub_self, List.set_cons_zero]
  refine ⟨row ++ carry :: zeros, ?_, by simp, ?_⟩
  · rw [write, if_pos (by simp), hset]
  · rw [toNat_append, toNat_cons, hzeros, Nat.mul_zero, add_zero]

/-- The rows add up. The words of `sum` above those of `a` are zero, and so they are again one word
higher up when the next row starts. -/
theorem mulRows_eq (a : List Word) {digits sum : List Word}
    (hlength : a.length + digits.length ≤ sum.length) (hsum : toNat sum < radix ^ a.length) :
    ∃ product, mulRows a digits sum = .ok product ∧ product.length = sum.length ∧
      toNat product = toNat sum + toNat a * toNat digits := by
  induction digits generalizing sum with
  | nil => exact ⟨sum, rfl, rfl, by simp⟩
  | cons digit digits ih =>
    rw [List.length_cons] at hlength
    have hlow : (sum.take a.length).length = a.length := by
      rw [List.length_take]
      omega
    have hhigh : toNat (sum.drop a.length) = 0 := by
      rw [toNat_drop _ (by omega), Nat.div_eq_of_lt hsum]
    obtain ⟨row, carry, hrow, hrowLength, hrowValue⟩ := mulAddInto_eq hlow digit
    have hne : sum.drop a.length ≠ [] := by
      rw [ne_eq, List.drop_eq_nil_iff]
      omega
    obtain ⟨whole, hwrite, hwholeLength, hvalue⟩ := @write_above row _ hhigh hne carry
    rw [hlow] at hrowLength hrowValue
    rw [hrowLength] at hwrite hvalue
    rw [hrowValue, toNat_take _ (by omega), Nat.mod_eq_of_lt hsum] at hvalue
    rw [hrowLength, List.length_drop] at hwholeLength
    have hfront := onLow_eq (f := (mulAddInto · a digit)) (show a.length ≤ sum.length by omega) hrow
    obtain ⟨lowest, higher, rfl⟩ : ∃ lowest higher, whole = lowest :: higher :=
      List.exists_cons_of_length_pos (by omega)
    rw [toNat_cons] at hvalue
    have hlengths : higher.length + 1 = sum.length := by
      rw [List.length_cons] at hwholeLength
      omega
    -- the lowest word is final; what the others hold is again below the reach of the next row
    have hhigher : toNat higher < radix ^ a.length := by
      have ha := toNat_lt a
      have hdigit : toNat a * digit.toNat ≤ toNat a * (radix - 1) :=
        Nat.mul_le_mul_left _ (Nat.le_pred_of_lt digit.toNat_lt_radix)
      refine Nat.lt_of_mul_lt_mul_left (a := radix) ?_
      calc radix * toNat higher ≤ toNat sum + toNat a * (radix - 1) := by omega
        _ < radix ^ a.length + radix ^ a.length * (radix - 1) :=
          Nat.add_lt_add_of_lt_of_le hsum (Nat.mul_le_mul_right _ ha.le)
        _ = radix * radix ^ a.length := by rw [radix_eq]; ring
    obtain ⟨rest, hrest, hrestLength, hrestValue⟩ := @ih higher (by omega) hhigher
    refine ⟨lowest :: rest, ?_, ?_, ?_⟩
    · unfold mulRows
      simp only [hfront, hwrite, hrest, Checked.ok_bind, Checked.pure_eq]
    · rw [List.length_cons, hrestLength, hlengths]
    · rw [toNat_cons, hrestValue, toNat_cons]
      linear_combination hvalue

end Words

end Multiword
