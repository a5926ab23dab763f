import Mathlib.Tactic.LinearCombination
import Mathlib.Tactic.Zify
import Multiword.Proofs.Words.Bits
import Multiword.Words.Carry

/-!
# Exact sums and differences of words

The carry of a sum is zero or one at every word, and the borrow of a difference zero or minus one.
So no accumulator overflows, and what the words lose at the top is exactly the carry or the borrow
that is left over.
-/

set_option autoImplicit false

namespace Multiword

/-! ## One word -/

namespace Word

theorem toNat_pos {w : Word} (h : w ≠ 0) : 0 < w.toNat := by
  rw [Nat.pos_iff_ne_zero, ne_eq, ← UInt32.toNat_zero, UInt32.toNat_inj]
  exact h

theorem eq_zero_or_eq_one {w : Word} (h : w.toNat ≤ 1) : w = 0 ∨ w = 1 := by
  simp only [← UInt32.toNat_inj, UInt32.toNat_zero, UInt32.toNat_one]
  omega

theorem addCarry_eq (a b : Word) {carry : Nat} (hcarry : carry ≤ 1) :
    ∃ w next, a.addCarry b carry = .ok (w, next) ∧
      w.toNat + radix * next = a.toNat + b.toNat + carry ∧ next ≤ 1 := by
  have ha := a.toNat_lt
  have hb := b.toNat_lt
  refine ⟨UInt32.ofNat (carry + a.toNat + b.toNat), (carry + a.toNat + b.toNat) / radix, ?_, ?_, ?_⟩
  · simp only [addCarry, unsigned64_of_lt (show carry + a.toNat < 18446744073709551616 by omega),
      unsigned64_of_lt (show carry + a.toNat + b.toNat < 18446744073709551616 by omega),
      Checked.ok_bind, Checked.pure_eq]
  · simp only [UInt32.toNat_ofNat', radix_eq]
    omega
  · simp only [radix_eq]
    omega

/-- A borrow is owed or it is not. -/
theorem subBorrow_eq (a b : Word) {borrow : Int} (hlow : -1 ≤ borrow) (hhigh : borrow ≤ 0) :
    ∃ w next, a.subBorrow b borrow = .ok (w, next) ∧
      (w.toNat : Int) + radix * next = a.toNat - b.toNat + borrow ∧ -1 ≤ next ∧ next ≤ 0 := by
  have ha := a.toNat_lt
  have hb := b.toNat_lt
  refine ⟨UInt32.ofInt (borrow + a.toNat - b.toNat), (borrow + a.toNat - b.toNat) / radix,
    ?_, ?_, ?_, ?_⟩
  · simp only [subBorrow, signed64_of_range (n := borrow + a.toNat) (by omega) (by omega),
      signed64_of_range (n := borrow + a.toNat - b.toNat) (by omega) (by omega),
      Checked.ok_bind, Checked.pure_eq]
  · simp only [UInt32.ofInt, UInt32.toNat_ofNat', radix_eq]
    omega
  · simp only [radix_eq]
    omega
  · simp only [radix_eq]
    omega

end Word

namespace Words

/-! ## Sums -/

theorem propagateCarry_eq (ws : List Word) {carry : Nat} (hcarry : carry ≤ 1) :
    ∃ sum next, propagateCarry ws carry = .ok (sum, next) ∧ sum.length = ws.length ∧
      toNat sum + radix ^ ws.length * next = toNat ws + carry ∧ next ≤ 1 := by
  induction ws generalizing carry with
  | nil => exact ⟨[], carry, rfl, rfl, by simp, hcarry⟩
  | cons w ws ih =>
    unfold propagateCarry
    split
    · next h => exact ⟨w :: ws, 0, rfl, rfl, by simp [h], by omega⟩
    · obtain ⟨v, carry', hword, hvalue, hcarry'⟩ := w.addCarry_eq 0 hcarry
      obtain ⟨vs, next, hrest, hlength, hvalues, hnext⟩ := ih hcarry'
      refine ⟨v :: vs, next, by simp [hword, hrest], by simp [hlength], ?_, hnext⟩
      rw [toNat_cons, toNat_cons, List.length_cons, pow_succ']
      rw [UInt32.toNat_zero] at hvalue
      linear_combination hvalue + radix * hvalues

/-- The words of a sum, and the carry that leaves them. -/
theorem addWithCarry_eq {a b : List Word} (hlength : b.length ≤ a.length) {carry : Nat}
    (hcarry : carry ≤ 1) :
    ∃ sum next, addWithCarry a b carry = .ok (sum, next) ∧ sum.length = a.length ∧
      toNat sum + radix ^ a.length * next = toNat a + toNat b + carry ∧ next ≤ 1 := by
  induction b generalizing a carry with
  | nil =>
    unfold addWithCarry
    simpa using propagateCarry_eq a hcarry
  | cons v vs ih =>
    obtain _ | ⟨w, ws⟩ := a
    · simp at hlength
    · obtain ⟨d, carry', hword, hvalue, hcarry'⟩ := w.addCarry_eq v hcarry
      obtain ⟨ds, next, hrest, hlength', hvalues, hnext⟩ := ih (a := ws) (by simpa using hlength) hcarry'
      refine ⟨d :: ds, next, by simp [addWithCarry, hword, hrest], by simp [hlength'], ?_, hnext⟩
      rw [toNat_cons, toNat_cons, toNat_cons, List.length_cons, pow_succ']
      linear_combination hvalue + radix * hvalues

theorem addInto_eq {a b : List Word} (hlength : b.length ≤ a.length) :
    ∃ sum carry, addInto a b = .ok (sum, carry) ∧ sum.length = a.length ∧
      toNat sum + radix ^ a.length * carry.toNat = toNat a + toNat b ∧ carry.toNat ≤ 1 := by
  obtain ⟨sum, next, hsum, hlength', hvalue, hnext⟩ := addWithCarry_eq hlength (Nat.zero_le 1)
  have hword : (UInt32.ofNat next).toNat = next := by
    rw [UInt32.toNat_ofNat']
    omega
  refine ⟨sum, UInt32.ofNat next, ?_, hlength', ?_, ?_⟩
  · simp [addInto, hlength, hsum]
  · rw [hword, hvalue, add_zero]
  · rw [hword]
    exact hnext

/-- Nothing is left over at the top of a result that fits. -/
theorem leftover_eq_zero {leftover : Word} {low base value : Nat}
    (h : low + base * leftover.toNat = value) (hfits : value < base) : leftover = 0 := by
  by_contra hne
  have := Nat.le_mul_of_pos_right base (Word.toNat_pos hne)
  omega

theorem addInto_of_lt {a b : List Word} (hlength : b.length ≤ a.length)
    (hfits : toNat a + toNat b < radix ^ a.length) :
    ∃ sum, addInto a b = .ok (sum, 0) ∧ sum.length = a.length ∧
      toNat sum = toNat a + toNat b := by
  obtain ⟨sum, carry, hsum, hsumLength, hvalue, -⟩ := addInto_eq hlength
  obtain rfl := leftover_eq_zero hvalue hfits
  exact ⟨sum, hsum, hsumLength, by simpa using hvalue⟩

/-! ## Differences -/

theorem propagateBorrow_eq (ws : List Word) {borrow : Int} (hlow : -1 ≤ borrow)
    (hhigh : borrow ≤ 0) :
    ∃ difference next, propagateBorrow ws borrow = .ok (difference, next) ∧
      difference.length = ws.length ∧
      (toNat difference : Int) + radix ^ ws.length * next = toNat ws + borrow ∧
      -1 ≤ next ∧ next ≤ 0 := by
  induction ws generalizing borrow with
  | nil => exact ⟨[], borrow, rfl, rfl, by simp, hlow, hhigh⟩
  | cons w ws ih =>
    unfold propagateBorrow
    split
    · next h => exact ⟨w :: ws, 0, rfl, rfl, by simp [h], by omega, by omega⟩
    · obtain ⟨v, borrow', hword, hvalue, hlow', hhigh'⟩ := w.subBorrow_eq 0 hlow hhigh
      obtain ⟨vs, next, hrest, hlength, hvalues, hnext⟩ := ih hlow' hhigh'
      refine ⟨v :: vs, next, by simp [hword, hrest], by simp [hlength], ?_, hnext⟩
      rw [toNat_cons, toNat_cons, List.length_cons, pow_succ']
      rw [UInt32.toNat_zero] at hvalue
      push_cast
      linear_combination hvalue + radix * hvalues

theorem subWithBorrow_eq {a b : List Word} (hlength : b.length ≤ a.length) {borrow : Int}
    (hlow : -1 ≤ borrow) (hhigh : borrow ≤ 0) :
    ∃ difference next, subWithBorrow a b borrow = .ok (difference, next) ∧
      difference.length = a.length ∧
      (toNat difference : Int) + radix ^ a.length * next = toNat a - toNat b + borrow ∧
      -1 ≤ next ∧ next ≤ 0 := by
  induction b generalizing a borrow with
  | nil =>
    unfold subWithBorrow
    simpa using propagateBorrow_eq a hlow hhigh
  | cons v vs ih =>
    obtain _ | ⟨w, ws⟩ := a
    · simp at hlength
    · obtain ⟨d, borrow', hword, hvalue, hlow', hhigh'⟩ := w.subBorrow_eq v hlow hhigh
      obtain ⟨ds, next, hrest, hlength', hvalues, hnext⟩ :=
        ih (a := ws) (by simpa using hlength) hlow' hhigh'
      refine ⟨d :: ds, next, by simp [subWithBorrow, hword, hrest], by simp [hlength'], ?_, hnext⟩
      rw [toNat_cons, toNat_cons, toNat_cons, List.length_cons, pow_succ']
      push_cast
      linear_combination hvalue + radix * hvalues

theorem borrowWord_eq {borrow : Int} (hlow : -1 ≤ borrow) (hhigh : borrow ≤ 0) :
    ((borrowWord borrow).toNat : Int) = -borrow := by
  obtain rfl | rfl : borrow = 0 ∨ borrow = -1 := by omega
  · rfl
  · rfl

theorem subInto_eq {a b : List Word} (hlength : b.length ≤ a.length) :
    ∃ difference borrow, subInto a b = .ok (difference, borrow) ∧
      difference.length = a.length ∧
      toNat difference + toNat b = toNat a + radix ^ a.length * borrow.toNat ∧
      borrow.toNat ≤ 1 := by
  obtain ⟨difference, next, hdifference, hlength', hvalue, hlow, hhigh⟩ :=
    subWithBorrow_eq hlength (show -1 ≤ (0 : Int) by decide) le_rfl
  have hword := borrowWord_eq hlow hhigh
  refine ⟨difference, borrowWord next, by simp [subInto, hlength, hdifference], hlength', ?_, ?_⟩
  · zify
    rw [hword]
    linear_combination hvalue
  · omega

/-- Taking the words of `b` from those of `a` in place of `b` touches no word of `b` above the end
of `a`. -/
theorem subReversed_eq {a b : List Word} (hlength : a.length ≤ b.length) {borrow : Int}
    (hlow : -1 ≤ borrow) (hhigh : borrow ≤ 0) :
    ∃ difference next, subReversed a b borrow = .ok (difference ++ b.drop a.length, next) ∧
      difference.length = a.length ∧
      (toNat difference : Int) + radix ^ a.length * next =
        toNat a - toNat (b.take a.length) + borrow ∧
      -1 ≤ next ∧ next ≤ 0 := by
  induction a generalizing b borrow with
  | nil => exact ⟨[], borrow, rfl, rfl, by simp, hlow, hhigh⟩
  | cons w ws ih =>
    obtain _ | ⟨v, vs⟩ := b
    · simp at hlength
    · obtain ⟨d, borrow', hword, hvalue, hlow', hhigh'⟩ := w.subBorrow_eq v hlow hhigh
      obtain ⟨ds, next, hrest, hlength', hvalues, hnext⟩ :=
        ih (b := vs) (by simpa using hlength) hlow' hhigh'
      refine ⟨d :: ds, next, by simp [subReversed, hword, hrest], by simp [hlength'], ?_, hnext⟩
      rw [List.length_cons, List.take_succ_cons, toNat_cons, toNat_cons, toNat_cons, pow_succ']
      push_cast
      linear_combination hvalue + radix * hvalues

theorem subFrom_eq {a b : List Word} (hlength : a.length ≤ b.length)
    (hzero : ∀ w ∈ b.drop a.length, w = 0) :
    ∃ difference borrow, subFrom a b = .ok (difference ++ b.drop a.length, borrow) ∧
      difference.length = a.length ∧
      toNat difference + toNat b = toNat a + radix ^ a.length * borrow.toNat ∧
      borrow.toNat ≤ 1 := by
  obtain ⟨difference, next, hdifference, hlength', hvalue, hlow, hhigh⟩ :=
    subReversed_eq hlength (show -1 ≤ (0 : Int) by decide) le_rfl
  have hword := borrowWord_eq hlow hhigh
  have htake : toNat (b.take a.length) = toNat b := by
    rw [← toNat_take_drop b hlength, toNat_eq_zero.2 hzero, Nat.mul_zero, add_zero]
  rw [htake] at hvalue
  have hall : (b.drop a.length).all (· == 0) := by
    rw [List.all_eq_true]
    intro w hw
    rw [hzero w hw]
    rfl
  refine ⟨difference, borrowWord next, by simp only [subFrom, require_of _ hlength, require_of _ hall,
    hdifference, Checked.ok_bind, Checked.pure_eq], hlength', ?_, ?_⟩
  · zify
    rw [hword]
    linear_combination hvalue
  · omega

/-- Nothing is borrowed at the top where the smaller number is taken from the larger one. -/
theorem borrow_eq_zero {borrow : Word} {difference less greater base : Nat}
    (h : difference + less = greater + base * borrow.toNat) (hdifference : difference < base)
    (hle : less ≤ greater) : borrow = 0 := by
  by_contra hne
  have := Nat.le_mul_of_pos_right base (Word.toNat_pos hne)
  omega

theorem subInto_of_le {a b : List Word} (hlength : b.length ≤ a.length) (hle : toNat b ≤ toNat a) :
    ∃ difference, subInto a b = .ok (difference, 0) ∧ difference.length = a.length ∧
      toNat difference = toNat a - toNat b := by
  obtain ⟨difference, borrow, hdifference, hsame, hvalue, -⟩ := subInto_eq hlength
  have hlt := toNat_lt difference
  rw [hsame] at hlt
  obtain rfl := borrow_eq_zero hvalue hlt hle
  refine ⟨difference, hdifference, hsame, ?_⟩
  rw [UInt32.toNat_zero, Nat.mul_zero] at hvalue
  omega

theorem subFrom_of_le {a b : List Word} (hlength : a.length ≤ b.length)
    (hzero : ∀ w ∈ b.drop a.length, w = 0) (hle : toNat b ≤ toNat a) :
    ∃ difference, subFrom a b = .ok (difference ++ b.drop a.length, 0) ∧
      difference.length = a.length ∧ toNat difference = toNat a - toNat b := by
  obtain ⟨difference, borrow, hdifference, hsame, hvalue, -⟩ := subFrom_eq hlength hzero
  have hlt := toNat_lt difference
  rw [hsame] at hlt
  obtain rfl := borrow_eq_zero hvalue hlt hle
  refine ⟨difference, hdifference, hsame, ?_⟩
  rw [UInt32.toNat_zero, Nat.mul_zero] at hvalue
  omega

/-! ## What is left over

The word that comes back beside the others is the accumulator after the last of them, with nothing
cut off. A borrow, which is negative there, comes back without its sign. -/

theorem addWithCarry_of_addInto {a b sum : List Word} {carry : Word}
    (hlength : b.length ≤ a.length) (h : addInto a b = .ok (sum, carry)) :
    addWithCarry a b 0 = .ok (sum, carry.toNat) := by
  obtain ⟨sum', next, hsum, -, -, hnext⟩ := addWithCarry_eq hlength (Nat.zero_le 1)
  rw [addInto, require_of _ hlength, Checked.ok_bind, hsum] at h
  cases h
  rw [hsum, UInt32.toNat_ofNat', Nat.mod_eq_of_lt (by omega)]

theorem subWithBorrow_of_subInto {a b difference : List Word} {borrow : Word}
    (hlength : b.length ≤ a.length) (h : subInto a b = .ok (difference, borrow)) :
    subWithBorrow a b 0 = .ok (difference, -borrow.toNat) := by
  obtain ⟨difference', next, hdifference, -, -, hlow, hhigh⟩ :=
    subWithBorrow_eq hlength (show -1 ≤ (0 : Int) by decide) le_rfl
  rw [subInto, require_of _ hlength, Checked.ok_bind, hdifference] at h
  cases h
  rw [hdifference, borrowWord_eq hlow hhigh, neg_neg]

theorem subReversed_of_subFrom {a b difference : List Word} {borrow : Word}
    (hlength : a.length ≤ b.length) (h : subFrom a b = .ok (difference, borrow)) :
    subReversed a b 0 = .ok (difference, -borrow.toNat) := by
  obtain ⟨low, next, hlow, -, -, hleast, hmost⟩ :=
    subReversed_eq hlength (show -1 ≤ (0 : Int) by decide) le_rfl
  rw [subFrom, require_of _ hlength, Checked.ok_bind, hlow] at h
  by_cases hall : (b.drop a.length).all (· == 0)
  · rw [require_of _ hall] at h
    cases h
    rw [hlow, borrowWord_eq hleast hmost, neg_neg]
  · rw [require_of_not _ hall] at h
    cases h

/-- A borrow is left over just where the number that is taken away is the larger one. -/
theorem borrow_eq_one_iff {borrow : Word} {difference less greater base : Nat}
    (h : difference + less = greater + base * borrow.toNat) (hdifference : difference < base)
    (hborrow : borrow.toNat ≤ 1) : borrow = 1 ↔ greater < less := by
  obtain rfl | rfl := Word.eq_zero_or_eq_one hborrow
  · rw [UInt32.toNat_zero, Nat.mul_zero, add_zero] at h
    exact iff_of_false (by decide) (by omega)
  · rw [UInt32.toNat_one, Nat.mul_one] at h
    exact iff_of_true rfl (by omega)

/-- Sums and differences of words are exact, and what the words cannot hold is left over. There is a
result for all lists of fitting lengths, so no accumulator leaves its 64 bits on the way. The carry of
a sum is zero or one. A borrow is one where more is taken away than there is, and zero elsewhere. In
place of the second number only the words that the first one reaches change. -/
theorem carries_and_borrows_exact (a b : List Word) :
    (b.length ≤ a.length →
      (∃ sum carry, addInto a b = .ok (sum, carry) ∧
        addWithCarry a b 0 = .ok (sum, carry.toNat) ∧ sum.length = a.length ∧
        toNat sum + carry.toNat * radix ^ a.length = toNat a + toNat b ∧
        (carry = 0 ∨ carry = 1)) ∧
      ∃ difference borrow, subInto a b = .ok (difference, borrow) ∧
        subWithBorrow a b 0 = .ok (difference, -borrow.toNat) ∧ difference.length = a.length ∧
        (toNat difference : Int) - borrow.toNat * radix ^ a.length = toNat a - toNat b ∧
        (borrow = 0 ∨ borrow = 1) ∧ (borrow = 1 ↔ toNat a < toNat b)) ∧
    (a.length ≤ b.length → (∀ w ∈ b.drop a.length, w = 0) →
      ∃ low borrow, subFrom a b = .ok (low ++ b.drop a.length, borrow) ∧
        subReversed a b 0 = .ok (low ++ b.drop a.length, -borrow.toNat) ∧
        low.length = a.length ∧
        (toNat low : Int) = toNat a - toNat b + borrow.toNat * radix ^ a.length ∧
        (borrow = 0 ∨ borrow = 1) ∧ (borrow = 1 ↔ toNat a < toNat b)) := by
  refine ⟨fun hlength => ⟨?_, ?_⟩, fun hlength hzero => ?_⟩
  · obtain ⟨sum, carry, hsum, hsame, hvalue, hcarry⟩ := addInto_eq hlength
    refine ⟨sum, carry, hsum, addWithCarry_of_addInto hlength hsum, hsame, ?_,
      Word.eq_zero_or_eq_one hcarry⟩
    rw [← hvalue, Nat.mul_comm]
  · obtain ⟨difference, borrow, hdifference, hsame, hvalue, hborrow⟩ := subInto_eq hlength
    have hlt : toNat difference < radix ^ a.length := hsame ▸ toNat_lt difference
    refine ⟨difference, borrow, hdifference, subWithBorrow_of_subInto hlength hdifference, hsame,
      ?_, Word.eq_zero_or_eq_one hborrow, borrow_eq_one_iff hvalue hlt hborrow⟩
    zify at hvalue
    linear_combination hvalue
  · obtain ⟨low, borrow, hlow, hsame, hvalue, hborrow⟩ := subFrom_eq hlength hzero
    have hlt : toNat low < radix ^ a.length := hsame ▸ toNat_lt low
    refine ⟨low, borrow, hlow, subReversed_of_subFrom hlength hlow, hsame, ?_,
      Word.eq_zero_or_eq_one hborrow, borrow_eq_one_iff hvalue hlt hborrow⟩
    zify at hvalue
    linear_combination hvalue

theorem carries_and_borrows_of_full_words :
    (∃ sum carry, addInto [4294967295, 4294967295] [1] = .ok (sum, carry) ∧ sum.length = 2 ∧
      toNat sum + carry.toNat * radix ^ 2 = radix ^ 2 ∧ (carry = 0 ∨ carry = 1)) ∧
    (∃ difference borrow, subInto [0, 0] [1] = .ok (difference, borrow) ∧ borrow = 1 ∧
      (toNat difference : Int) - borrow.toNat * radix ^ 2 = -1) ∧
    ∃ low borrow, subFrom [0, 1] [1, 0, 0] = .ok (low ++ [0], borrow) ∧ low.length = 2 ∧
      (toNat low : Int) = radix - 1 + borrow.toNat * radix ^ 2 ∧ (borrow = 0 ∨ borrow = 1) := by
  obtain ⟨⟨sum, carry, hsum, -, hlength, hvalue, hcarry⟩, -⟩ :=
    (carries_and_borrows_exact [4294967295, 4294967295] [1]).1 (by decide)
  obtain ⟨-, difference, borrow, hdifference, -, -, hbelow, -, hborrow⟩ :=
    (carries_and_borrows_exact [0, 0] [1]).1 (by decide)
  obtain ⟨low, borrow', hlow, -, hsame, hreversed, hborrow', -⟩ :=
    (carries_and_borrows_exact [0, 1] [1, 0, 0]).2 (by decide) (by simp)
  exact ⟨⟨sum, carry, hsum, hlength, hvalue, hcarry⟩,
    ⟨difference, borrow, hdifference, hborrow.2 (by decide), hbelow⟩,
    low, borrow', hlow, hsame, hreversed, hborrow'⟩

end Words

end Multiword
