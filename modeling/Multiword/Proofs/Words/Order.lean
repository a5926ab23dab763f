import Multiword.Proofs.Words.Bits

/-!
# Order of words

Words of one length are ordered as the numbers that they stand for.
-/

set_option autoImplicit false

namespace Multiword

namespace Words

theorem compare_word (a b : Word) : Ord.compare a b = Ord.compare a.toNat b.toNat := by
  show compareOfLessAndEq a b = compareOfLessAndEq a.toNat b.toNat
  simp only [compareOfLessAndEq, UInt32.lt_iff_toNat_lt, UInt32.toNat_inj]

/-- The high digits decide, and where they agree the low digit does. -/
theorem compare_digit {a b base : Nat} (high high' : Nat) (ha : a < base) (hb : b < base) :
    Ord.compare (a + base * high) (b + base * high') =
      (Ord.compare high high').then (Ord.compare a b) := by
  rcases lt_trichotomy high high' with h | rfl | h
  · have : base * (high + 1) ≤ base * high' := Nat.mul_le_mul_left _ h
    rw [Nat.compare_eq_lt.2 h, Nat.compare_eq_lt.2 (by rw [Nat.mul_add] at this; omega)]
    rfl
  · rw [Nat.compare_eq_eq.2 rfl]
    show _ = Ord.compare a b
    rcases lt_trichotomy a b with h | rfl | h
    · rw [Nat.compare_eq_lt.2 h, Nat.compare_eq_lt.2 (by omega)]
    · rw [Nat.compare_eq_eq.2 rfl, Nat.compare_eq_eq.2 rfl]
    · rw [Nat.compare_eq_gt.2 h, Nat.compare_eq_gt.2 (by omega)]
  · have : base * (high' + 1) ≤ base * high := Nat.mul_le_mul_left _ h
    rw [Nat.compare_eq_gt.2 h, Nat.compare_eq_gt.2 (by rw [Nat.mul_add] at this; omega)]
    rfl

theorem compareAligned_eq {a b : List Word} (h : a.length = b.length) :
    compareAligned a b = Ord.compare (toNat a) (toNat b) := by
  induction a generalizing b with
  | nil =>
    obtain rfl := List.length_eq_zero_iff.1 h.symm
    simp [compareAligned]
  | cons w ws ih =>
    obtain _ | ⟨v, vs⟩ := b
    · simp at h
    · rw [compareAligned, ih (by simpa using h), compare_word, toNat_cons, toNat_cons,
        compare_digit _ _ w.toNat_lt_radix v.toNat_lt_radix]

/-- Lists of one length without a zero top word compare as their numbers. -/
theorem compare_eq {a b : List Word} (hlength : a.length = b.length)
    (ha : a.getLast? ≠ some 0) (hb : b.getLast? ≠ some 0) :
    compare a b = .ok (Ord.compare (toNat a) (toNat b)) := by
  unfold compare
  rw [require_of _ ha, require_of _ hb, hlength, compareAligned_eq hlength,
    Nat.compare_eq_eq.2 rfl]
  rfl

end Words

end Multiword
