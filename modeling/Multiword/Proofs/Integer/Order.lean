import Mathlib.Order.Compare
import Multiword.Proofs.Integer.Invariant
import Multiword.Proofs.Words.Bytes

/-!
# Order, equality and hash

A comparison of well-formed integers is that of their values, whatever buffers they lie in: the bit
counts that it looks at first are exact, and no list of words that it compares ends in a zero. Two
integers are equal if neither is below the other, and then the bytes that a hash is computed from are
the same.
-/

set_option autoImplicit false

namespace Multiword

namespace Integer

/-- The comparison does not put `x` above `y`. -/
def AtMost (x y : Integer) : Prop := x.compare y = .ok .lt ∨ x.compare y = .ok .eq

theorem compare_natCast (m n : Nat) : Ord.compare (m : Int) n = Ord.compare m n := by
  rcases lt_trichotomy m n with h | h | h
  · rw [Nat.compare_eq_lt.2 h, compare_lt_iff_lt.2 (Int.ofNat_lt.2 h)]
  · rw [Nat.compare_eq_eq.2 h, compare_eq_iff_eq.2 (congrArg Nat.cast h)]
  · rw [Nat.compare_eq_gt.2 h, compare_gt_iff_gt.2 (Int.ofNat_lt.2 h)]

/-- Below zero the larger magnitude is the lower integer. -/
theorem compare_neg_natCast (m n : Nat) :
    Ord.compare (-(m : Int)) (-n) = (Ord.compare m n).swap := by
  rcases lt_trichotomy m n with h | h | h
  · rw [Nat.compare_eq_lt.2 h, compare_gt_iff_gt.2 (by omega)]
    rfl
  · rw [Nat.compare_eq_eq.2 h, compare_eq_iff_eq.2 (by omega)]
    rfl
  · rw [Nat.compare_eq_gt.2 h, compare_lt_iff_lt.2 (by omega)]
    rfl

namespace WellFormed

variable {x y : Integer} (hx : x.WellFormed)

include hx

/-! ## Order -/

/-- A sign is that of an integer below zero. -/
theorem negative_eq : x.negative = decide (x.toInt < 0) := by
  unfold toInt
  cases hsign : x.negative with
  | false => simp
  | true =>
    have hmagnitude : x.magnitude ≠ 0 := fun h => by simp [hx.sign_of_magnitude h] at hsign
    simp only [if_true, true_eq_decide_iff]
    omega

theorem compare_eq (hy : y.WellFormed) : x.compare y = .ok (Ord.compare x.toInt y.toInt) := by
  have hleft := hx.negative_eq
  have hright := hy.negative_eq
  unfold compare
  rw [hx.compareMagnitudes_eq hy, hx.isNegative_eq, hy.isNegative_eq]
  unfold toInt at hleft hright ⊢
  cases hxsign : x.negative <;> cases hysign : y.negative <;>
    simp only [hxsign, hysign, Bool.false_eq_true, if_true, if_false, true_eq_decide_iff,
      false_eq_decide_iff] at hleft hright ⊢
  · rw [compare_natCast]
  · rw [compare_gt_iff_gt.2 (by omega)]
    rfl
  · rw [compare_lt_iff_lt.2 (by omega)]
    rfl
  · rw [compare_neg_natCast]
    rfl

theorem compare_of_lt (hy : y.WellFormed) (h : x.toInt < y.toInt) : x.compare y = .ok .lt := by
  rw [hx.compare_eq hy, compare_lt_iff_lt.2 h]

theorem compare_of_gt (hy : y.WellFormed) (h : y.toInt < x.toInt) : x.compare y = .ok .gt := by
  rw [hx.compare_eq hy, compare_gt_iff_gt.2 h]

theorem compare_cases (hy : y.WellFormed) :
    x.toInt < y.toInt ∧ x.compare y = .ok .lt ∨ x.toInt = y.toInt ∧ x.compare y = .ok .eq ∨
      y.toInt < x.toInt ∧ x.compare y = .ok .gt := by
  rcases lt_trichotomy x.toInt y.toInt with hlt | heq | hgt
  · exact .inl ⟨hlt, hx.compare_of_lt hy hlt⟩
  · exact .inr (.inl ⟨heq, by rw [hx.compare_eq hy, compare_eq_iff_eq.2 heq]⟩)
  · exact .inr (.inr ⟨hgt, hx.compare_of_gt hy hgt⟩)

theorem compare_eq_eq_iff (hy : y.WellFormed) : x.compare y = .ok .eq ↔ x.toInt = y.toInt := by
  rw [hx.compare_eq hy, Except.ok.injEq, compare_eq_iff_eq]

theorem atMost_iff (hy : y.WellFormed) : x.AtMost y ↔ x.toInt ≤ y.toInt := by
  rw [AtMost, hx.compare_eq hy, Except.ok.injEq, Except.ok.injEq, compare_lt_iff_lt,
    compare_eq_iff_eq, le_iff_lt_or_eq]

/-! ## Equality -/

/-- The value determines sign and magnitude as well. -/
theorem toInt_eq_iff (hy : y.WellFormed) :
    x.toInt = y.toInt ↔ x.negative = y.negative ∧ x.magnitude = y.magnitude := by
  constructor
  · intro h
    rw [hx.negative_eq, hy.negative_eq, ← natAbs_toInt, ← natAbs_toInt, h]
    exact ⟨rfl, rfl⟩
  · rintro ⟨hnegative, hmagnitude⟩
    exact toInt_congr hnegative hmagnitude

theorem equal_eq (hy : y.WellFormed) : x.equal y = .ok (decide (x.toInt = y.toInt)) := by
  unfold equal
  rw [hx.sameMagnitude_eq hy, Checked.ok_bind, hx.isNegative_eq, hy.isNegative_eq]
  show Except.ok _ = _
  congr 1
  rw [Bool.eq_iff_iff, Bool.and_eq_true, decide_eq_true_iff, decide_eq_true_iff, beq_iff_eq,
    hx.toInt_eq_iff hy, and_comm]

theorem equal_eq_true_iff (hy : y.WellFormed) : x.equal y = .ok true ↔ x.toInt = y.toInt := by
  rw [hx.equal_eq hy, Except.ok.injEq, decide_eq_true_iff]

/-! ## Hash -/

theorem hashBytes_eq :
    x.hashBytes = .ok ((if x.negative then 1 else 0) :: (Bytes.ofNat 8 x.size ++
      Words.toBytes (x.buffer.take x.size))) := by
  rw [hashBytes, hx.words_eq, Checked.ok_bind, hx.length_words, hx.isNegative_eq]
  rfl

theorem exists_hashBytes : ∃ bytes, x.hashBytes = .ok bytes :=
  ⟨_, hx.hashBytes_eq⟩

/-- The bytes can be taken apart into the sign and the words again. -/
theorem hashBytes_inj (hy : y.WellFormed) : x.hashBytes = y.hashBytes ↔ x.toInt = y.toInt := by
  rw [hx.toInt_eq_iff hy, ← hx.words_inj hy, hx.hashBytes_eq, hy.hashBytes_eq, Except.ok.injEq,
    List.cons.injEq]
  have hsign : ((if x.negative then 1 else 0 : UInt8) = if y.negative then 1 else 0) ↔
      x.negative = y.negative := by
    cases x.negative <;> cases y.negative <;> decide
  rw [hsign, and_congr_right_iff]
  intro _
  -- the word count takes as many bytes for every integer, so what comes behind it are the words
  constructor
  · intro h
    rw [← Words.toBytes_inj]
    exact (List.append_inj h (by simp)).2
  · intro h
    have hsize := congrArg List.length h
    rw [hx.length_words, hy.length_words] at hsize
    rw [h, hsize]

end WellFormed

/-- Order, equality and hash are those of the integers, for well-formed integers in any buffers. The
comparison is that of the values, and that of magnitudes is that of their absolute values; equality
is its case of equal, which the bytes of the hash tell as well. So the order is total, antisymmetric
and transitive. -/
theorem order_equality_and_hash_of_integers {x y z : Integer} (hx : x.WellFormed)
    (hy : y.WellFormed) (hz : z.WellFormed) :
    x.compare y = .ok (Ord.compare x.toInt y.toInt) ∧
    x.compareMagnitudes y = .ok (Ord.compare |x.toInt| |y.toInt|) ∧
    (x.equal y = .ok true ↔ x.compare y = .ok .eq) ∧
    x.equal y = .ok (decide (x.toInt = y.toInt)) ∧
    x.sameMagnitude y = .ok (decide (|x.toInt| = |y.toInt|)) ∧
    (x.AtMost y ∨ y.AtMost x) ∧
    (x.AtMost y → y.AtMost x → x.equal y = .ok true) ∧
    (x.AtMost y → y.AtMost z → x.AtMost z) ∧
    ∃ bytes bytes', x.hashBytes = .ok bytes ∧ y.hashBytes = .ok bytes' ∧
      (x.equal y = .ok true ↔ bytes = bytes') := by
  refine ⟨hx.compare_eq hy, ?_, ?_, hx.equal_eq hy, ?_, ?_, ?_, ?_, ?_⟩
  · rw [abs_toInt, abs_toInt, compare_natCast]
    exact hx.compareMagnitudes_eq hy
  · rw [hx.equal_eq_true_iff hy, hx.compare_eq_eq_iff hy]
  · rw [abs_toInt, abs_toInt, hx.sameMagnitude_eq hy]
    simp
  · rw [hx.atMost_iff hy, hy.atMost_iff hx]
    exact le_total _ _
  · rw [hx.atMost_iff hy, hy.atMost_iff hx, hx.equal_eq_true_iff hy]
    exact le_antisymm
  · rw [hx.atMost_iff hy, hy.atMost_iff hz, hx.atMost_iff hz]
    exact le_trans
  · refine ⟨_, _, hx.hashBytes_eq, hy.hashBytes_eq, ?_⟩
    rw [hx.equal_eq_true_iff hy, ← hx.hashBytes_inj hy, hx.hashBytes_eq, hy.hashBytes_eq,
      Except.ok.injEq]

theorem minus_thirty_one_equal_in_larger_buffer :
    ∃ (x y z : Integer) (bytes bytes' : List UInt8), x.WellFormed ∧ y.WellFormed ∧ z.WellFormed ∧
      x.toInt = -31 ∧ y.toInt = -31 ∧ z.toInt = 5 ∧ x.capacity = 4 ∧ y.capacity = 8 ∧
      x.compare y = .ok .eq ∧ x.compareMagnitudes z = .ok .gt ∧ x.equal y = .ok true ∧
      x.sameMagnitude y = .ok true ∧ x.AtMost z ∧ x.hashBytes = .ok bytes ∧
      y.hashBytes = .ok bytes' ∧ bytes = bytes' := by
  have hx : WellFormed ⟨[31, 0, 0, 0], 5, true⟩ :=
    wellFormed_of_bits (by decide) (by decide) (by decide) (by decide) (by decide)
  have hy : WellFormed ⟨[31, 0, 0, 0, 0, 0, 0, 0], 5, true⟩ :=
    wellFormed_of_bits (by decide) (by decide) (by decide) (by decide) (by decide)
  have hz : WellFormed ⟨[5, 0, 0, 0], 3, false⟩ :=
    wellFormed_of_bits (by decide) (by decide) (by decide) (by decide) (by decide)
  obtain ⟨hcompare, -, -, hequal, hsame, -, -, htrans, bytes, bytes', hbytes, hbytes', hiff⟩ :=
    order_equality_and_hash_of_integers hx hy hz
  obtain ⟨-, hmagnitudes, -⟩ := order_equality_and_hash_of_integers hx hz hy
  have hbelow : AtMost ⟨[31, 0, 0, 0, 0, 0, 0, 0], 5, true⟩ ⟨[5, 0, 0, 0], 3, false⟩ := .inl rfl
  exact ⟨_, _, _, bytes, bytes', hx, hy, hz, rfl, rfl, rfl, rfl, rfl, hcompare, hmagnitudes,
    hequal, hsame, htrans (.inr hcompare) hbelow, hbytes, hbytes', hiff.1 hequal⟩

end Integer

end Multiword
