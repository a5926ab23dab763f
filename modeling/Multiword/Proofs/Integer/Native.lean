import Multiword.Proofs.Integer.Order
import Multiword.Proofs.Integer.Storage

/-!
# Native integers without a second integer

A magnitude of 64 bits is all in the two lowest words, since the words above those in use are zero. So
what is compared with, read from and written into an integer through these two words agrees with the
integers: an integer that is too long lies outside the range of every native one, on the side that its
sign tells, and the lowest signed native integer, `-2 ^ 63`, has a magnitude that is still unsigned.
-/

set_option autoImplicit false

namespace Multiword

/-! ## The ranges of native types -/

theorem NativeType.holds_signed {width : Nat} {n : Int} :
    (NativeType.signed width).holds n = true ↔ -2 ^ (width - 1) ≤ n ∧ n < 2 ^ (width - 1) := by
  simp [NativeType.holds, Nat.shiftLeft_eq, and_comm]

theorem NativeType.holds_unsigned {width : Nat} {n : Int} :
    (NativeType.unsigned width).holds n = true ↔ 0 ≤ n ∧ n < 2 ^ width := by
  simp [NativeType.holds, Nat.shiftLeft_eq]

namespace Integer

/-- A magnitude that is too long is larger than every native one. -/
theorem compareShort_eq {m n : Nat} (h : n < 2 ^ 64) :
    compareShort (if m < 2 ^ 64 then some m else none) n = Ord.compare m n := by
  by_cases hm : m < 2 ^ 64
  · rw [if_pos hm, compareShort]
  · rw [if_neg hm, compareShort, Nat.compare_eq_gt.2 (by omega)]

theorem compare_beq_eq (m n : Int) : (Ord.compare m n == .eq) = decide (m = n) := by
  rw [Bool.eq_iff_iff, beq_iff_eq, compare_eq_iff_eq, decide_eq_true_iff]

/-- The sign and the magnitude of a number determine the integer. -/
theorem Holds.toInt_eq {x : Integer} {capacity : Nat} {n : Int}
    (h : x.Holds capacity n.natAbs (decide (n < 0))) : x.toInt = n := by
  rw [toInt, h.negative_eq, h.magnitude_eq]
  by_cases hn : n < 0
  · simp only [hn, decide_true, if_true]
    omega
  · simp only [hn, decide_false, Bool.false_eq_true, if_false]
    omega

namespace WellFormed

variable {x : Integer} (hx : x.WellFormed)

include hx

/-! ## Reading -/

theorem shortMagnitude?_eq :
    x.shortMagnitude? = .ok (if x.magnitude < 2 ^ 64 then some x.magnitude else none) := by
  have hbits : x.bits ≤ 64 ↔ x.magnitude < 2 ^ 64 := by rw [hx.bits_eq, bitLength_le]
  unfold shortMagnitude?
  by_cases h : x.magnitude < 2 ^ 64
  · rw [if_neg (by omega), if_pos h]
    have hpos := hx.buffer_pos
    have hfour := hx.four_dvd
    rcases hbuffer : x.buffer with _ | ⟨low, _ | ⟨high, rest⟩⟩
    · simp [hbuffer] at hpos
    · simp [hbuffer] at hfour
    · -- what stands above the two words weighs `2 ^ 64` at least
      have hvalue : x.magnitude = low.toNat + radix * (high.toNat + radix * Words.toNat rest) := by
        rw [magnitude, hbuffer, Words.toNat_cons, Words.toNat_cons]
      rw [radix_eq] at hvalue
      have hrest : Words.toNat rest = 0 := by omega
      have hdouble : Word.double high low = x.magnitude := by
        rw [hvalue, hrest, Word.double, radix_eq]
        omega
      show Except.ok (some (Word.double high low)) = _
      rw [hdouble]
  · rw [if_pos (by omega), if_neg h]
    rfl

theorem toSigned?_eq : x.toSigned? =
    .ok (if -2 ^ 63 ≤ x.toInt ∧ x.toInt < 2 ^ 63 then some (Int64.ofInt x.toInt) else none) := by
  unfold toSigned?
  rw [hx.shortMagnitude?_eq, hx.isNegative_eq]
  by_cases h : x.magnitude < 2 ^ 64
  · rw [if_pos h]
    exact congrArg Except.ok (if_congr NativeType.holds_signed rfl rfl)
  · have hlong : ¬(-2 ^ 63 ≤ x.toInt ∧ x.toInt < 2 ^ 63) := by
      have := natAbs_toInt x
      omega
    rw [if_neg h, if_neg hlong]
    rfl

theorem toUnsigned?_eq : x.toUnsigned? =
    .ok (if 0 ≤ x.toInt ∧ x.toInt < 2 ^ 64 then some (UInt64.ofNat x.toInt.toNat) else none) := by
  unfold toUnsigned?
  have hmagnitude := natAbs_toInt x
  rw [hx.isNegative_eq, hx.negative_eq, hx.shortMagnitude?_eq]
  by_cases hneg : x.toInt < 0
  · rw [if_neg (by omega : ¬(0 ≤ x.toInt ∧ x.toInt < 2 ^ 64))]
    simp [hneg]
  · have hvalue : x.toInt.toNat = x.magnitude := by omega
    have hrange : (0 ≤ x.toInt ∧ x.toInt < 2 ^ 64) ↔ x.magnitude < 2 ^ 64 := by omega
    by_cases h : x.magnitude < 2 ^ 64
    · rw [if_pos h, if_pos (hrange.2 h), hvalue]
      simp [hneg]
    · rw [if_neg h, if_neg (mt hrange.1 h)]
      simp [hneg]

theorem toSigned?_eq_some {n : Int64} : x.toSigned? = .ok (some n) ↔ x.toInt = n.toInt := by
  rw [hx.toSigned?_eq, Except.ok.injEq]
  by_cases h : -2 ^ 63 ≤ x.toInt ∧ x.toInt < 2 ^ 63
  · rw [if_pos h, Option.some.injEq, ← Int64.toInt_inj, Int64.toInt_ofInt_of_le h.1 h.2]
  · rw [if_neg h]
    have hlow := n.le_toInt
    have hhigh := n.toInt_lt
    constructor
    · simp
    · intro heq
      exact absurd ⟨by omega, by omega⟩ h

theorem toUnsigned?_eq_some {n : UInt64} : x.toUnsigned? = .ok (some n) ↔ x.toInt = n.toNat := by
  rw [hx.toUnsigned?_eq, Except.ok.injEq]
  have hhigh := n.toNat_lt
  by_cases h : 0 ≤ x.toInt ∧ x.toInt < 2 ^ 64
  · rw [if_pos h, Option.some.injEq, ← UInt64.toNat_inj, UInt64.toNat_ofNat']
    omega
  · rw [if_neg h]
    constructor
    · simp
    · intro heq
      exact absurd ⟨by omega, by omega⟩ h

/-! ## Comparing -/

theorem compareSigned_eq (n : Int64) : x.compareSigned n = .ok (Ord.compare x.toInt n.toInt) := by
  have hlow := n.le_toInt
  have hhigh := n.toInt_lt
  have hmagnitude := natAbs_toInt x
  have hsign : decide (n < 0) = decide (n.toInt < 0) := by
    simp only [Int64.lt_iff_toInt_lt, Int64.toInt_zero]
  unfold compareSigned
  rw [hx.isNegative_eq, hx.negative_eq, hsign, hx.shortMagnitude?_eq]
  by_cases hxneg : x.toInt < 0 <;> by_cases hnneg : n.toInt < 0
  · -- below zero the magnitudes are in the other order
    have hxvalue : x.toInt = -(x.magnitude : Int) := by omega
    have hnvalue : n.toInt = -(n.toInt.natAbs : Int) := by omega
    simp only [hxneg, hnneg, decide_true, Checked.ok_bind, if_true]
    rw [compareShort_eq (by omega), hxvalue, hnvalue, compare_neg_natCast, Int.natAbs_neg,
      Int.natAbs_natCast]
    rfl
  · simp only [hxneg, hnneg, decide_true, decide_false]
    rw [compare_lt_iff_lt.2 (by omega)]
    rfl
  · simp only [hxneg, hnneg, decide_true, decide_false]
    rw [compare_gt_iff_gt.2 (by omega)]
    rfl
  · have hxvalue : x.toInt = (x.magnitude : Int) := by omega
    have hnvalue : n.toInt = (n.toInt.natAbs : Int) := by omega
    simp only [hxneg, hnneg, decide_false, Checked.ok_bind, Bool.false_eq_true, if_false]
    rw [compareShort_eq (by omega), hxvalue, hnvalue, compare_natCast, Int.natAbs_natCast]
    rfl

theorem compareUnsigned_eq (n : UInt64) :
    x.compareUnsigned n = .ok (Ord.compare x.toInt n.toNat) := by
  have hmagnitude := natAbs_toInt x
  unfold compareUnsigned
  rw [hx.isNegative_eq, hx.negative_eq, hx.shortMagnitude?_eq]
  by_cases hneg : x.toInt < 0
  · simp only [hneg, decide_true, if_true]
    rw [compare_lt_iff_lt.2 (by omega)]
    rfl
  · have hvalue : x.toInt = (x.magnitude : Int) := by omega
    simp only [hneg, decide_false, Bool.false_eq_true, if_false, Checked.ok_bind]
    rw [compareShort_eq n.toNat_lt, hvalue, compare_natCast]
    rfl

theorem compareWidened_signed (width : Nat) {n : Int} (h : (NativeType.signed 64).holds n = true) :
    x.compareWidened (.signed width) n = .ok (Ord.compare x.toInt n) := by
  obtain ⟨hlow, hhigh⟩ := NativeType.holds_signed.1 h
  have hcompared := hx.compareSigned_eq (Int64.ofInt n)
  rwa [Int64.toInt_ofInt_of_le hlow hhigh] at hcompared

theorem compareWidened_unsigned (width : Nat) {n : Int}
    (h : (NativeType.unsigned 64).holds n = true) :
    x.compareWidened (.unsigned width) n = .ok (Ord.compare x.toInt n) := by
  obtain ⟨hlow, hhigh⟩ := NativeType.holds_unsigned.1 h
  have hcompared := hx.compareUnsigned_eq (UInt64.ofNat n.toNat)
  have hvalue : ((UInt64.ofNat n.toNat).toNat : Int) = n := by
    rw [UInt64.toNat_ofNat']
    omega
  rwa [hvalue] at hcompared

end WellFormed

/-! ## New integers -/

theorem exists_ofSigned (n : Int64) : ∃ y, ofSigned n = .ok y ∧ y.Denotes 4 n.toInt := by
  obtain ⟨y, hy, hholds⟩ := wellFormed_zero.setSigned n
  exact ⟨y, hy, hholds.wellFormed, hholds.capacity_eq.ge, hholds.toInt_eq⟩

theorem exists_ofUnsigned (n : UInt64) : ∃ y, ofUnsigned n = .ok y ∧ y.Denotes 4 n.toNat := by
  obtain ⟨y, hy, hholds⟩ := wellFormed_zero.setUnsigned n
  exact ⟨y, hy, hholds.wellFormed, hholds.capacity_eq.ge, hholds.toInt_natCast⟩

/-- A native integer of any of the four types becomes an integer, and comparing with the one is
comparing with the other. -/
theorem exists_ofNative?_widened {type : NativeType} {n : Int}
    (htype : type ∈ [NativeType.signed 32, .signed 64, .unsigned 32, .unsigned 64])
    (h : type.holds n = true) :
    ∃ y, ofNative? type n = .ok (some y) ∧ y.Denotes 4 n ∧ ∀ x : Integer, x.WellFormed →
      x.compareWidened type n = .ok (Ord.compare x.toInt n) := by
  have hsigned : ∀ width, (NativeType.signed 64).holds n = true →
      ∃ y, ofNative? (.signed width) n = .ok (some y) ∧ y.Denotes 4 n ∧ ∀ x : Integer,
        x.WellFormed → x.compareWidened (.signed width) n = .ok (Ord.compare x.toInt n) := by
    intro width hfits
    obtain ⟨hlow, hhigh⟩ := NativeType.holds_signed.1 hfits
    obtain ⟨y, hy, hdenotes⟩ := exists_ofSigned (Int64.ofInt n)
    rw [Int64.toInt_ofInt_of_le hlow hhigh] at hdenotes
    exact ⟨y, by simp [ofNative?, hfits, hy], hdenotes, fun x hx => hx.compareWidened_signed width hfits⟩
  have hunsigned : ∀ width, (NativeType.unsigned 64).holds n = true →
      ∃ y, ofNative? (.unsigned width) n = .ok (some y) ∧ y.Denotes 4 n ∧ ∀ x : Integer,
        x.WellFormed → x.compareWidened (.unsigned width) n = .ok (Ord.compare x.toInt n) := by
    intro width hfits
    obtain ⟨hlow, hhigh⟩ := NativeType.holds_unsigned.1 hfits
    obtain ⟨y, hy, hdenotes⟩ := exists_ofUnsigned (UInt64.ofNat n.toNat)
    have hvalue : ((UInt64.ofNat n.toNat).toNat : Int) = n := by
      rw [UInt64.toNat_ofNat']
      omega
    rw [hvalue] at hdenotes
    exact ⟨y, by simp [ofNative?, hfits, hy], hdenotes,
      fun x hx => hx.compareWidened_unsigned width hfits⟩
  simp only [List.mem_cons, List.not_mem_nil, or_false] at htype
  rcases htype with rfl | rfl | rfl | rfl
  · obtain ⟨hlow, hhigh⟩ := NativeType.holds_signed.1 h
    exact hsigned 32 (NativeType.holds_signed.2 ⟨by omega, by omega⟩)
  · exact hsigned 64 h
  · obtain ⟨hlow, hhigh⟩ := NativeType.holds_unsigned.1 h
    exact hunsigned 32 (NativeType.holds_unsigned.2 ⟨by omega, by omega⟩)
  · exact hunsigned 64 h

/-- An integer compares with a native one, and equals it, as it does with the integer that is made of
it. It reads as a native integer where its value lies in the range of that, and then as that value; and
what is set from a native integer, in the buffer that is there, reads as the same one again. -/
theorem native_integers_agree {x : Integer} (hx : x.WellFormed) (m : Int64) (n : UInt64) :
    (∃ y order, ofSigned m = .ok y ∧ x.compareSigned m = .ok order ∧ x.compare y = .ok order ∧
      x.equalSigned m = .ok (order == .eq) ∧ x.equal y = .ok (order == .eq)) ∧
    (∃ y order, ofUnsigned n = .ok y ∧ x.compareUnsigned n = .ok order ∧ x.compare y = .ok order) ∧
    (∀ type ∈ [NativeType.signed 32, .signed 64, .unsigned 32, .unsigned 64], ∀ k : Int,
      type.holds k = true → ∃ y order, ofNative? type k = .ok (some y) ∧
        x.compareWidened type k = .ok order ∧ x.compare y = .ok order ∧
        x.equalWidened type k = .ok (order == .eq) ∧ x.equal y = .ok (order == .eq)) ∧
    (x.toSigned? = .ok (some m) ↔ x.toInt = m.toInt) ∧
    (x.toSigned? = .ok none ↔ ¬(-2 ^ 63 ≤ x.toInt ∧ x.toInt < 2 ^ 63)) ∧
    (x.toUnsigned? = .ok (some n) ↔ x.toInt = n.toNat) ∧
    (x.toUnsigned? = .ok none ↔ ¬(0 ≤ x.toInt ∧ x.toInt < 2 ^ 64)) ∧
    (∃ y, x.setSigned m = .ok y ∧ y.toSigned? = .ok (some m) ∧ y.capacity = x.capacity) ∧
    ∃ y, x.setUnsigned n = .ok y ∧ y.toUnsigned? = .ok (some n) ∧ y.capacity = x.capacity := by
  have hequal : ∀ {y : Integer} {k : Int}, y.Denotes 4 k →
      x.equal y = .ok (Ord.compare x.toInt k == .eq) := by
    intro y k hy
    rw [hx.equal_eq hy.wellFormed, hy.toInt_eq, compare_beq_eq]
  refine ⟨?_, ?_, ?_, hx.toSigned?_eq_some, ?_, hx.toUnsigned?_eq_some, ?_, ?_, ?_⟩
  · obtain ⟨y, hy, hdenotes⟩ := exists_ofSigned m
    refine ⟨y, _, hy, hx.compareSigned_eq m, ?_, ?_, hequal hdenotes⟩
    · rw [hx.compare_eq hdenotes.wellFormed, hdenotes.toInt_eq]
    · rw [equalSigned, hx.compareSigned_eq]
      rfl
  · obtain ⟨y, hy, hdenotes⟩ := exists_ofUnsigned n
    refine ⟨y, _, hy, hx.compareUnsigned_eq n, ?_⟩
    rw [hx.compare_eq hdenotes.wellFormed, hdenotes.toInt_eq]
  · intro type htype k hk
    obtain ⟨y, hy, hdenotes, hcompared⟩ := exists_ofNative?_widened htype hk
    refine ⟨y, _, hy, hcompared x hx, ?_, ?_, hequal hdenotes⟩
    · rw [hx.compare_eq hdenotes.wellFormed, hdenotes.toInt_eq]
    · rw [equalWidened, hcompared x hx]
      rfl
  · rw [hx.toSigned?_eq]
    simp
  · rw [hx.toUnsigned?_eq]
    simp
  · obtain ⟨y, hy, hholds⟩ := hx.setSigned m
    exact ⟨y, hy, hholds.wellFormed.toSigned?_eq_some.2 hholds.toInt_eq, hholds.capacity_eq⟩
  · obtain ⟨y, hy, hholds⟩ := hx.setUnsigned n
    exact ⟨y, hy, hholds.wellFormed.toUnsigned?_eq_some.2 hholds.toInt_natCast, hholds.capacity_eq⟩

/-- The lowest signed native integer, whose magnitude takes all of 64 bits. -/
theorem lowest_native_integer_agrees :
    ∃ x : Integer, x.WellFormed ∧ x.toInt = -2 ^ 63 ∧ x.bits = 64 ∧
      x.toSigned? = .ok (some Int64.minValue) ∧ x.toUnsigned? = .ok none ∧
      (∃ y order, ofNative? (.signed 64) (-2 ^ 63) = .ok (some y) ∧
        x.compareWidened (.signed 64) (-2 ^ 63) = .ok order ∧ x.compare y = .ok order ∧
        x.equalWidened (.signed 64) (-2 ^ 63) = .ok (order == .eq) ∧
        x.equal y = .ok (order == .eq)) ∧
      ∃ y, x.setUnsigned 18446744073709551615 = .ok y ∧
        y.toUnsigned? = .ok (some 18446744073709551615) ∧ y.capacity = x.capacity := by
  have hx : WellFormed ⟨[0, 2147483648, 0, 0], 64, true⟩ :=
    wellFormed_of_bits (by decide) (by decide) (by decide) (by decide) (by decide)
  obtain ⟨-, -, hwidened, hsigned, -, -, hunsigned, -, hset⟩ :=
    native_integers_agree hx Int64.minValue 18446744073709551615
  exact ⟨_, hx, by decide, rfl, hsigned.2 (by decide), hunsigned.2 (by decide),
    hwidened (.signed 64) (by decide) _ (by decide), hset⟩

end Integer

end Multiword
