import Multiword.Integer.Product
import Multiword.Proofs.Integer.Storage
import Multiword.Proofs.Words.Product

/-!
# Products are exact

The rows of a product add up in a buffer of zeros with room for the words of both operands. If the
destination is an operand, the product is built in an integer of its own; then the buffer of the
destination is given up, and nothing is said about the capacity.
-/

set_option autoImplicit false

namespace Multiword

namespace Integer

open ActionOn (current replace settles_current settles_checked settles_replace attempts_current
  attempts_checked attempts_throw attempts_action)

namespace WellFormed

variable {x a b : Integer} (hx : x.WellFormed) (ha : a.WellFormed) (hb : b.WellFormed)

include hx ha hb

/-- Rows in a buffer that is cleared first. -/
theorem settles_mulRows (hroom : a.size + b.size ≤ x.capacity)
    (hlt : (a.size + b.size) * 32 < UInt64.size) :
    (do
      let x ← current
      let buffer ← Words.clear x.buffer 0 (max x.size (a.size + b.size))
      let buffer ← Words.mulRows (a.buffer.take a.size) (b.buffer.take b.size) buffer
      let x ← { x with buffer }.normalized (a.size + b.size)
      replace x.unsigned : Update Unit).Settles x fun _ y =>
        y.Holds x.capacity (a.magnitude * b.magnitude) false := by
  set size := a.size + b.size with hsize
  have hused : max x.size size ≤ x.buffer.length := max_le hx.size_le hroom
  -- above the words that are cleared there were only zeros before
  set zeros := List.replicate (max x.size size) 0 ++ x.buffer.drop (max x.size size) with hzeros
  have hclear : Words.clear x.buffer 0 (max x.size size) = .ok zeros := by
    rw [Words.clear, if_pos ⟨Nat.zero_le _, hused⟩]
    rfl
  have hzerosLength : zeros.length = x.capacity := by
    rw [hzeros, List.length_append, List.length_replicate, List.length_drop, capacity]
    omega
  have hzerosValue : Words.toNat zeros = 0 := by
    rw [hzeros, Words.toNat_append, Words.toNat_replicate_zero,
      hx.toNat_drop_eq_zero (le_max_left _ _), Nat.mul_zero]
  have hlengths : (a.buffer.take a.size).length + (b.buffer.take b.size).length ≤ zeros.length := by
    rw [ha.length_words, hb.length_words, hzerosLength]
    exact hroom
  have hlow : Words.toNat zeros < radix ^ (a.buffer.take a.size).length := by
    rw [hzerosValue]
    exact Words.radix_pow_pos _
  obtain ⟨product, hproduct, hlength, hvalue⟩ := Words.mulRows_eq _ hlengths hlow
  rw [hzerosLength] at hlength
  rw [hzerosValue, ha.toNat_words, hb.toNat_words, zero_add] at hvalue
  have hbound : a.magnitude * b.magnitude < radix ^ size := by
    rw [hsize, pow_add]
    exact Nat.mul_lt_mul'' ha.magnitude_lt_radix_pow hb.magnitude_lt_radix_pow
  have hrest : Words.toNat (product.drop size) = 0 := by
    rw [Words.toNat_drop _ (by rw [hlength]; exact hroom), hvalue, Nat.div_eq_of_lt hbound]
  have hbits : bitLength (a.magnitude * b.magnitude) < UInt64.size := by
    rw [Words.radix_pow] at hbound
    exact lt_of_le_of_lt (bitLength_le.2 hbound) (by rwa [Nat.mul_comm])
  obtain ⟨y, hy, hholds⟩ := hx.normalized size hlength hvalue hrest hbits
  refine settles_current (settles_checked hclear (settles_checked hproduct (settles_checked hy
    (settles_replace ?_))))
  have hunsigned := hholds.wellFormed.unsigned
  rwa [hholds.capacity_eq, hholds.magnitude_eq] at hunsigned

/-- A size that the machine does not hold is refused without a request. -/
theorem mulWords : (Integer.mulWords a b).Attempts x 1 ((a.size + b.size) * 32)
    (fun failure => failure = .error .growthRefused ∧ UInt64.size ≤ (a.size + b.size) * 32)
    fun _ y => y.Holds (roomFor x.capacity ((a.size + b.size) * 32)) (a.magnitude * b.magnitude)
      false := by
  unfold Integer.mulWords
  refine attempts_checked ha.words_eq (attempts_checked hb.words_eq ?_)
  rw [ha.length_words, hb.length_words]
  have hcount : a.size + b.size < UInt64.size := by
    have hleft := ha.size_lt
    have hright := hb.size_lt
    show _ < 2 ^ 64
    omega
  refine attempts_checked (if_pos hcount) ?_
  split
  · next hle => exact attempts_throw ⟨rfl, hle⟩
  · next hlt =>
    apply (hx.ensureCapacity _).bind_settles
    intro _ y hy
    have hroom : a.size + b.size ≤ y.capacity := by
      have h : wordsFor ((a.size + b.size) * 32) ≤ y.capacity := hy.room
      rw [wordsFor_le] at h
      omega
    have h := hy.wellFormed.settles_mulRows ha hb hroom (by omega)
    rwa [hy.capacity_eq] at h

end WellFormed

/-- The product of the magnitudes of two operands, each of them an integer or the destination. -/
theorem attempts_mulMagnitudes {x : Integer} {a b : Operand} (hx : x.WellFormed)
    (ha : (a.resolve x).WellFormed) (hb : (b.resolve x).WellFormed) :
    (mulMagnitudes a b).Attempts x 1 (((a.resolve x).size + (b.resolve x).size) * 32)
      (TooManyBits (((a.resolve x).size + (b.resolve x).size) * 32)) fun _ y =>
      y.Reaches 0 ((a.resolve x).magnitude * (b.resolve x).magnitude) false := by
  unfold mulMagnitudes
  refine attempts_current ?_
  rw [ha.isZero_eq, hb.isZero_eq]
  split
  · next hzero =>
    have hproduct : (a.resolve x).magnitude * (b.resolve x).magnitude = 0 := by
      simpa [Nat.mul_eq_zero] using hzero
    obtain ⟨y, hy, hholds⟩ := hx.cleared
    refine attempts_checked hy (settles_replace ?_).attempts
    rw [hproduct]
    exact hholds.reaches (Nat.zero_le _)
  · have hnew : ((mulWords (a.resolve x) (b.resolve x)).applyTo zero).Attempts 1
        (((a.resolve x).size + (b.resolve x).size) * 32)
        (TooManyBits (((a.resolve x).size + (b.resolve x).size) * 32)) fun y =>
        y.Reaches 0 ((a.resolve x).magnitude * (b.resolve x).magnitude) false :=
      ((wellFormed_zero.mulWords ha hb).mono le_rfl le_rfl (fun failure h => ⟨.inl h.1, h.2⟩)
        fun _ y hy => hy.reaches (Nat.zero_le _)).applyTo
    -- an operand that is the destination must not be written while it is read
    have hreplaced : (do
        let product ← (mulWords (a.resolve x) (b.resolve x)).applyTo zero
        replace product : Update Unit).Attempts x 1
        (((a.resolve x).size + (b.resolve x).size) * 32)
        (TooManyBits (((a.resolve x).size + (b.resolve x).size) * 32)) fun _ y =>
        y.Reaches 0 ((a.resolve x).magnitude * (b.resolve x).magnitude) false :=
      (attempts_action hnew).bind_settles fun _ _ hy => settles_replace hy.2
    cases a with
    | dest => exact hreplaced
    | value a =>
      cases b with
      | dest => exact hreplaced
      | value b =>
        exact (hx.mulWords ha hb).mono le_rfl le_rfl (fun failure h => ⟨.inl h.1, h.2⟩)
          fun _ y hy => hy.reaches (Nat.zero_le _)

/-- The signs of two integers make that of their product. -/
theorem WellFormed.toInt_mul {x y : Integer} (hx : x.WellFormed) (hy : y.WellFormed) :
    x.toInt * y.toInt = if x.isNegative ^^ y.isNegative
      then -((x.magnitude * y.magnitude : Nat) : Int) else (x.magnitude * y.magnitude : Nat) := by
  rw [hx.isNegative_eq, hy.isNegative_eq, toInt, toInt]
  cases x.negative <;> cases y.negative <;> simp

theorem attempts_mul {x : Integer} {a b : Operand} (hx : x.WellFormed)
    (ha : (a.resolve x).WellFormed) (hb : (b.resolve x).WellFormed) :
    (mul a b).Attempts x 1 (((a.resolve x).size + (b.resolve x).size) * 32)
      (TooManyBits (((a.resolve x).size + (b.resolve x).size) * 32)) fun _ y =>
      y.Denotes 0 ((a.resolve x).toInt * (b.resolve x).toInt) := by
  unfold mul
  refine attempts_current ((attempts_mulMagnitudes hx ha hb).bind_settles fun _ y hy => ?_)
  refine settles_current (settles_replace ?_)
  rw [ha.toInt_mul hb]
  exact hy.withSign _

/-- A product is exact, with signs and without, whatever the destination was before and whichever of
the two numbers it is; a product of zero is not negative. There is one request at most, and no reason
to fail but that it is refused, or that the words of both numbers have more bits together than the
machine counts. -/
theorem product_exact {x u v : Integer} {a b : Operand} (hx : x.WellFormed) (hu : u.WellFormed)
    (hv : v.WellFormed) (ha : a.resolve x = u) (hb : b.resolve x = v) :
    ((mulMagnitudes a b).Attempts x 1 ((u.size + v.size) * 32)
      (TooManyBits ((u.size + v.size) * 32)) fun _ y =>
      y.Reaches 0 (u.toInt.natAbs * v.toInt.natAbs) false) ∧
    (mul a b).Attempts x 1 ((u.size + v.size) * 32)
      (TooManyBits ((u.size + v.size) * 32)) fun _ y =>
      y.Denotes 0 (u.toInt * v.toInt) ∧ (u.toInt * v.toInt = 0 → y.negative = false) := by
  subst ha hb
  simp only [natAbs_toInt]
  refine ⟨attempts_mulMagnitudes hx hu hv, (attempts_mul hx hu hv).imp fun _ y hy => ⟨hy, ?_⟩⟩
  intro hzero
  exact hy.wellFormed.unsigned_of_toInt (hy.toInt_eq.trans hzero)

theorem product_of_minus_seven_and_twelve :
    ∃ u v : Integer, u.WellFormed ∧ v.WellFormed ∧ u.toInt = -7 ∧ v.toInt = 12 ∧
      ((mulMagnitudes .dest .dest).Attempts u 1 64 (TooManyBits 64) fun _ y =>
        y.Reaches 0 49 false) ∧
      (mul (.value v) .dest).Attempts u 1 64 (TooManyBits 64) fun _ y =>
        y.Denotes 0 (-84) ∧ ((-84 : Int) = 0 → y.negative = false) := by
  have hu : WellFormed ⟨[7, 0, 0, 0], 3, true⟩ :=
    wellFormed_of_bits (by decide) (by decide) (by decide) (by decide) (by decide)
  have hv : WellFormed ⟨[12, 0, 0, 0], 4, false⟩ :=
    wellFormed_of_bits (by decide) (by decide) (by decide) (by decide) (by decide)
  obtain ⟨hsquare, -⟩ := product_exact (a := .dest) (b := .dest) hu hu hu rfl rfl
  obtain ⟨-, hproduct⟩ := product_exact (a := .value _) (b := .dest) hu hv hu rfl rfl
  exact ⟨_, _, hu, hv, rfl, rfl, hsquare, hproduct⟩

end Integer

end Multiword
