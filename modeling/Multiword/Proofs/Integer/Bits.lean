import Multiword.Proofs.Integer.Storage

/-!
# Single bits of an integer

A single bit is read from one word of the buffer, the lowest one is found by a scan from below, and
the highest one is known from the bit count. All three see the bits of the magnitude. Setting a bit
writes one word and corrects the bit count, without looking at the words between; that shows nothing
else, because the words above those in use are zero, also where a larger number stood before.
-/

set_option autoImplicit false

namespace Multiword

namespace Integer

namespace WellFormed

variable {x : Integer} (hx : x.WellFormed)

include hx

/-! ## Looking -/

/-- A position below the bit count lies in the buffer, and from the bit count on no bit is set. -/
theorem testBit_eq (n : Nat) : x.testBit n = .ok (x.magnitude.testBit n) := by
  unfold Integer.testBit
  split
  · next hn =>
    have hroom := wordsFor_le.1 hx.size_le
    have hindex : n / 32 < x.buffer.length := by
      unfold capacity at hroom
      omega
    rw [Words.read, magnitude, Words.testBit_toNat, List.getElem?_eq_getElem hindex]
    rfl
  · next hn =>
    have hlt : x.magnitude < 2 ^ n :=
      hx.magnitude_lt.trans_le (Nat.pow_le_pow_right (by decide) (Nat.le_of_not_lt hn))
    rw [Nat.testBit_lt_two_pow hlt]
    rfl

theorem isOdd_eq : x.isOdd = .ok (x.magnitude.testBit 0) := by
  have hindex : 0 < x.buffer.length := hx.buffer_pos
  have hparity : ∀ w : Word, (w % 2 == 1) = w.toNat.testBit 0 := by
    intro w
    rw [Nat.testBit_zero, Bool.eq_iff_iff, beq_iff_eq, decide_eq_true_iff, ← UInt32.toNat_inj,
      UInt32.toNat_mod]
    rfl
  rw [isOdd, Words.read, magnitude, Words.testBit_toNat, List.getElem?_eq_getElem hindex]
  exact congrArg Except.ok (hparity _)

theorem bits_eq_succ {i : Nat} : x.bits = i + 1 ↔
    x.magnitude.testBit i = true ∧ ∀ j, i < j → x.magnitude.testBit j = false := by
  rw [hx.bits_eq, bitLength_eq_succ]

/-! ## Searching from below -/

theorem lowestBit?_cases :
    x.lowestBit? = .ok none ∧ x.magnitude = 0 ∨
    ∃ i, x.lowestBit? = .ok (some i) ∧ x.magnitude.testBit i = true ∧
      ∀ j < i, x.magnitude.testBit j = false := by
  unfold Integer.lowestBit?
  rw [hx.words_eq, Checked.ok_bind]
  rcases hlowest : Words.lowestBit? (x.buffer.take x.size) with _ | i
  · exact .inl ⟨rfl, hx.toNat_words.symm.trans (Words.lowestBit?_eq_none hlowest)⟩
  · have hfound := Words.lowestBit?_eq_some hlowest
    rw [hx.toNat_words] at hfound
    exact .inr ⟨i, rfl, hfound⟩

theorem lowestBit?_eq_none : x.lowestBit? = .ok none ↔ x.magnitude = 0 := by
  obtain ⟨hnone, hzero⟩ | ⟨i, hsome, hset, -⟩ := hx.lowestBit?_cases
  · simp [hnone, hzero]
  · have hnonzero : x.magnitude ≠ 0 := by
      intro hzero
      simp [hzero] at hset
    simp [hsome, hnonzero]

/-- Of two lowest bits that are set neither is below the other. -/
theorem lowestBit?_eq_some {i : Nat} : x.lowestBit? = .ok (some i) ↔
    x.magnitude.testBit i = true ∧ ∀ j < i, x.magnitude.testBit j = false := by
  obtain ⟨hnone, hzero⟩ | ⟨k, hsome, hset, hbelow⟩ := hx.lowestBit?_cases
  · simp [hnone, hzero]
  · rw [hsome, Except.ok.injEq, Option.some.injEq]
    constructor
    · rintro rfl
      exact ⟨hset, hbelow⟩
    · rintro ⟨hset', hbelow'⟩
      rcases lt_trichotomy k i with hlt | heq | hgt
      · simp [hbelow' k hlt] at hset
      · exact heq
      · simp [hbelow i hgt] at hset'

end WellFormed

/-! ## Setting -/

/-- The other bits are those from before. -/
theorem Holds.testBit_or_two_pow {x y : Integer} (hx : x.WellFormed) {capacity n : Nat}
    {negative : Bool} (hy : y.Holds capacity (x.magnitude ||| 2 ^ n) negative) :
    y.testBit n = .ok true ∧ ∀ m ≠ n, y.testBit m = x.testBit m := by
  refine ⟨?_, fun m hm => ?_⟩
  · rw [hy.wellFormed.testBit_eq, hy.magnitude_eq, Nat.testBit_or, Nat.testBit_two_pow_self,
      Bool.or_true]
  · rw [hy.wellFormed.testBit_eq, hx.testBit_eq, hy.magnitude_eq, Nat.testBit_or,
      Nat.testBit_two_pow_of_ne hm.symm, Bool.or_false]

theorem Holds.bits_or_two_pow {x y : Integer} (hx : x.WellFormed) {capacity n : Nat}
    {negative : Bool} (hy : y.Holds capacity (x.magnitude ||| 2 ^ n) negative) :
    y.bits = max x.bits (n + 1) := by
  rw [hy.bits_eq, bitLength_or_two_pow, hx.bits_eq]

/-- Bit by bit an integer shows its magnitude, at every position, also where the buffer ends. The bit
count is that of the highest bit that is set, the lowest one is found, and the last one tells odd
from even. A bit that is set is set from then on, and no other bit and no sign changes; that fails
only for want of room. -/
theorem bits_seen_faithfully {x : Integer} (hx : x.WellFormed) (n : Nat) :
    x.testBit n = .ok (x.toInt.natAbs.testBit n) ∧
    (x.bits = 0 ↔ x.toInt = 0) ∧
    (∀ i, x.bits = i + 1 ↔
      x.testBit i = .ok true ∧ ∀ j, i < j → x.testBit j = .ok false) ∧
    (x.lowestBit? = .ok none ↔ x.toInt = 0) ∧
    (∀ i, x.lowestBit? = .ok (some i) ↔
      x.testBit i = .ok true ∧ ∀ j < i, x.testBit j = .ok false) ∧
    x.isOdd = x.testBit 0 ∧
    (setBit n).Attempts x 1 (n + 1)
      (fun failure => failure = .error .growthRefused ∧ UInt64.size ≤ n + 1) fun _ y =>
      y.WellFormed ∧ y.testBit n = .ok true ∧ (∀ m ≠ n, y.testBit m = x.testBit m) ∧
      y.negative = x.negative ∧ y.bits = max x.bits (n + 1) := by
  have hbit : ∀ (i : Nat) (set : Bool), x.testBit i = .ok set ↔ x.magnitude.testBit i = set := by
    intro i set
    rw [hx.testBit_eq, Except.ok.injEq]
  simp only [hbit]
  refine ⟨by rw [natAbs_toInt], ?_, fun i => hx.bits_eq_succ, ?_, fun i => hx.lowestBit?_eq_some,
    by rw [hx.isOdd_eq, hx.testBit_eq], ?_⟩
  · rw [hx.bits_eq_zero, toInt_eq_zero]
  · rw [hx.lowestBit?_eq_none, toInt_eq_zero]
  · refine (hx.setBit n).imp fun _ y hy => ?_
    obtain ⟨hset, hothers⟩ := hy.testBit_or_two_pow hx
    exact ⟨hy.wellFormed, hset, hothers, hy.negative_eq, hy.bits_or_two_pow hx⟩

theorem bits_of_minus_twenty_seen_faithfully :
    ∃ x : Integer, x.WellFormed ∧ x.toInt = -20 ∧ x.testBit 200 = .ok false ∧
      x.lowestBit? = .ok (some 2) ∧ x.isOdd = .ok false ∧
      (setBit 200).Attempts x 1 201
        (fun failure => failure = .error .growthRefused ∧ UInt64.size ≤ 201) fun _ y =>
        y.testBit 200 = .ok true ∧ y.testBit 3 = .ok false ∧ y.negative = true ∧ y.bits = 201 := by
  have hx : WellFormed ⟨[20, 0, 0, 0], 5, true⟩ :=
    wellFormed_of_bits (by decide) (by decide) (by decide) (by decide) (by decide)
  obtain ⟨-, -, -, -, hlowest, hodd, hset⟩ := bits_seen_faithfully hx 200
  refine ⟨_, hx, by decide, by decide, (hlowest 2).2 (by decide), hodd.trans (by decide), ?_⟩
  refine hset.imp fun _ y ⟨_, hy, hothers, hnegative, hbits⟩ => ?_
  exact ⟨hy, (hothers 3 (by decide)).trans (by decide), hnegative, hbits⟩

end Integer

end Multiword
