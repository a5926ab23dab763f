import Multiword.Proofs.Words.Order
import Multiword.Integer.Order

/-!
# The invariant of integers

A well-formed integer is determined by its capacity, its magnitude and its sign. `Integer.Holds`
names the three; what an operation does is said through them, and that its result is well formed is
part of it.
-/

set_option autoImplicit false

namespace Multiword

namespace Integer

/-- The well-formed integer of this capacity, magnitude and sign. -/
structure Holds (x : Integer) (capacity magnitude : Nat) (negative : Bool) : Prop where
  wellFormed : x.WellFormed
  capacity_eq : x.capacity = capacity
  magnitude_eq : x.magnitude = magnitude
  negative_eq : x.negative = negative

theorem Holds.of_eq {x : Integer} {capacity magnitude magnitude' : Nat} {negative negative' : Bool}
    (h : x.Holds capacity magnitude negative) (hmagnitude : magnitude = magnitude')
    (hnegative : negative = negative') : x.Holds capacity magnitude' negative' :=
  hmagnitude ▸ hnegative ▸ h

theorem Holds.bits_eq {x : Integer} {capacity magnitude : Nat} {negative : Bool}
    (h : x.Holds capacity magnitude negative) : x.bits = bitLength magnitude := by
  rw [h.wellFormed.bits_eq, h.magnitude_eq]

theorem Holds.toInt_natCast {x : Integer} {capacity magnitude : Nat}
    (h : x.Holds capacity magnitude false) : x.toInt = magnitude := by
  rw [toInt, h.negative_eq, h.magnitude_eq]
  rfl

/-- The well-formed integer of this magnitude and sign, in a buffer of `least` words at least. -/
structure Reaches (x : Integer) (least magnitude : Nat) (negative : Bool) : Prop where
  wellFormed : x.WellFormed
  le_capacity : least ≤ x.capacity
  magnitude_eq : x.magnitude = magnitude
  negative_eq : x.negative = negative

theorem Holds.reaches {x : Integer} {capacity least magnitude : Nat} {negative : Bool}
    (h : x.Holds capacity magnitude negative) (hle : least ≤ capacity) :
    x.Reaches least magnitude negative :=
  ⟨h.wellFormed, by rw [h.capacity_eq]; exact hle, h.magnitude_eq, h.negative_eq⟩

theorem Reaches.bits_eq {x : Integer} {least magnitude : Nat} {negative : Bool}
    (h : x.Reaches least magnitude negative) : x.bits = bitLength magnitude := by
  rw [h.wellFormed.bits_eq, h.magnitude_eq]

/-- A well-formed integer of this value, in a buffer of `least` words at least. -/
structure Denotes (x : Integer) (least : Nat) (value : Int) : Prop where
  wellFormed : x.WellFormed
  le_capacity : least ≤ x.capacity
  toInt_eq : x.toInt = value

/-- Without a sign the magnitude is the value. -/
theorem Reaches.denotes {x : Integer} {least magnitude : Nat}
    (h : x.Reaches least magnitude false) : x.Denotes least magnitude :=
  ⟨h.wellFormed, h.le_capacity, by
    rw [toInt, h.negative_eq, h.magnitude_eq]
    rfl⟩

/-- Sign and magnitude determine the value. -/
theorem toInt_congr {x y : Integer} (hnegative : x.negative = y.negative)
    (hmagnitude : x.magnitude = y.magnitude) : x.toInt = y.toInt := by
  rw [toInt, toInt, hnegative, hmagnitude]

theorem toInt_eq_zero {x : Integer} : x.toInt = 0 ↔ x.magnitude = 0 := by
  unfold toInt
  cases x.negative <;> simp

@[simp] theorem natAbs_toInt (x : Integer) : x.toInt.natAbs = x.magnitude := by
  unfold toInt
  cases x.negative <;> simp

theorem abs_toInt (x : Integer) : |x.toInt| = x.magnitude := by
  rw [Int.abs_eq_natAbs, natAbs_toInt]

/-! ## Building -/

/-- Above the bits of the number all words are zero. -/
theorem drop_eq_zero_of_bits {ws : List Word} {n : Nat} (h : bitLength (Words.toNat ws) ≤ 32 * n) :
    ∀ w ∈ ws.drop n, w = 0 := by
  by_cases hn : n ≤ ws.length
  · rw [← Words.toNat_eq_zero, Words.toNat_drop _ hn, Words.radix_pow, Nat.div_eq_of_lt]
    exact bitLength_le.1 h
  · rw [List.drop_eq_nil_of_le (by omega)]
    simp

/-- Words with room for the bits of the number stand for all of it. -/
theorem toNat_take_of_bits {ws : List Word} {n : Nat} (h : bitLength (Words.toNat ws) ≤ 32 * n) :
    Words.toNat (ws.take n) = Words.toNat ws := by
  by_cases hn : n ≤ ws.length
  · have hrest : Words.toNat (ws.drop n) = 0 := Words.toNat_eq_zero.2 (drop_eq_zero_of_bits h)
    rw [← Words.toNat_take_drop ws hn, hrest, Nat.mul_zero, add_zero]
  · rw [List.take_of_length_le (by omega)]

/-- An exact bit count makes the words above zero. -/
theorem wellFormed_of_bits {x : Integer} (hpos : 0 < x.capacity) (hfour : 4 ∣ x.capacity)
    (hbits : x.bits = bitLength x.magnitude) (hlt : x.bits < UInt64.size)
    (hsign : x.bits = 0 → x.negative = false) : x.WellFormed where
  buffer_pos := hpos
  four_dvd := hfour
  bits_eq := hbits
  bits_lt := hlt
  high_zero := by
    refine drop_eq_zero_of_bits ?_
    rw [← wordsFor_le, ← magnitude, hbits]
  sign := hsign

theorem wellFormed_zero : zero.WellFormed :=
  wellFormed_of_bits (by decide) (by decide) rfl (by decide) fun _ => rfl

theorem holds_zero : zero.Holds 4 0 false := ⟨wellFormed_zero, rfl, rfl, rfl⟩

namespace WellFormed

variable {x y : Integer} (hx : x.WellFormed)

include hx

theorem holds : x.Holds x.capacity x.magnitude x.negative := ⟨hx, rfl, rfl, rfl⟩

/-- Another value in a buffer of the same length, with an exact bit count. -/
theorem holds_of_bits {buffer : List Word} {bits magnitude : Nat} {negative : Bool}
    (hlength : buffer.length = x.capacity) (hvalue : Words.toNat buffer = magnitude)
    (hbits : bits = bitLength magnitude) (hlt : bits < UInt64.size)
    (hsign : bits = 0 → negative = false) :
    Holds { buffer, bits, negative } x.capacity magnitude negative := by
  subst hvalue
  refine ⟨wellFormed_of_bits ?_ ?_ hbits hlt hsign, hlength, rfl, rfl⟩
  · rw [capacity, hlength]
    exact hx.buffer_pos
  · rw [capacity, hlength]
    exact hx.four_dvd

/-! ## The bit count -/

theorem bits_eq_zero : x.bits = 0 ↔ x.magnitude = 0 := by
  rw [hx.bits_eq, bitLength_eq_zero]

theorem magnitude_lt : x.magnitude < 2 ^ x.bits := by
  rw [hx.bits_eq]
  exact lt_two_pow_bitLength _

/-- No number below the magnitude has too many bits for the machine. -/
theorem bitLength_lt {n : Nat} (h : n ≤ x.magnitude) : bitLength n < UInt64.size := by
  have hlt := hx.bits_lt
  rw [hx.bits_eq] at hlt
  exact lt_of_le_of_lt (bitLength_mono h) hlt

theorem isZero_eq : x.isZero = decide (x.magnitude = 0) := by
  rw [Bool.eq_iff_iff, decide_eq_true_iff, ← hx.bits_eq_zero]
  exact beq_iff_eq

theorem isNegative_eq : x.isNegative = x.negative := by
  unfold isNegative
  by_cases h : x.bits = 0
  · simp [h, hx.sign h]
  · simp [h]

theorem sign_of_magnitude (h : x.magnitude = 0) : x.negative = false :=
  hx.sign (hx.bits_eq_zero.2 h)

theorem unsigned_of_toInt (h : x.toInt = 0) : x.negative = false :=
  hx.sign_of_magnitude (toInt_eq_zero.1 h)

/-! ## The words in use -/

theorem size_le : x.size ≤ x.capacity := by
  unfold size
  rw [wordsFor_le, hx.bits_eq]
  exact Words.bitLength_toNat_le x.buffer

/-- The words in use are far fewer than a machine counts. -/
theorem size_lt : x.size < 2 ^ 60 := by
  have hlt := hx.bits_lt
  rw [show UInt64.size = 2 ^ 64 from rfl] at hlt
  unfold size wordsFor
  omega

theorem words_eq : x.words = .ok (x.buffer.take x.size) := by
  unfold words Words.low
  exact if_pos hx.size_le

theorem length_words : (x.buffer.take x.size).length = x.size := by
  rw [List.length_take]
  exact min_eq_left hx.size_le

/-- From the words in use on, there are only zeros. -/
theorem toNat_drop_eq_zero {n : Nat} (h : x.size ≤ n) : Words.toNat (x.buffer.drop n) = 0 := by
  refine Words.toNat_eq_zero.2 (drop_eq_zero_of_bits ?_)
  rw [← wordsFor_le, ← magnitude, ← hx.bits_eq]
  exact h

/-- Words from the bottom that include those in use stand for the magnitude. -/
theorem toNat_take {n : Nat} (h : x.size ≤ n) : Words.toNat (x.buffer.take n) = x.magnitude := by
  refine toNat_take_of_bits ?_
  rw [← wordsFor_le, ← magnitude, ← hx.bits_eq]
  exact h

theorem toNat_words : Words.toNat (x.buffer.take x.size) = x.magnitude := hx.toNat_take le_rfl

theorem magnitude_lt_radix_pow : x.magnitude < radix ^ x.size := by
  have := Words.toNat_lt (x.buffer.take x.size)
  rwa [hx.toNat_words, hx.length_words] at this

/-- The highest word in use is not zero. -/
theorem getLast?_words_ne_zero : (x.buffer.take x.size).getLast? ≠ some 0 := by
  by_cases hzero : x.bits = 0
  · simp [size, wordsFor, hzero]
  · refine Words.getLast?_ne_zero ?_
    rw [hx.length_words, hx.toNat_words, Words.radix_pow, ← lt_bitLength, ← hx.bits_eq]
    unfold size wordsFor
    omega

/-- So the word that holds the highest bit is not zero. -/
theorem exists_top_word (h : 0 < x.bits) :
    ∃ w, x.buffer[(x.bits - 1) / 32]? = some w ∧ w ≠ 0 := by
  have hsize : x.size = (x.bits - 1) / 32 + 1 := by
    unfold size wordsFor
    omega
  have hlast : (x.buffer.take x.size).getLast? = x.buffer[(x.bits - 1) / 32]? := by
    rw [List.getLast?_eq_getElem?, hx.length_words, List.getElem?_take_of_lt (by omega), hsize,
      Nat.add_sub_cancel]
  have htop := hx.getLast?_words_ne_zero
  have hlength : (x.bits - 1) / 32 < x.buffer.length := by
    have := hx.size_le
    unfold capacity at this
    omega
  rw [hlast, List.getElem?_eq_getElem hlength] at htop
  exact ⟨_, List.getElem?_eq_getElem hlength, fun hzero => htop (congrArg some hzero)⟩

/-- Every word behind those in use is zero. -/
theorem getElem?_above {i : Nat} {w : Word} (hi : x.size ≤ i) (hw : x.buffer[i]? = some w) :
    w = 0 := by
  refine hx.high_zero w (List.mem_of_getElem? (i := i - x.size) ?_)
  rw [List.getElem?_drop]
  change x.buffer[x.size + (i - x.size)]? = some w
  rwa [Nat.add_sub_cancel' hi]

/-! ## Equality and order -/

/-- A smaller magnitude has no more bits, and no more words in use. -/
theorem bits_mono (hy : y.WellFormed) (h : x.magnitude ≤ y.magnitude) : x.bits ≤ y.bits := by
  rw [hx.bits_eq, hy.bits_eq]
  exact bitLength_mono h

theorem size_mono (hy : y.WellFormed) (h : x.magnitude ≤ y.magnitude) : x.size ≤ y.size := by
  have := hx.bits_mono hy h
  unfold size wordsFor
  omega

/-- Capacity, magnitude and sign determine the integer. -/
theorem ext (hy : y.WellFormed) (hcapacity : x.capacity = y.capacity)
    (hmagnitude : x.magnitude = y.magnitude) (hnegative : x.negative = y.negative) : x = y := by
  have hbuffer : x.buffer = y.buffer := Words.toNat_inj hcapacity hmagnitude
  have hbits : x.bits = y.bits := by rw [hx.bits_eq, hy.bits_eq, hmagnitude]
  cases x
  cases y
  simp_all

/-- The words in use are determined by the magnitude. -/
theorem words_inj (hy : y.WellFormed) :
    x.buffer.take x.size = y.buffer.take y.size ↔ x.magnitude = y.magnitude := by
  constructor
  · intro h
    rw [← hx.toNat_words, ← hy.toNat_words, h]
  · intro h
    have hsize : x.size = y.size := by rw [size, size, hx.bits_eq, hy.bits_eq, h]
    apply Words.toNat_inj
    · rw [hx.length_words, hy.length_words, hsize]
    · rw [hx.toNat_words, hy.toNat_words, h]

theorem compareMagnitudes_eq (hy : y.WellFormed) :
    x.compareMagnitudes y = .ok (Ord.compare x.magnitude y.magnitude) := by
  unfold compareMagnitudes
  have hxbits := hx.bits_eq
  have hybits := hy.bits_eq
  rcases lt_trichotomy x.bits y.bits with h | h | h
  · rw [Nat.compare_eq_lt.2 h, Nat.compare_eq_lt.2 (lt_of_bitLength_lt (by omega))]
    rfl
  · have hlength : (x.buffer.take x.size).length = (y.buffer.take y.size).length := by
      rw [hx.length_words, hy.length_words, size, size, h]
    rw [Nat.compare_eq_eq.2 h, hx.words_eq, hy.words_eq]
    simp only [Checked.ok_bind]
    rw [Words.compare_eq hlength hx.getLast?_words_ne_zero hy.getLast?_words_ne_zero, hx.toNat_words,
      hy.toNat_words]
  · rw [Nat.compare_eq_gt.2 h, Nat.compare_eq_gt.2 (lt_of_bitLength_lt (by omega))]
    rfl

theorem sameMagnitude_eq (hy : y.WellFormed) :
    x.sameMagnitude y = .ok (decide (x.magnitude = y.magnitude)) := by
  unfold sameMagnitude
  split
  · rw [hx.words_eq, hy.words_eq]
    simp only [Checked.ok_bind, Checked.pure_eq, Except.ok.injEq]
    rw [Bool.eq_iff_iff, beq_iff_eq, decide_eq_true_iff, hx.words_inj hy]
  · next h =>
    rw [decide_eq_false]
    · rfl
    · intro heq
      exact h (by rw [hx.bits_eq, hy.bits_eq, heq])

end WellFormed

end Integer

end Multiword
