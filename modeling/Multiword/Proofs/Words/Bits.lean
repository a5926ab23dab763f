import Mathlib.Tactic.Positivity
import Mathlib.Tactic.Ring
import Multiword.Positional

/-!
# Bits of words

How the number of a list of words sees its parts: the low words are a remainder, the high words a
quotient, and a single bit lies in a single word. The two scans for the highest and the lowest bit
that is set therefore find those of the number.
-/

set_option autoImplicit false

namespace Multiword

/-! ## The bit count of a number -/

/-- The bit count is the least exponent whose power of two is larger. -/
theorem bitLength_le {n k : Nat} : bitLength n ≤ k ↔ n < 2 ^ k := by
  unfold bitLength
  split
  · next h => simp [h]
  · next h => exact Nat.log2_lt h

theorem lt_bitLength {n k : Nat} : k < bitLength n ↔ 2 ^ k ≤ n := by
  rw [← not_le, bitLength_le, not_lt]

theorem lt_two_pow_bitLength (n : Nat) : n < 2 ^ bitLength n :=
  bitLength_le.1 le_rfl

theorem two_pow_le_of_bitLength {n k : Nat} (h : bitLength n = k + 1) : 2 ^ k ≤ n :=
  lt_bitLength.1 (by omega)

@[simp] theorem bitLength_eq_zero {n : Nat} : bitLength n = 0 ↔ n = 0 := by
  unfold bitLength
  split <;> simp_all

@[simp] theorem bitLength_zero : bitLength 0 = 0 := rfl

/-- The bit count is the position of the highest bit that is set, plus one. -/
theorem bitLength_eq_succ {n i : Nat} :
    bitLength n = i + 1 ↔ n.testBit i = true ∧ ∀ j, i < j → n.testBit j = false := by
  constructor
  · intro h
    have hlow : 2 ^ i ≤ n := two_pow_le_of_bitLength h
    have hhigh : n < 2 ^ (i + 1) := h ▸ lt_two_pow_bitLength n
    refine ⟨Nat.testBit_of_two_pow_le_and_two_pow_add_one_gt hlow hhigh, fun j hj => ?_⟩
    exact Nat.testBit_lt_two_pow (hhigh.trans_le (Nat.pow_le_pow_right (by decide) hj))
  · rintro ⟨hset, habove⟩
    have hle : bitLength n ≤ i + 1 := bitLength_le.2 (Nat.lt_pow_two_of_testBit n habove)
    have hlt : i < bitLength n := lt_bitLength.2 (Nat.ge_two_pow_of_testBit hset)
    omega

theorem bitLength_mono {m n : Nat} (h : m ≤ n) : bitLength m ≤ bitLength n :=
  bitLength_le.2 (lt_of_le_of_lt h (lt_two_pow_bitLength n))

/-- A number with fewer bits is smaller. -/
theorem lt_of_bitLength_lt {m n : Nat} (h : bitLength m < bitLength n) : m < n :=
  lt_of_lt_of_le (lt_two_pow_bitLength m) (lt_bitLength.1 h)

theorem bitLength_div_two_pow (n k : Nat) : bitLength (n / 2 ^ k) = bitLength n - k := by
  refine eq_of_forall_ge_iff fun c => ?_
  rw [bitLength_le, Nat.div_lt_iff_lt_mul (by positivity), ← pow_add, ← bitLength_le]
  omega

/-- Low bits below a number change nothing above them. -/
theorem bitLength_mul_two_pow_add {n low k : Nat} (h : n ≠ 0) (hlow : low < 2 ^ k) :
    bitLength (n * 2 ^ k + low) = bitLength n + k := by
  have hdiv : (n * 2 ^ k + low) / 2 ^ k = n := by
    rw [Nat.mul_comm, Nat.mul_add_div (by positivity), Nat.div_eq_of_lt hlow, add_zero]
  have hlarge : k < bitLength (n * 2 ^ k + low) := by
    have hpos : 2 ^ k ≤ n * 2 ^ k := Nat.le_mul_of_pos_left _ (Nat.pos_of_ne_zero h)
    exact lt_bitLength.2 (hpos.trans (Nat.le_add_right _ _))
  have hrest := bitLength_div_two_pow (n * 2 ^ k + low) k
  rw [hdiv] at hrest
  omega

theorem bitLength_mul_two_pow {n : Nat} (h : n ≠ 0) (k : Nat) :
    bitLength (n * 2 ^ k) = bitLength n + k :=
  @bitLength_mul_two_pow_add n 0 k h (by positivity)

/-- A digit below its base, behind a number that is below a bound. -/
theorem mul_add_lt {m n k base base' : Nat} (hm : m < base) (hn : n ≤ base') (hk : k < n) :
    m * n + k < base * base' :=
  calc m * n + k < m * n + n := Nat.add_lt_add_left hk _
    _ = (m + 1) * n := by ring
    _ ≤ base * base' := Nat.mul_le_mul hm hn

/-- Setting a bit moves the highest one up to it. -/
theorem bitLength_or_two_pow (n k : Nat) : bitLength (n ||| 2 ^ k) = max (bitLength n) (k + 1) := by
  refine eq_of_forall_ge_iff fun c => ?_
  rw [bitLength_le, max_le_iff, bitLength_le]
  constructor
  · intro h
    refine ⟨lt_of_le_of_lt Nat.left_le_or h, ?_⟩
    exact (Nat.pow_lt_pow_iff_right (by decide)).1 (lt_of_le_of_lt Nat.right_le_or h)
  · rintro ⟨hn, hk⟩
    exact Nat.or_lt_two_pow hn (Nat.pow_lt_pow_right (by decide) hk)

/-- Words for so many bits have room for them, and one word less has not. -/
theorem wordsFor_le {bits n : Nat} : wordsFor bits ≤ n ↔ bits ≤ 32 * n := by
  unfold wordsFor
  omega

namespace Words

/-! ## Low and high words -/

theorem radix_pow (n : Nat) : radix ^ n = 2 ^ (32 * n) := by
  rw [pow_mul]
  rfl

theorem radix_pow_pos (n : Nat) : 0 < radix ^ n := Nat.pow_pos radix_pos

theorem toNat_lt_two_pow (ws : List Word) : toNat ws < 2 ^ (32 * ws.length) := by
  rw [← radix_pow]
  exact toNat_lt ws

/-- The number of the low words and that of the high ones. -/
theorem toNat_take_drop (ws : List Word) {n : Nat} (h : n ≤ ws.length) :
    toNat (ws.take n) + radix ^ n * toNat (ws.drop n) = toNat ws := by
  conv_rhs => rw [← List.take_append_drop n ws, toNat_append, List.length_take, min_eq_left h]

theorem toNat_take (ws : List Word) {n : Nat} (h : n ≤ ws.length) :
    toNat (ws.take n) = toNat ws % radix ^ n := by
  rw [← toNat_take_drop ws h, Nat.add_mul_mod_self_left, Nat.mod_eq_of_lt]
  simpa [h] using toNat_lt (ws.take n)

theorem toNat_drop (ws : List Word) {n : Nat} (h : n ≤ ws.length) :
    toNat (ws.drop n) = toNat ws / radix ^ n := by
  rw [← toNat_take_drop ws h, Nat.add_mul_div_left _ _ (radix_pow_pos n), Nat.div_eq_of_lt, zero_add]
  simpa [h] using toNat_lt (ws.take n)

/-- Only zero words stand for zero. -/
theorem toNat_eq_zero {ws : List Word} : toNat ws = 0 ↔ ∀ w ∈ ws, w = 0 := by
  induction ws with
  | nil => simp
  | cons w ws ih =>
    have hw : w.toNat = 0 ↔ w = 0 := by rw [← UInt32.toNat_inj]; rfl
    simp [ih, hw, radix_pos.ne']

theorem eq_replicate_of_toNat_eq_zero {ws : List Word} (h : toNat ws = 0) :
    ws = List.replicate ws.length 0 :=
  List.eq_replicate_iff.2 ⟨rfl, toNat_eq_zero.1 h⟩

/-- Two lists of one length that stand for one number are the same. -/
theorem toNat_inj {a b : List Word} (hlength : a.length = b.length) (h : toNat a = toNat b) :
    a = b := by
  induction a generalizing b with
  | nil => exact (List.length_eq_zero_iff.1 hlength.symm).symm
  | cons w ws ih =>
    obtain _ | ⟨v, vs⟩ := b
    · simp at hlength
    · have hw := w.toNat_lt_radix
      have hv := v.toNat_lt_radix
      simp only [toNat_cons, radix_eq] at h hw hv
      have hlow : w.toNat = v.toNat := by omega
      have hhigh : toNat ws = toNat vs := by omega
      rw [UInt32.toNat_inj.1 hlow, ih (by simpa using hlength) hhigh]

/-! ## Single bits -/

theorem testBit_toNat_cons (w : Word) (ws : List Word) (i : Nat) :
    (toNat (w :: ws)).testBit i =
      if i < 32 then w.toNat.testBit i else (toNat ws).testBit (i - 32) := by
  have hcons : toNat (w :: ws) = 2 ^ 32 * toNat ws + w.toNat := by
    rw [toNat_cons, radix_eq]
    omega
  rw [hcons, Nat.testBit_two_pow_mul_add _ w.toNat_lt]

/-- Bit `i` of the number is a bit of word `i / 32`. -/
theorem testBit_toNat (ws : List Word) (i : Nat) :
    (toNat ws).testBit i = ((ws[i / 32]?).getD 0).toNat.testBit (i % 32) := by
  induction ws generalizing i with
  | nil => simp
  | cons w ws ih =>
    rw [testBit_toNat_cons]
    split
    · next h => simp [Nat.div_eq_of_lt h, Nat.mod_eq_of_lt h]
    · next h =>
      have hdiv : i / 32 = (i - 32) / 32 + 1 := by omega
      rw [ih, hdiv, List.getElem?_cons_succ, show (i - 32) % 32 = i % 32 by omega]

theorem toNat_one_shift {bit : Nat} (h : bit < 32) :
    ((1 : Word) <<< UInt32.ofNat bit).toNat = 2 ^ bit := by
  have hbit : (UInt32.ofNat bit).toNat % 32 = bit := by
    rw [UInt32.toNat_ofNat']
    omega
  rw [UInt32.toNat_shiftLeft, hbit, UInt32.toNat_one, Nat.one_shiftLeft]
  exact Nat.mod_eq_of_lt (Nat.pow_lt_pow_right (by decide) h)

/-- Setting a bit of a word sets a bit of the number. -/
theorem toNat_set_bit {ws : List Word} {n : Nat} {w : Word} (hw : ws[n / 32]? = some w) :
    toNat (ws.set (n / 32) (w ||| 1 <<< UInt32.ofNat (n % 32))) = toNat ws ||| 2 ^ n := by
  apply Nat.eq_of_testBit_eq
  intro i
  rw [Nat.testBit_or, Nat.testBit_two_pow, testBit_toNat, testBit_toNat, List.getElem?_set]
  split
  · next hi =>
    rw [if_pos (List.getElem?_eq_some_iff.1 hw).1, ← hi, hw, Option.getD_some, Option.getD_some,
      UInt32.toNat_or, toNat_one_shift (Nat.mod_lt n (by decide)), Nat.testBit_or,
      Nat.testBit_two_pow]
    congr 2
    rw [eq_iff_iff]
    omega
  · next hi =>
    have hne : ¬n = i := by
      rintro rfl
      exact hi rfl
    simp [hne]

/-! ## The highest bit -/

/-- The scan from the top finds the bit count of the number. -/
theorem bitLength_eq (ws : List Word) : bitLength ws = Multiword.bitLength (toNat ws) := by
  induction ws with
  | nil => rfl
  | cons w ws ih =>
    rw [bitLength, toNat_cons]
    split
    · next h =>
      have hzero : toNat ws = 0 := bitLength_eq_zero.1 (ih ▸ h)
      simp [hzero, Word.bitLength]
    · next n h =>
      have hpos : toNat ws ≠ 0 := by
        intro hzero
        simp [ih, hzero] at h
      have hbits : n + 1 = Multiword.bitLength (toNat ws) := by rw [← ih, h]
      have hradix : radix = 2 ^ 32 := rfl
      rw [hbits, ← bitLength_mul_two_pow_add hpos w.toNat_lt, hradix]
      congr 1
      ring

/-- The bits of a number fit the words that stand for it. -/
theorem bitLength_toNat_le (ws : List Word) : Multiword.bitLength (toNat ws) ≤ 32 * ws.length :=
  bitLength_le.2 (toNat_lt_two_pow ws)

/-- A top word that is zero leaves its bits unused. -/
theorem getLast?_ne_zero {ws : List Word} (h : radix ^ (ws.length - 1) ≤ toNat ws) :
    ws.getLast? ≠ some 0 := by
  intro hlast
  obtain ⟨front, rfl⟩ := List.getLast?_eq_some_iff.1 hlast
  have := toNat_lt front
  simp [toNat_append] at h
  omega

/-! ## The lowest bit -/

theorem lowestBit?_word_eq_some {w : Word} {i : Nat} (h : w.lowestBit? = some i) :
    i < 32 ∧ w.toNat.testBit i = true ∧ ∀ j < i, w.toNat.testBit j = false := by
  obtain ⟨hbit, hi, hbelow⟩ := List.find?_range_eq_some.1 h
  exact ⟨List.mem_range.1 hi, hbit, fun j hj => by simpa using hbelow j hj⟩

theorem lowestBit?_word_eq_none {w : Word} (h : w.lowestBit? = none) : w = 0 := by
  refine UInt32.toNat_inj.1 (Nat.eq_of_testBit_eq fun i => ?_)
  by_cases hi : i < 32
  · simpa using List.find?_eq_none.1 h i (List.mem_range.2 hi)
  · have hlt : w.toNat < 2 ^ i :=
      lt_of_lt_of_le w.toNat_lt (Nat.pow_le_pow_right (by decide) (by omega))
    simp [Nat.testBit_lt_two_pow hlt]

/-- The scan from the bottom finds the lowest bit of the number. -/
theorem lowestBit?_eq_some {ws : List Word} {i : Nat} (h : lowestBit? ws = some i) :
    (toNat ws).testBit i = true ∧ ∀ j < i, (toNat ws).testBit j = false := by
  induction ws generalizing i with
  | nil => simp [lowestBit?] at h
  | cons w ws ih =>
    simp only [testBit_toNat_cons]
    rw [lowestBit?] at h
    split at h
    · next k hk =>
      obtain rfl := Option.some.inj h
      obtain ⟨hlt, hbit, hbelow⟩ := lowestBit?_word_eq_some hk
      refine ⟨by rw [if_pos hlt, hbit], fun j hj => ?_⟩
      rw [if_pos (by omega), hbelow j hj]
    · next hw =>
      obtain ⟨k, hk, rfl⟩ := Option.map_eq_some_iff.1 h
      obtain rfl := lowestBit?_word_eq_none hw
      obtain ⟨hbit, hbelow⟩ := ih hk
      refine ⟨by rw [if_neg (by omega), Nat.add_sub_cancel, hbit], fun j hj => ?_⟩
      split
      · simp
      · exact hbelow (j - 32) (by omega)

theorem lowestBit?_eq_none {ws : List Word} (h : lowestBit? ws = none) : toNat ws = 0 := by
  induction ws with
  | nil => rfl
  | cons w ws ih =>
    rw [lowestBit?] at h
    split at h
    · simp at h
    · next hw =>
      simp [lowestBit?_word_eq_none hw, ih (by simpa using h)]

end Words

end Multiword
