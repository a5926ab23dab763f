import Mathlib.Data.Set.Card
import Multiword.Proofs.Sampling.Block

/-!
# Draws without a sign are uniform

Blocks of bytes are as many as the numbers that they stand for. Of such a number a draw keeps the low
digits and the rest of the highest one, and loses the digits between; so each value that can be kept is
kept of as many blocks as there are lost digits. That holds whatever part of a word the bits take, and
also if they take no word at all. A bound rejects some of the values, and leaves the others as they are.
-/

set_option autoImplicit false

namespace Multiword

/-! ## Counting blocks -/

theorem ncard_setOf_lt (k : Nat) : {n : Nat | n < k}.ncard = k := by
  have hrange : {n : Nat | n < k} = ↑(Finset.range k) := by
    ext n
    simp
  rw [hrange, Set.ncard_coe_finset, Finset.card_range]

/-- The bytes of each number are one block of the length. -/
theorem Bytes.ncard_toNat (size : Nat) (p : Nat → Prop) :
    {block : List UInt8 | block.length = size ∧ p (toNat block)}.ncard =
      {n | n < 256 ^ size ∧ p n}.ncard := by
  refine Set.ncard_congr (fun block _ => toNat block) ?_ ?_ ?_
  · rintro block ⟨rfl, hp⟩
    exact ⟨toNat_lt block, hp⟩
  · rintro a b ⟨ha, -⟩ ⟨hb, -⟩ h
    exact toNat_inj (ha.trans hb.symm) h
  · rintro n ⟨hn, hp⟩
    have hvalue : toNat (ofNat size n) = n := by rw [toNat_ofNat, Nat.mod_eq_of_lt hn]
    exact ⟨ofNat size n, ⟨length_ofNat size n, hvalue.symm ▸ hp⟩, hvalue⟩

/-! ## Numbers without their middle digit -/

namespace Draw

/-- A number without its middle digit: the low digit is below `low`, and the middle one below `lost`. -/
def withoutMiddle (low lost n : Nat) : Nat := n % low + low * (n / low / lost)

/-- The number that has this middle digit, and this value without it. -/
def withMiddle (low lost value digit : Nat) : Nat :=
  value % low + low * (digit + lost * (value / low))

theorem digits_of_add {base digit : Nat} (hdigit : digit < base) (rest : Nat) :
    (digit + base * rest) % base = digit ∧ (digit + base * rest) / base = rest := by
  rw [Nat.add_mul_mod_self_left, Nat.mod_eq_of_lt hdigit,
    Nat.add_mul_div_left _ _ (by omega : 0 < base), Nat.div_eq_of_lt hdigit, zero_add]
  exact ⟨rfl, rfl⟩

section

variable {low lost high value digit : Nat} (hlow : 0 < low)

include hlow

theorem withMiddle_withoutMiddle (n : Nat) :
    withMiddle low lost (withoutMiddle low lost n) (n / low % lost) = n := by
  obtain ⟨hmod, hdiv⟩ := digits_of_add (Nat.mod_lt n hlow) (n / low / lost)
  rw [withMiddle, withoutMiddle, hmod, hdiv, Nat.mod_add_div, Nat.mod_add_div]

variable (hdigit : digit < lost)

include hdigit

theorem middle_withMiddle : withMiddle low lost value digit / low % lost = digit := by
  rw [withMiddle, (digits_of_add (Nat.mod_lt value hlow) _).2, (digits_of_add hdigit _).1]

theorem withoutMiddle_withMiddle :
    withoutMiddle low lost (withMiddle low lost value digit) = value := by
  obtain ⟨hmod, hdiv⟩ := digits_of_add (Nat.mod_lt value hlow) (digit + lost * (value / low))
  rw [withoutMiddle, withMiddle, hmod, hdiv, (digits_of_add hdigit _).2, Nat.mod_add_div]

theorem withMiddle_lt (hvalue : value < low * high) :
    withMiddle low lost value digit < low * lost * high := by
  have hhigh : value / low < high := Nat.div_lt_of_lt_mul hvalue
  have hrest : value / low * lost + digit < high * lost := mul_add_lt hhigh le_rfl hdigit
  calc withMiddle low lost value digit
      = (value / low * lost + digit) * low + value % low := by
        unfold withMiddle
        ring
    _ < high * lost * low := mul_add_lt hrest le_rfl (Nat.mod_lt value hlow)
    _ = low * lost * high := by ring

omit hdigit

/-- Each value without a middle digit comes from as many numbers as there are middle digits. -/
theorem ncard_withoutMiddle {values : Set Nat} (hvalues : ∀ v ∈ values, v < low * high) :
    {n | n < low * lost * high ∧ withoutMiddle low lost n ∈ values}.ncard =
      values.ncard * lost := by
  have hpos : ∀ n < low * lost * high, 0 < lost := by
    intro n hn
    exact Nat.pos_of_ne_zero fun hzero => by simp [hzero] at hn
  have hpairs : (values ×ˢ {r | r < lost}).ncard = values.ncard * lost := by
    rw [Set.ncard_prod, ncard_setOf_lt]
  rw [← hpairs]
  refine (Set.ncard_congr (fun pair _ => withMiddle low lost pair.1 pair.2) ?_ ?_ ?_).symm
  · rintro ⟨v, r⟩ ⟨hv, hr⟩
    refine ⟨withMiddle_lt hlow hr (hvalues v hv), ?_⟩
    rwa [withoutMiddle_withMiddle hlow hr]
  · rintro ⟨v, r⟩ ⟨v', r'⟩ ⟨-, hr⟩ ⟨-, hr'⟩ heq
    have hvalue := congrArg (withoutMiddle low lost) heq
    have hmiddle := congrArg (· / low % lost) heq
    simp only [withoutMiddle_withMiddle hlow hr, withoutMiddle_withMiddle hlow hr'] at hvalue
    simp only [middle_withMiddle hlow hr, middle_withMiddle hlow hr'] at hmiddle
    exact Prod.ext hvalue hmiddle
  · rintro n ⟨hn, hv⟩
    exact ⟨(_, n / low % lost), ⟨hv, Nat.mod_lt _ (hpos n hn)⟩, withMiddle_withoutMiddle hlow n⟩

end

/-- The blocks of each number are as many as there are values of the spare bits. -/
theorem ncard_blockValue {bits : Nat} {values : Set Nat} (hvalues : ∀ v ∈ values, v < 2 ^ bits) :
    {block : List UInt8 | block.length = blockSize bits ∧ blockValue bits block ∈ values}.ncard =
      values.ncard * 2 ^ (32 * wordsFor bits - bits) := by
  obtain ⟨hbits, hwords⟩ := two_pow_blockParts bits
  rw [← hbits] at hvalues
  have hkept : {n | n < _ * 2 ^ (32 * wordsFor bits - bits) * _ ∧
      withoutMiddle _ _ n ∈ values}.ncard = _ := ncard_withoutMiddle (by positivity) hvalues
  rw [hwords, ← pow_blockSize] at hkept
  exact (Bytes.ncard_toNat (blockSize bits) fun n => withoutMiddle _ _ n ∈ values).trans hkept

/-! ## Uniform verdicts -/

/-- The blocks of `size` bytes with a value are those of the `values`, and each of these is the value of
`weight` blocks. -/
structure Uniform (size : Nat) (verdict : List UInt8 → Option Int) (values : Set Int) (weight : Nat) :
    Prop where
  each : ∀ v ∈ values, {block | block.length = size ∧ verdict block = some v}.ncard = weight
  only : ∀ {block : List UInt8}, block.length = size → ∀ {v}, verdict block = some v → v ∈ values

theorem uniform_blockValue (bits : Nat) :
    Uniform (blockSize bits) (fun block => some (blockValue bits block)) {v | 0 ≤ v ∧ v < 2 ^ bits}
      (2 ^ (32 * wordsFor bits - bits)) where
  each := by
    rintro v ⟨hnonneg, hlt⟩
    obtain ⟨n, rfl⟩ := Int.eq_ofNat_of_zero_le hnonneg
    have hlt : n < 2 ^ bits := by exact_mod_cast hlt
    have hcount := @ncard_blockValue bits {n} (by simpa using hlt)
    rw [Set.ncard_singleton, one_mul] at hcount
    simpa using hcount
  only := by
    rintro block hlength v hv
    obtain rfl := Option.some.inj hv
    exact ⟨Int.natCast_nonneg _, by exact_mod_cast blockValue_lt hlength⟩

theorem uniform_belowVerdict (width : Nat) :
    Uniform (blockSize (bitLength width)) (belowVerdict width) {v | 0 ≤ v ∧ v < width}
      (2 ^ (32 * wordsFor (bitLength width) - bitLength width)) where
  each := by
    rintro v ⟨hnonneg, hlt⟩
    obtain ⟨n, rfl⟩ := Int.eq_ofNat_of_zero_le hnonneg
    have hlt : n < width := by exact_mod_cast hlt
    have hbits : n < 2 ^ bitLength width := hlt.trans (lt_two_pow_bitLength width)
    have hcount := @ncard_blockValue (bitLength width) {n} (by simpa using hbits)
    rw [Set.ncard_singleton, one_mul] at hcount
    rw [← hcount]
    congr 1
    ext block
    refine and_congr_right fun _ => ?_
    rw [belowVerdict_eq_some, Set.mem_singleton_iff]
    omega
  only := by
    rintro block - v hv
    obtain ⟨hlt, rfl⟩ := belowVerdict_eq_some.1 hv
    exact ⟨Int.natCast_nonneg _, by exact_mod_cast hlt⟩

/-- At least every second block is accepted, because a number is at least half of the next power of
two. -/
theorem half_accepted {width : Nat} (hwidth : width ≠ 0) :
    2 ^ (32 * wordsFor (bitLength width)) ≤
      2 * {block | block.length = blockSize (bitLength width) ∧
        (belowVerdict width block).isSome}.ncard := by
  have haccepted : {block | block.length = blockSize (bitLength width) ∧
      (belowVerdict width block).isSome} =
      {block | block.length = blockSize (bitLength width) ∧
        blockValue (bitLength width) block ∈ {v | v < width}} := by
    ext block
    refine and_congr_right fun _ => ?_
    rw [← Option.ne_none_iff_isSome, ne_eq, belowVerdict_eq_none, not_not]
    rfl
  have hhalf : 2 ^ bitLength width ≤ 2 * width := by
    obtain ⟨k, hk⟩ := Nat.exists_eq_succ_of_ne_zero (mt bitLength_eq_zero.1 hwidth)
    have hle := two_pow_le_of_bitLength hk
    rw [hk, pow_succ]
    omega
  have hbits : bitLength width ≤ 32 * wordsFor (bitLength width) := wordsFor_le.1 le_rfl
  have hbelow : ∀ v ∈ {v | v < width}, v < 2 ^ bitLength width :=
    fun v hv => lt_trans hv (lt_two_pow_bitLength width)
  rw [haccepted, ncard_blockValue hbelow, ncard_setOf_lt, ← Nat.mul_assoc]
  calc 2 ^ (32 * wordsFor (bitLength width))
      = 2 ^ bitLength width * 2 ^ (32 * wordsFor (bitLength width) - bitLength width) := by
        rw [← pow_add, Nat.add_sub_cancel' hbits]
    _ ≤ 2 * width * 2 ^ (32 * wordsFor (bitLength width) - bitLength width) :=
        Nat.mul_le_mul_right _ hhalf

/-- An integer without a sign is drawn uniformly: of all blocks of the words that its bits take, and no
other bytes, each value with so many bits comes up equally often, and no other value. The same holds
for an attempt below a bound, which takes at least half of the blocks and rejects the others. -/
theorem unsigned_draws_uniform {bits : Nat} (hbits : bits < UInt64.size) :
    (∀ source : Source, 4 * wordsFor bits ≤ source.bytes.length →
      (magnitude bits).Concludes source bits (· = .noRoomToDraw) fun result new =>
        new = source.skip (4 * wordsFor bits) ∧ Within (fun _ => False) (fun x =>
          x.Denotes 0 (blockValue bits (source.bytes.take (4 * wordsFor bits)))) result) ∧
    (∀ source : Source, source.bytes.length < 4 * wordsFor bits →
      (magnitude bits).Concludes source bits (· = .noRoomToDraw) fun result new =>
        result = .error .exhausted ∧ new = source) ∧
    {block : List UInt8 | block.length = 4 * wordsFor bits}.ncard = 2 ^ (32 * wordsFor bits) ∧
    Uniform (4 * wordsFor bits) (fun block => some (blockValue bits block)) {v | 0 ≤ v ∧ v < 2 ^ bits}
      (2 ^ (32 * wordsFor bits - bits)) ∧
    ∀ bound : Integer, bound.WellFormed → bound.toInt ≠ 0 →
      (belowAttempt bound).Judges bound.bits (4 * wordsFor bound.bits)
        (belowVerdict bound.magnitude) (fun _ => 0) ∧
      Uniform (4 * wordsFor bound.bits) (belowVerdict bound.magnitude) {v | 0 ≤ v ∧ v < |bound.toInt|}
        (2 ^ (32 * wordsFor bound.bits - bound.bits)) ∧
      2 ^ (32 * wordsFor bound.bits) ≤ 2 * {block | block.length = 4 * wordsFor bound.bits ∧
        (belowVerdict bound.magnitude block).isSome}.ncard := by
  refine ⟨fun source henough => ?_, fun source hshort => concludes_magnitude_of_lt hshort, ?_,
    uniform_blockValue bits, fun bound hbound hvalue => ?_⟩
  · exact (concludes_magnitude hbits henough).mono le_rfl (fun _ h => h)
      fun result new ⟨hnew, hx⟩ => ⟨hnew, hx.mono (fun _ h => h) fun _ hx => hx.denotes⟩
  · have hall := Bytes.ncard_toNat (4 * wordsFor bits) fun _ => True
    simp only [and_true, ncard_setOf_lt] at hall
    exact hall.trans (pow_blockSize bits)
  · have hnonzero : bound.magnitude ≠ 0 := mt Integer.toInt_eq_zero.2 hvalue
    refine ⟨judges_belowAttempt hbound hnonzero, ?_, ?_⟩
    · rw [Integer.abs_toInt, hbound.bits_eq]
      exact uniform_belowVerdict bound.magnitude
    · rw [hbound.bits_eq]
      exact half_accepted hnonzero

theorem draws_below_nineteen_uniform :
    (5 : Nat) < UInt64.size ∧
    Uniform 4 (fun block => some (blockValue 5 block)) {v | 0 ≤ v ∧ v < 32} 134217728 ∧
    ∃ bound : Integer, bound.WellFormed ∧ bound.toInt = 19 ∧
      (belowAttempt bound).Judges 5 4 (belowVerdict 19) (fun _ => 0) ∧
      Uniform 4 (belowVerdict 19) {v | 0 ≤ v ∧ v < 19} 134217728 ∧
      4294967296 ≤ 2 * {block | block.length = 4 ∧ (belowVerdict 19 block).isSome}.ncard := by
  have hbound : Integer.WellFormed ⟨[19, 0, 0, 0], 5, false⟩ :=
    Integer.wellFormed_of_bits (by decide) (by decide) (by decide) (by decide) (by decide)
  have hbits : (5 : Nat) < UInt64.size := by decide
  obtain ⟨-, -, -, hall, hbelow⟩ := unsigned_draws_uniform hbits
  obtain ⟨hjudges, huniform, hhalf⟩ := hbelow _ hbound (by decide)
  exact ⟨hbits, hall, _, hbound, by decide, hjudges, huniform, hhalf⟩

end Draw

end Multiword
