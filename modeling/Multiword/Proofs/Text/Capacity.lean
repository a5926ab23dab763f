import Multiword.Proofs.Integer.Encoding
import Multiword.Proofs.Text.Reading

/-!
# The room that reading takes

Each group of digits asks for the bits of what was read before it and of its own scale, which is one
bit more than the result has, or none. The next group starts from the bits that there really are, so
these single bits do not add up, and a text is read into the buffer for its number or for one bit
more. Digits that are whole bits are always read with one bit to spare.
-/

set_option autoImplicit false

namespace Multiword

/-! ## Bits of a product and a rest -/

/-- Below the next multiple, the bits of a product are those of its factors, or one less. -/
theorem bitLength_mul_add {m n low : Nat} (hm : m ≠ 0) (hlow : low < n) :
    bitLength m + bitLength n = bitLength (m * n + low) ∨
    bitLength m + bitLength n = bitLength (m * n + low) + 1 := by
  have hupper : bitLength (m * n + low) ≤ bitLength m + bitLength n := by
    rw [bitLength_le, pow_add]
    exact mul_add_lt (lt_two_pow_bitLength m) (lt_two_pow_bitLength n).le hlow
  obtain ⟨i, hi⟩ := Nat.exists_eq_succ_of_ne_zero (mt bitLength_eq_zero.1 hm)
  obtain ⟨j, hj⟩ := Nat.exists_eq_succ_of_ne_zero (mt bitLength_eq_zero.1 (by omega : n ≠ 0))
  have hlower : i + j < bitLength (m * n + low) := by
    rw [lt_bitLength, pow_add]
    exact (Nat.mul_le_mul (two_pow_le_of_bitLength hi) (two_pow_le_of_bitLength hj)).trans
      (Nat.le_add_right _ _)
  omega

/-! ## Smallest buffers -/

/-- The capacity of the smallest buffer that a magnitude of `bits` bits fits: a multiple of four
words, and four at least. -/
def leastCapacity (bits : Nat) : Nat := max 4 (roundedUp (wordsFor bits))

theorem roomFor_four (bits : Nat) : roomFor 4 bits = leastCapacity bits := by
  unfold roomFor leastCapacity roundedUp
  split <;> omega

/-- Asking for more bits makes of one smallest buffer the other. -/
theorem roomFor_leastCapacity {bits more : Nat} (h : bits ≤ more) :
    roomFor (leastCapacity bits) more = leastCapacity more := by
  unfold roomFor leastCapacity roundedUp wordsFor
  split <;> omega

theorem leastCapacity_of_le {bits : Nat} (h : bits ≤ 128) : leastCapacity bits = 4 := by
  unfold leastCapacity roundedUp wordsFor
  omega

/-- One bit more needs a larger buffer where the bits fill all words of the smaller one. -/
theorem leastCapacity_succ (bits : Nat) :
    leastCapacity (bits + 1) =
      if 0 < bits ∧ 128 ∣ bits then leastCapacity bits + 4 else leastCapacity bits := by
  unfold leastCapacity roundedUp wordsFor
  split <;> omega

namespace Integer

open ActionOn (makes_pure makes_throw)

/-! ## Digits -/

/-- The buffer is the smallest one for the bits of the number or for one bit more, and for one more
if the digits are hexadecimal. -/
structure Fitted (x : Integer) (radix : Nat) : Prop where
  wellFormed : x.WellFormed
  capacity_eq : x.capacity = leastCapacity x.bits ∨ x.capacity = leastCapacity (x.bits + 1)
  capacity_of_sixteen : radix = 16 → x.capacity = leastCapacity (x.bits + 1)

/-- One bit more than a word has does not need a larger buffer than the smallest one. -/
theorem fitted_of_word {x : Integer} (hx : x.WellFormed) (hcapacity : x.capacity = 4)
    (hbits : x.bits ≤ 32) (radix : Nat) : x.Fitted radix := by
  have hleast := leastCapacity_of_le (show x.bits ≤ 128 by omega)
  have hnext := leastCapacity_of_le (show x.bits + 1 ≤ 128 by omega)
  exact ⟨hx, .inl (hcapacity.trans hleast.symm), fun _ => hcapacity.trans hnext.symm⟩

/-- The bit that was asked for too much before is not there any more when more bits are asked for. -/
theorem Fitted.roomFor_eq {x : Integer} {radix bits : Nat} (hx : x.Fitted radix)
    (hmore : x.bits < bits) : roomFor x.capacity bits = leastCapacity bits := by
  rcases hx.capacity_eq with h | h
  · rw [h, roomFor_leastCapacity hmore.le]
  · rw [h, roomFor_leastCapacity hmore]

/-- The scale of a group of hexadecimal digits is a power of two, with one bit more than the digits
have. -/
theorem bitLength_scale {group : DigitGroup} (h : group.Valid 16) :
    group.scale = 2 ^ (4 * group.length) ∧ bitLength group.scale = 4 * group.length + 1 := by
  have hscale : group.scale = 1 * 2 ^ (4 * group.length) := by
    rw [h.scale_eq, show (16 : Nat) = 2 ^ 4 from rfl, ← pow_mul, one_mul]
  refine ⟨by rw [hscale, one_mul], ?_⟩
  rw [hscale, bitLength_mul_two_pow one_ne_zero, Nat.add_comm]
  rfl

section

variable {x : Integer} {radix : Nat} (hradix : radix = 10 ∨ radix = 16)

include hradix

/-- The bits of the scale are asked for beside those of the number so far, which are at most one bit
too many. -/
theorem Fitted.makes_mulAddGroup (hx : x.Fitted radix) {group : DigitGroup}
    (hgroup : group.Valid radix) :
    (mulAddGroup group).Makes x fun _ y => y.Fitted radix := by
  have hscale := hgroup.scale_lt hradix
  have hvalue := hgroup.value_lt
  refine (hx.wellFormed.mulAddGroup hgroup hscale).makes.mono fun _ y hy => ?_
  have hpos : bitLength group.scale ≠ 0 := by
    rw [ne_eq, bitLength_eq_zero]
    omega
  have hcapacity : y.capacity = leastCapacity (x.bits + bitLength group.scale) :=
    hy.capacity_eq.trans (hx.roomFor_eq (by omega))
  have hbits : y.bits = bitLength (x.magnitude * group.scale + group.value) := hy.bits_eq
  by_cases hzero : x.magnitude = 0
  · -- nothing but zeros was read before, and one group fits a word
    rw [hzero, Nat.zero_mul, zero_add] at hbits
    have hword : bitLength group.scale ≤ 32 := bitLength_le.2 hscale
    have hnone : x.bits = 0 := hx.wellFormed.bits_eq_zero.2 hzero
    rw [hnone, zero_add, leastCapacity_of_le (by omega)] at hcapacity
    refine fitted_of_word hy.wellFormed hcapacity ?_ radix
    rw [hbits, bitLength_le]
    exact hvalue.trans hscale
  · have hcases := bitLength_mul_add hzero hvalue
    rw [← hbits, ← hx.wellFormed.bits_eq] at hcases
    refine ⟨hy.wellFormed, ?_, ?_⟩
    · rw [hcapacity]
      exact hcases.imp (congrArg leastCapacity) (congrArg leastCapacity)
    · rintro rfl
      obtain ⟨hpower, hlength⟩ := bitLength_scale hgroup
      rw [hpower] at hvalue
      rw [hpower, bitLength_mul_two_pow_add hzero hvalue, ← hx.wellFormed.bits_eq] at hbits
      rw [hcapacity, hbits, hlength, Nat.add_assoc]

/-- Every group, also the unfinished one at the end, leaves a fitted buffer. -/
theorem Fitted.makes_readDigits (hx : x.Fitted radix) (digits : List Char) {group : DigitGroup}
    (hgroup : group.Valid radix) (hlength : group.length < groupSize radix) :
    (readDigits radix digits group).Makes x fun _ y => y.Fitted radix := by
  induction digits generalizing x group with
  | nil =>
    unfold readDigits
    split
    · exact hx.makes_mulAddGroup hradix hgroup
    · exact makes_pure hx
  | cons c cs ih =>
    unfold readDigits
    split
    · exact makes_throw
    · next digit hdigit =>
      have hless : digit < radix := by
        unfold digitValue? at hdigit
        simpa using (Option.filter_eq_some_iff.1 hdigit).2
      have hpushed := hgroup.push hless hlength
      dsimp only
      split
      · exact (hx.makes_mulAddGroup hradix hpushed).bind fun _ y hy =>
          ih hy (DigitGroup.valid_empty radix) (groupSize_pos radix)
      · next hshort => exact ih hx hpushed (lt_of_le_of_ne hpushed.length_le hshort)

end

/-! ## Texts -/

theorem makes_ofText_fitted {text digits : List Char} {negative : Bool} {radix : Nat}
    (h : Parts text negative radix digits) : (ofText text).Makes fun x => x.Fitted radix := by
  have hzero : zero.Fitted radix := fitted_of_word wellFormed_zero rfl (Nat.zero_le _) radix
  rw [ofText_of_parts h]
  split
  · exact Action.makes_throw
  · refine (hzero.makes_readDigits h.radix_eq digits (DigitGroup.valid_empty radix)
      (groupSize_pos radix)).applyTo.bind fun x hx => Action.makes_pure ?_
    have hsigned := hx.wellFormed.withSign negative
    exact ⟨hsigned.wellFormed, hx.capacity_eq, hx.capacity_of_sixteen⟩

/-- A text is read into the smallest buffer for the bits of its number or for one bit more, and for one
more if it is hexadecimal, however many digits it has. The same magnitude from its bytes lies in the
smallest buffer; so that one has the same capacity, unless the bits fill all its words, and four words
less at most. -/
theorem texts_read_into_fitted_buffers {text digits : List Char} {negative : Bool} {radix : Nat}
    (h : Parts text negative radix digits) :
    (ofText text).Attempts digits.length (4 * digits.length + 1) (Misread radix digits) fun x =>
      x.ReadFrom negative radix digits ∧
      (x.capacity = leastCapacity x.bits ∨ x.capacity = leastCapacity (x.bits + 1)) ∧
      (radix = 16 → x.capacity = leastCapacity (x.bits + 1)) ∧
      ∀ bytes : List UInt8, Bytes.toNat bytes.reverse = x.magnitude →
        (ofBytes bytes).Attempts 1 x.bits (fun _ => False) fun y =>
          y.WellFormed ∧ y.magnitude = x.magnitude ∧
          (¬(0 < x.bits ∧ 128 ∣ x.bits) → x.capacity = y.capacity) ∧
          (0 < x.bits ∧ 128 ∣ x.bits → y.capacity ≤ x.capacity ∧ x.capacity ≤ y.capacity + 4) := by
  refine ((attempts_ofText h).and_makes (makes_ofText_fitted h)).imp ?_
  rintro x ⟨hread, hfitted⟩
  refine ⟨hread, hfitted.capacity_eq, hfitted.capacity_of_sixteen, fun bytes hbytes => ?_⟩
  have hmade := attempts_ofBytes bytes
  rw [hbytes, ← hfitted.wellFormed.bits_eq, roomFor_four] at hmade
  refine hmade.mono le_rfl le_rfl
    (fun _ h => absurd h.2 (Nat.not_le_of_lt hfitted.wellFormed.bits_lt))
    fun y hy => ⟨hy.wellFormed, hy.magnitude_eq, fun hless => ?_, fun hfull => ?_⟩
  · have hsucc := leastCapacity_succ x.bits
    rw [if_neg hless] at hsucc
    rw [hy.capacity_eq]
    exact hfitted.capacity_eq.elim id fun h => h.trans hsucc
  · have hsucc := leastCapacity_succ x.bits
    rw [if_pos hfull] at hsucc
    rw [hy.capacity_eq]
    rcases hfitted.capacity_eq with h | h <;> omega

theorem four_full_words_read_into_eight :
    ∃ x, (ofText ('0' :: 'x' :: List.replicate 32 'f')).granted = .ok x ∧
      x.bits = 128 ∧ x.capacity = 8 ∧
      (ofBytes (List.replicate 16 255)).Attempts 1 128 (fun _ => False) fun y =>
        y.magnitude = x.magnitude ∧ 4 ≤ y.capacity := by
  obtain ⟨x, hrun, hbits, hbytes⟩ : ∃ x : Integer,
      (ofText ('0' :: 'x' :: List.replicate 32 'f')).granted = .ok x ∧
      x.bits = 128 ∧ Bytes.toNat (List.replicate 16 255).reverse = x.magnitude :=
    ⟨⟨List.replicate 4 4294967295 ++ List.replicate 4 0, 128, false⟩, by decide +kernel,
      by decide, by decide⟩
  have hparts : Parts ('0' :: 'x' :: List.replicate 32 'f') false 16 (List.replicate 32 'f') :=
    .unsigned (by decide) (.lower _)
  obtain ⟨-, -, hcapacity, hbyBytes⟩ :=
    (texts_read_into_fitted_buffers hparts).makes.granted hrun
  have hlarge : x.capacity = 8 := by
    rw [hcapacity rfl, hbits]
    rfl
  refine ⟨x, hrun, hbits, hlarge,
    ((hbyBytes _ hbytes).within hbits.le).imp fun y hy => ?_⟩
  obtain ⟨-, hsame, -, hfull⟩ := hy
  have hclose := (hfull (by rw [hbits]; decide)).2
  exact ⟨hsame, by omega⟩

end Integer

end Multiword
