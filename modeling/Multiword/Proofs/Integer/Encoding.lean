import Multiword.Integer.Encoding
import Multiword.Proofs.Integer.Storage
import Multiword.Proofs.Words.Bytes

/-!
# Loading a magnitude

Bytes and words that are loaded stand for the magnitude. Its bit count is worked out from the highest
digit that is not zero, before anything is written. To load bytes is to load the words that they make
up: in every state it does the same.
-/

set_option autoImplicit false

namespace Multiword

namespace Integer

open ActionOn (current replace settles_current settles_checked settles_replace attempts_unsigned64)

/-! ## Bytes are loaded as words -/

/-- A magnitude without bits is loaded by clearing. -/
theorem exec_loadMagnitude_zero (x : Integer) (memory : Memory) :
    (loadMagnitude [] 0).exec x memory =
      (do replace (← (← current).cleared) : Update Unit).exec x memory := by
  have hroom : wordsFor 0 ≤ x.capacity := Nat.zero_le _
  unfold loadMagnitude cleared
  simp only [ActionOn.exec_bind, exec_ensureCapacity_of_le hroom, ActionOn.exec_current,
    ActionOn.exec_checked]
  cases Words.clear x.buffer 0 x.size <;> rfl

/-- Without the zeros in front, bytes make up the words that the bits of their number take. -/
theorem toWords_dropWhile (bytes : List UInt8) :
    Bytes.toWords (bytes.dropWhile (· == 0)).reverse =
      (Bytes.toWords bytes.reverse).take (wordsFor (bitLength (Bytes.toNat bytes.reverse))) := by
  have hbytes := Bytes.bytesFor_toNat bytes
  have hle := Words.bitLength_toNat_le (Bytes.toWords bytes.reverse)
  rw [Bytes.toNat_toWords] at hle
  apply Words.toNat_inj
  · rw [Bytes.length_toWords, List.length_take, List.length_reverse, ← hbytes]
    unfold wordsFor
    omega
  · rw [toNat_take_of_bits, Bytes.toNat_toWords, Bytes.toNat_toWords, Bytes.toNat_dropWhile]
    rw [Bytes.toNat_toWords]
    exact wordsFor_le.1 le_rfl

/-- The bit count that is read off the highest byte is the one that the words give. -/
theorem exec_loadBytes (bytes : List UInt8) (x : Integer) (memory : Memory) :
    (loadBytes bytes).exec x memory =
      (loadWords (Bytes.toWords bytes.reverse)).exec x memory := by
  have hwords := toWords_dropWhile bytes
  have hvalue := Bytes.toNat_dropWhile bytes
  unfold loadBytes loadWords
  rw [Words.bitLength_eq, Bytes.toNat_toWords]
  rcases hdigits : bytes.dropWhile (· == 0) with _ | ⟨top, rest⟩ <;> rw [hdigits] at hwords hvalue
  · rw [← hvalue]
    exact (exec_loadMagnitude_zero x memory).symm
  · have hbits := @Bytes.bitLength_toNat top rest (Bytes.ne_zero_of_dropWhile hdigits)
    rw [hvalue] at hbits
    dsimp only
    rw [hwords, hbits]
    simp only [ActionOn.exec_bind, ActionOn.exec_checked, unsigned64]
    -- the two counts are the same, so both fit the machine or none does
    by_cases hlt : rest.length * 8 + bitLength top.toNat < UInt64.size
    · rw [if_pos hlt]
      rfl
    · rw [if_neg hlt]
      rfl

/-! ## The value that is loaded -/

namespace WellFormed

variable {x : Integer} (hx : x.WellFormed)

include hx

/-- The buffer is cleared and written over; the words that come last were zero before. -/
theorem loadMagnitude {words : List Word} {bits : Nat}
    (hbits : bits = bitLength (Words.toNat words)) (hlength : words.length ≤ wordsFor bits)
    (hlt : bits < UInt64.size) {fails : Failure → Prop} :
    (Integer.loadMagnitude words bits).Attempts x 1 bits fails fun _ y =>
      y.Holds (roomFor x.capacity bits) (Words.toNat words) false := by
  apply (hx.ensureCapacity bits).bind_settles
  intro _ y hy
  obtain ⟨z, hz, hholds⟩ := hy.wellFormed.cleared
  have hroom : wordsFor bits ≤ z.buffer.length := by
    rw [show z.buffer.length = roomFor x.capacity bits from hholds.capacity_eq.trans hy.capacity_eq]
    exact wordsFor_le_roomFor _ _
  have hfits : words.length ≤ z.buffer.length := hlength.trans hroom
  have hzero : Words.toNat (z.buffer.drop words.length) = 0 := by
    rw [Words.toNat_drop _ hfits, ← magnitude, hholds.magnitude_eq, Nat.zero_div]
  refine settles_current (settles_checked hz (settles_checked (if_pos hfits) (settles_replace ?_)))
  rw [← hy.capacity_eq, ← hholds.capacity_eq, ← hholds.negative_eq]
  refine hholds.wellFormed.holds_of_bits ?_ ?_ hbits hlt fun _ => hholds.negative_eq
  · rw [List.length_append, List.length_drop, capacity]
    omega
  · rw [Words.toNat_append, hzero, Nat.mul_zero, add_zero]

theorem loadWords (words : List Word) :
    (Integer.loadWords words).Attempts x 1 (bitLength (Words.toNat words))
      (TooManyBits (bitLength (Words.toNat words))) fun _ y =>
      y.Holds (roomFor x.capacity (bitLength (Words.toNat words))) (Words.toNat words) false := by
  unfold Integer.loadWords
  rw [Words.bitLength_eq]
  refine attempts_unsigned64 (fun hlt => ?_) fun hle => ⟨.inr rfl, hle⟩
  set bits := bitLength (Words.toNat words) with hbits
  have hvalue : Words.toNat (words.take (wordsFor bits)) = Words.toNat words :=
    toNat_take_of_bits (wordsFor_le.1 le_rfl)
  have hlength : (words.take (wordsFor bits)).length ≤ wordsFor bits := List.length_take_le _ _
  have h := @loadMagnitude x hx (words.take (wordsFor bits)) bits (by rw [hvalue]) hlength hlt
    (TooManyBits bits)
  rwa [hvalue] at h

theorem loadBytes (bytes : List UInt8) :
    (Integer.loadBytes bytes).Attempts x 1 (bitLength (Bytes.toNat bytes.reverse))
      (TooManyBits (bitLength (Bytes.toNat bytes.reverse))) fun _ y =>
      y.Holds (roomFor x.capacity (bitLength (Bytes.toNat bytes.reverse)))
        (Bytes.toNat bytes.reverse) false := by
  have h := hx.loadWords (Bytes.toWords bytes.reverse)
  rw [Bytes.toNat_toWords] at h
  intro memory
  rw [exec_loadBytes]
  exact h memory

end WellFormed

theorem attempts_ofBytes (bytes : List UInt8) :
    (ofBytes bytes).Attempts 1 (bitLength (Bytes.toNat bytes.reverse))
      (TooManyBits (bitLength (Bytes.toNat bytes.reverse))) fun y =>
      y.Holds (roomFor 4 (bitLength (Bytes.toNat bytes.reverse))) (Bytes.toNat bytes.reverse)
        false :=
  (wellFormed_zero.loadBytes bytes).applyTo

theorem attempts_ofWords (words : List Word) :
    (ofWords words).Attempts 1 (bitLength (Words.toNat words))
      (TooManyBits (bitLength (Words.toNat words))) fun y =>
      y.Holds (roomFor 4 (bitLength (Words.toNat words))) (Words.toNat words) false :=
  (wellFormed_zero.loadWords words).applyTo

end Integer

end Multiword
