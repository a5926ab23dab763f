import Mathlib.Data.Int.Interval
import Multiword.Proofs.Sampling.Uniform

/-!
# Draws with a sign are uniform

A coin gives the sign of a magnitude that was drawn. Zero has no sign, so one side of the coin is not
accepted with it; that leaves zero as many inputs as any other value has. An attempt without bits takes
no words, but the coin is tossed all the same, so every attempt takes bytes and the draw ends.
-/

set_option autoImplicit false

namespace Multiword

/-- Inputs in two parts are as many as there are pairs of parts. -/
theorem ncard_take_drop (m n : Nat) (p q : List UInt8 → Prop) :
    {input : List UInt8 | input.length = m + n ∧ p (input.take m) ∧ q (input.drop m)}.ncard =
      {front : List UInt8 | front.length = m ∧ p front}.ncard *
        {back : List UInt8 | back.length = n ∧ q back}.ncard := by
  rw [← Set.ncard_prod]
  refine (Set.ncard_congr (fun parts _ => parts.1 ++ parts.2) ?_ ?_ ?_).symm
  · rintro ⟨front, back⟩ ⟨⟨hfront, hp⟩, ⟨hback, hq⟩⟩
    refine ⟨by simp [hfront, hback], ?_, ?_⟩
    · rwa [List.take_left' hfront]
    · rwa [List.drop_left' hfront]
  · rintro ⟨front, back⟩ ⟨front', back'⟩ ⟨⟨hfront, -⟩, -⟩ ⟨⟨hfront', -⟩, -⟩ heq
    obtain ⟨hfirst, hsecond⟩ := List.append_inj heq (hfront.trans hfront'.symm)
    exact Prod.ext hfirst hsecond
  · rintro input ⟨hlength, hp, hq⟩
    refine ⟨(input.take m, input.drop m), ⟨⟨?_, hp⟩, ⟨?_, hq⟩⟩, List.take_append_drop m input⟩
    · rw [List.length_take]
      omega
    · rw [List.length_drop]
      omega

namespace Draw

open ActionOn (concludes_pure)

/-! ## The coin -/

variable {source : Source}

theorem concludes_coin (h : 4 ≤ source.bytes.length) {room : Nat} {refused : Failure → Prop} :
    coin.Concludes source room refused fun result new =>
      new = source.skip 4 ∧ result = .ok ((Bytes.toNat (source.bytes.take 4)).testBit 31) :=
  concludes_take h (concludes_pure ⟨rfl, rfl⟩)

theorem concludes_coin_of_lt (h : source.bytes.length < 4) {room : Nat} {refused : Failure → Prop} :
    coin.Concludes source room refused fun result new =>
      result = .error .exhausted ∧ new = source :=
  (concludes_take_of_lt h).bind_error

/-- The coin is an integer of one bit, and half of all four bytes fall on each side. -/
theorem ncard_coin (side : Bool) :
    {bytes : List UInt8 | bytes.length = 4 ∧ (Bytes.toNat bytes).testBit 31 = side}.ncard =
      2 ^ 31 := by
  have hone : ∀ bytes : List UInt8, bytes.length = 4 →
      ((Bytes.toNat bytes).testBit 31 = side ↔ blockValue 1 bytes ∈ ({side.toNat} : Set Nat)) := by
    intro bytes hlength
    have hlt := Bytes.toNat_lt bytes
    have hvalue : blockValue 1 bytes = Bytes.toNat bytes / 2 ^ 31 := by
      simp [blockValue, wordsFor, Nat.mod_one]
    rw [hlength] at hlt
    rw [hvalue, Nat.testBit_eq_decide_div_mod_eq, Set.mem_singleton_iff]
    cases side <;> simp <;> omega
  have hcount := @ncard_blockValue 1 {side.toNat} (by cases side <;> simp)
  rw [Set.ncard_singleton, one_mul] at hcount
  rw [show 2 ^ 31 = 2 ^ (32 * wordsFor 1 - 1) from rfl, ← hcount]
  congr 1
  ext bytes
  exact and_congr_right (hone bytes)

/-! ## One attempt -/

/-- What an attempt at an integer with a sign makes of the block of a magnitude and the four bytes of
the coin. -/
def signedVerdict (bits : Nat) (input : List UInt8) : Option Int :=
  let value := blockValue bits (input.take (blockSize bits))
  if (Bytes.toNat (input.drop (blockSize bits))).testBit 31 then
    if value = 0 then none else some (-value)
  else
    some value

variable {bits : Nat}

theorem signedVerdict_eq_some {input : List UInt8} {v : Int} :
    signedVerdict bits input = some v ↔
      blockValue bits (input.take (blockSize bits)) = v.natAbs ∧
        (Bytes.toNat (input.drop (blockSize bits))).testBit 31 = decide (v < 0) := by
  unfold signedVerdict
  dsimp only
  generalize blockValue bits (input.take (blockSize bits)) = value
  cases (Bytes.toNat (input.drop (blockSize bits))).testBit 31 with
  | false =>
    rw [if_neg Bool.false_ne_true, Option.some.injEq, eq_comm (b := decide _), decide_eq_false_iff_not]
    omega
  | true =>
    rw [if_pos rfl, eq_comm (b := decide _), decide_eq_true_iff]
    split
    · simp only [reduceCtorEq, false_iff]
      omega
    · rw [Option.some.injEq]
      omega

theorem signedVerdict_eq_none {input : List UInt8} :
    signedVerdict bits input = none ↔
      blockValue bits (input.take (blockSize bits)) = 0 ∧
        (Bytes.toNat (input.drop (blockSize bits))).testBit 31 = true := by
  unfold signedVerdict
  dsimp only
  cases (Bytes.toNat (input.drop (blockSize bits))).testBit 31 <;> simp

/-- An attempt with too few bytes for the coin takes the magnitude, and one with too few for that takes
nothing. -/
def signedRest (bits left : Nat) : Nat := if left < blockSize bits then 0 else blockSize bits

/-- A magnitude takes either side of the coin as its sign, but zero only one of them. -/
theorem concludes_signed {x : Integer} {value : Nat} (hx : x.Reaches 0 value false)
    (negative : Bool) {room : Nat} {refused : Failure → Prop} :
    (if x.isZero then pure (if negative then none else some x)
      else pure (some (x.withSign negative)) : Draw (Option Integer)).Concludes source room refused
        fun result new => new = source ∧ Within (fun _ => False)
          (Option.Rel (fun v y => y.Denotes 0 v) (if negative then
            if value = 0 then none else some (-value : Int) else some value)) result := by
  rw [hx.wellFormed.isZero_eq, hx.magnitude_eq]
  by_cases hzero : value = 0
  · rw [decide_eq_true hzero]
    cases negative with
    | false => exact concludes_pure ⟨rfl, .some hx.denotes⟩
    | true =>
      rw [if_pos rfl, if_pos rfl, if_pos hzero]
      exact concludes_pure ⟨rfl, .none⟩
  · have hsigned := hx.withSign negative
    rw [decide_eq_false hzero]
    cases negative with
    | false => exact concludes_pure ⟨rfl, .some hsigned⟩
    | true =>
      rw [if_neg Bool.false_ne_true, if_pos rfl, if_neg hzero]
      exact concludes_pure ⟨rfl, .some hsigned⟩

/-- An attempt with a sign depends on its block and its coin alone. -/
theorem judges_signedAttempt (hbits : bits < UInt64.size) :
    (signedAttempt bits).Judges bits (blockSize bits + 4) (signedVerdict bits)
      (signedRest bits) where
  pos := Nat.succ_pos _
  short {source} hshort := by
    unfold signedRest
    split
    · next hnone => exact (concludes_magnitude_of_lt hnone).bind_error
    · next hmagnitude =>
      refine (concludes_magnitude hbits (Nat.le_of_not_lt hmagnitude)).bind ?_ fun _ _ h => h.2.elim
      rintro x new ⟨rfl, -⟩
      have hleft : (source.skip (blockSize bits)).bytes.length < 4 := by
        rw [Source.length_skip]
        omega
      exact (concludes_coin_of_lt hleft).bind_error
  whole {source} henough := by
    refine (concludes_magnitude hbits (by omega)).bind ?_ fun _ _ h => h.2.elim
    rintro x new ⟨rfl, hx⟩
    have hx : x.Reaches 0 (blockValue bits (source.bytes.take (blockSize bits))) false := hx
    have hleft : 4 ≤ (source.skip (blockSize bits)).bytes.length := by
      rw [Source.length_skip]
      omega
    refine (concludes_coin hleft).bind ?_ fun _ _ h => nomatch h.2
    rintro negative new ⟨rfl, hnegative⟩
    have htake : (source.bytes.take (blockSize bits + 4)).take (blockSize bits) =
        source.bytes.take (blockSize bits) := by
      rw [List.take_take, min_eq_left (Nat.le_add_right _ _)]
    have hdrop : (source.bytes.take (blockSize bits + 4)).drop (blockSize bits) =
        (source.skip (blockSize bits)).bytes.take 4 := by
      rw [List.drop_take, Nat.add_sub_cancel_left]
      rfl
    obtain rfl := Except.ok.inj hnegative
    unfold signedVerdict
    rw [htake, hdrop, ← Source.skip_skip]
    exact concludes_signed hx _

/-! ## All inputs -/

theorem ncard_abs_lt (bits : Nat) : {v : Int | |v| < 2 ^ bits}.ncard = 2 ^ (bits + 1) - 1 := by
  have hinterval : {v : Int | |v| < 2 ^ bits} = ↑(Finset.Ioo (-2 ^ bits : Int) (2 ^ bits)) := by
    ext v
    simp [abs_lt]
  have hsize : (2 ^ bits - -2 ^ bits - 1 : Int) = ((2 ^ (bits + 1) - 1 : Nat) : Int) := by
    rw [Nat.cast_sub Nat.one_le_two_pow]
    push_cast
    ring
  rw [hinterval, Set.ncard_coe_finset, Int.card_Ioo, hsize, Int.toNat_natCast]

theorem uniform_signedVerdict (bits : Nat) :
    Uniform (blockSize bits + 4) (signedVerdict bits) {v | |v| < 2 ^ bits}
      (2 ^ (32 * wordsFor bits - bits) * 2 ^ 31) where
  each := by
    intro v hv
    have hbits : |v| < 2 ^ bits := hv
    rw [Int.abs_eq_natAbs] at hbits
    have hlt : v.natAbs < 2 ^ bits := by exact_mod_cast hbits
    have hmagnitudes := @ncard_blockValue bits {v.natAbs} (by simpa using hlt)
    rw [Set.ncard_singleton, one_mul] at hmagnitudes
    rw [← hmagnitudes, ← ncard_coin (decide (v < 0)), ← ncard_take_drop (blockSize bits) 4
      (fun block => blockValue bits block ∈ ({v.natAbs} : Set Nat))
      (fun bytes => (Bytes.toNat bytes).testBit 31 = decide (v < 0))]
    congr 1
    ext input
    exact and_congr_right fun _ => signedVerdict_eq_some
  only := by
    intro input hlength v hv
    have hblock : (input.take (blockSize bits)).length = blockSize bits := by
      rw [List.length_take]
      omega
    have hlt := blockValue_lt hblock
    rw [(signedVerdict_eq_some.1 hv).1] at hlt
    show |v| < 2 ^ bits
    rw [Int.abs_eq_natAbs]
    exact_mod_cast hlt

/-- An integer with a sign is drawn uniformly: each integer with so many bits, and zero among them,
comes of equally many inputs of an attempt, which are the words of the bits and four bytes for the
coin. The other inputs, zero with the coin on the wrong side, are rejected. A draw takes the value of
the first input that is accepted and nothing behind it, or ends where the source has no whole input
left. -/
theorem signed_draws_uniform {bits : Nat} (hbits : bits < UInt64.size) :
    {v : Int | |v| < 2 ^ bits}.ncard = 2 ^ (bits + 1) - 1 ∧
    Uniform (4 * (wordsFor bits + 1)) (signedVerdict bits) {v | |v| < 2 ^ bits}
      (2 ^ (32 * wordsFor bits - bits) * 2 ^ 31) ∧
    (∀ input : List UInt8, signedVerdict bits input = none ↔
      blockValue bits (input.take (4 * wordsFor bits)) = 0 ∧
        (Bytes.toNat (input.drop (4 * wordsFor bits))).testBit 31 = true) ∧
    (signedAttempt bits).Judges bits (4 * (wordsFor bits + 1)) (signedVerdict bits)
      (signedRest bits) ∧
    ∀ source : Source, (signed bits).Concludes source bits (· = .noRoomToDraw)
      (FirstAccepted (4 * (wordsFor bits + 1)) (signedVerdict bits) (signedRest bits) source) :=
  ⟨ncard_abs_lt bits, uniform_signedVerdict bits, fun _ => signedVerdict_eq_none,
    judges_signedAttempt hbits, fun _ => (judges_signedAttempt hbits).concludes_untilAccepted⟩

/-- Without bits there is zero alone, and the coin alone is taken. -/
theorem signed_draws_of_no_bits_uniform :
    (0 : Nat) < UInt64.size ∧ {v : Int | |v| < 1}.ncard = 1 ∧
    Uniform 4 (signedVerdict 0) {v | |v| < 1} 2147483648 ∧
    ∀ source : Source, (signed 0).Concludes source 0 (· = .noRoomToDraw)
      (FirstAccepted 4 (signedVerdict 0) (signedRest 0) source) := by
  have hbits : (0 : Nat) < UInt64.size := by decide
  obtain ⟨hvalues, huniform, -, -, hdrawn⟩ := signed_draws_uniform hbits
  exact ⟨hbits, hvalues, huniform, hdrawn⟩

end Draw

end Multiword
