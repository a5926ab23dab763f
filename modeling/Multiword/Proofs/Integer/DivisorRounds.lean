import Mathlib.NumberTheory.Padics.PadicVal.Basic
import Multiword.Proofs.Integer.Divisor
import Multiword.Proofs.Integer.Quiet

/-!
# How many rounds a common divisor takes

The larger of the two numbers changes from round to round, so neither of them gets shorter in each of
them; but both together lose a bit in every round, and the one that is left at the end still has a bit.
The count is that of the numbers without their common power of two, and both are written down.
-/

set_option autoImplicit false

namespace Multiword

namespace Integer

/-! ## Trailing zeros -/

theorem padicValNat_two_pow_mul {n odd : Nat} (hodd : odd % 2 = 1) :
    padicValNat 2 (2 ^ n * odd) = n := by
  have hnot : ¬2 ∣ odd := by omega
  have hodd0 : odd ≠ 0 := by omega
  rw [padicValNat.mul (by positivity) hodd0, padicValNat.prime_pow,
    padicValNat.eq_zero_of_not_dvd hnot, add_zero]

theorem WellFormed.lowestBit?_eq {x : Integer} (hx : x.WellFormed) (h : x.magnitude ≠ 0) :
    x.lowestBit? = .ok (some (padicValNat 2 x.magnitude)) := by
  obtain ⟨i, odd, hlowest, heq, hodd⟩ := hx.lowestBit? h
  rw [hlowest, heq, padicValNat_two_pow_mul hodd]

/-- The power of two that the magnitudes of two integers have in common: the one with fewer trailing
zeros decides. -/
def commonShift (u v : Integer) : Nat :=
  min (padicValNat 2 u.magnitude) (padicValNat 2 v.magnitude)

/-! ## Without the common power of two -/

namespace Reduced

variable {u v u' v' : Integer} {shift : Nat} (h : Reduced u v u' v' shift)

include h

theorem shift_eq : padicValNat 2 (Nat.gcd u.magnitude v.magnitude) = shift := by
  rw [h.gcd_eq, padicValNat_two_pow_mul h.odd]

theorem left_bits (hu : u.WellFormed) (hu0 : u.magnitude ≠ 0) : u.bits = u'.bits + shift := by
  rw [hu.bits_eq, h.left_eq, Nat.mul_comm, bitLength_mul_two_pow (h.left_ne_zero hu0),
    h.left.bits_eq]

theorem right_bits (hv : v.WellFormed) (hv0 : v.magnitude ≠ 0) : v.bits = v'.bits + shift := by
  rw [hv.bits_eq, h.right_eq, Nat.mul_comm, bitLength_mul_two_pow (h.right_ne_zero hv0),
    h.right.bits_eq]

end Reduced

section

variable {u v : Integer} (hu : u.WellFormed) (hv : v.WellFormed) (hu0 : u.magnitude ≠ 0)
  (hv0 : v.magnitude ≠ 0)

include hu hv hu0 hv0

/-- The one record that is left tells of the rounds for the two numbers without what they have in
common. -/
theorem leaves_gcd : ∃ u' v', Reduced u v u' v' (commonShift u v) ∧
    (gcd u v).Leaves fun _ records => ∃ rounds,
      records = [.commonDivisor rounds (commonShift u v)] ∧ RoundsWithin u' v' 0 rounds := by
  obtain ⟨i, j, u', v', hlowestU, hlowestV, hreduced, hgcd⟩ := exists_reduced hu hv hu0 hv0
  have hshift : commonShift u v = min i j := by
    rw [hu.lowestBit?_eq hu0, Except.ok.injEq, Option.some.injEq] at hlowestU
    rw [hv.lowestBit?_eq hv0, Except.ok.injEq, Option.some.injEq] at hlowestV
    rw [commonShift, hlowestU, hlowestV]
  rw [hshift]
  refine ⟨u', v', hreduced, ?_⟩
  rw [hgcd]
  have hrounds := hreduced.settles_gcdRounds hv0
  refine hrounds.makes.bind_leaves (quiet_gcdRounds _ _ _ _) fun result hresult => ?_
  have hrecord : (Action.record (.commonDivisor result.2 (min i j))).Leaves fun _ records =>
      records = [.commonDivisor result.2 (min i j)] := Action.leaves_record rfl
  refine hrecord.bind fun _ first hfirst => ?_
  refine (Action.makes_any _).bind_leaves ((quiet_shiftLeft _).applyTo _) fun d _ => ?_
  exact Action.leaves_pure ⟨result.2, by rw [hfirst, List.append_nil], hresult.2⟩

/-- The search for the greatest common divisor of two numbers that are not zero ends after one round at
least, and its rounds and the bits of the common power of two, counted in both numbers, are fewer than
the bits of the two together. It writes these two counts down, whatever memory would refuse, and nothing
else; the second is the exponent of two in the greatest common divisor. -/
theorem rounds_of_gcd_bounded :
    u.lowestBit? = .ok (some (padicValNat 2 u.magnitude)) ∧
    v.lowestBit? = .ok (some (padicValNat 2 v.magnitude)) ∧
    padicValNat 2 (Nat.gcd u.magnitude v.magnitude) = commonShift u v ∧
    ∃ d rounds, (∀ memory : Memory, (gcd u v).exec memory =
        (.ok d, memory.after 0 [.commonDivisor rounds (commonShift u v)])) ∧
      1 ≤ rounds ∧ rounds + 2 * commonShift u v + 1 ≤ u.bits + v.bits := by
  obtain ⟨u', v', hreduced, hleaves⟩ := leaves_gcd hu hv hu0 hv0
  obtain ⟨d, records, -, ⟨rounds, rfl, hwithin⟩, hrun⟩ := (settles_gcd hu hv hu0 hv0).exec_eq hleaves
  have hrounds := hwithin.lt_of_ne_zero (hreduced.left_ne_zero hu0)
  have hfewer := hwithin.lt_bits
  rw [hreduced.left_bits hu hu0, hreduced.right_bits hv hv0]
  exact ⟨hu.lowestBit?_eq hu0, hv.lowestBit?_eq hv0, hreduced.shift_eq, d, rounds, hrun, hrounds,
    by omega⟩

end

/-- The bound is met by `12` and `-4`. -/
example : ((gcd ⟨[12, 0, 0, 0], 4, false⟩ ⟨[4, 0, 0, 0], 3, true⟩).exec Memory.generous).2.log =
    [.commonDivisor 2 2] := rfl

theorem two_rounds_of_gcd_bounded :
    ∃ u v : Integer, u.WellFormed ∧ v.WellFormed ∧ u.toInt = 12 ∧ v.toInt = -4 ∧
      commonShift u v = 2 ∧ ∃ d rounds, (∀ memory : Memory, (gcd u v).exec memory =
        (.ok d, memory.after 0 [.commonDivisor rounds 2])) ∧ 1 ≤ rounds ∧ rounds ≤ 2 := by
  have hu : WellFormed ⟨[12, 0, 0, 0], 4, false⟩ :=
    wellFormed_of_bits (by decide) (by decide) (by decide) (by decide) (by decide)
  have hv : WellFormed ⟨[4, 0, 0, 0], 3, true⟩ :=
    wellFormed_of_bits (by decide) (by decide) (by decide) (by decide) (by decide)
  obtain ⟨-, -, hexponent, d, rounds, hrun, hpos, hbound⟩ :=
    rounds_of_gcd_bounded hu hv (by decide) (by decide)
  have hshift : commonShift ⟨[12, 0, 0, 0], 4, false⟩ ⟨[4, 0, 0, 0], 3, true⟩ = 2 :=
    hexponent.symm.trans (@padicValNat_two_pow_mul 2 1 rfl)
  rw [hshift] at hrun hbound
  have hbits : rounds + 2 * 2 + 1 ≤ 4 + 3 := hbound
  exact ⟨_, _, hu, hv, rfl, rfl, hshift, d, rounds, hrun, hpos, by omega⟩

end Integer

end Multiword
