import Mathlib.Data.Nat.Prime.Basic
import Multiword.Integer.Divisor
import Multiword.Proofs.Integer.Bits
import Multiword.Proofs.Integer.Sum

/-!
# Greatest common divisors

A round keeps the greatest common divisor, because that is odd once the common power of two is taken
out, and it shortens the two numbers by a bit together. Neither the rounds nor putting back the power
of two ask for room: the result divides both numbers, and lies in the buffer of one of them.
-/

set_option autoImplicit false

namespace Multiword

namespace Integer

open ActionOn (current replace)

/-! ## Powers of two -/

/-- The lowest bit of a number splits it into a power of two and an odd number. -/
theorem exists_odd_of_testBit {n i : Nat} (hbit : n.testBit i = true)
    (hbelow : ∀ j < i, n.testBit j = false) : ∃ odd, n = 2 ^ i * odd ∧ odd % 2 = 1 := by
  have hmod : n % 2 ^ i = 0 := by
    apply Nat.eq_of_testBit_eq
    intro j
    rw [Nat.testBit_mod_two_pow, Nat.zero_testBit]
    by_cases hj : j < i
    · rw [hbelow j hj, Bool.and_false]
    · rw [decide_eq_false hj, Bool.false_and]
  refine ⟨n / 2 ^ i, (Nat.mul_div_cancel' (Nat.dvd_of_mod_eq_zero hmod)).symm, ?_⟩
  rw [Nat.testBit_eq_decide_div_mod_eq] at hbit
  exact of_decide_eq_true hbit

/-- Powers of two do not count in an odd greatest common divisor. -/
theorem gcd_of_odd {m n i j : Nat} (h : Nat.gcd (2 ^ i * m) (2 ^ j * n) % 2 = 1) :
    Nat.gcd m n = Nat.gcd (2 ^ i * m) (2 ^ j * n) := by
  have hcoprime : ∀ k, Nat.Coprime (Nat.gcd (2 ^ i * m) (2 ^ j * n)) (2 ^ k) := fun k =>
    Nat.Coprime.pow_right k (Nat.coprime_two_right.2 (Nat.odd_iff.2 h))
  refine Nat.dvd_antisymm (Nat.dvd_gcd ?_ ?_) (Nat.dvd_gcd ?_ ?_)
  · exact (Nat.gcd_dvd_left m n).mul_left _
  · exact (Nat.gcd_dvd_right m n).mul_left _
  · exact (hcoprime i).dvd_of_dvd_mul_left (Nat.gcd_dvd_left _ _)
  · exact (hcoprime j).dvd_of_dvd_mul_left (Nat.gcd_dvd_right _ _)

theorem two_pow_mul_div {i shift : Nat} (h : shift ≤ i) (n : Nat) :
    2 ^ i * n / 2 ^ shift = 2 ^ (i - shift) * n := by
  rw [← Nat.pow_sub_mul_pow 2 h, Nat.mul_right_comm, Nat.mul_div_cancel _ (by positivity)]

/-- Without the power of two that both have in common, one of two numbers is odd. -/
theorem gcd_odd_of_min {i j m n : Nat} (hm : m % 2 = 1) (hn : n % 2 = 1) :
    Nat.gcd (2 ^ (i - min i j) * m) (2 ^ (j - min i j) * n) % 2 = 1 := by
  rw [← Nat.odd_iff] at hm hn ⊢
  rcases Nat.le_total i j with h | h
  · rw [min_eq_left h, Nat.sub_self, pow_zero, one_mul]
    exact hm.of_dvd_nat (Nat.gcd_dvd_left _ _)
  · rw [min_eq_right h, Nat.sub_self, pow_zero, one_mul]
    exact hn.of_dvd_nat (Nat.gcd_dvd_right _ _)

/-- Half the distance of two odd numbers keeps the greatest common divisor with one of them. -/
theorem gcd_half_distance {greater less : Nat} (hle : less ≤ greater) (hgreater : greater % 2 = 1)
    (hless : less % 2 = 1) : Nat.gcd ((greater - less) / 2) less = Nat.gcd greater less := by
  have hcoprime : Nat.Coprime 2 less := Nat.coprime_two_left.2 (Nat.odd_iff.2 hless)
  have hdistance : 2 * ((greater - less) / 2) = greater - less := by omega
  calc Nat.gcd ((greater - less) / 2) less
      = Nat.gcd (2 * ((greater - less) / 2)) less := (hcoprime.gcd_mul_left_cancel _).symm
    _ = Nat.gcd greater less := by rw [hdistance, Nat.gcd_sub_self_left hle]

namespace WellFormed

variable {x : Integer} (hx : x.WellFormed)

include hx

theorem lowestBit? (h : x.magnitude ≠ 0) :
    ∃ i odd, x.lowestBit? = .ok (some i) ∧ x.magnitude = 2 ^ i * odd ∧ odd % 2 = 1 := by
  obtain ⟨-, hzero⟩ | ⟨i, hlowest, hbit, hbelow⟩ := hx.lowestBit?_cases
  · exact absurd hzero h
  · obtain ⟨odd, heq, hodd⟩ := exists_odd_of_testBit hbit hbelow
    exact ⟨i, odd, hlowest, heq, hodd⟩

theorem oddPart (h : x.magnitude ≠ 0) :
    ∃ y i, x.oddPart = .ok y ∧ y.WellFormed ∧ y.capacity = x.capacity ∧ y.bits ≤ x.bits ∧
      x.magnitude = 2 ^ i * y.magnitude ∧ y.magnitude % 2 = 1 := by
  obtain ⟨i, odd, hlowest, heq, hodd⟩ := hx.lowestBit? h
  obtain ⟨y, hy, hholds⟩ := hx.shiftRight i
  have hvalue : y.magnitude = odd := by
    rw [hholds.magnitude_eq, heq, Nat.mul_div_cancel_left _ (by positivity)]
  refine ⟨y, i, ?_, hholds.wellFormed, hholds.capacity_eq, ?_, ?_, ?_⟩
  · rw [Integer.oddPart, hlowest]
    exact hy
  · apply hholds.wellFormed.bits_mono hx
    rw [hholds.magnitude_eq]
    exact Nat.div_le_self _ _
  · rw [hvalue, heq]
  · rw [hvalue, hodd]

end WellFormed

/-! ## Rounds -/

/-- What the rounds end with: the greatest common divisor, in one of the two buffers. -/
structure CommonDivisor (u v d : Integer) : Prop where
  wellFormed : d.WellFormed
  magnitude_eq : d.magnitude = Nat.gcd u.magnitude v.magnitude
  capacity_eq : d.capacity = u.capacity ∨ d.capacity = v.capacity

/-- How far the rounds for `u` and `v` count on from `rounds`: there is one at least unless `u` is zero
already, and there are fewer than both numbers have bits together. -/
structure RoundsWithin (u v : Integer) (rounds total : Nat) : Prop where
  le : rounds ≤ total
  lt_of_ne_zero : u.magnitude ≠ 0 → rounds < total
  lt_bits : total < rounds + (u.bits + v.bits)

/-- The odd parts of two numbers, the larger one first. -/
structure OddParts (u v greater less : Integer) : Prop where
  greater_wellFormed : greater.WellFormed
  less_wellFormed : less.WellFormed
  le : less.magnitude ≤ greater.magnitude
  greater_odd : greater.magnitude % 2 = 1
  less_odd : less.magnitude % 2 = 1
  gcd_eq : Nat.gcd greater.magnitude less.magnitude = Nat.gcd u.magnitude v.magnitude
  sum_le : greater.magnitude + less.magnitude ≤ u.magnitude + v.magnitude
  bits_le : greater.bits + less.bits ≤ u.bits + v.bits
  capacity_eq : greater.capacity = u.capacity ∧ less.capacity = v.capacity ∨
    greater.capacity = v.capacity ∧ less.capacity = u.capacity

/-- A round puts the odd parts in order and goes on with half their distance. -/
theorem gcdRounds_succ (limit rounds : Nat) {u v : Integer} (hu : u.WellFormed) (hv : v.WellFormed)
    (hu0 : u.magnitude ≠ 0) (hv0 : v.magnitude ≠ 0)
    (hodd : Nat.gcd u.magnitude v.magnitude % 2 = 1) :
    ∃ greater less, OddParts u v greater less ∧ gcdRounds (limit + 1) u v rounds = (do
      let distance ← (subMagnitudes .dest (.value less)).applyTo greater
      let half ← distance.shiftRight 1
      gcdRounds limit half less (← unsigned64 (rounds + 1))) := by
  obtain ⟨oddU, i, hoddU, hwfU, hcapacityU, hbitsU, heqU, hoddU'⟩ := hu.oddPart hu0
  obtain ⟨oddV, j, hoddV, hwfV, hcapacityV, hbitsV, heqV, hoddV'⟩ := hv.oddPart hv0
  have hgcd : Nat.gcd oddU.magnitude oddV.magnitude = Nat.gcd u.magnitude v.magnitude := by
    rw [heqU, heqV] at hodd ⊢
    exact gcd_of_odd hodd
  have hleU : oddU.magnitude ≤ u.magnitude := heqU ▸ Nat.le_mul_of_pos_left _ (by positivity)
  have hleV : oddV.magnitude ≤ v.magnitude := heqV ▸ Nat.le_mul_of_pos_left _ (by positivity)
  rw [gcdRounds, hu.isZero_eq, if_neg (by simp [hu0])]
  dsimp only
  rw [Action.checked_bind hoddU, Action.checked_bind hoddV,
    Action.checked_bind (hwfU.compareMagnitudes_eq hwfV)]
  rcases lt_trichotomy oddU.magnitude oddV.magnitude with hlt | heq | hgt
  · have hparts : OddParts u v oddV oddU :=
      ⟨hwfV, hwfU, hlt.le, hoddV', hoddU', (Nat.gcd_comm _ _).trans hgcd, by omega, by omega,
        .inr ⟨hcapacityV, hcapacityU⟩⟩
    exact ⟨oddV, oddU, hparts, by rw [Nat.compare_eq_lt.2 hlt]⟩
  · have hparts : OddParts u v oddU oddV :=
      ⟨hwfU, hwfV, heq.ge, hoddU', hoddV', hgcd, by omega, by omega, .inl ⟨hcapacityU, hcapacityV⟩⟩
    exact ⟨oddU, oddV, hparts, by rw [Nat.compare_eq_eq.2 heq]⟩
  · have hparts : OddParts u v oddU oddV :=
      ⟨hwfU, hwfV, hgt.le, hoddU', hoddV', hgcd, by omega, by omega, .inl ⟨hcapacityU, hcapacityV⟩⟩
    exact ⟨oddU, oddV, hparts, by rw [Nat.compare_eq_gt.2 hgt]⟩

/-- The rest of a round. It leaves a bit less to the rounds that follow, whatever they are, and half
of the sum of both numbers. -/
theorem OddParts.settles_halfDistance {α : Type} {u v greater less : Integer}
    (h : OddParts u v greater less) {next : Integer → Action α} {post : α → Prop}
    (hnext : ∀ half : Integer, half.WellFormed → half.capacity = greater.capacity →
      Nat.gcd half.magnitude less.magnitude = Nat.gcd u.magnitude v.magnitude →
      2 * (half.magnitude + less.magnitude) = greater.magnitude + less.magnitude →
      half.bits < greater.bits → (next half).Settles post) :
    (do
      let distance ← (subMagnitudes .dest (.value less)).applyTo greater
      next (← distance.shiftRight 1)).Settles post := by
  have hgreater := h.greater_wellFormed
  refine (hgreater.settles_subMagnitudes h.less_wellFormed h.le).applyTo.bind ?_
  intro distance hdistance
  obtain ⟨half, hhalf, hholds⟩ := hdistance.wellFormed.shiftRight 1
  have hvalue : half.magnitude = (greater.magnitude - less.magnitude) / 2 := by
    rw [hholds.magnitude_eq, hdistance.magnitude_eq, pow_one]
  refine Action.settles_checked hhalf (hnext half hholds.wellFormed ?_ ?_ ?_ ?_)
  · rw [hholds.capacity_eq, hdistance.capacity_eq]
  · rw [hvalue, gcd_half_distance h.le h.greater_odd h.less_odd, h.gcd_eq]
  · have hle := h.le
    have hgreaterOdd := h.greater_odd
    have hlessOdd := h.less_odd
    omega
  · have hpos : greater.magnitude ≠ 0 := by
      have := h.greater_odd
      omega
    have hbits : half.bits ≤ greater.bits - 1 := by
      rw [hholds.wellFormed.bits_eq, hvalue, hgreater.bits_eq, ← bitLength_div_two_pow, pow_one]
      exact bitLength_mono (Nat.div_le_div_right (Nat.sub_le _ _))
    have : greater.bits ≠ 0 := fun h => hpos (hgreater.bits_eq_zero.1 h)
    omega

/-- The induction is on the limit; the bits of both numbers together stay within it. A round halves
their sum, so that a sum of `left` bits is left `left` rounds to count at most. -/
theorem settles_gcdRounds {limit rounds left : Nat} {u v : Integer} (hu : u.WellFormed)
    (hv : v.WellFormed) (hv0 : v.magnitude ≠ 0)
    (hodd : Nat.gcd u.magnitude v.magnitude % 2 = 1) (hlimit : u.bits + v.bits ≤ limit)
    (hsum : u.magnitude + v.magnitude < 2 ^ left) (hcount : rounds + left ≤ UInt64.size) :
    (gcdRounds limit u v rounds).Settles fun result =>
      CommonDivisor u v result.1 ∧ RoundsWithin u v rounds result.2 := by
  have hvbits : v.bits ≠ 0 := fun h => hv0 (hv.bits_eq_zero.1 h)
  induction limit generalizing u v rounds left with
  | zero => omega
  | succ limit ih =>
    by_cases hu0 : u.magnitude = 0
    · rw [gcdRounds, hu.isZero_eq, if_pos (by simp [hu0])]
      refine Action.settles_pure ⟨⟨hv, ?_, .inr rfl⟩, le_rfl, absurd hu0, by omega⟩
      rw [hu0, Nat.gcd_zero_left]
    · obtain ⟨greater, less, hparts, hround⟩ := gcdRounds_succ limit rounds hu hv hu0 hv0 hodd
      have hless := hparts.less_wellFormed
      have hless0 : less.magnitude ≠ 0 := by
        have := hparts.less_odd
        omega
      have hlessBits : less.bits ≠ 0 := fun h => hless0 (hless.bits_eq_zero.1 h)
      have hbits := hparts.bits_le
      have hsums := hparts.sum_le
      -- two numbers that are not zero leave more than one bit to their sum
      obtain ⟨rest, rfl⟩ : ∃ rest, left = rest + 2 := by
        refine ⟨left - 2, ?_⟩
        by_contra hfew
        have := Nat.pow_le_pow_right (show 0 < 2 by decide) (show left ≤ 1 by omega)
        omega
      rw [hround]
      refine hparts.settles_halfDistance fun half hhalf hcapacity hgcd hhalved hshorter => ?_
      have hrest : half.magnitude + less.magnitude < 2 ^ (rest + 1) := by
        rw [pow_succ] at hsum
        omega
      refine Action.settles_checked (if_pos (by omega)) ?_
      apply (ih hhalf hless hless0 (by rw [hgcd]; exact hodd) (by omega) hrest (by omega)
        hlessBits).mono
      intro result ⟨h, hwithin⟩
      refine ⟨⟨h.wellFormed, h.magnitude_eq.trans hgcd, ?_⟩, ?_⟩
      · have hbuffers := hparts.capacity_eq
        have hresult := h.capacity_eq
        omega
      · have hcounted := hwithin.le
        have hfewer := hwithin.lt_bits
        exact ⟨by omega, fun _ => hcounted, by omega⟩

/-! ## The common power of two -/

/-- Two numbers without the power of two that they have in common, in buffers as long as before. -/
structure Reduced (u v u' v' : Integer) (shift : Nat) : Prop where
  left : u'.WellFormed
  right : v'.WellFormed
  left_eq : u.magnitude = 2 ^ shift * u'.magnitude
  right_eq : v.magnitude = 2 ^ shift * v'.magnitude
  left_capacity : u'.capacity = u.capacity
  right_capacity : v'.capacity = v.capacity
  odd : Nat.gcd u'.magnitude v'.magnitude % 2 = 1

namespace Reduced

variable {u v u' v' : Integer} {shift : Nat} (h : Reduced u v u' v' shift)

include h

theorem left_ne_zero (hu0 : u.magnitude ≠ 0) : u'.magnitude ≠ 0 := by
  intro hzero
  rw [h.left_eq, hzero, Nat.mul_zero] at hu0
  exact hu0 rfl

theorem right_ne_zero (hv0 : v.magnitude ≠ 0) : v'.magnitude ≠ 0 := by
  intro hzero
  rw [h.right_eq, hzero, Nat.mul_zero] at hv0
  exact hv0 rfl

theorem gcd_eq : Nat.gcd u.magnitude v.magnitude =
    2 ^ shift * Nat.gcd u'.magnitude v'.magnitude := by
  rw [h.left_eq, h.right_eq, Nat.gcd_mul_left]

end Reduced

/-- The rounds run on what is left of the two numbers without their common power of two. That is the
lower of their two lowest bits. -/
theorem exists_reduced {u v : Integer} (hu : u.WellFormed) (hv : v.WellFormed)
    (hu0 : u.magnitude ≠ 0) (hv0 : v.magnitude ≠ 0) :
    ∃ i j u' v', u.lowestBit? = .ok (some i) ∧ v.lowestBit? = .ok (some j) ∧
      Reduced u v u' v' (min i j) ∧
      gcd u v = (do
        let (odd, rounds) ← gcdRounds (u'.bits + v'.bits) u' v' 0
        Action.record (.commonDivisor rounds (min i j))
        let divisor ← (shiftLeft (min i j)).applyTo odd
        pure divisor.unsigned) := by
  have hrequired : (!u.isZero && !v.isZero) = true := by
    rw [hu.isZero_eq, hv.isZero_eq]
    simp [hu0, hv0]
  have hunsignedU := hu.unsigned
  have hunsignedV := hv.unsigned
  obtain ⟨i, oddU, hlowestU, hueq, hoddU⟩ :=
    hunsignedU.wellFormed.lowestBit? (by rwa [hunsignedU.magnitude_eq])
  obtain ⟨j, oddV, hlowestV, hveq, hoddV⟩ :=
    hunsignedV.wellFormed.lowestBit? (by rwa [hunsignedV.magnitude_eq])
  rw [hunsignedU.magnitude_eq] at hueq
  rw [hunsignedV.magnitude_eq] at hveq
  obtain ⟨u', hu', hholdsU⟩ := hunsignedU.wellFormed.shiftRight (min i j)
  obtain ⟨v', hv', hholdsV⟩ := hunsignedV.wellFormed.shiftRight (min i j)
  rw [hunsignedU.magnitude_eq, hueq, two_pow_mul_div (min_le_left i j)] at hholdsU
  rw [hunsignedV.magnitude_eq, hveq, two_pow_mul_div (min_le_right i j)] at hholdsV
  refine ⟨i, j, u', v', hlowestU, hlowestV, ?_, ?_⟩
  · refine ⟨hholdsU.wellFormed, hholdsV.wellFormed, ?_, ?_,
      hholdsU.capacity_eq.trans hunsignedU.capacity_eq,
      hholdsV.capacity_eq.trans hunsignedV.capacity_eq, ?_⟩
    · rw [hholdsU.magnitude_eq, hueq, ← Nat.mul_assoc, ← pow_add,
        Nat.add_sub_cancel' (min_le_left i j)]
    · rw [hholdsV.magnitude_eq, hveq, ← Nat.mul_assoc, ← pow_add,
        Nat.add_sub_cancel' (min_le_right i j)]
    · rw [hholdsU.magnitude_eq, hholdsV.magnitude_eq]
      exact gcd_odd_of_min hoddU hoddV
  · unfold gcd
    rw [Action.checked_bind (require_of _ hrequired), Action.checked_bind hlowestU,
      Action.checked_bind hlowestV]
    dsimp only [Option.getD_some]
    rw [Action.checked_bind hu', Action.checked_bind hv']

/-- The rounds on what is left of the two numbers settle: the machine counts the bits of each of
them, and their sum has one bit more at most. -/
theorem Reduced.settles_gcdRounds {u v u' v' : Integer} {shift : Nat} (h : Reduced u v u' v' shift)
    (hv0 : v.magnitude ≠ 0) : (gcdRounds (u'.bits + v'.bits) u' v' 0).Settles fun result =>
      CommonDivisor u' v' result.1 ∧ RoundsWithin u' v' 0 result.2 := by
  have hleft := h.left.bits_lt
  have hright := h.right.bits_lt
  exact Integer.settles_gcdRounds h.left h.right (h.right_ne_zero hv0) h.odd le_rfl
    (h.left.magnitude_add_lt h.right) (by omega)

/-- The power of two fits into the buffer, whichever it is, for the result divides both numbers. -/
theorem CommonDivisor.settles_shiftLeft {u v u' v' d : Integer} {shift : Nat}
    (h : CommonDivisor u' v' d) (hu : u.WellFormed) (hv : v.WellFormed) (hu0 : u.magnitude ≠ 0)
    (hv0 : v.magnitude ≠ 0) (hreduced : Reduced u v u' v' shift) :
    ((shiftLeft shift).applyTo d).Settles (CommonDivisor u v) := by
  have hvalue : d.magnitude * 2 ^ shift = Nat.gcd u.magnitude v.magnitude := by
    rw [h.magnitude_eq, hreduced.gcd_eq, Nat.mul_comm]
  have hd0 : d.magnitude ≠ 0 := by
    intro hzero
    rw [hzero, Nat.zero_mul] at hvalue
    exact hu0 (Nat.eq_zero_of_gcd_eq_zero_left hvalue.symm)
  have hbits : d.bits + shift = bitLength (Nat.gcd u.magnitude v.magnitude) := by
    rw [← hvalue, bitLength_mul_two_pow hd0, h.wellFormed.bits_eq]
  have hubits : d.bits + shift ≤ u.bits := by
    rw [hbits, hu.bits_eq]
    exact bitLength_mono (Nat.gcd_le_left _ (Nat.pos_of_ne_zero hu0))
  have hvbits : d.bits + shift ≤ v.bits := by
    rw [hbits, hv.bits_eq]
    exact bitLength_mono (Nat.gcd_le_right _ (Nat.pos_of_ne_zero hv0))
  have hlt := hu.bits_lt
  have hroom : wordsFor (d.bits + shift) ≤ d.capacity := by
    rw [wordsFor_le]
    rcases h.capacity_eq with hcapacity | hcapacity
    · rw [hcapacity, hreduced.left_capacity]
      exact hubits.trans (wordsFor_le.1 hu.size_le)
    · rw [hcapacity, hreduced.right_capacity]
      exact hvbits.trans (wordsFor_le.1 hv.size_le)
  apply (h.wellFormed.settles_shiftLeft (by omega) hroom).applyTo.mono
  intro d' hd'
  refine ⟨hd'.wellFormed, hd'.magnitude_eq.trans hvalue, ?_⟩
  rw [hd'.capacity_eq, ← hreduced.left_capacity, ← hreduced.right_capacity]
  exact h.capacity_eq

/-- The greatest common divisor of two numbers that are not zero asks for no room at all. -/
theorem settles_gcd {u v : Integer} (hu : u.WellFormed) (hv : v.WellFormed)
    (hu0 : u.magnitude ≠ 0) (hv0 : v.magnitude ≠ 0) :
    (gcd u v).Settles fun d => CommonDivisor u v d ∧ d.negative = false := by
  obtain ⟨i, j, u', v', -, -, hreduced, hgcd⟩ := exists_reduced hu hv hu0 hv0
  rw [hgcd]
  refine (hreduced.settles_gcdRounds hv0).bind fun result hresult => ?_
  have hrecord : (Action.record (.commonDivisor result.2 (min i j))).Settles fun _ => True :=
    Action.settles_record trivial
  refine hrecord.bind ?_
  intro _ _
  have hrestored := hresult.1.settles_shiftLeft hu hv hu0 hv0 hreduced
  refine hrestored.bind fun d hd => Action.settles_pure ⟨?_, rfl⟩
  have hunsigned := hd.wellFormed.unsigned
  refine ⟨hunsigned.wellFormed, hunsigned.magnitude_eq.trans hd.magnitude_eq, ?_⟩
  rw [hunsigned.capacity_eq]
  exact hd.capacity_eq

/-! ## Any operands -/

/-- The greatest common divisor of two magnitudes, but zero if one of them is zero. -/
def divisorOf (m n : Nat) : Nat := if m = 0 ∨ n = 0 then 0 else Nat.gcd m n

theorem divisorOf_self (m : Nat) : divisorOf m m = m := by
  unfold divisorOf
  split
  · omega
  · exact Nat.gcd_self m

/-- How often the greatest common divisor of two magnitudes asks for room at most: once for a copy of
each, and only once if they are the same. -/
def divisorGrowths (m n : Nat) : Nat := if m = n then 1 else 2

theorem divisorGrowths_le (m n : Nat) : divisorGrowths m n ≤ 2 := by
  unfold divisorGrowths
  split <;> decide

/-- A divisor that has to be searched for is found on copies, and the destination is replaced as a
whole. -/
theorem attempts_gcd_copies {x u v : Integer} (hu : u.WellFormed) (hv : v.WellFormed)
    (hu0 : u.magnitude ≠ 0) (hv0 : v.magnitude ≠ 0) {fails : Failure → Prop} :
    (do
      let u ← u.copy
      let v ← v.copy
      ActionOn.replace (← gcd u v) : Update Unit).Attempts x 2 (max u.bits v.bits) fails fun _ y =>
        y.Reaches 0 (Nat.gcd u.magnitude v.magnitude) false := by
  show ActionOn.Attempts _ x (1 + (1 + 0)) _ fails _
  refine (ActionOn.attempts_action (hu.copy.within (le_max_left _ _))).bind ?_
  intro left hleft
  refine (ActionOn.attempts_action (hv.copy.within (le_max_right _ _))).bind ?_
  intro right hright
  have hdivisor := settles_gcd hleft.wellFormed hright.wellFormed (by rwa [hleft.magnitude_eq])
    (by rwa [hright.magnitude_eq])
  refine (ActionOn.attempts_action hdivisor.attempts).bind_settles fun d y hd =>
    ActionOn.settles_replace ⟨hd.2.1.wellFormed, Nat.zero_le _, ?_, hd.2.2⟩
  rw [hd.2.1.magnitude_eq, hleft.magnitude_eq, hright.magnitude_eq]

/-- The destination is written only after its copy, and that of the other operand, were made. -/
theorem attempts_gcdMagnitudes {x : Integer} {a b : Operand} (hx : x.WellFormed)
    (ha : (a.resolve x).WellFormed) (hb : (b.resolve x).WellFormed) {fails : Failure → Prop} :
    (gcdMagnitudes a b).Attempts x
      (divisorGrowths (a.resolve x).magnitude (b.resolve x).magnitude)
      (max (a.resolve x).bits (b.resolve x).bits) fails fun _ y =>
      y.Reaches 0 (divisorOf (a.resolve x).magnitude (b.resolve x).magnitude) false := by
  unfold gcdMagnitudes
  refine ActionOn.attempts_current (ActionOn.attempts_checked (ha.sameMagnitude_eq hb) ?_)
  split
  · next hsame =>
    have hmagnitude : (a.resolve x).magnitude = (b.resolve x).magnitude := by simpa using hsame
    rw [← hmagnitude, divisorOf_self, divisorGrowths, if_pos rfl]
    have hkept : x.Holds x.capacity x.magnitude x.negative := hx.holds
    cases a with
    | dest =>
      exact (settles_unsigned hkept).attempts.imp fun _ y hy =>
        hy.reaches (Nat.zero_le _)
    | value a =>
      cases b with
      | dest =>
        rw [hmagnitude]
        exact (settles_unsigned hkept).attempts.imp fun _ y hy =>
          hy.reaches (Nat.zero_le _)
      | value b =>
        refine (((hx.copyFrom ha).within (le_max_left _ _)).bind_settles
          fun _ _ hy => settles_unsigned hy).imp fun _ y hy => hy.reaches (Nat.zero_le _)
  split
  · next hzero =>
    have hor : (a.resolve x).magnitude = 0 ∨ (b.resolve x).magnitude = 0 := by
      rw [ha.isZero_eq, hb.isZero_eq] at hzero
      simpa using hzero
    obtain ⟨y, hy, hholds⟩ := hx.cleared
    refine ActionOn.attempts_checked hy (ActionOn.settles_replace ?_).attempts
    rw [divisorOf, if_pos hor]
    exact hholds.reaches (Nat.zero_le _)
  · next hdifferent hnonzero =>
    have hneither : ¬((a.resolve x).magnitude = 0 ∨ (b.resolve x).magnitude = 0) := by
      rw [ha.isZero_eq, hb.isZero_eq] at hnonzero
      simpa using hnonzero
    rw [divisorGrowths, if_neg (by simpa using hdifferent), divisorOf, if_neg hneither]
    exact attempts_gcd_copies ha hb (fun h => hneither (.inl h)) fun h => hneither (.inr h)

end Integer

end Multiword
