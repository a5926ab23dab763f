import Multiword.Integer.Sum
import Multiword.Proofs.Integer.Shift
import Multiword.Proofs.Words.Carry
import Multiword.Proofs.Words.Product

/-!
# Sums and differences are exact

First the loops over words, in a destination that has room; then the operations that ask for room
and write after that. The sum has one bit more than the larger operand at most, so no carry is left
over; the difference takes the smaller magnitude from the larger one, so no borrow is.
-/

set_option autoImplicit false

namespace Multiword

namespace Integer

open ActionOn (current replace settles_replace settles_current settles_checked attempts_current
  attempts_checked
  attempts_unsigned64)

namespace WellFormed

variable {x other : Integer} (hx : x.WellFormed) (hother : other.WellFormed)

include hx

/-! ## Words -/

include hother in
/-- The sum of two magnitudes has at most one bit more than the longer of them. -/
theorem magnitude_add_lt : x.magnitude + other.magnitude < 2 ^ (max x.bits other.bits + 1) := by
  have hleft : x.magnitude < 2 ^ max x.bits other.bits :=
    lt_of_lt_of_le hx.magnitude_lt (Nat.pow_le_pow_right (by decide) (le_max_left _ _))
  have hright : other.magnitude < 2 ^ max x.bits other.bits :=
    lt_of_lt_of_le hother.magnitude_lt (Nat.pow_le_pow_right (by decide) (le_max_right _ _))
  rw [pow_succ]
  omega

include hother in
theorem settles_addWords (hlt : max x.bits other.bits + 1 < UInt64.size)
    (hroom : wordsFor (max x.bits other.bits + 1) ≤ x.capacity) :
    (addWords other).Settles x fun _ y =>
      y.Holds x.capacity (x.magnitude + other.magnitude) false := by
  -- the words that are added are all that the sum can reach
  set top := min (max x.size other.size + 1) x.capacity with htop
  have hroomtop : wordsFor (max x.bits other.bits + 1) ≤ top := by
    refine le_min ?_ hroom
    unfold size wordsFor
    omega
  have htople : top ≤ x.capacity := min_le_right _ _
  rw [wordsFor_le] at hroomtop
  have hsize : x.size ≤ top := wordsFor_le.2 (by omega)
  have hothersize : other.size ≤ top := wordsFor_le.2 (by omega)
  have hbound := hx.magnitude_add_lt hother
  have hfits : x.magnitude + other.magnitude < radix ^ top := by
    rw [Words.radix_pow]
    exact lt_of_lt_of_le hbound (Nat.pow_le_pow_right (by decide) hroomtop)
  have hlength : (x.buffer.take top).length = top := by
    rw [List.length_take]
    exact min_eq_left htople
  obtain ⟨sum, hsum, hsumLength, hvalue⟩ :=
    Words.addInto_of_lt (a := x.buffer.take top) (b := other.buffer.take other.size)
      (by rw [hlength, hother.length_words]; exact hothersize)
      (by rw [hlength, hx.toNat_take hsize, hother.toNat_words]; exact hfits)
  rw [hx.toNat_take hsize, hother.toNat_words] at hvalue
  obtain ⟨y, hy, hholds⟩ := hx.normalized_front hsize htople
    (hsumLength.trans hlength) hvalue (lt_of_le_of_lt (bitLength_le.2 hbound) hlt)
  have hfront := Words.onLow_eq (f := (Words.addInto · (other.buffer.take other.size)))
    htople hsum
  have hcount : max x.size other.size + 1 < UInt64.size := by
    have hwords := hx.size_lt
    have hotherwords := hother.size_lt
    show _ < 2 ^ 64
    omega
  unfold addWords
  have hunsigned := hholds.wellFormed.unsigned
  rw [hholds.capacity_eq, hholds.magnitude_eq] at hunsigned
  exact settles_current (settles_checked (if_pos hcount) (settles_checked hother.words_eq
    (settles_checked hfront (settles_checked (require_of _ rfl) (settles_checked hy
      (settles_replace hunsigned))))))

/-- The result has no more bits than the destination had, so there is room for it. -/
theorem settles_subWords {less : Integer} (hless : less.WellFormed)
    (hle : less.magnitude ≤ x.magnitude) :
    (subWords less).Settles x fun _ y =>
      y.Holds x.capacity (x.magnitude - less.magnitude)
        (x.negative && decide (x.magnitude - less.magnitude ≠ 0)) := by
  have hsize := hx.size_le
  have hlengths : (less.buffer.take less.size).length ≤ (x.buffer.take x.size).length := by
    rw [hx.length_words, hless.length_words]
    exact hless.size_mono hx hle
  have hvalues : Words.toNat (less.buffer.take less.size) ≤ Words.toNat (x.buffer.take x.size) := by
    rw [hx.toNat_words, hless.toNat_words]
    exact hle
  obtain ⟨difference, hdifference, hlength, hvalue⟩ := Words.subInto_of_le hlengths hvalues
  rw [hx.toNat_words, hless.toNat_words] at hvalue
  rw [hx.length_words] at hlength
  obtain ⟨y, hy, hholds⟩ := hx.normalized_front le_rfl hsize hlength hvalue
    (hx.bitLength_lt (Nat.sub_le _ _))
  have hfront := Words.onLow_eq (f := (Words.subInto · (less.buffer.take less.size))) hsize hdifference
  unfold subWords
  exact settles_current (settles_checked hless.words_eq (settles_checked hfront
    (settles_checked (require_of _ rfl) (settles_checked hy (settles_replace hholds)))))

/-- Here the words of the destination are those that are taken away. -/
theorem settles_subWordsFrom {greater : Integer} (hgreater : greater.WellFormed)
    (hle : x.magnitude ≤ greater.magnitude) (hroom : greater.size ≤ x.capacity) :
    (subWordsFrom greater).Settles x fun _ y =>
      y.Holds x.capacity (greater.magnitude - x.magnitude)
        (x.negative && decide (greater.magnitude - x.magnitude ≠ 0)) := by
  have hsize := hx.size_mono hgreater hle
  have hlength : (x.buffer.take greater.size).length = greater.size := by
    rw [List.length_take]
    exact min_eq_left hroom
  -- both lists end at the same word, so there is nothing above that has to be zero
  have hrest : (x.buffer.take greater.size).drop (greater.buffer.take greater.size).length = [] := by
    rw [hgreater.length_words]
    exact List.drop_eq_nil_of_le hlength.le
  obtain ⟨difference, hdifference, hsame, hvalue⟩ :=
    Words.subFrom_of_le (a := greater.buffer.take greater.size) (b := x.buffer.take greater.size)
      (by rw [hgreater.length_words, hlength]) (by rw [hrest]; simp)
      (by rw [hx.toNat_take hsize, hgreater.toNat_words]; exact hle)
  rw [hrest, List.append_nil] at hdifference
  rw [hx.toNat_take hsize, hgreater.toNat_words] at hvalue
  rw [hgreater.length_words] at hsame
  obtain ⟨y, hy, hholds⟩ := hx.normalized_front hsize hroom hsame hvalue
    (hgreater.bitLength_lt (Nat.sub_le _ _))
  have hfront := Words.onLow_eq (f := Words.subFrom (greater.buffer.take greater.size)) hroom
    hdifference
  unfold subWordsFrom
  exact (settles_room hroom).2 (settles_current (settles_checked hgreater.words_eq
    (settles_checked hfront (settles_checked (require_of _ rfl) (settles_checked hy
      (settles_replace hholds))))))

theorem subWordsFrom {greater : Integer} (hgreater : greater.WellFormed)
    (hle : x.magnitude ≤ greater.magnitude) {fails : Failure → Prop} :
    (Integer.subWordsFrom greater).Attempts x 1 greater.bits fails fun _ y =>
      y.Holds (roomFor x.capacity greater.bits) (greater.magnitude - x.magnitude)
        (x.negative && decide (greater.magnitude - x.magnitude ≠ 0)) := by
  apply hx.attempts_of_settles
  intro y hy
  have h := hy.wellFormed.settles_subWordsFrom hgreater (by rwa [hy.magnitude_eq]) hy.room
  rwa [hy.capacity_eq, hy.magnitude_eq, hy.negative_eq] at h

/-! ## Doubling -/

theorem settles_doubleMagnitude (hlt : x.bits + 1 < UInt64.size)
    (hroom : wordsFor (x.bits + 1) ≤ x.capacity) :
    doubleMagnitude.Settles x fun _ y => y.Holds x.capacity (2 * x.magnitude) false := by
  rw [Nat.mul_comm]
  exact (hx.settles_shiftLeft hlt hroom).bind fun _ _ hy => settles_unsigned hy

theorem doubleMagnitude :
    Integer.doubleMagnitude.Attempts x 1 (x.bits + 1)
      (fun failure => failure = .error .growthRefused ∧ UInt64.size ≤ x.bits + 1) fun _ y =>
      y.Reaches x.capacity (2 * x.magnitude) false := by
  refine ((hx.shiftLeft 1).bind_settles fun _ _ hy => settles_unsigned hy).imp fun _ y hy => ?_
  rw [Nat.mul_comm]
  refine hy.reaches ?_
  split
  · exact le_rfl
  · exact le_roomFor _ _

/-! ## Sums of magnitudes -/

include hother in
theorem addOnto :
    (Integer.addOnto other).Attempts x 1 (max x.bits other.bits + 1)
      (TooManyBits (max x.bits other.bits + 1)) fun _ y =>
      y.Reaches x.capacity (x.magnitude + other.magnitude) false := by
  unfold Integer.addOnto
  refine attempts_current ?_
  rw [hother.isZero_eq, hx.isZero_eq]
  split
  · next hzero =>
    have hmagnitude : other.magnitude = 0 := by simpa using hzero
    refine (settles_replace ?_).attempts
    rw [hmagnitude, add_zero]
    exact hx.unsigned.reaches le_rfl
  split
  · next hzero =>
    have hmagnitude : x.magnitude = 0 := by simpa using hzero
    apply ((hx.copyMagnitude hother).within (by omega)).imp
    intro _ y hy
    rw [hmagnitude, zero_add]
    exact hy.reaches (le_roomFor _ _)
  refine attempts_checked (hx.sameMagnitude_eq hother) ?_
  split
  · next hsame =>
    have hmagnitude : x.magnitude = other.magnitude := by simpa using hsame
    have hbits : x.bits = other.bits := by rw [hx.bits_eq, hother.bits_eq, hmagnitude]
    refine hx.doubleMagnitude.mono le_rfl (by omega) (fun failure h => ⟨.inl h.1, ?_⟩)
      fun _ y hy => ?_
    · rw [← hbits, max_self]
      exact h.2
    · rwa [← hmagnitude, ← two_mul]
  · refine attempts_unsigned64 (fun hlt => ?_) fun hle => ⟨.inr rfl, hle⟩
    apply (hx.ensureCapacity _).bind_settles
    intro _ y hy
    have hbits : y.bits = x.bits := hy.bits_eq.trans hx.bits_eq.symm
    have hroom : wordsFor (max y.bits other.bits + 1) ≤ y.capacity := by
      rw [hbits]
      exact hy.room
    apply (hy.wellFormed.settles_addWords hother (by rwa [hbits]) hroom).mono
    intro _ z hz
    rw [hy.capacity_eq, hy.magnitude_eq] at hz
    exact hz.reaches (le_roomFor _ _)

/-- Room for the sum is asked for at the start, so that the copy and what follows it settle. -/
theorem addBoth {a b : Integer} (ha : a.WellFormed) (hb : b.WellFormed) :
    (Integer.addBoth a b).Attempts x 1 (max a.bits b.bits + 1)
      (TooManyBits (max a.bits b.bits + 1)) fun _ y =>
      y.Reaches x.capacity (a.magnitude + b.magnitude) false := by
  unfold Integer.addBoth
  rw [ha.isZero_eq, hb.isZero_eq]
  split
  · next hzero =>
    have hmagnitude : a.magnitude = 0 := by simpa using hzero
    apply ((hx.copyMagnitude hb).within (by omega)).imp
    intro _ y hy
    rw [hmagnitude, zero_add]
    exact hy.reaches (le_roomFor _ _)
  split
  · next hzero =>
    have hmagnitude : b.magnitude = 0 := by simpa using hzero
    apply ((hx.copyMagnitude ha).within (by omega)).imp
    intro _ y hy
    rw [hmagnitude, add_zero]
    exact hy.reaches (le_roomFor _ _)
  refine attempts_unsigned64 (fun hlt => ?_) fun hle => ⟨.inr rfl, hle⟩
  apply (hx.ensureCapacity _).bind_settles
  intro _ y hy
  -- from here on there is room for whatever is asked
  have hroom : wordsFor (max a.bits b.bits + 1) ≤ y.capacity := hy.room
  have hcapacity : x.capacity ≤ y.capacity := by
    rw [hy.capacity_eq]
    exact le_roomFor _ _
  rw [wordsFor_le] at hroom
  have hasize : a.size ≤ y.capacity := wordsFor_le.2 (by omega)
  apply (hy.wellFormed.settles_copyMagnitude ha hasize).bind
  intro _ z hz
  have hbits : z.bits = a.bits := hz.bits_eq.trans ha.bits_eq.symm
  refine settles_checked (ha.sameMagnitude_eq hb) ?_
  split
  · next hsame =>
    have hmagnitude : a.magnitude = b.magnitude := by simpa using hsame
    have hdouble : wordsFor (z.bits + 1) ≤ z.capacity := by
      rw [hz.capacity_eq, wordsFor_le]
      omega
    apply (hz.wellFormed.settles_doubleMagnitude (by omega) hdouble).mono
    intro _ w hw
    rw [hz.capacity_eq, hz.magnitude_eq, two_mul] at hw
    rw [← hmagnitude]
    exact hw.reaches hcapacity
  · have hsum : wordsFor (max z.bits b.bits + 1) ≤ z.capacity := by
      rw [hz.capacity_eq, hbits, wordsFor_le]
      exact hroom
    apply (hz.wellFormed.settles_addWords hb (by rwa [hbits]) hsum).mono
    intro _ w hw
    rw [hz.capacity_eq, hz.magnitude_eq] at hw
    exact hw.reaches hcapacity

end WellFormed

/-- The sum of the magnitudes of two operands, each of them an integer or the destination. -/
theorem attempts_addMagnitudes {x : Integer} {a b : Operand} (hx : x.WellFormed)
    (ha : (a.resolve x).WellFormed) (hb : (b.resolve x).WellFormed) :
    (addMagnitudes a b).Attempts x 1 (max (a.resolve x).bits (b.resolve x).bits + 1)
      (TooManyBits (max (a.resolve x).bits (b.resolve x).bits + 1)) fun _ y =>
      y.Reaches x.capacity ((a.resolve x).magnitude + (b.resolve x).magnitude) false := by
  cases a with
  | dest =>
    cases b with
    | dest =>
      show doubleMagnitude.Attempts _ _ _ _ _
      have hbits : x.bits + 1 ≤ max x.bits x.bits + 1 := Nat.succ_le_succ (le_max_left _ _)
      refine hx.doubleMagnitude.mono le_rfl hbits (fun failure h => ⟨.inl h.1, h.2.trans hbits⟩)
        fun _ y hy => ?_
      show y.Reaches _ (x.magnitude + x.magnitude) _
      rwa [← two_mul]
    | value b => exact hx.addOnto hb
  | value a =>
    cases b with
    | dest =>
      show (addOnto a).Attempts _ _ (max a.bits x.bits + 1)
        (TooManyBits (max a.bits x.bits + 1)) fun _ y =>
        y.Reaches x.capacity (a.magnitude + x.magnitude) false
      rw [max_comm, Nat.add_comm a.magnitude]
      exact hx.addOnto ha
    | value b => exact hx.addBoth ha hb

/-! ## Differences of magnitudes -/

/-- What a difference leaves of the sign does not count, for the sign is dropped after it. -/
theorem attempts_subOrdered {x : Integer} {a b : Operand} (hx : x.WellFormed)
    (ha : (a.resolve x).WellFormed) (hb : (b.resolve x).WellFormed)
    (hlt : (b.resolve x).magnitude < (a.resolve x).magnitude) {fails : Failure → Prop} :
    (subOrdered a b >>= fun _ => current >>= fun y => replace y.unsigned).Attempts x 1
      (a.resolve x).bits fails fun _ y =>
        y.Reaches x.capacity ((a.resolve x).magnitude - (b.resolve x).magnitude) false := by
  cases a with
  | dest =>
    cases b with
    | dest => exact absurd hlt (Nat.lt_irrefl _)
    | value less =>
      refine ((hx.settles_subWords hb hlt.le).bind fun _ _ hy => settles_unsigned hy).attempts.imp
        fun _ y hy => hy.reaches le_rfl
  | value greater =>
    cases b with
    | dest =>
      refine ((hx.subWordsFrom ha hlt.le).bind_settles fun _ _ hy => settles_unsigned hy).imp
        fun _ y hy => hy.reaches (le_roomFor _ _)
    | value less =>
      have hcopied : (subOrdered (.value greater) (.value less)).Attempts x 1 greater.bits fails
          fun _ y => y.Holds (roomFor x.capacity greater.bits) (greater.magnitude - less.magnitude)
            (greater.negative && decide (greater.magnitude - less.magnitude ≠ 0)) := by
        apply (hx.copyFrom ha).bind_settles
        intro _ y hy
        have h := hy.wellFormed.settles_subWords hb (by rw [hy.magnitude_eq]; exact hlt.le)
        rwa [hy.capacity_eq, hy.magnitude_eq, hy.negative_eq] at h
      refine (hcopied.bind_settles fun _ _ hy => settles_unsigned hy).imp
        fun _ y hy => hy.reaches (le_roomFor _ _)

/-- The distance of the magnitudes of two operands, each of them an integer or the destination. -/
theorem attempts_subMagnitudes {x : Integer} {a b : Operand} (hx : x.WellFormed)
    (ha : (a.resolve x).WellFormed) (hb : (b.resolve x).WellFormed) {fails : Failure → Prop} :
    (subMagnitudes a b).Attempts x 1 (max (a.resolve x).bits (b.resolve x).bits) fails fun _ y =>
      y.Reaches x.capacity
        (((a.resolve x).magnitude : Int) - (b.resolve x).magnitude).natAbs false := by
  unfold subMagnitudes
  refine attempts_current (attempts_checked (ha.compareMagnitudes_eq hb) ?_)
  rcases lt_trichotomy (a.resolve x).magnitude (b.resolve x).magnitude with h | h | h
  · rw [Nat.compare_eq_lt.2 h]
    apply ((attempts_subOrdered hx hb ha h).within (le_max_right _ _)).imp
    intro _ y hy
    have : (b.resolve x).magnitude - (a.resolve x).magnitude =
      (((a.resolve x).magnitude : Int) - (b.resolve x).magnitude).natAbs := by omega
    rwa [← this]
  · rw [Nat.compare_eq_eq.2 h]
    obtain ⟨y, hy, hholds⟩ := hx.cleared
    refine attempts_checked hy (settles_replace ?_).attempts
    rw [h, sub_self]
    exact hholds.reaches le_rfl
  · rw [Nat.compare_eq_gt.2 h]
    apply ((attempts_subOrdered hx ha hb h).within (le_max_left _ _)).imp
    intro _ y hy
    have : (a.resolve x).magnitude - (b.resolve x).magnitude =
      (((a.resolve x).magnitude : Int) - (b.resolve x).magnitude).natAbs := by omega
    rwa [← this]

/-- A magnitude that is not larger can be taken away in place. -/
theorem WellFormed.settles_subMagnitudes {x less : Integer} (hx : x.WellFormed)
    (hless : less.WellFormed) (hle : less.magnitude ≤ x.magnitude) :
    (subMagnitudes .dest (.value less)).Settles x fun _ y =>
      y.Holds x.capacity (x.magnitude - less.magnitude) false := by
  unfold subMagnitudes
  refine settles_current (settles_checked (hx.compareMagnitudes_eq hless) ?_)
  rcases hle.eq_or_lt with h | h
  · rw [Operand.resolve_value, Nat.compare_eq_eq.2 h.symm]
    obtain ⟨y, hy, hholds⟩ := hx.cleared
    refine settles_checked hy (settles_replace ?_)
    rwa [h, Nat.sub_self]
  · rw [Operand.resolve_value, Nat.compare_eq_gt.2 h]
    exact (hx.settles_subWords hless hle).bind fun _ _ hy => settles_unsigned hy

/-- The sum and the distance of `|u|` and `|v|` are exact, whatever the destination was before and
whichever of the two it is. There is one request at most, and no reason to fail but that it is
refused, or that the sum has more bits than the machine counts. -/
theorem sum_and_distance_exact {x u v : Integer} {a b : Operand} (hx : x.WellFormed)
    (hu : u.WellFormed) (hv : v.WellFormed) (ha : a.resolve x = u) (hb : b.resolve x = v) :
    ((addMagnitudes a b).Attempts x 1 (max u.bits v.bits + 1)
      (TooManyBits (max u.bits v.bits + 1)) fun _ y =>
      y.Reaches x.capacity (u.toInt.natAbs + v.toInt.natAbs) false) ∧
    (subMagnitudes a b).Attempts x 1 (max u.bits v.bits) (fun _ => False) fun _ y =>
      y.Reaches x.capacity ((u.toInt.natAbs : Int) - v.toInt.natAbs).natAbs false := by
  subst ha hb
  simp only [natAbs_toInt]
  exact ⟨attempts_addMagnitudes hx hu hv, attempts_subMagnitudes hx hu hv⟩

theorem sum_and_distance_of_minus_seven_and_twelve :
    ∃ u v : Integer, u.WellFormed ∧ v.WellFormed ∧ u.toInt = -7 ∧ v.toInt = 12 ∧
      ((addMagnitudes .dest (.value v)).Attempts u 1 5 (TooManyBits 5) fun _ y =>
        y.Reaches 4 19 false) ∧
      ((addMagnitudes .dest .dest).Attempts u 1 4 (TooManyBits 4) fun _ y =>
        y.Reaches 4 14 false) ∧
      (subMagnitudes (.value v) .dest).Attempts u 1 4 (fun _ => False) fun _ y =>
        y.Reaches 4 5 false := by
  have hu : WellFormed ⟨[7, 0, 0, 0], 3, true⟩ :=
    wellFormed_of_bits (by decide) (by decide) (by decide) (by decide) (by decide)
  have hv : WellFormed ⟨[12, 0, 0, 0], 4, false⟩ :=
    wellFormed_of_bits (by decide) (by decide) (by decide) (by decide) (by decide)
  obtain ⟨hsum, -⟩ := sum_and_distance_exact (a := .dest) (b := .value _) hu hu hv rfl rfl
  obtain ⟨hdouble, -⟩ := sum_and_distance_exact (a := .dest) (b := .dest) hu hu hu rfl rfl
  obtain ⟨-, hdistance⟩ := sum_and_distance_exact (a := .value _) (b := .dest) hu hv hu rfl rfl
  exact ⟨_, _, hu, hv, rfl, rfl, hsum, hdouble, hdistance⟩

/-! ## Signed integers -/

/-- The sign that the right operand goes into a sum with. -/
theorem WellFormed.toInt_negated {x : Integer} (hx : x.WellFormed) (negated : Bool) :
    (if negated then -x.toInt else x.toInt) =
      if x.isNegative ^^ (negated && !x.isZero) then -(x.magnitude : Int) else x.magnitude := by
  rw [hx.isNegative_eq, hx.isZero_eq, toInt]
  by_cases hzero : x.magnitude = 0
  · simp [hzero]
  · cases negated <;> cases x.negative <;> simp [hzero]

/-- Integers of different signs add up to the distance of their magnitudes, with the sign of the
larger one. -/
theorem distance_eq (m n : Nat) (negative : Bool) :
    ((if negative then -(m : Int) else m) + if !negative then -(n : Int) else n) =
      if (match Ord.compare m n with
        | .gt => negative
        | .lt => !negative
        | .eq => false)
      then -(((m : Int) - n).natAbs : Int) else ((m : Int) - n).natAbs := by
  rcases lt_trichotomy m n with h | h | h
  · rw [Nat.compare_eq_lt.2 h, show ((m : Int) - n).natAbs = n - m by omega]
    cases negative <;> simp <;> omega
  · rw [Nat.compare_eq_eq.2 h, h, sub_self]
    cases negative <;> simp
  · rw [Nat.compare_eq_gt.2 h, show ((m : Int) - n).natAbs = m - n by omega]
    cases negative <;> simp <;> omega

/-- Signs and order are read before the destination is written. -/
theorem attempts_addWithSigns {x : Integer} {a b : Operand} (hx : x.WellFormed)
    (ha : (a.resolve x).WellFormed) (hb : (b.resolve x).WellFormed) (negateB : Bool) :
    (addWithSigns a b negateB).Attempts x 1 (max (a.resolve x).bits (b.resolve x).bits + 1)
      (TooManyBits (max (a.resolve x).bits (b.resolve x).bits + 1)) fun _ y =>
      y.Denotes x.capacity ((a.resolve x).toInt +
        if negateB then -(b.resolve x).toInt else (b.resolve x).toInt) := by
  have hright := hb.toInt_negated negateB
  have hleft : (a.resolve x).toInt = if (a.resolve x).isNegative
      then -((a.resolve x).magnitude : Int) else (a.resolve x).magnitude := by
    rw [ha.isNegative_eq, toInt]
  rw [hleft, hright]
  unfold addWithSigns
  refine attempts_current (attempts_checked (ha.compareMagnitudes_eq hb) ?_)
  set left := (a.resolve x).isNegative
  set right := (b.resolve x).isNegative ^^ (negateB && !(b.resolve x).isZero)
  split
  · next hsame =>
    apply (attempts_addMagnitudes hx ha hb).bind_settles
    intro _ y hy
    refine settles_current (settles_replace ?_)
    have hvalue := hy.withSign left
    have hsum : ((if left then -((a.resolve x).magnitude : Int) else (a.resolve x).magnitude) +
        if right then -((b.resolve x).magnitude : Int) else (b.resolve x).magnitude) =
        if left then -(((a.resolve x).magnitude + (b.resolve x).magnitude : Nat) : Int)
          else ((a.resolve x).magnitude + (b.resolve x).magnitude : Nat) := by
      rw [← hsame]
      split <;> push_cast <;> omega
    rwa [hsum]
  · next hdifferent =>
    apply ((attempts_subMagnitudes hx ha hb).within (Nat.le_succ _)).bind_settles
    intro _ y hy
    -- the distance takes the sign of the larger magnitude, which was read before
    have hopposite : right = !left := Bool.eq_not.2 (Ne.symm hdifferent)
    refine settles_current (settles_replace ?_)
    rw [hopposite, distance_eq]
    exact hy.withSign _

/-- The sum and the difference of two integers are exact, whatever the destination was before and
whichever of the two it is; a result of zero is not negative. There is one request at most, and no
reason to fail but that it is refused, or that the sum has more bits than the machine counts. -/
theorem signed_sum_and_difference_exact {x u v : Integer} {a b : Operand} (hx : x.WellFormed)
    (hu : u.WellFormed) (hv : v.WellFormed) (ha : a.resolve x = u) (hb : b.resolve x = v) :
    ((add a b).Attempts x 1 (max u.bits v.bits + 1) (TooManyBits (max u.bits v.bits + 1)) fun _ y =>
      y.Denotes x.capacity (u.toInt + v.toInt) ∧
        (u.toInt + v.toInt = 0 → y.negative = false)) ∧
    (sub a b).Attempts x 1 (max u.bits v.bits + 1) (TooManyBits (max u.bits v.bits + 1)) fun _ y =>
      y.Denotes x.capacity (u.toInt - v.toInt) ∧
        (u.toInt - v.toInt = 0 → y.negative = false) := by
  subst ha hb
  have hunsigned : ∀ {y : Integer} {value : Int}, y.Denotes x.capacity value →
      value = 0 → y.negative = false := by
    intro y value hy hzero
    exact hy.wellFormed.unsigned_of_toInt (hy.toInt_eq.trans hzero)
  have hsum := attempts_addWithSigns hx hu hv false
  have hdifference := attempts_addWithSigns hx hu hv true
  simp only [if_true, ← sub_eq_add_neg] at hdifference
  constructor
  · exact hsum.imp fun _ y hy => ⟨hy, hunsigned hy⟩
  · exact hdifference.imp fun _ y hy => ⟨hy, hunsigned hy⟩

theorem signed_sum_and_difference_of_minus_seven_and_twelve :
    ∃ u v : Integer, u.WellFormed ∧ v.WellFormed ∧ u.toInt = -7 ∧ v.toInt = 12 ∧
      ((add .dest (.value v)).Attempts u 1 5 (TooManyBits 5) fun _ y =>
        y.Denotes 4 5 ∧ ((5 : Int) = 0 → y.negative = false)) ∧
      ((sub (.value v) .dest).Attempts u 1 5 (TooManyBits 5) fun _ y =>
        y.Denotes 4 19 ∧ ((19 : Int) = 0 → y.negative = false)) ∧
      (sub .dest .dest).Attempts u 1 4 (TooManyBits 4) fun _ y =>
        y.Denotes 4 0 ∧ ((0 : Int) = 0 → y.negative = false) := by
  have hu : WellFormed ⟨[7, 0, 0, 0], 3, true⟩ :=
    wellFormed_of_bits (by decide) (by decide) (by decide) (by decide) (by decide)
  have hv : WellFormed ⟨[12, 0, 0, 0], 4, false⟩ :=
    wellFormed_of_bits (by decide) (by decide) (by decide) (by decide) (by decide)
  obtain ⟨hsum, -⟩ := signed_sum_and_difference_exact (a := .dest) (b := .value _) hu hu hv rfl rfl
  obtain ⟨-, hreversed⟩ :=
    signed_sum_and_difference_exact (a := .value _) (b := .dest) hu hv hu rfl rfl
  obtain ⟨-, hitself⟩ := signed_sum_and_difference_exact (a := .dest) (b := .dest) hu hu hu rfl rfl
  exact ⟨_, _, hu, hv, rfl, rfl, hsum, hreversed, hitself⟩

end Integer

end Multiword
