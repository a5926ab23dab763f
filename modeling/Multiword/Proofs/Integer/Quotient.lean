import Mathlib.Data.Nat.BitIndices
import Multiword.Integer.Quotient
import Multiword.Proofs.Integer.Sum

/-!
# Division is Euclidean

`LongDivision.Invariant` is what holds between two steps. One step keeps it and moves it down by one
place; all steps together bring it to the bottom, where the remainder is below the divisor of the
caller. Room for the quotient is asked for at the start, so no step needs any.
-/

set_option autoImplicit false

namespace Multiword

/-- Quotient and remainder of `a` by `b`, neither of them negative. -/
structure Division.Divides (d : Division) (a b : Nat) : Prop where
  quotient : d.quotient.Reaches 0 (a / b) false
  remainder : d.remainder.Reaches 0 (a % b) false

/-- The capacity of the buffer that the quotient of `a` by `b` comes in: a new one, for the bits that
were asked for. -/
def quotientRoom (a b : Integer) : Nat := roomFor 4 (a.bits + 1 - b.bits)

/-- The same for the remainder. Nothing is asked for where it is known to be zero. -/
def remainderRoom (a b : Integer) : Nat :=
  if b.bits = 1 ∨ a.magnitude = b.magnitude then 4 else roomFor 4 a.bits

/-- The buffers that quotient and remainder of `a` by `b` lie in. -/
structure Division.Rooms (d : Division) (a b : Integer) : Prop where
  quotient : d.quotient.capacity = quotientRoom a b
  remainder : d.remainder.capacity = remainderRoom a b

namespace LongDivision

open Integer (subMagnitudes setBit)

/-- What holds of a division of `a` by `b` all the time: nothing in it is negative, quotient and remainder
make up the dividend, and every subtraction has set a bit of its own. -/
structure Balanced (a b : Nat) (s : LongDivision) : Prop where
  quotient : s.quotient.WellFormed
  remainder : s.remainder.WellFormed
  divisor : s.divisor.WellFormed
  quotient_sign : s.quotient.negative = false
  remainder_sign : s.remainder.negative = false
  divisor_sign : s.divisor.negative = false
  sum_eq : s.quotient.magnitude * b + s.remainder.magnitude = a
  subtractions_eq : s.subtractions = s.quotient.magnitude.bitIndices.length

/-- The state of a division of `a` by `b` with `left` steps to go. -/
structure Invariant (a b left : Nat) (s : LongDivision) : Prop extends Balanced a b s where
  /-- The divisor stands where the next step needs it. -/
  divisor_eq : s.divisor.magnitude = b * 2 ^ left / 2
  remainder_lt : s.remainder.magnitude < b * 2 ^ left
  /-- The bits of the steps to come are not set yet, and there is room for them. -/
  dvd : 2 ^ left ∣ s.quotient.magnitude
  left_lt : left < UInt64.size
  room : wordsFor left ≤ s.quotient.capacity

/-- The state of a division of `a` by `b` at the head of the step for `bit`. -/
structure AtHead (a b bit : Nat) (s : LongDivision) : Prop extends Balanced a b s where
  divisor_eq : s.divisor.magnitude = b * 2 ^ bit
  remainder_lt : s.remainder.magnitude < 2 * s.divisor.magnitude
  dvd : 2 ^ (bit + 1) ∣ s.quotient.magnitude

/-- With one step more to go, the divisor is at the place of that step. -/
theorem Invariant.atHead {a b bit : Nat} {s : LongDivision} (h : s.Invariant a b (bit + 1)) :
    s.AtHead a b bit := by
  have hdivisor : s.divisor.magnitude = b * 2 ^ bit := by
    rw [h.divisor_eq, pow_succ, ← Nat.mul_assoc, Nat.mul_div_cancel _ (by decide)]
  refine ⟨h.toBalanced, hdivisor, ?_, h.dvd⟩
  rw [hdivisor, Nat.mul_left_comm, ← pow_succ']
  exact h.remainder_lt

/-- Quotient and remainder are in buffers of the same size as before. -/
def SameRoom (s t : LongDivision) : Prop :=
  t.quotient.capacity = s.quotient.capacity ∧ t.remainder.capacity = s.remainder.capacity

/-- A bit below all bits of a number adds its weight. -/
theorem or_two_pow {n bit : Nat} (h : 2 ^ (bit + 1) ∣ n) : n ||| 2 ^ bit = n + 2 ^ bit := by
  obtain ⟨k, rfl⟩ := h
  exact (Nat.two_pow_add_eq_or_of_lt (Nat.pow_lt_pow_right (by decide) (Nat.lt_succ_self bit)) k).symm

/-- It is one more among the bits that are set. -/
theorem length_bitIndices_add_two_pow {n bit : Nat} (h : 2 ^ (bit + 1) ∣ n) :
    (n + 2 ^ bit).bitIndices.length = n.bitIndices.length + 1 := by
  obtain ⟨k, rfl⟩ := h
  have hsum : 2 ^ (bit + 1) * k + 2 ^ bit = 2 ^ bit * (2 * k + 1) := by ring
  rw [hsum, Nat.bitIndices_two_pow_mul, Nat.bitIndices_two_mul_add_one,
    Nat.bitIndices_two_pow_mul, List.length_map, List.length_map, List.length_cons, List.length_map]

/-- No number has more bits that are set than bits. -/
theorem length_bitIndices_le (n : Nat) : n.bitIndices.length ≤ bitLength n := by
  have hbelow : n.bitIndices ⊆ List.range (bitLength n) := fun i hi =>
    List.mem_range.2 (lt_bitLength.2 (Nat.two_pow_le_of_mem_bitIndices hi))
  simpa using (List.subperm_of_subset Nat.bitIndices_sorted.nodup hbelow).length_le

/-- Moving the divisor down ends a step. -/
theorem Balanced.settles_moveDown {a b bit : Nat} {s : LongDivision} (h : s.Balanced a b)
    (hdivisor : s.divisor.magnitude = b * 2 ^ bit) (hlt : s.remainder.magnitude < b * 2 ^ bit)
    (hdvd : 2 ^ bit ∣ s.quotient.magnitude) (hleft : bit < UInt64.size)
    (hroom : wordsFor bit ≤ s.quotient.capacity) :
    (do
      let divisor ← s.divisor.shiftRight 1
      pure { s with divisor } : Action LongDivision).Settles fun t =>
        t.Invariant a b bit ∧ s.SameRoom t := by
  obtain ⟨divisor, hmoved, hholds⟩ := h.divisor.shiftRight 1
  have hbalanced : Balanced a b { s with divisor } :=
    { h with
      divisor := hholds.wellFormed
      divisor_sign := by rw [hholds.negative_eq, h.divisor_sign, Bool.false_and] }
  refine Action.settles_checked hmoved (Action.settles_pure ⟨?_, rfl, rfl⟩)
  refine ⟨hbalanced, ?_, hlt, hdvd, hleft, hroom⟩
  rw [hholds.magnitude_eq, hdivisor, pow_one]

/-- Where the divisor does not fit, it only moves. -/
theorem step_of_lt {s : LongDivision} (bit : Nat) (hremainder : s.remainder.WellFormed)
    (hdivisor : s.divisor.WellFormed) (h : s.remainder.magnitude < s.divisor.magnitude) :
    s.step bit = (do
      let divisor ← s.divisor.shiftRight 1
      pure { s with divisor }) := by
  unfold LongDivision.step
  rw [Action.checked_bind (hremainder.compareMagnitudes_eq hdivisor), Nat.compare_eq_lt.2 h]
  rfl

/-- Where it fits, it is subtracted before it moves. -/
theorem step_of_ge {s : LongDivision} (bit : Nat) (hremainder : s.remainder.WellFormed)
    (hdivisor : s.divisor.WellFormed) (h : s.divisor.magnitude ≤ s.remainder.magnitude) :
    s.step bit = (do
      let remainder ← (subMagnitudes .dest (.value s.divisor)).applyTo s.remainder
      let quotient ← (setBit bit).applyTo s.quotient
      let subtractions ← unsigned64 (s.subtractions + 1)
      let divisor ← s.divisor.shiftRight 1
      pure { quotient, remainder, divisor, subtractions }) := by
  unfold LongDivision.step
  rw [Action.checked_bind (hremainder.compareMagnitudes_eq hdivisor)]
  rcases h.eq_or_lt with heq | hgt
  · rw [Nat.compare_eq_eq.2 heq.symm]
    rfl
  · rw [Nat.compare_eq_gt.2 hgt]
    rfl

/-- A remainder below twice the divisor is below the divisor after one subtraction. -/
theorem Invariant.step {a b bit : Nat} {s : LongDivision} (h : s.Invariant a b (bit + 1)) :
    (s.step bit).Settles fun t => t.Invariant a b bit ∧ s.SameRoom t := by
  have hdivisor : s.divisor.magnitude = b * 2 ^ bit := h.atHead.divisor_eq
  have hbelow : s.remainder.magnitude < 2 * s.divisor.magnitude := h.atHead.remainder_lt
  have hlt : bit < UInt64.size := Nat.lt_of_succ_lt h.left_lt
  have hroom : wordsFor bit ≤ s.quotient.capacity :=
    wordsFor_le.2 (Nat.le_of_succ_le (wordsFor_le.1 h.room))
  have hdvd : 2 ^ bit ∣ s.quotient.magnitude := (pow_dvd_pow 2 (Nat.le_succ bit)).trans h.dvd
  rcases Nat.lt_or_ge s.remainder.magnitude s.divisor.magnitude with hless | hge
  · rw [step_of_lt bit h.remainder h.divisor hless]
    rw [hdivisor] at hless
    exact h.toBalanced.settles_moveDown hdivisor hless hdvd hlt hroom
  · rw [step_of_ge bit h.remainder h.divisor hge]
    have hset := (h.quotient.settles_setBit h.left_lt h.room).applyTo
    -- the bit to be set is below all bits of the quotient so far, so setting it adds it
    rw [or_two_pow h.dvd] at hset
    refine (h.remainder.settles_subMagnitudes h.divisor hge).applyTo.bind ?_
    intro remainder hremainder
    refine hset.bind ?_
    intro quotient hquotient
    have hsubtractions : s.subtractions + 1 = quotient.magnitude.bitIndices.length := by
      rw [hquotient.magnitude_eq, length_bitIndices_add_two_pow h.dvd, h.subtractions_eq]
    have hcounted : s.subtractions + 1 < UInt64.size := by
      rw [hsubtractions]
      exact (length_bitIndices_le _).trans_lt (hquotient.wellFormed.bitLength_lt le_rfl)
    refine Action.settles_checked (if_pos hcounted) ?_
    have hbalanced : Balanced a b ⟨⟨quotient, remainder⟩, s.divisor, s.subtractions + 1⟩ :=
      { quotient := hquotient.wellFormed
        remainder := hremainder.wellFormed
        divisor := h.divisor
        quotient_sign := hquotient.negative_eq.trans h.quotient_sign
        remainder_sign := hremainder.negative_eq
        divisor_sign := h.divisor_sign
        sum_eq := by
          show quotient.magnitude * b + remainder.magnitude = a
          rw [hquotient.magnitude_eq, hremainder.magnitude_eq, Nat.add_mul, ← h.sum_eq, hdivisor,
            Nat.mul_comm b]
          rw [hdivisor, Nat.mul_comm b] at hge
          omega
        subtractions_eq := hsubtractions }
    refine (hbalanced.settles_moveDown hdivisor ?_ ?_ hlt ?_).mono fun t ht =>
      ⟨ht.1, ht.2.1.trans hquotient.capacity_eq, ht.2.2.trans hremainder.capacity_eq⟩
    · show remainder.magnitude < b * 2 ^ bit
      rw [hremainder.magnitude_eq, ← hdivisor]
      omega
    · show 2 ^ bit ∣ quotient.magnitude
      rw [hquotient.magnitude_eq]
      exact Nat.dvd_add hdvd dvd_rfl
    · show wordsFor bit ≤ quotient.capacity
      rw [hquotient.capacity_eq]
      exact hroom

/-- The step for the highest bit comes first. -/
theorem reverse_range_succ (n : Nat) : (List.range (n + 1)).reverse = n :: (List.range n).reverse := by
  rw [List.range_succ, List.reverse_append, List.reverse_singleton, List.singleton_append]

/-- The bits run downwards; after some of them, as many steps are left as there are bits after them. -/
theorem Invariant.steps {a b left : Nat} {s : LongDivision} (h : s.Invariant a b left)
    {before after : List Nat} (hbits : (List.range left).reverse = before ++ after) :
    (s.steps before).Settles fun t => t.Invariant a b after.length ∧ s.SameRoom t := by
  induction before generalizing s left with
  | nil =>
    have hleft : after.length = left := by
      rw [← List.nil_append after, ← hbits, List.length_reverse, List.length_range]
    rw [hleft]
    exact Action.settles_pure ⟨h, rfl, rfl⟩
  | cons bit before ih =>
    cases left with
    | zero => simp at hbits
    | succ left =>
      rw [reverse_range_succ, List.cons_append, List.cons.injEq] at hbits
      obtain ⟨rfl, hbits⟩ := hbits
      unfold LongDivision.steps
      rw [List.foldlM_cons]
      refine h.step.bind fun t ht => (ih ht.1 hbits).mono fun u hu => ⟨hu.1, ?_, ?_⟩
      · exact hu.2.1.trans ht.2.1
      · exact hu.2.2.trans ht.2.2

/-- Aligned, the divisor has its highest bit where the dividend has, so it is more than half of
it. -/
theorem magnitude_lt_aligned {a b : Integer} (ha : a.WellFormed) (hb : b.WellFormed)
    (hpos : 0 < b.bits) (hle : b.bits ≤ a.bits) :
    a.magnitude < b.magnitude * 2 ^ (a.bits - b.bits + 1) := by
  have htop : 2 ^ (b.bits - 1) ≤ b.magnitude := by
    refine two_pow_le_of_bitLength ?_
    rw [← hb.bits_eq]
    omega
  calc a.magnitude < 2 ^ a.bits := ha.magnitude_lt
    _ = 2 ^ (b.bits - 1) * 2 ^ (a.bits - b.bits + 1) := by rw [← pow_add]; congr 1; omega
    _ ≤ b.magnitude * 2 ^ (a.bits - b.bits + 1) := Nat.mul_le_mul_right _ htop

/-- Before the first step nothing is in the quotient, and all of the dividend is left. -/
theorem invariant_aligned {a b shift capacity capacity' : Nat}
    {quotient remainder divisor : Integer}
    (hquotient : quotient.Holds capacity 0 false) (hremainder : remainder.Holds capacity' a false)
    (hdivisor : divisor.Reaches 0 (b * 2 ^ shift) false) (hlt : a < b * 2 ^ (shift + 1))
    (hcount : shift + 1 < UInt64.size) (hroom : wordsFor (shift + 1) ≤ quotient.capacity) :
    Invariant a b (shift + 1) ⟨⟨quotient, remainder⟩, divisor, 0⟩ where
  quotient := hquotient.wellFormed
  remainder := hremainder.wellFormed
  divisor := hdivisor.wellFormed
  quotient_sign := hquotient.negative_eq
  remainder_sign := hremainder.negative_eq
  divisor_sign := hdivisor.negative_eq
  sum_eq := by rw [hquotient.magnitude_eq, hremainder.magnitude_eq, Nat.zero_mul, zero_add]
  subtractions_eq := by rw [hquotient.magnitude_eq, Nat.bitIndices_zero, List.length_nil]
  divisor_eq := by
    rw [hdivisor.magnitude_eq, pow_succ, ← Nat.mul_assoc, Nat.mul_div_cancel _ (by decide)]
  remainder_lt := by rwa [hremainder.magnitude_eq]
  dvd := by
    rw [hquotient.magnitude_eq]
    exact dvd_zero _
  left_lt := hcount
  room := hroom

/-- What the steps start from is asked for once each: the quotient, the two copies, and the aligned
divisor. -/
theorem attempts_start {a b : Integer} (ha : a.WellFormed) (hb : b.WellFormed) (hpos : 1 < b.bits)
    (hle : b.bits ≤ a.bits) {fails : Failure → Prop} :
    (start a b).Attempts 4 a.bits fails fun s =>
      s.Invariant a.magnitude b.magnitude (a.bits - b.bits + 1) ∧
        s.quotient.capacity = roomFor 4 (a.bits - b.bits + 1) ∧
        s.remainder.capacity = roomFor 4 a.bits := by
  have hlt := ha.bits_lt
  have haligned := magnitude_lt_aligned ha hb (by omega) hle
  set shift := a.bits - b.bits with hshift
  show Action.Attempts _ (1 + (1 + (1 + (1 + 0)))) _ fails _
  unfold start
  refine Action.attempts_checked (if_pos hle) (Action.attempts_checked (if_pos (by omega)) ?_)
  refine ((Integer.wellFormed_zero.ensureCapacity _).applyTo.within (by omega)).bind ?_
  intro quotient hquotient
  refine ha.copy.bind ?_
  intro dividend hdividend
  refine (hb.copy.within hle).bind ?_
  intro copied hcopied
  have hunsigned := hcopied.wellFormed.unsigned
  rw [hcopied.magnitude_eq] at hunsigned
  have hbits : copied.unsigned.bits = b.bits := hunsigned.bits_eq.trans hb.bits_eq.symm
  have hmoved : ((Integer.shiftLeft shift).applyTo copied.unsigned).Attempts 1 a.bits fails fun y =>
      y.Reaches 0 (b.magnitude * 2 ^ shift) false := by
    refine (hunsigned.wellFormed.shiftLeft shift).applyTo.mono le_rfl (by omega)
      (fun failure h => absurd h.2 (by omega)) fun y hy => ?_
    rw [hunsigned.magnitude_eq, hunsigned.negative_eq] at hy
    exact hy.reaches (Nat.zero_le _)
  refine hmoved.bind fun divisor hdivisor => Action.attempts_pure
    ⟨?_, hquotient.capacity_eq, hdividend.capacity_eq⟩
  have hremainder := hdividend.wellFormed.unsigned
  rw [hdividend.magnitude_eq] at hremainder
  exact invariant_aligned (hquotient.of_eq Integer.holds_zero.magnitude_eq rfl) hremainder hdivisor
    haligned (by omega) hquotient.room

/-- After the last step the parts are those of the Euclidean division. -/
theorem Invariant.divides {a b : Nat} {s : LongDivision} (h : s.Invariant a b 0) :
    s.toDivision.Divides a b := by
  have hlt : s.remainder.magnitude < b := by simpa using h.remainder_lt
  have hpos : 0 < b := Nat.zero_lt_of_lt hlt
  have hquotient : a / b = s.quotient.magnitude := by
    rw [← h.sum_eq, Nat.add_comm, Nat.add_mul_div_right _ _ hpos, Nat.div_eq_of_lt hlt, zero_add]
  have hremainder : a % b = s.remainder.magnitude := by
    rw [← h.sum_eq, Nat.add_comm, Nat.add_mul_mod_self_right, Nat.mod_eq_of_lt hlt]
  exact ⟨⟨h.quotient, Nat.zero_le _, hquotient.symm, h.quotient_sign⟩,
    ⟨h.remainder, Nat.zero_le _, hremainder.symm, h.remainder_sign⟩⟩

end LongDivision

namespace Integer

/-- A result that is a copy of the magnitude takes one of the four requests of a division. -/
theorem WellFormed.attempts_copyUnsigned {x : Integer} (hx : x.WellFormed)
    (result : Integer → Division) {fails : Failure → Prop} {post : Division → Prop}
    (h : ∀ y : Integer, y.Holds (roomFor 4 x.bits) x.magnitude false → post (result y)) :
    (do pure (result (← x.copy).unsigned) : Action Division).Attempts 4 x.bits fails post := by
  have hcopied : x.copy.Attempts 4 x.bits fails fun y =>
      y.Holds (roomFor 4 x.bits) x.magnitude x.negative :=
    hx.copy.mono (by decide) le_rfl (fun _ h => h) fun _ hy => hy
  show Action.Attempts _ (4 + 0) _ fails post
  refine hcopied.bind ?_
  intro y hy
  have hunsigned := hy.wellFormed.unsigned
  rw [hy.capacity_eq, hy.magnitude_eq] at hunsigned
  exact Action.attempts_pure (h y.unsigned hunsigned)

/-- Four words are there from the start. -/
theorem roomFor_four_of_le {bits : Nat} (h : bits ≤ 128) : roomFor 4 bits = 4 :=
  roomFor_of_le (wordsFor_le.2 h)

variable {a b : Integer} (ha : a.WellFormed) (hb : b.WellFormed)

include ha

/-! ### The long division -/

/-- The machine counts the places of the divisor. -/
theorem divideLong_eq (hpos : 1 < b.bits) (hle : b.bits ≤ a.bits) :
    divideLong a b = (do
      let aligned ← LongDivision.start a b
      let done ← aligned.steps (List.range (a.bits - b.bits + 1)).reverse
      Action.record (.division a.bits b.bits (a.bits - b.bits + 1) done.subtractions)
      pure done.toDivision) := by
  have hlt := ha.bits_lt
  have hcount : unsigned64 (a.bits - b.bits + 1) = .ok (a.bits - b.bits + 1) := if_pos (by omega)
  unfold divideLong
  rw [Action.checked_bind (unsignedDifference_of_le hle), Action.checked_bind hcount]

include hb

theorem attempts_divideLong (hpos : 1 < b.bits) (hle : b.bits ≤ a.bits) {fails : Failure → Prop} :
    (divideLong a b).Attempts 4 a.bits fails fun d => d.Divides a.magnitude b.magnitude ∧
      d.quotient.capacity = roomFor 4 (a.bits - b.bits + 1) ∧
      d.remainder.capacity = roomFor 4 a.bits := by
  show Action.Attempts _ (4 + (0 + (0 + 0))) _ fails _
  rw [divideLong_eq ha hpos hle]
  refine (LongDivision.attempts_start ha hb hpos hle).bind ?_
  intro aligned ⟨h, hquotient, hremainder⟩
  refine (h.steps (List.append_nil _).symm).attempts.bind ?_
  intro done ⟨hdone, hroom⟩
  have hrecord : (Action.record (.division a.bits b.bits (a.bits - b.bits + 1)
      done.subtractions)).Attempts 0 a.bits fails fun _ => True := Action.attempts_record trivial
  refine hrecord.bind ?_
  intro _ _
  exact Action.attempts_pure ⟨hdone.divides, hroom.1.trans hquotient, hroom.2.trans hremainder⟩

/-! ### The short ways

Four pairs of operands need no step. Each of them has its result at once, in buffers of the size
that the long division would give them. -/

omit hb in
/-- A dividend of zero. -/
theorem divides_zero_left (hzero : a.magnitude = 0) :
    Division.Divides ⟨zero, zero⟩ a.magnitude b.magnitude ∧ Division.Rooms ⟨zero, zero⟩ a b := by
  have hbits : a.bits = 0 := ha.bits_eq_zero.2 hzero
  refine ⟨⟨?_, ?_⟩, ⟨?_, ?_⟩⟩
  · rw [hzero, Nat.zero_div]
    exact holds_zero.reaches (Nat.zero_le _)
  · rw [hzero, Nat.zero_mod]
    exact holds_zero.reaches (Nat.zero_le _)
  · exact (roomFor_four_of_le (by omega)).symm
  · rw [remainderRoom, hbits, roomFor_four_of_le (by decide), ite_self]
    rfl

/-- A divisor of one bit, which is one: the quotient is the dividend. -/
theorem attempts_divideByOne (hone : b.bits = 1) {fails : Failure → Prop} :
    (do pure { quotient := (← a.copy).unsigned, remainder := zero } : Action Division).Attempts 4
      a.bits fails fun d => d.Divides a.magnitude b.magnitude ∧ d.Rooms a b := by
  have hvalue : b.magnitude = 1 := by
    have hlt := hb.magnitude_lt
    have hpos : b.magnitude ≠ 0 := fun h => by simp [hb.bits_eq_zero.2 h] at hone
    rw [hone] at hlt
    omega
  refine ha.attempts_copyUnsigned (⟨·, zero⟩) fun y hy => ⟨⟨?_, ?_⟩, ⟨?_, ?_⟩⟩
  · rw [hvalue, Nat.div_one]
    exact hy.reaches (Nat.zero_le _)
  · rw [hvalue, Nat.mod_one]
    exact holds_zero.reaches (Nat.zero_le _)
  · rw [quotientRoom, hone, Nat.add_sub_cancel]
    exact hy.capacity_eq
  · rw [remainderRoom, if_pos (.inl hone)]
    rfl

/-- A dividend below the divisor: it is the remainder. -/
theorem attempts_divideSmaller (hmany : b.bits ≠ 1) (hlt : a.magnitude < b.magnitude)
    {fails : Failure → Prop} :
    (do pure { quotient := zero, remainder := (← a.copy).unsigned } : Action Division).Attempts 4
      a.bits fails fun d => d.Divides a.magnitude b.magnitude ∧ d.Rooms a b := by
  have hle := ha.bits_mono hb hlt.le
  refine ha.attempts_copyUnsigned (⟨zero, ·⟩) fun y hy => ⟨⟨?_, ?_⟩, ⟨?_, ?_⟩⟩
  · rw [Nat.div_eq_of_lt hlt]
    exact holds_zero.reaches (Nat.zero_le _)
  · rw [Nat.mod_eq_of_lt hlt]
    exact hy.reaches (Nat.zero_le _)
  · exact (roomFor_four_of_le (by omega)).symm
  · rw [remainderRoom, if_neg (not_or.2 ⟨hmany, hlt.ne⟩)]
    exact hy.capacity_eq

/-- A dividend as large as the divisor: the quotient is one. -/
theorem attempts_divideEqual (hb0 : b.magnitude ≠ 0) (heq : a.magnitude = b.magnitude)
    {limit room : Nat} {fails : Failure → Prop} :
    (do pure { quotient := ← zero.setUnsigned 1, remainder := zero } : Action Division).Attempts
      limit room fails fun d => d.Divides a.magnitude b.magnitude ∧ d.Rooms a b := by
  have hsame : a.bits = b.bits := by rw [ha.bits_eq, hb.bits_eq, heq]
  obtain ⟨one, hone, hholds⟩ := wellFormed_zero.setUnsigned 1
  refine Action.attempts_checked hone (Action.attempts_pure ⟨⟨?_, ?_⟩, ⟨?_, ?_⟩⟩)
  · rw [heq, Nat.div_self (Nat.pos_of_ne_zero hb0)]
    exact hholds.reaches (Nat.zero_le _)
  · rw [heq, Nat.mod_self]
    exact holds_zero.reaches (Nat.zero_le _)
  · exact hholds.capacity_eq.trans (roomFor_four_of_le (by omega)).symm
  · rw [remainderRoom, if_pos (.inr heq)]
    rfl

/-- Any other dividend takes the steps. -/
theorem attempts_divideLarger (hmany : b.bits ≠ 1) (hb0 : b.magnitude ≠ 0)
    (hlt : b.magnitude < a.magnitude) {fails : Failure → Prop} :
    (divideLong a b).Attempts 4 a.bits fails fun d =>
      d.Divides a.magnitude b.magnitude ∧ d.Rooms a b := by
  have hle : b.bits ≤ a.bits := hb.bits_mono ha hlt.le
  have hbits : b.bits ≠ 0 := fun h => hb0 (hb.bits_eq_zero.1 h)
  refine (attempts_divideLong ha hb (by omega) hle).imp fun d ⟨hd, hquotient, hremainder⟩ =>
    ⟨hd, ?_, ?_⟩
  · rw [hquotient, quotientRoom, Nat.sub_add_comm hle]
  · rw [hremainder, remainderRoom, if_neg (not_or.2 ⟨hmany, hlt.ne'⟩)]

/-! ### All pairs of operands -/

/-- Division fails by itself only where the divisor is zero; otherwise it asks for room four times
at most, never for more than the dividend takes, and if it gets it, it ends with quotient and
remainder in buffers of their own. -/
theorem attempts_division :
    (divideMagnitudes a b).Attempts 4 a.bits
      (fun failure => failure = .error .divisionByZero ∧ b.magnitude = 0)
      fun d => b.magnitude ≠ 0 ∧ d.Divides a.magnitude b.magnitude ∧ d.Rooms a b := by
  unfold divideMagnitudes
  rw [ha.isZero_eq, hb.isZero_eq]
  split
  · next hzero => exact Action.attempts_throw ⟨rfl, by simpa using hzero⟩
  next hnonzero =>
  have hb0 : b.magnitude ≠ 0 := by simpa using hnonzero
  split
  · next hzero =>
    exact Action.attempts_pure ⟨hb0, divides_zero_left ha (by simpa using hzero)⟩
  split
  · next hone => exact (attempts_divideByOne ha hb hone).imp fun _ hd => ⟨hb0, hd⟩
  next hmany =>
  refine Action.attempts_checked (ha.compareMagnitudes_eq hb) ?_
  rcases lt_trichotomy a.magnitude b.magnitude with hlt | heq | hgt
  · rw [Nat.compare_eq_lt.2 hlt]
    exact (attempts_divideSmaller ha hb hmany hlt).imp fun _ hd => ⟨hb0, hd⟩
  · rw [Nat.compare_eq_eq.2 heq]
    exact (attempts_divideEqual ha hb hb0 heq).imp fun _ hd => ⟨hb0, hd⟩
  · rw [Nat.compare_eq_gt.2 hgt]
    exact (attempts_divideLarger ha hb hmany hb0 hgt).imp fun _ hd => ⟨hb0, hd⟩

theorem attempts_divideMagnitudes :
    (divideMagnitudes a b).Attempts 4 a.bits
      (fun failure => failure = .error .divisionByZero ∧ b.magnitude = 0)
      fun d => b.magnitude ≠ 0 ∧ d.Divides a.magnitude b.magnitude :=
  (attempts_division ha hb).imp fun _ hd => ⟨hd.1, hd.2.1⟩

/-- The signs make a division of magnitudes one of integers, rounded toward zero. -/
theorem tdiv_eq : a.toInt.tdiv b.toInt = if a.isNegative ^^ b.isNegative
    then -((a.magnitude / b.magnitude : Nat) : Int) else (a.magnitude / b.magnitude : Nat) := by
  rw [ha.isNegative_eq, hb.isNegative_eq, toInt, toInt]
  cases a.negative <;> cases b.negative <;> simp

omit hb in
/-- The remainder goes with the sign of the dividend. -/
theorem tmod_eq : a.toInt.tmod b.toInt = if a.isNegative
    then -((a.magnitude % b.magnitude : Nat) : Int) else (a.magnitude % b.magnitude : Nat) := by
  rw [ha.isNegative_eq, toInt, toInt, Int.ofNat_tmod]
  cases a.negative <;> cases b.negative <;> simp

theorem attempts_divide :
    (divide a b).Attempts 4 a.bits
      (fun failure => failure = .error .divisionByZero ∧ b.magnitude = 0)
      fun d => b.magnitude ≠ 0 ∧ d.quotient.Denotes 0 (a.toInt.tdiv b.toInt) ∧
        d.remainder.Denotes 0 (a.toInt.tmod b.toInt) := by
  show Action.Attempts _ (4 + 0) _ _ _
  unfold divide
  refine (attempts_divideMagnitudes ha hb).bind fun d hd => Action.attempts_pure ⟨hd.1, ?_, ?_⟩
  · rw [tdiv_eq ha hb]
    exact hd.2.quotient.withSign _
  · rw [tmod_eq ha]
    exact hd.2.remainder.withSign _

end Integer

/-! ## What the two results are -/

/-- Quotient and remainder of the magnitude `a` by the magnitude `b`. -/
structure Division.Euclidean (d : Division) (a b : Nat) : Prop where
  quotient : d.quotient.WellFormed
  remainder : d.remainder.WellFormed
  quotient_sign : d.quotient.negative = false
  remainder_sign : d.remainder.negative = false
  sum_eq : d.quotient.magnitude * b + d.remainder.magnitude = a
  remainder_lt : d.remainder.magnitude < b

/-- Quotient and remainder of the integer `a` by the integer `b`, the quotient rounded toward
zero. -/
structure Division.Truncating (d : Division) (a b : Int) : Prop where
  quotient : d.quotient.WellFormed
  remainder : d.remainder.WellFormed
  sum_eq : d.quotient.toInt * b + d.remainder.toInt = a
  quotient_eq : d.quotient.toInt = a.tdiv b
  remainder_lt : d.remainder.toInt.natAbs < b.natAbs
  remainder_sign : d.remainder.toInt = 0 ∨ d.remainder.toInt.sign = a.sign
  /-- Zero is not negative, in either of them. -/
  unsigned_zero : (d.quotient.toInt = 0 → d.quotient.negative = false) ∧
    (d.remainder.toInt = 0 → d.remainder.negative = false)

theorem Division.Divides.euclidean {d : Division} {a b : Nat} (h : d.Divides a b) (hb : b ≠ 0) :
    d.Euclidean a b := by
  refine ⟨h.quotient.wellFormed, h.remainder.wellFormed, h.quotient.negative_eq,
    h.remainder.negative_eq, ?_, ?_⟩
  · rw [h.quotient.magnitude_eq, h.remainder.magnitude_eq]
    exact Nat.div_add_mod' a b
  · rw [h.remainder.magnitude_eq]
    exact Nat.mod_lt a (Nat.pos_of_ne_zero hb)

namespace Integer

/-- Rounding toward zero gives the rest of the properties. -/
theorem Denotes.truncating {d : Division} {a b : Int}
    (hquotient : d.quotient.Denotes 0 (a.tdiv b)) (hremainder : d.remainder.Denotes 0 (a.tmod b))
    (hb : b ≠ 0) : d.Truncating a b where
  quotient := hquotient.wellFormed
  remainder := hremainder.wellFormed
  sum_eq := by
    rw [hquotient.toInt_eq, hremainder.toInt_eq]
    exact Int.tdiv_mul_add_tmod a b
  quotient_eq := hquotient.toInt_eq
  remainder_lt := by
    rw [hremainder.toInt_eq, Int.natAbs_tmod]
    exact Nat.mod_lt _ (Int.natAbs_pos.2 hb)
  remainder_sign := by
    rw [hremainder.toInt_eq, Int.sign_tmod]
    by_cases hdvd : b ∣ a
    · exact .inl (Int.tmod_eq_zero_of_dvd hdvd)
    · exact .inr (if_neg hdvd)
  unsigned_zero := ⟨hquotient.wellFormed.unsigned_of_toInt, hremainder.wellFormed.unsigned_of_toInt⟩

/-! ## A divisor of zero -/

section

variable {a b : Integer} (hb : b.WellFormed) (hzero : b.magnitude = 0)

include hb hzero

theorem divideMagnitudes_zero : divideMagnitudes a b = throw (.error .divisionByZero) := by
  unfold divideMagnitudes
  rw [hb.isZero_eq]
  exact if_pos (by simpa using hzero)

theorem exec_divide_zero (memory : Memory) :
    (divide a b).exec memory = (.error (.error .divisionByZero), memory) := by
  unfold divide
  rw [divideMagnitudes_zero hb hzero]
  rfl

end

end Integer

end Multiword
