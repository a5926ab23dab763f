import Multiword.Proofs.Integer.Granted
import Multiword.Proofs.Session.Division

/-!
# The buffers that operations leave

A destination that is written in place keeps its buffer, or gets a larger one. Where a result is built
in a new integer, which then takes the place of the destination, the buffer of the destination goes
with its old value: a product with the destination as an operand, a greatest common divisor, and the
results of a division come in buffers that are as large as they need themselves, however large that of
the destination was.
-/

set_option autoImplicit false

namespace Multiword

namespace Integer

open ActionOn (current replace makes_current makes_checked makes_replace makes_action)

/-! ## Products and common divisors -/

/-- The capacity that a product of `a` and `b` leaves in the place of `x`. Only a product of two other
integers goes into the buffer that is there. -/
def productRoom (x : Integer) (a b : Operand) : Nat :=
  if (a.resolve x).magnitude = 0 ∨ (b.resolve x).magnitude = 0 then x.capacity
  else
    roomFor (if a = .dest ∨ b = .dest then 4 else x.capacity)
      (((a.resolve x).size + (b.resolve x).size) * 32)

/-- The capacities that a greatest common divisor may leave in the place of `x`. A divisor that has to
be searched for ends up in the buffer of one of the two copies. -/
def DivisorRoom (x : Integer) (a b : Operand) (capacity : Nat) : Prop :=
  if (a.resolve x).magnitude = 0 ∨ (b.resolve x).magnitude = 0 ∨
      (a.resolve x).magnitude = (b.resolve x).magnitude then x.capacity ≤ capacity
  else capacity = roomFor 4 (a.resolve x).bits ∨ capacity = roomFor 4 (b.resolve x).bits

section

variable {x : Integer} {a b : Operand} (hx : x.WellFormed) (ha : (a.resolve x).WellFormed)
  (hb : (b.resolve x).WellFormed)

include hx ha hb

theorem capacity_mulMagnitudes :
    (mulMagnitudes a b).Makes x fun _ y => y.capacity = productRoom x a b := by
  refine makes_current ?_
  rw [ha.isZero_eq, hb.isZero_eq]
  unfold productRoom
  by_cases hzero : (a.resolve x).magnitude = 0 ∨ (b.resolve x).magnitude = 0
  · rw [if_pos (by simpa using hzero), if_pos hzero]
    exact makes_checked fun y hy => makes_replace (capacity_cleared hy)
  · rw [if_neg (by simpa using hzero), if_neg hzero]
    have hnew : (do replace (← (mulWords (a.resolve x) (b.resolve x)).applyTo zero) :
        Update Unit).Makes x fun _ y =>
          y.capacity = roomFor 4 (((a.resolve x).size + (b.resolve x).size) * 32) :=
      (makes_action (wellFormed_zero.mulWords ha hb).applyTo.makes).bind fun _ _ hy =>
        makes_replace hy.capacity_eq
    cases a with
    | dest => simpa using hnew
    | value a =>
      cases b with
      | dest => simpa using hnew
      | value b => simpa using (hx.mulWords ha hb).makes.mono fun _ _ hy => hy.capacity_eq

theorem capacity_mul : (mul a b).Makes x fun _ y => y.capacity = productRoom x a b :=
  makes_current ((capacity_mulMagnitudes hx ha hb).bind fun _ _ hy =>
    makes_current (makes_replace hy))

theorem capacity_gcdMagnitudes :
    (gcdMagnitudes a b).Makes x fun _ y => DivisorRoom x a b y.capacity := by
  refine makes_current (makes_checked fun same hsame => ?_)
  obtain rfl : _ = same := Except.ok.inj ((ha.sameMagnitude_eq hb).symm.trans hsame)
  rw [ha.isZero_eq, hb.isZero_eq]
  unfold DivisorRoom
  by_cases hequal : (a.resolve x).magnitude = (b.resolve x).magnitude
  · have hkept : (current >>= fun y => replace y.unsigned : Update Unit).Makes x fun _ y =>
        x.capacity ≤ y.capacity := makes_current (makes_replace le_rfl)
    rw [if_pos (by simpa using hequal)]
    simp only [hequal, or_true, if_true]
    cases a with
    | dest => exact hkept
    | value a =>
      cases b with
      | dest => exact hkept
      | value b =>
        refine (hx.makes_copyFrom ha).bind fun _ y hy => makes_current (makes_replace ?_)
        exact (le_roomFor _ _).trans hy.capacity_eq.ge
  · rw [if_neg (by simpa using hequal)]
    by_cases hzero : (a.resolve x).magnitude = 0 ∨ (b.resolve x).magnitude = 0
    · rw [if_pos (by simpa using hzero)]
      refine makes_checked fun y hy => makes_replace ?_
      rw [if_pos (by tauto)]
      exact (capacity_cleared hy).ge
    · rw [if_neg (by simpa using hzero)]
      refine (makes_action ha.makes_copy).bind fun u _ hu => ?_
      refine (makes_action hb.makes_copy).bind fun v _ hv => ?_
      have hdivisor := settles_gcd hu.wellFormed hv.wellFormed
        (by rw [hu.magnitude_eq]; tauto) (by rw [hv.magnitude_eq]; tauto)
      refine (makes_action hdivisor.makes).bind fun d _ hd => makes_replace ?_
      rw [if_neg (by tauto), ← hu.capacity_eq, ← hv.capacity_eq]
      exact hd.1.capacity_eq

end

/-! ## Quotients and remainders -/

/-- The signs are put on the two results afterwards. -/
theorem rooms_divide {a b : Integer} (ha : a.WellFormed) (hb : b.WellFormed) :
    (divide a b).Makes fun d => d.Rooms a b := by
  unfold divide
  exact (attempts_division ha hb).makes.bind fun _ hd =>
    Action.makes_pure ⟨hd.2.2.quotient, hd.2.2.remainder⟩

end Integer

/-! ## Operations on a destination -/

/-- What is known of the capacity that a combination of `a` and `b` leaves in the place of `x`. -/
def Combination.Leaves (op : Combination) (x : Integer) (a b : Operand) (capacity : Nat) : Prop :=
  match op with
  | .addMagnitudes | .subMagnitudes | .add | .sub => x.capacity ≤ capacity
  | .mulMagnitudes | .mul => capacity = Integer.productRoom x a b
  | .gcdMagnitudes => Integer.DivisorRoom x a b capacity

/-- The same for an operator that assigns to its left operand. -/
def Operator.Leaves (op : Operator) (x b : Integer) (capacity : Nat) : Prop :=
  match op with
  | .add | .sub => x.capacity ≤ capacity
  | .mul => capacity = Integer.productRoom x .dest (.value b)
  | .quotient => capacity = quotientRoom x b
  | .remainder => capacity = remainderRoom x b

open ActionOn (makes_current makes_checked makes_replace makes_action)

variable {x : Integer} (hx : x.WellFormed)

include hx

theorem Combination.makes_leaves (op : Combination) {a b : Operand}
    (ha : (a.resolve x).WellFormed) (hb : (b.resolve x).WellFormed) :
    (op.into a b).Makes x fun _ y => op.Leaves x a b y.capacity := by
  cases op with
  | addMagnitudes =>
    exact (Integer.attempts_addMagnitudes hx ha hb).makes.mono fun _ _ hy => hy.le_capacity
  | subMagnitudes =>
    exact (@Integer.attempts_subMagnitudes x a b hx ha hb fun _ => False).makes.mono
      fun _ _ hy => hy.le_capacity
  | mulMagnitudes => exact Integer.capacity_mulMagnitudes hx ha hb
  | gcdMagnitudes => exact Integer.capacity_gcdMagnitudes hx ha hb
  | add =>
    exact (Integer.attempts_addWithSigns hx ha hb false).makes.mono fun _ _ hy => hy.le_capacity
  | sub =>
    exact (Integer.attempts_addWithSigns hx ha hb true).makes.mono fun _ _ hy => hy.le_capacity
  | mul => exact Integer.capacity_mul hx ha hb

theorem Operator.makes_leaves (op : Operator) {b : Integer} (hb : b.WellFormed) :
    (op.assign b).Makes x fun _ y => op.Leaves x b y.capacity := by
  refine ActionOn.Makes.orAbort ?_
  cases op with
  | add => exact Combination.makes_leaves hx .add (a := .dest) (b := .value b) hx hb
  | sub => exact Combination.makes_leaves hx .sub (a := .dest) (b := .value b) hx hb
  | mul => exact Integer.capacity_mul (a := .dest) (b := .value b) hx hx hb
  | quotient =>
    exact makes_current ((makes_action (Integer.rooms_divide hx hb)).bind fun _ _ hd =>
      makes_replace hd.quotient)
  | remainder =>
    exact makes_current ((makes_action (Integer.rooms_divide hx hb)).bind fun _ _ hd =>
      makes_replace hd.remainder)

/-- Every edit but the release works in the buffer that is there. -/
theorem Edit.makes_le_capacity {edit : Edit} (hedit : edit ≠ .release) :
    edit.update.Makes x fun _ y => x.capacity ≤ y.capacity := by
  have hkept : ∀ {y : Integer} {magnitude : Nat} {negative : Bool},
      y.Holds x.capacity magnitude negative → x.capacity ≤ y.capacity :=
    fun hy => hy.capacity_eq.ge
  have hgrown : ∀ {y : Integer} {bits magnitude : Nat} {negative : Bool},
      y.Holds (roomFor x.capacity bits) magnitude negative → x.capacity ≤ y.capacity :=
    fun hy => (le_roomFor _ _).trans hy.capacity_eq.ge
  have hshifted : ∀ n, (Integer.shiftLeft n).Makes x fun _ y => x.capacity ≤ y.capacity := by
    intro n
    refine (hx.shiftLeft n).makes.mono fun _ y hy => ?_
    by_cases hzero : x.bits = 0
    · rw [if_pos hzero] at hy
      exact hkept hy
    · rw [if_neg hzero] at hy
      exact hgrown hy
  refine makes_current ?_
  cases edit with
  | negate => exact makes_replace (hkept hx.negate)
  | clear => exact makes_checked fun y hy => makes_replace (Integer.capacity_cleared hy).ge
  | release => exact absurd rfl hedit
  | setSign negative => exact makes_replace (hkept (hx.withSign negative))
  | setUnsigned n =>
    exact makes_checked fun y hy => makes_replace (Integer.capacity_setUnsigned hy).ge
  | setSigned n =>
    refine makes_checked fun y hy => makes_replace ?_
    obtain ⟨z, hz, hsigned⟩ := Checked.bind_eq_ok.1 hy
    cases hsigned
    exact (Integer.capacity_setUnsigned hz).ge
  | shiftLeft n => exact hshifted n
  | shiftRight n =>
    refine makes_checked fun y hy => makes_replace ?_
    obtain ⟨z, hz, hholds⟩ := hx.shiftRight n
    obtain rfl : z = y := Except.ok.inj (hz.symm.trans hy)
    exact hkept hholds
  | shiftLeftOrAbort n => exact (hshifted n).orAbort
  | setBit n => exact (hx.setBit n).makes.mono fun _ _ hy => hgrown hy
  | loadBytes bytes => exact (hx.loadBytes bytes).makes.mono fun _ _ hy => hgrown hy
  | loadWords words => exact (hx.loadWords words).makes.mono fun _ _ hy => hgrown hy

omit hx

namespace Machine

variable {size : Nat} {bank : Bank size}

/-! ## Outputs of a division -/

/-- Each output that is asked for gets the integer that was built, with its buffer. -/
theorem makes_divideMagnitudes (hbank : bank.WellFormed) (q r : Option (Register size))
    (ownership : Ownership) (i j : Register size) :
    (perform (.divideMagnitudes q r ownership i j)).Makes bank fun _ new =>
      ∃ d : Division, d.Rooms (bank.get i) (bank.get j) ∧
        new = (bank.output q d.quotient).output r d.remainder := by
  refine (commits_operand hbank i _).makes.bind fun a new ⟨hnew, ha⟩ => ?_
  subst hnew
  refine (commits_operand hbank j _).makes.bind fun b new ⟨hnew, hb⟩ => ?_
  subst hnew
  -- a copy of an operand needs as much room as the operand itself
  have habits : a.bits = (new.get i).bits := ha.bits_eq.trans (hbank i).bits_eq.symm
  have hbbits : b.bits = (new.get j).bits := hb.bits_eq.trans (hbank j).bits_eq.symm
  have hdivided : (Integer.divideOf ownership a b).Makes fun d =>
      d.Rooms (new.get i) (new.get j) := by
    refine (Integer.attempts_division ha.wellFormed hb.wellFormed).makes.mono fun d hd => ⟨?_, ?_⟩
    · rw [hd.2.2.quotient, quotientRoom, habits, hbbits, quotientRoom]
    · rw [hd.2.2.remainder, remainderRoom, habits, hbbits, ha.magnitude_eq, hb.magnitude_eq,
        remainderRoom]
  intro memory answer after left hrun
  rw [ActionOn.exec_bind, ActionOn.exec_action] at hrun
  rcases hdivision : (Integer.divideOf ownership a b).exec memory with ⟨failure | d, rest⟩
  · simp [hdivision] at hrun
  · simp only [hdivision, ActionOn.exec_bind, exec_output, ActionOn.exec_pure, Prod.mk.injEq] at hrun
    exact ⟨d, hdivided memory d rest hdivision, hrun.2.1.symm⟩

/-! ## Every destination -/

/-- No operation but a product, a common divisor and a division, and the release of a buffer, leaves
its destination a smaller buffer than it had. What those leave does not depend on the buffer that was
there, unless they had nothing to compute. -/
theorem buffer_kept_or_replaced {x : Integer} (hx : x.WellFormed) :
    (∀ (op : Combination) {a b : Operand}, (a.resolve x).WellFormed → (b.resolve x).WellFormed →
      (op.into a b).Makes x fun _ y => op.Leaves x a b y.capacity) ∧
    (∀ (op : Operator) {b : Integer}, b.WellFormed →
      (op.assign b).Makes x fun _ y => op.Leaves x b y.capacity) ∧
    (∀ {edit : Edit}, edit ≠ .release →
      edit.update.Makes x fun _ y => x.capacity ≤ y.capacity) ∧
    (∀ {source : Integer}, source.WellFormed →
      (Integer.copyFrom source).Makes x fun _ y => x.capacity ≤ y.capacity) ∧
    ∀ {size : Nat} {bank : Bank size} (q r : Option (Register size)) (ownership : Ownership)
      (i j : Register size), bank.WellFormed →
      (perform (.divideMagnitudes q r ownership i j)).Makes bank fun _ new =>
        ∃ d : Division, d.Rooms (bank.get i) (bank.get j) ∧
          new = (bank.output q d.quotient).output r d.remainder := by
  refine ⟨?_, ?_, ?_, ?_, ?_⟩
  · intro op a b ha hb
    exact op.makes_leaves hx ha hb
  · intro op b hb
    exact op.makes_leaves hx hb
  · intro edit hedit
    exact edit.makes_le_capacity hx hedit
  · intro source hsource
    refine (hx.makes_copyFrom hsource).mono fun _ y hy => ?_
    exact (le_roomFor _ _).trans hy.capacity_eq.ge
  · intro size bank q r ownership i j hbank
    exact makes_divideMagnitudes hbank q r ownership i j

theorem buffer_of_twelve_kept_or_replaced :
    ∃ x : Integer, x.WellFormed ∧ x.capacity = 8 ∧ x.toInt = 12 ∧
      ((Combination.mulMagnitudes.into .dest .dest).Makes x fun _ y => y.capacity = 4) ∧
      ((Operator.quotient.assign x).Makes x fun _ y => y.capacity = 4) ∧
      ((Edit.shiftRight 2).update.Makes x fun _ y => 8 ≤ y.capacity) ∧
      (Integer.copyFrom .zero).Makes x fun _ y => 8 ≤ y.capacity := by
  have hx : Integer.WellFormed ⟨[12, 0, 0, 0, 0, 0, 0, 0], 4, false⟩ :=
    Integer.wellFormed_of_bits (by decide) (by decide) (by decide) (by decide) (by decide)
  obtain ⟨hcombined, hassigned, hedited, hcopied, -⟩ := buffer_kept_or_replaced hx
  exact ⟨_, hx, rfl, rfl, hcombined .mulMagnitudes hx hx, hassigned .quotient hx,
    hedited (by decide), hcopied Integer.wellFormed_zero⟩

/-- In a square, a common divisor and a quotient the larger buffer is lost. -/
theorem buffer_shrinks_in_square_divisor_and_quotient :
    ∃ x b : Integer, x.WellFormed ∧ b.WellFormed ∧ x.capacity = 8 ∧
      (∃ y memory, (Integer.mulMagnitudes .dest .dest).exec x Memory.generous =
        (.ok (), y, memory) ∧ y.capacity = 4) ∧
      (∃ y memory, (Integer.gcdMagnitudes .dest (.value b)).exec x Memory.generous =
        (.ok (), y, memory) ∧ y.capacity = 4) ∧
      ∃ y memory, (Operator.quotient.assign b).exec x Memory.generous =
        (.ok (), y, memory) ∧ y.capacity = 4 := by
  have hx : Integer.WellFormed ⟨[12, 0, 0, 0, 0, 0, 0, 0], 4, false⟩ :=
    Integer.wellFormed_of_bits (by decide) (by decide) (by decide) (by decide) (by decide)
  have hb : Integer.WellFormed ⟨[18, 0, 0, 0], 5, false⟩ :=
    Integer.wellFormed_of_bits (by decide) (by decide) (by decide) (by decide) (by decide)
  have hrun : ∀ {computation : Update Unit} {x : Integer},
      (computation.exec x Memory.generous).1 = .ok () →
      (computation.exec x Memory.generous).2.1.capacity = 4 →
      ∃ y memory, computation.exec x Memory.generous = (.ok (), y, memory) ∧ y.capacity = 4 :=
    fun hresult hcapacity => ⟨_, _, Prod.ext hresult rfl, hcapacity⟩
  exact ⟨_, _, hx, hb, rfl, hrun (by decide +kernel) (by decide +kernel),
    hrun (by decide +kernel) (by decide +kernel), hrun (by decide +kernel) (by decide +kernel)⟩

end Machine

end Multiword
