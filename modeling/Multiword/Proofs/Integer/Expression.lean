import Multiword.Proofs.Integer.Operator
import Multiword.Proofs.Integer.Shift
import Multiword.Proofs.Integer.Sound
import Multiword.Proofs.Run.Conclusion
import Multiword.Session.Run

/-!
# Every form of an expression has the same value

An operator is written in many forms: its operands may be owned or not, and it may assign to its left
operand. Each form has a destination of its own, so that operands are overwritten in some of them and
not in others; but the value is that of the integers in all of them, and so are the ways to fail.
-/

set_option autoImplicit false

namespace Multiword

/-- Failures of an expression whose result would have `bits` bits. It gives up where a computation
would report. -/
def Outgrows (bits : Nat) (failure : Failure) : Prop :=
  (failure = .abort .growthRefused ∨ failure = .fault .overflow) ∧ UInt64.size ≤ bits

theorem Outgrows.mono {bits bits' : Nat} {failure : Failure} (h : Outgrows bits failure)
    (hle : bits ≤ bits') : Outgrows bits' failure :=
  ⟨h.1, h.2.trans hle⟩

theorem TooManyBits.outgrows {bits : Nat} {failure : Failure} (h : TooManyBits bits failure) :
    Outgrows bits failure.aborting := by
  obtain ⟨rfl | rfl, hle⟩ := h
  · exact ⟨.inl rfl, hle⟩
  · exact ⟨.inr rfl, hle⟩

/-- The expression has this value, unless a request for room of at most `room` bits is refused. It
fails by itself only where the machine does not count the `bits` bits of the result. -/
def Action.Evaluates (expression : Action Integer) (room bits : Nat) (value : Int) : Prop :=
  expression.Concludes room (· = .abort .growthRefused)
    (Within (Outgrows bits) fun y => y.Denotes 0 value)

/-- The assignment makes `x` this value, in the same sense; where it fails by itself, it leaves `x`
alone. -/
def ActionOn.Assigns (assignment : Update Unit) (x : Integer) (room bits : Nat) (value : Int) :
    Prop :=
  assignment.Concludes x room (· = .abort .growthRefused) fun result y =>
    Within (fun failure => y = x ∧ Outgrows bits failure) (fun _ => y.Denotes 0 value) result

theorem Action.Evaluates.mono {expression : Action Integer} {room room' bits bits' : Nat}
    {value : Int} (h : expression.Evaluates room bits value) (hroom : room ≤ room')
    (hbits : bits ≤ bits') : expression.Evaluates room' bits' value :=
  (h.within hroom).imp fun _ hresult =>
    hresult.mono (fun _ hfailure => hfailure.mono hbits) fun _ hy => hy

/-- An attempt that gives up instead of reporting. -/
theorem Action.Attempts.evaluates {computation : Action Integer} {limit room bits : Nat}
    {fails : Failure → Prop} {value : Int}
    (h : computation.Attempts limit room fails fun y => y.Denotes 0 value)
    (hfails : ∀ failure, fails failure → Outgrows bits failure.aborting) :
    computation.orAbort.Evaluates room bits value := by
  refine h.concludes.orAbort fun result hresult => ?_
  cases result with
  | ok y => exact hresult
  | error failure => exact hfails failure hresult

theorem ActionOn.Attempts.assigns {computation : Update Unit} {x : Integer} {limit room bits : Nat}
    {fails : Failure → Prop} {value : Int}
    (h : computation.Attempts x limit room fails fun _ y => y.Denotes 0 value)
    (hfails : ∀ failure, fails failure → Outgrows bits failure.aborting) :
    computation.orAbort.Assigns x room bits value := by
  refine h.concludes.orAbort fun result y hresult => ?_
  cases result with
  | ok _ => exact hresult
  | error failure => exact ⟨hresult.1, hfails failure hresult.2⟩

/-- Room that is granted has bits that are counted, so there the expression does have its value. -/
theorem Action.Evaluates.exists_granted {expression : Action Integer} {room bits : Nat}
    {value : Int} (h : expression.Evaluates room bits value) (hgrants : Memory.generous.Grants room)
    (hbits : bits ≤ room) : ∃ y, expression.granted = .ok y ∧ y.Denotes 0 value :=
  (h.of_grants hgrants).exists_ok fun _ hfailure =>
    Nat.not_le_of_lt (lt_of_le_of_lt hbits hgrants.lt) hfailure.2

/-- A replacement that is worked out without a request. -/
theorem ActionOn.assigns_replace {x y : Integer} {value : Int} (h : y.Denotes 0 value) :
    (ActionOn.replace y).Assigns x 0 0 value :=
  fun memory => .inl ⟨h, memory.leadsTo_self⟩

namespace Operator

variable {a b : Integer} {op : Operator}

/-! ## Two operands -/

/-- Only a division has a failure of its own, and only by zero. -/
theorem Fails.outgrows (hdivisor : op = .quotient ∨ op = .remainder → b.toInt ≠ 0)
    {failure : Failure} (h : op.Fails a b failure) :
    Outgrows (op.countedBits a b) failure.aborting := by
  rcases h with hbits | ⟨-, hop, hzero⟩
  · exact hbits.outgrows
  · exact absurd (Integer.toInt_eq_zero.2 hzero) (hdivisor hop)

theorem evaluates_apply (op : Operator) (ha : a.WellFormed) (hb : b.WellFormed)
    (hdivisor : op = .quotient ∨ op = .remainder → b.toInt ≠ 0) (ownership : Ownership) :
    (op.apply ownership a b).Evaluates (op.neededBits a b) (op.countedBits a b)
      (op.value a.toInt b.toInt) := by
  have hfails : ∀ failure, op.Fails a b failure → Outgrows (op.countedBits a b) failure.aborting :=
    fun _ h => h.outgrows hdivisor
  have hleft := (Integer.attempts_into op (a := .dest) (b := .value b) ha ha hb).applyTo
  cases ownership with
  | neither =>
    exact (Integer.attempts_into op (a := .value a) (b := .value b) Integer.wellFormed_zero ha
      hb).applyTo.evaluates hfails
  | right =>
    exact (Integer.attempts_into op (a := .value a) (b := .dest) hb ha hb).applyTo.evaluates hfails
  | left => exact hleft.evaluates hfails
  | both => exact hleft.evaluates hfails

theorem assigns_assign (ha : a.WellFormed) (hb : b.WellFormed)
    (hdivisor : op = .quotient ∨ op = .remainder → b.toInt ≠ 0) :
    (op.assign b).Assigns a (op.neededBits a b) (op.countedBits a b)
      (op.value a.toInt b.toInt) :=
  (Integer.attempts_into op (a := .dest) (b := .value b) ha ha hb).assigns
    fun _ h => h.outgrows hdivisor

/-- In memory that refuses nothing by number, an operator has its value wherever there is room for
it, whoever owns the operands. -/
theorem exists_granted_apply (op : Operator) (ha : a.WellFormed) (hb : b.WellFormed)
    (hdivisor : op = .quotient ∨ op = .remainder → b.toInt ≠ 0)
    (hgrants : Memory.generous.Grants (op.neededBits a b)) (ownership : Ownership) :
    ∃ y, (op.apply ownership a b).granted = .ok y ∧ y.Denotes 0 (op.value a.toInt b.toInt) :=
  (op.evaluates_apply ha hb hdivisor ownership).exists_granted hgrants (op.countedBits_le a b)

/-- A division takes no more room than its dividend has, so there is always room for it. -/
theorem exists_granted_division (hop : op = .quotient ∨ op = .remainder) (ha : a.Sound)
    (hb : b.WellFormed) (hdivisor : b.toInt ≠ 0) (ownership : Ownership) :
    ∃ y, (op.apply ownership a b).granted = .ok y ∧ y.Denotes 0 (op.value a.toInt b.toInt) := by
  have hgrants : Memory.generous.Grants (op.neededBits a b) := by
    rcases hop with rfl | rfl <;> exact ha.generous_grants
  exact exists_granted_apply op ha.wellFormed hb (fun _ => hdivisor) hgrants ownership

/-- The division itself comes first in every form, so nothing is asked for and nothing is written. -/
theorem exec_into_zero (hop : op = .quotient ∨ op = .remainder) {x : Integer} (left right : Operand)
    (hright : (right.resolve x).WellFormed) (hzero : (right.resolve x).toInt = 0)
    (memory : Memory) :
    (op.into left right).orAbort.exec x memory = (.error (.abort .divisionByZero), x, memory) := by
  have hdivided := Integer.exec_divide_zero (a := left.resolve x) hright
    (Integer.toInt_eq_zero.1 hzero) memory
  rw [ActionOn.exec_orAbort]
  rcases hop with rfl | rfl <;>
    simp [Operator.into, ActionOn.exec_bind, hdivided, Failure.aborting]

theorem exec_apply_zero (hop : op = .quotient ∨ op = .remainder) (hb : b.WellFormed)
    (hzero : b.toInt = 0) (ownership : Ownership) (memory : Memory) :
    (op.apply ownership a b).exec memory = (.error (.abort .divisionByZero), memory) := by
  have happlied : ∀ {x : Integer} {left right : Operand}, right.resolve x = b →
      ((op.into left right).applyTo x).orAbort.exec memory =
        (.error (.abort .divisionByZero), memory) := by
    rintro x left right rfl
    have hrun := exec_into_zero hop left right hb hzero memory
    rw [ActionOn.exec_orAbort] at hrun
    rw [Action.exec_orAbort, ActionOn.exec_applyTo]
    rcases hinner : (op.into left right).exec x memory with ⟨failure | _, new, left⟩
    · simp_all [Except.map]
    · simp [hinner] at hrun
  cases ownership <;> exact happlied rfl

end Operator

namespace Integer

/-! ## One operand -/

section

variable {x : Integer} (hx : x.WellFormed)

include hx

theorem WellFormed.denotes : x.Denotes 0 x.toInt := ⟨hx, Nat.zero_le _, rfl⟩

theorem denotes_negate : x.negate.Denotes 0 (-x.toInt) := by
  have h := hx.negate
  refine ⟨h.wellFormed, Nat.zero_le _, ?_⟩
  rw [toInt, h.magnitude_eq, h.negative_eq, toInt]
  by_cases hzero : x.magnitude = 0
  · simp [hzero]
  · cases x.negative <;> simp [hzero]

/-- A shift to the right rounds toward zero. -/
theorem exists_shiftRight (n : Nat) :
    ∃ y, x.shiftRight n = .ok y ∧ y.Denotes 0 (x.toInt.tdiv (2 ^ n)) := by
  obtain ⟨y, hy, h⟩ := hx.shiftRight n
  refine ⟨y, hy, h.wellFormed, Nat.zero_le _, ?_⟩
  have hdivided : (x.magnitude : Int).tdiv (2 ^ n) = (x.magnitude / 2 ^ n : Nat) := by
    rw [Int.ofNat_tdiv]
    simp
  rw [toInt, h.magnitude_eq, h.negative_eq, toInt]
  cases x.negative with
  | false => simp [hdivided]
  | true =>
    by_cases hzero : x.magnitude / 2 ^ n = 0
    · simp [Int.neg_tdiv, hdivided, hzero]
    · simp [Int.neg_tdiv, hdivided, hzero]

theorem attempts_shiftLeft (n : Nat) :
    (shiftLeft n).Attempts x 1 (x.bits + n) (TooManyBits (x.bits + n)) fun _ y =>
      y.Denotes 0 (x.toInt * 2 ^ n) := by
  refine (hx.shiftLeft n).mono le_rfl le_rfl (fun _ h => ⟨.inl h.1, h.2⟩) fun _ y hy => ?_
  refine ⟨hy.wellFormed, Nat.zero_le _, ?_⟩
  rw [toInt, hy.magnitude_eq, hy.negative_eq, toInt]
  cases x.negative <;> simp

theorem concludes_copyOrAbort :
    x.copyOrAbort.Concludes x.bits (· = .abort .growthRefused)
      (Within (fun _ => False) fun y => y.WellFormed ∧ y.toInt = x.toInt ∧ y.bits = x.bits) := by
  refine (@WellFormed.copy x hx fun _ => False).concludes.orAbort fun result hresult => ?_
  cases result with
  | error failure => exact hresult
  | ok y =>
    have hy : y.Holds (roomFor 4 x.bits) x.magnitude x.negative := hresult
    refine ⟨hy.wellFormed, toInt_congr hy.negative_eq hy.magnitude_eq, ?_⟩
    rw [hy.bits_eq, hx.bits_eq]

/-- An operand that is not owned is copied, and the copy takes its part. -/
theorem evaluates_owned (form : Integer → Bool → Action Integer)
    (hcopied : form x false = x.copyOrAbort >>= (form · true)) {room bits : Nat} {value : Int}
    (hroom : x.bits ≤ room)
    (h : ∀ y : Integer, y.WellFormed → y.toInt = x.toInt → y.bits = x.bits →
      (form y true).Evaluates room bits value) (owned : Bool) :
    (form x owned).Evaluates room bits value := by
  cases owned with
  | true => exact h x hx rfl rfl
  | false =>
    rw [hcopied]
    exact ((concludes_copyOrAbort hx).within hroom).bind (fun y hy => h y hy.1 hy.2.1 hy.2.2)
      fun _ hfailure => hfailure.elim

theorem evaluates_negated (owned : Bool) : (x.negated owned).Evaluates x.bits 0 (-x.toInt) := by
  refine evaluates_owned hx negated rfl le_rfl (fun y hy hvalue _ => ?_) owned
  rw [← hvalue]
  exact Action.concludes_pure (denotes_negate hy)

theorem evaluates_shiftedLeft (n : Nat) (owned : Bool) :
    (x.shiftedLeft n owned).Evaluates (x.bits + n) (x.bits + n) (x.toInt * 2 ^ n) := by
  refine evaluates_owned hx (shiftedLeft · n) rfl (Nat.le_add_right _ _)
    (fun y hy hvalue hbits => ?_) owned
  rw [← hvalue, ← hbits]
  exact (attempts_shiftLeft hy n).applyTo.evaluates fun _ h => h.outgrows

theorem evaluates_shiftedRight (n : Nat) (owned : Bool) :
    (x.shiftedRight n owned).Evaluates x.bits 0 (x.toInt.tdiv (2 ^ n)) := by
  refine evaluates_owned hx (shiftedRight · n) rfl le_rfl (fun y hy hvalue _ => ?_) owned
  obtain ⟨z, hz, hholds⟩ := exists_shiftRight hy n
  show (liftM (y.shiftRight n) : Action Integer).Evaluates x.bits 0 _
  rw [hz, ← hvalue]
  exact Action.concludes_pure hholds

end

/-! ## Sums -/

/-- No sum on the way has more bits than the sum of all magnitudes. -/
theorem evaluates_sumFrom {xs : List Integer} (hxs : ∀ x ∈ xs, x.WellFormed) {total : Integer}
    (htotal : total.WellFormed) (bound : Nat)
    (hbound : total.magnitude + (xs.map magnitude).sum ≤ bound) :
    (xs.foldlM (fun total x => Operator.add.apply .left total x) total).Evaluates
      (bitLength bound + 1) (bitLength bound + 1) (total.toInt + (xs.map toInt).sum) := by
  induction xs generalizing total with
  | nil =>
    simp only [List.map_nil, List.sum_nil, add_zero]
    exact Action.concludes_pure htotal.denotes
  | cons x xs ih =>
    obtain ⟨hx, hrest⟩ := List.forall_mem_cons.1 hxs
    rw [List.map_cons, List.sum_cons] at hbound
    have hbits : max total.bits x.bits ≤ bitLength bound := by
      rw [htotal.bits_eq, hx.bits_eq]
      exact max_le (bitLength_mono (by omega)) (bitLength_mono (by omega))
    have hadded := (Operator.evaluates_apply .add htotal hx (by simp) .left).mono
      (Nat.succ_le_succ hbits) (Nat.succ_le_succ hbits)
    rw [List.foldlM_cons]
    refine hadded.bind (fun next hnext => ?_) fun _ hfailure => hfailure
    have hvalue : next.toInt = total.toInt + x.toInt := hnext.toInt_eq
    have hmagnitude : next.magnitude ≤ total.magnitude + x.magnitude := by
      rw [← natAbs_toInt, ← natAbs_toInt total, ← natAbs_toInt x, hvalue]
      exact Int.natAbs_add_le _ _
    have h := ih hrest hnext.wellFormed (by omega)
    rwa [hvalue, add_assoc, ← List.sum_cons, ← List.map_cons] at h

theorem evaluates_sum {xs : List Integer} (hxs : ∀ x ∈ xs, x.WellFormed) :
    (sum xs).Evaluates (bitLength (xs.map magnitude).sum + 1)
      (bitLength (xs.map magnitude).sum + 1) (xs.map toInt).sum := by
  have h := evaluates_sumFrom hxs wellFormed_zero (xs.map magnitude).sum
    (by simp [holds_zero.magnitude_eq])
  rwa [show zero.toInt = 0 from rfl, zero_add] at h

/-! ## All forms -/

/-- Whichever operands are owned, and whether it is assigned or not, the value of an expression is that
of the integers, and so is the sum of a list. A divisor of zero is told in every form before
anything else happens. -/
theorem expressions_evaluate_to_integers {a b : Integer} (ha : a.WellFormed) (hb : b.WellFormed) :
    (∀ op : Operator, op = .quotient ∨ op = .remainder → b.toInt = 0 → ∀ memory : Memory,
      (∀ ownership, (op.apply ownership a b).exec memory =
        (.error (.abort .divisionByZero), memory)) ∧
      (op.assign b).exec a memory = (.error (.abort .divisionByZero), a, memory)) ∧
    (∀ op : Operator, (op = .quotient ∨ op = .remainder → b.toInt ≠ 0) →
      (∀ ownership, (op.apply ownership a b).Evaluates (op.neededBits a b) (op.countedBits a b)
        (op.value a.toInt b.toInt)) ∧
      (op.assign b).Assigns a (op.neededBits a b) (op.countedBits a b)
        (op.value a.toInt b.toInt)) ∧
    ((∀ owned, (a.negated owned).Evaluates a.bits 0 (-a.toInt)) ∧
      Edit.negate.update.Assigns a 0 0 (-a.toInt)) ∧
    (∀ n, (∀ owned, (a.shiftedLeft n owned).Evaluates (a.bits + n) (a.bits + n)
        (a.toInt * 2 ^ n)) ∧
      (Edit.shiftLeftOrAbort n).update.Assigns a (a.bits + n) (a.bits + n) (a.toInt * 2 ^ n)) ∧
    (∀ n, (∀ owned, (a.shiftedRight n owned).Evaluates a.bits 0 (a.toInt.tdiv (2 ^ n))) ∧
      (Edit.shiftRight n).update.Assigns a 0 0 (a.toInt.tdiv (2 ^ n))) ∧
    ∀ xs : List Integer, (∀ x ∈ xs, x.WellFormed) →
      (sum xs).Evaluates (bitLength (xs.map magnitude).sum + 1)
        (bitLength (xs.map magnitude).sum + 1) (xs.map toInt).sum := by
  refine ⟨?_, ?_, ?_, ?_, ?_, fun xs hxs => evaluates_sum hxs⟩
  · intro op hop hzero memory
    exact ⟨fun ownership => Operator.exec_apply_zero hop hb hzero ownership memory,
      Operator.exec_into_zero hop .dest (.value b) hb hzero memory⟩
  · intro op hdivisor
    exact ⟨op.evaluates_apply ha hb hdivisor, Operator.assigns_assign ha hb hdivisor⟩
  · exact ⟨evaluates_negated ha, ActionOn.assigns_replace (denotes_negate ha)⟩
  · intro n
    exact ⟨evaluates_shiftedLeft ha n, (attempts_shiftLeft ha n).assigns fun _ h => h.outgrows⟩
  · intro n
    obtain ⟨y, hy, hholds⟩ := exists_shiftRight ha n
    exact ⟨evaluates_shiftedRight ha n,
      ActionOn.concludes_checked hy (ActionOn.assigns_replace hholds)⟩

theorem expressions_of_minus_seven_and_two :
    ∃ a b : Integer, a.WellFormed ∧ b.WellFormed ∧
      (Operator.quotient.apply .right a b).Evaluates 3 0 (-3) ∧
      (Operator.sub.apply .right a b).Evaluates 4 4 (-9) ∧
      (Operator.remainder.assign b).Assigns a 3 0 (-1) ∧
      (a.shiftedRight 1 false).Evaluates 3 0 (-3) ∧
      (sum [a, b, a]).Evaluates 6 6 (-12) := by
  have ha : WellFormed ⟨[7, 0, 0, 0], 3, true⟩ :=
    wellFormed_of_bits (by decide) (by decide) (by decide) (by decide) (by decide)
  have hb : WellFormed ⟨[2, 0, 0, 0], 2, false⟩ :=
    wellFormed_of_bits (by decide) (by decide) (by decide) (by decide) (by decide)
  obtain ⟨-, hbinary, -, -, hshifted, hsum⟩ := expressions_evaluate_to_integers ha hb
  have hdivisor : ∀ op : Operator, op = .quotient ∨ op = .remainder →
      toInt ⟨[2, 0, 0, 0], 2, false⟩ ≠ 0 := fun _ _ => by decide
  refine ⟨_, _, ha, hb, (hbinary _ (hdivisor _)).1 .right, (hbinary _ (hdivisor _)).1 .right,
    (hbinary _ (hdivisor _)).2, (hshifted 1).1 false, hsum _ ?_⟩
  simp [ha, hb]

end Integer

end Multiword
