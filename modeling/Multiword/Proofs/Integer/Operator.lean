import Multiword.Integer.Operator
import Multiword.Integer.Native
import Multiword.Proofs.Integer.Divisor
import Multiword.Proofs.Integer.Product
import Multiword.Proofs.Integer.Quotient
import Multiword.Proofs.Run.Commit

/-!
# Operators compute integers

Whichever operands an expression owns, the result of an operator is that of the integers, and the
greatest common divisor is the same by every way to ask for it. An operator in place leaves its
destination alone where it aborts.
-/

set_option autoImplicit false

namespace Multiword

/-- The operator on integers: division rounds toward zero. -/
def Operator.value : Operator → Int → Int → Int
  | .add, a, b => a + b
  | .sub, a, b => a - b
  | .mul, a, b => a * b
  | .quotient, a, b => a.tdiv b
  | .remainder, a, b => a.tmod b

/-- The bits that an operator counts up before it asks for room. A division counts none that its
operands do not have. -/
def Operator.countedBits (op : Operator) (a b : Integer) : Nat :=
  match op with
  | .add | .sub => max a.bits b.bits + 1
  | .mul => (a.size + b.size) * 32
  | .quotient | .remainder => 0

@[simp] theorem Operator.countedBits_add (a b : Integer) :
    Operator.add.countedBits a b = max a.bits b.bits + 1 := rfl

@[simp] theorem Operator.countedBits_sub (a b : Integer) :
    Operator.sub.countedBits a b = max a.bits b.bits + 1 := rfl

/-- The bits that an operator asks room for at most. A division needs no more than its dividend. -/
def Operator.neededBits (op : Operator) (a b : Integer) : Nat :=
  match op with
  | .add | .sub => max a.bits b.bits + 1
  | .mul => (a.size + b.size) * 32
  | .quotient | .remainder => a.bits

theorem Operator.countedBits_le (op : Operator) (a b : Integer) :
    op.countedBits a b ≤ op.neededBits a b := by
  cases op <;> simp [countedBits, neededBits]

/-- How the computation of an operator fails by itself. -/
def Operator.Fails (op : Operator) (a b : Integer) (failure : Failure) : Prop :=
  TooManyBits (op.countedBits a b) failure ∨
    failure = .error .divisionByZero ∧ (op = .quotient ∨ op = .remainder) ∧ b.magnitude = 0

namespace Integer

open ActionOn (attempts_current attempts_action settles_replace)

/-! ## Two operands -/

theorem attempts_into (op : Operator) {x : Integer} {a b : Operand} (hx : x.WellFormed)
    (ha : (a.resolve x).WellFormed) (hb : (b.resolve x).WellFormed) :
    (op.into a b).Attempts x 4 (op.neededBits (a.resolve x) (b.resolve x))
      (op.Fails (a.resolve x) (b.resolve x)) fun _ y =>
      y.Denotes 0 (op.value (a.resolve x).toInt (b.resolve x).toInt) := by
  have hdivided : ∀ {op : Operator}, op = .quotient ∨ op = .remainder →
      (divide (a.resolve x) (b.resolve x)).Attempts 4 (a.resolve x).bits
        (op.Fails (a.resolve x) (b.resolve x)) fun d =>
        d.quotient.Denotes 0 ((a.resolve x).toInt.tdiv (b.resolve x).toInt) ∧
        d.remainder.Denotes 0 ((a.resolve x).toInt.tmod (b.resolve x).toInt) :=
    fun hop => (attempts_divide ha hb).mono le_rfl le_rfl (fun _ h => .inr ⟨h.1, hop, h.2⟩)
      fun _ hd => hd.2
  cases op with
  | add =>
    refine (attempts_addWithSigns hx ha hb false).mono (by decide) le_rfl (fun _ => .inl)
      fun _ y hy => ⟨hy.wellFormed, Nat.zero_le _, hy.toInt_eq⟩
  | sub =>
    refine (attempts_addWithSigns hx ha hb true).mono (by decide) le_rfl (fun _ => .inl)
      fun _ y hy => ⟨hy.wellFormed, Nat.zero_le _, hy.toInt_eq.trans (sub_eq_add_neg _ _).symm⟩
  | mul =>
    exact (attempts_mul hx ha hb).mono (by decide) le_rfl (fun _ => .inl) fun _ y hy => hy
  | quotient =>
    exact attempts_current ((attempts_action (hdivided (.inl rfl))).bind_settles fun d y hd =>
      settles_replace hd.2.1)
  | remainder =>
    exact attempts_current ((attempts_action (hdivided (.inr rfl))).bind_settles fun d y hd =>
      settles_replace hd.2.2)

theorem makes_apply (op : Operator) (ownership : Ownership) {a b : Integer} (ha : a.WellFormed)
    (hb : b.WellFormed) :
    (op.apply ownership a b).Makes fun y => y.Denotes 0 (op.value a.toInt b.toInt) := by
  cases ownership with
  | neither =>
    exact (attempts_into op (a := .value a) (b := .value b) wellFormed_zero ha hb).applyTo.makes.orAbort
  | right =>
    exact (attempts_into op (a := .value a) (b := .dest) hb ha hb).applyTo.makes.orAbort
  | left =>
    exact (attempts_into op (a := .dest) (b := .value b) ha ha hb).applyTo.makes.orAbort
  | both =>
    exact (attempts_into op (a := .dest) (b := .value b) ha ha hb).applyTo.makes.orAbort

theorem commits_assign (op : Operator) {x b : Integer} (hx : x.WellFormed) (hb : b.WellFormed) :
    (op.assign b).Commits x fun _ y => y.Denotes 0 (op.value x.toInt b.toInt) :=
  (attempts_into op (a := .dest) (b := .value b) hx hx hb).commits.orAbort

/-! ## Sums -/

theorem makes_sum {xs : List Integer} (hxs : ∀ x ∈ xs, x.WellFormed) :
    (sum xs).Makes fun y => y.Denotes 0 (xs.map toInt).sum := by
  -- the sum so far goes first in what is left to prove
  have hfold : ∀ {total : Integer}, total.WellFormed →
      (xs.foldlM (fun total x => Operator.add.apply .left total x) total).Makes fun y =>
        y.Denotes 0 (total.toInt + (xs.map toInt).sum) := by
    induction xs with
    | nil =>
      intro total htotal
      refine Action.makes_pure ⟨htotal, Nat.zero_le _, ?_⟩
      simp
    | cons x xs ih =>
      intro total htotal
      have hx : x.WellFormed := hxs x List.mem_cons_self
      have hrest : ∀ y ∈ xs, y.WellFormed := fun y hy => hxs y (List.mem_cons_of_mem x hy)
      rw [List.foldlM_cons]
      refine (makes_apply .add .left htotal hx).bind ?_
      intro next hnext
      refine (ih hrest hnext.wellFormed).mono ?_
      intro y hy
      have hvalue : next.toInt = total.toInt + x.toInt := hnext.toInt_eq
      rwa [hvalue, add_assoc, ← List.sum_cons, ← List.map_cons] at hy
  have h := hfold wellFormed_zero
  rwa [show zero.toInt = 0 from rfl, zero_add] at h

/-! ## Common divisors -/

theorem attempts_gcdOf (ownership : Ownership) {a b : Integer} (ha : a.WellFormed)
    (hb : b.WellFormed) {fails : Failure → Prop} :
    (gcdOf ownership a b).Attempts 2 (max a.bits b.bits) fails fun y =>
      y.Reaches 0 (divisorOf a.magnitude b.magnitude) false := by
  unfold gcdOf
  split
  · exact ((attempts_gcdMagnitudes (a := .dest) (b := .value b) ha ha hb).mono
      (divisorGrowths_le _ _) le_rfl (fun _ h => h) fun _ _ hy => hy).applyTo
  · exact ((attempts_gcdMagnitudes (a := .value a) (b := .value b) wellFormed_zero ha hb).mono
      (divisorGrowths_le _ _) le_rfl (fun _ h => h) fun _ _ hy => hy).applyTo

/-- The greatest common divisor of two magnitudes, by whatever way it is asked for: with a
destination that may be one of the operands or both, from two numbers that are used up and not zero,
or as a value. It is never negative, zero if an operand is zero, and fails only for the lack of
room. -/
theorem gcd_correct_in_every_form {u v : Integer} (hu : u.WellFormed) (hv : v.WellFormed) :
    (∀ (x : Integer) (a b : Operand), x.WellFormed → a.resolve x = u → b.resolve x = v →
      (gcdMagnitudes a b).Attempts x 2 (max u.bits v.bits) (fun _ => False) fun _ y =>
        y.Reaches 0 (divisorOf u.magnitude v.magnitude) false) ∧
    (u.magnitude ≠ 0 → v.magnitude ≠ 0 → (gcd u v).Attempts 0 0 (fun _ => False) fun y =>
      y.Reaches 0 (Nat.gcd u.magnitude v.magnitude) false) ∧
    ∀ ownership, (gcdOf ownership u v).Attempts 2 (max u.bits v.bits) (fun _ => False) fun y =>
      y.Reaches 0 (divisorOf u.magnitude v.magnitude) false := by
  refine ⟨?_, ?_, fun ownership => attempts_gcdOf ownership hu hv⟩
  · rintro x a b hx rfl rfl
    exact (attempts_gcdMagnitudes hx hu hv).mono (divisorGrowths_le _ _) le_rfl (fun _ h => h)
      fun _ _ hy => hy
  · intro hu0 hv0
    exact (settles_gcd hu hv hu0 hv0).attempts.imp fun y hy =>
      ⟨hy.1.wellFormed, Nat.zero_le _, hy.1.magnitude_eq, hy.2⟩

theorem gcd_of_twelve_and_minus_eighteen :
    ∃ u v : Integer, u.WellFormed ∧ v.WellFormed ∧ u.toInt = 12 ∧ v.toInt = -18 ∧
      ((gcdMagnitudes (.value v) .dest).Attempts u 2 5 (fun _ => False) fun _ y =>
        y.Reaches 0 6 false) ∧
      ((gcd u v).Attempts 0 0 (fun _ => False) fun y => y.Reaches 0 6 false) ∧
      (gcdOf .both u v).Attempts 2 5 (fun _ => False) fun y => y.Reaches 0 6 false := by
  have hu : WellFormed ⟨[12, 0, 0, 0], 4, false⟩ :=
    wellFormed_of_bits (by decide) (by decide) (by decide) (by decide) (by decide)
  have hv : WellFormed ⟨[18, 0, 0, 0], 5, true⟩ :=
    wellFormed_of_bits (by decide) (by decide) (by decide) (by decide) (by decide)
  obtain ⟨hdest, -, -⟩ := gcd_correct_in_every_form hv hu
  obtain ⟨-, hpair, hvalue⟩ := gcd_correct_in_every_form hu hv
  exact ⟨_, _, hu, hv, rfl, rfl, hdest _ (.value _) .dest hu rfl rfl, hpair (by decide) (by decide),
    hvalue .both⟩

/-! ## One operand -/

section

variable {x : Integer} (hx : x.WellFormed)

include hx

theorem makes_copyOrAbort : x.copyOrAbort.Makes WellFormed :=
  hx.makes_copy.orAbort.mono fun _ hy => hy.wellFormed

theorem makes_negated (owned : Bool) : (x.negated owned).Makes WellFormed := by
  have hnegate : ∀ {y : Integer}, y.WellFormed → (pure y.negate : Action Integer).Makes WellFormed :=
    fun hy => Action.makes_pure hy.negate.wellFormed
  cases owned with
  | false => exact (makes_copyOrAbort hx).bind fun _ hy => hnegate hy
  | true => exact hnegate hx

theorem makes_shiftedLeft (n : Nat) (owned : Bool) : (x.shiftedLeft n owned).Makes WellFormed := by
  have hshift : ∀ {y : Integer}, y.WellFormed →
      (((shiftLeft n).applyTo y).orAbort).Makes WellFormed :=
    fun hy => (hy.shiftLeft n).applyTo.makes.orAbort.mono fun _ hz => hz.wellFormed
  cases owned with
  | false => exact (makes_copyOrAbort hx).bind fun _ hy => hshift hy
  | true => exact hshift hx

theorem makes_shiftedRight (n : Nat) (owned : Bool) :
    (x.shiftedRight n owned).Makes WellFormed := by
  have hshift : ∀ {y : Integer}, y.WellFormed →
      (liftM (y.shiftRight n) : Action Integer).Makes WellFormed := by
    intro y hy
    obtain ⟨z, hz, hholds⟩ := hy.shiftRight n
    rw [hz]
    exact Action.makes_pure hholds.wellFormed
  cases owned with
  | false => exact (makes_copyOrAbort hx).bind fun _ hy => hshift hy
  | true => exact hshift hx

end

end Integer

end Multiword
