import Multiword.Proofs.Session.Command

/-!
# Division with outputs

Division of magnitudes is Euclidean, and that of integers rounds toward zero. Quotient and remainder
are computed together, and each goes into the register that asks for it, if one does.
-/

set_option autoImplicit false

namespace Multiword

/-! ## Outputs -/

namespace Machine

variable {size : Nat}

/-- The bank with a result in the register that asks for it, if one does. -/
def Bank.output (bank : Bank size) (register : Option (Register size)) (value : Integer) :
    Bank size :=
  match register with
  | none => bank
  | some x => bank.set x value x.isLt

theorem exec_output (register : Option (Register size)) (value : Integer) (bank : Bank size)
    (memory : Memory) :
    (register.forM (write · value) : Session size PUnit).exec bank memory =
      (.ok (), bank.output register value, memory) := by
  cases register with
  | none => rfl
  | some x => rfl

/-- The outputs are written after the whole division, each on its own. -/
theorem exec_divideMagnitudes (q r : Option (Register size)) (i j : Register size)
    (bank : Bank size) (memory : Memory) :
    (perform (.divideMagnitudes q r .neither i j)).exec bank memory =
      match (Integer.divideMagnitudes (bank.get i) (bank.get j)).exec memory with
      | (.ok d, after) => (.ok .done, (bank.output q d.quotient).output r d.remainder, after)
      | (.error failure, after) => (.error failure, bank, after) := by
  show (do
    let division ← Integer.divideMagnitudes (bank.get i) (bank.get j)
    q.forM (write · division.quotient)
    r.forM (write · division.remainder)
    pure .done : Session size Answer).exec bank memory = _
  rw [ActionOn.exec_bind, ActionOn.exec_action]
  rcases (Integer.divideMagnitudes (bank.get i) (bank.get j)).exec memory with ⟨failure | d, after⟩
  · rfl
  · simp only [ActionOn.exec_bind, exec_output, ActionOn.exec_pure]

/-! ## Division as a whole -/

/-- A divisor of zero is reported at once. Any other divisor gives the quotient and the remainder if
room is granted, and can only fail for the lack of it. The outputs that are asked for get the same
two results as the division that returns both, whoever owns the operands; no other register
changes. -/
theorem division_is_euclidean_and_truncating {a b : Integer} (ha : a.WellFormed)
    (hb : b.WellFormed) :
    (b.magnitude = 0 → ∀ memory : Memory,
      (∀ ownership, (Integer.divideOf ownership a b).exec memory =
        (.error (.error .divisionByZero), memory)) ∧
      (Integer.divide a b).exec memory = (.error (.error .divisionByZero), memory)) ∧
    (b.magnitude ≠ 0 →
      (∀ ownership, (Integer.divideOf ownership a b).Attempts 4 a.bits (fun _ => False) fun d =>
        d.Euclidean a.magnitude b.magnitude) ∧
      (Integer.divide a b).Attempts 4 a.bits (fun _ => False) fun d =>
        d.Truncating a.toInt b.toInt) ∧
    ∀ {size : Nat} (bank : Bank size) (q r : Option (Register size)) (i j : Register size)
      (ownership : Ownership) (memory : Memory), bank.get i = a → bank.get j = b →
      (perform (.divideMagnitudes q r .neither i j)).exec bank memory =
        match (Integer.divideOf ownership a b).exec memory with
        | (.ok d, after) => (.ok .done, (bank.output q d.quotient).output r d.remainder, after)
        | (.error failure, after) => (.error failure, bank, after) := by
  refine ⟨?_, ?_, ?_⟩
  · intro hzero memory
    refine ⟨fun ownership => ?_, Integer.exec_divide_zero hb hzero memory⟩
    unfold Integer.divideOf
    rw [Integer.divideMagnitudes_zero hb hzero]
    rfl
  · intro hb0
    refine ⟨fun ownership => ?_, ?_⟩
    · exact (Integer.attempts_divideMagnitudes ha hb).mono le_rfl le_rfl (fun _ h => hb0 h.2)
        fun d hd => hd.2.euclidean hb0
    · exact (Integer.attempts_divide ha hb).mono le_rfl le_rfl (fun _ h => hb0 h.2) fun d hd =>
        hd.2.1.truncating hd.2.2 fun h => hb0 (Integer.toInt_eq_zero.1 h)
  · rintro size bank q r i j ownership memory rfl rfl
    exact exec_divideMagnitudes q r i j bank memory

theorem division_of_minus_seven_by_two :
    ∃ a b : Integer, a.WellFormed ∧ b.WellFormed ∧ b.magnitude ≠ 0 ∧
      (Integer.divideOf .left a b).Attempts 4 3 (fun _ => False) (fun d => d.Euclidean 7 2) ∧
      (Integer.divide a b).Attempts 4 3 (fun _ => False) fun d => d.Truncating (-7) 2 := by
  have ha : Integer.WellFormed ⟨[7, 0, 0, 0], 3, true⟩ :=
    Integer.wellFormed_of_bits (by decide) (by decide) (by decide) (by decide) (by decide)
  have hb : Integer.WellFormed ⟨[2, 0, 0, 0], 2, false⟩ :=
    Integer.wellFormed_of_bits (by decide) (by decide) (by decide) (by decide) (by decide)
  have hb0 : Integer.magnitude ⟨[2, 0, 0, 0], 2, false⟩ ≠ 0 := by decide
  obtain ⟨hmagnitudes, hsigned⟩ := (division_is_euclidean_and_truncating ha hb).2.1 hb0
  exact ⟨_, _, ha, hb, hb0, hmagnitudes .left, hsigned⟩

end Machine

end Multiword
