import Multiword.Proofs.Session.Command

/-!
# What a run keeps

Every command commits. So all registers are well formed after every step of a run, whatever room is
refused, and no step that fails has changed anything.
-/

set_option autoImplicit false

namespace Multiword

namespace Machine

variable {size : Nat} {bank : Bank size}

/-! ## One step -/

/-- A step leaves all registers well formed, however it ends. -/
theorem Step.wellFormed_run (hbank : bank.WellFormed) (step : Step size) :
    (step.run bank).bank.WellFormed := by
  have hcommits := commits_perform hbank step.command (Memory.new step.refuses)
  obtain ⟨answer, new, after, hrun, hnew⟩ | ⟨failure, after, hrun⟩ := hcommits
  · simpa only [Step.run, hrun] using hnew
  · simpa only [Step.run, hrun] using hbank

/-- A command that fails, because room was refused or for any other reason, leaves every register
as it was: the sign, the bit count, the words and the capacity. -/
theorem failed_command_changes_nothing (hbank : bank.WellFormed) (command : Command size)
    {memory after : Memory} {failure : Failure} {new : Bank size}
    (hfailed : (perform command).exec bank memory = (.error failure, new, after)) : new = bank := by
  rcases commits_perform hbank command memory with ⟨_, _, _, hrun, -⟩ | ⟨_, _, hrun⟩
  · rw [hrun] at hfailed
    cases hfailed
  · rw [hrun] at hfailed
    cases hfailed
    rfl

theorem failed_doubling_changes_nothing :
    ∃ (bank new : Bank 1) (after : Memory), bank.WellFormed ∧
      (perform (.combine .addMagnitudes 0 0 0)).exec bank (Memory.new fun n => n == 0) =
        (.error (.error .growthRefused), new, after) ∧ new = bank := by
  have hwellFormed : Integer.WellFormed ⟨[0, 0, 0, 0x80000000], 128, true⟩ :=
    Integer.wellFormed_of_bits (by decide) (by decide) (by decide) (by decide) (by decide)
  have hbank : Bank.WellFormed #v[⟨[0, 0, 0, 0x80000000], 128, true⟩] := by
    intro a
    rw [Fin.fin_one_eq_zero a]
    exact hwellFormed
  have hfailed : (perform (.combine .addMagnitudes 0 0 0)).exec
      #v[⟨[0, 0, 0, 0x80000000], 128, true⟩] (Memory.new fun n => n == 0) = _ := rfl
  exact ⟨_, _, _, hbank, hfailed, failed_command_changes_nothing hbank _ hfailed⟩

/-! ## Many steps -/

/-- Each step starts from what the one before left, so all of them leave the registers well
formed. -/
theorem wellFormed_of_mem_runAll {steps : List (Step size)} (hbank : bank.WellFormed)
    {report : Report size} (h : report ∈ runAll steps bank) : report.bank.WellFormed := by
  induction steps generalizing bank with
  | nil => exact absurd h List.not_mem_nil
  | cons step steps ih =>
    have hstep := step.wellFormed_run hbank
    rcases List.mem_cons.1 h with rfl | hlater
    · exact hstep
    · exact ih hstep hlater

/-- Whatever steps a machine runs from zero on, and whatever room they are refused: after each of
them the buffer of every integer is of a multiple of four words, the bit count is exact and fits the
buffer, the highest word in use is not zero and those above it are, and zero has no sign. -/
theorem registers_sound_after_every_step {steps : List (Step size)} {report : Report size}
    (hreport : report ∈ runAll steps (Bank.initial size)) {x : Integer} (hx : x ∈ report.bank) :
    0 < x.capacity ∧ 4 ∣ x.capacity ∧ x.bits ≤ 32 * x.capacity ∧ x.bits = bitLength x.magnitude ∧
      (0 < x.bits → ∃ w, x.buffer[(x.bits - 1) / 32]? = some w ∧ w ≠ 0) ∧
      (∀ i w, wordsFor x.bits ≤ i → x.buffer[i]? = some w → w = 0) ∧
      (x.bits = 0 → x.negative = false) := by
  have hbank := wellFormed_of_mem_runAll Bank.wellFormed_initial hreport
  obtain ⟨a, ha, rfl⟩ := Vector.getElem_of_mem hx
  have hwellFormed := hbank ⟨a, ha⟩
  refine ⟨hwellFormed.buffer_pos, hwellFormed.four_dvd, wordsFor_le.1 hwellFormed.size_le,
    hwellFormed.bits_eq, hwellFormed.exists_top_word, ?_, hwellFormed.sign⟩
  intro i w hi hw
  exact hwellFormed.getElem?_above hi hw

theorem registers_sound_after_refused_shift :
    ∃ report ∈ runAll [⟨.edit 0 (.setUnsigned 5), fun _ => true⟩,
        ⟨.edit 0 (.shiftLeft 200), fun _ => true⟩] (Bank.initial 1),
      report.outcome = .error (.error .growthRefused) ∧
        ∃ x ∈ report.bank, x.bits = 3 ∧ 4 ∣ x.capacity ∧
          ∃ w, x.buffer[(x.bits - 1) / 32]? = some w ∧ w ≠ 0 := by
  have hreport : ∀ first second : Step 1, second.run (first.run (Bank.initial 1)).bank ∈
      runAll [first, second] (Bank.initial 1) :=
    fun _ _ => List.mem_cons_of_mem _ List.mem_cons_self
  refine ⟨_, hreport _ _, by decide, _, Vector.getElem_mem Nat.one_pos, by decide, ?_⟩
  obtain ⟨-, hfour, -, -, htop, -⟩ := registers_sound_after_every_step
    (hreport ⟨.edit 0 (.setUnsigned 5), fun _ => true⟩ ⟨.edit 0 (.shiftLeft 200), fun _ => true⟩)
    (Vector.getElem_mem Nat.one_pos)
  exact ⟨hfour, htop (by decide)⟩

end Machine

end Multiword
