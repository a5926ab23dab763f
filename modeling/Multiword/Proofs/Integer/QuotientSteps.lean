import Multiword.Proofs.Integer.Quiet
import Multiword.Proofs.Integer.Quotient

/-!
# Every step of a division

A division of a larger magnitude by a smaller one, of two bits at least, comes to the long division. All
that can be refused in it is refused before the first step: from there on every step settles, so that no
buffer grows and nothing fails, and the invariant holds at its head. One record is left at the end.
-/

set_option autoImplicit false

namespace Multiword

namespace LongDivision

/-- The bits of the steps run down to zero, so the number of those after it tells each of them. -/
theorem eq_length_of_range {n bit : Nat} {before after : List Nat}
    (h : (List.range n).reverse = before ++ bit :: after) : bit = after.length := by
  induction before generalizing n with
  | nil =>
    cases n with
    | zero => simp at h
    | succ n =>
      rw [reverse_range_succ, List.nil_append, List.cons.injEq] at h
      rw [← h.1, ← h.2, List.length_reverse, List.length_range]
  | cons first before ih =>
    cases n with
    | zero => simp at h
    | succ n =>
      rw [reverse_range_succ, List.cons_append, List.cons.injEq] at h
      exact ih h.2

/-- Whatever steps have been made, the next one finds the state that it needs, and settles. -/
theorem Invariant.settles_steps_atHead {a b left : Nat} {s : LongDivision} (h : s.Invariant a b left)
    {before after : List Nat} {bit : Nat}
    (hbits : (List.range left).reverse = before ++ bit :: after) :
    (s.steps before).Settles fun t => t.AtHead a b bit ∧ (t.step bit).Settles t.SameRoom := by
  refine (h.steps hbits).mono fun t ⟨ht, _⟩ => ?_
  rw [List.length_cons, ← eq_length_of_range hbits] at ht
  exact ⟨ht.atHead, ht.step.mono fun _ hu => hu.2⟩

end LongDivision

namespace Integer

theorem WellFormed.one_lt_bits {x : Integer} (hx : x.WellFormed) (h : 2 ≤ x.magnitude) :
    1 < x.bits := by
  rw [hx.bits_eq, lt_bitLength]
  exact h

section

variable {a b : Integer} (ha : a.WellFormed) (hb : b.WellFormed)

include ha hb

/-- The record of a division holds the number of its places and of the bits of its quotient that are
set. -/
theorem leaves_divideLong (hpos : 1 < b.bits) (hle : b.bits ≤ a.bits) :
    (divideLong a b).Leaves fun _ records => records = [.division a.bits b.bits
      (a.bits - b.bits + 1) (a.magnitude / b.magnitude).bitIndices.length] := by
  have hstart : (LongDivision.start a b).Attempts 4 a.bits (fun _ => False) _ :=
    LongDivision.attempts_start ha hb hpos hle
  rw [divideLong_eq ha hpos hle]
  refine hstart.makes.bind_leaves (LongDivision.quiet_start a b) fun aligned haligned => ?_
  have hsteps := (haligned.1.steps (List.append_nil _).symm).makes
  refine hsteps.bind_leaves (LongDivision.quiet_steps _ _) fun done hdone => ?_
  have hcount : done.subtractions = (a.magnitude / b.magnitude).bitIndices.length := by
    rw [← hdone.1.divides.quotient.magnitude_eq]
    exact hdone.1.subtractions_eq
  have hrecord : (Action.record (.division a.bits b.bits (a.bits - b.bits + 1)
      done.subtractions)).Leaves fun _ records => records = [.division a.bits b.bits
        (a.bits - b.bits + 1) (a.magnitude / b.magnitude).bitIndices.length] :=
    Action.leaves_record (by rw [hcount])
  refine hrecord.bind fun _ first hfirst => Action.leaves_pure ?_
  rw [hfirst, List.append_nil]

variable (hmany : 2 ≤ b.magnitude) (hlt : b.magnitude < a.magnitude)

include hmany hlt

/-- The other cases of a division are for divisors below two and for dividends that are no larger. -/
theorem divideMagnitudes_eq_divideLong : divideMagnitudes a b = divideLong a b := by
  have hbits := hb.one_lt_bits hmany
  have hb0 : b.magnitude ≠ 0 := by omega
  have ha0 : a.magnitude ≠ 0 := by omega
  unfold divideMagnitudes
  rw [hb.isZero_eq, if_neg (by simp [hb0]), ha.isZero_eq, if_neg (by simp [ha0]),
    if_neg hbits.ne', Action.checked_bind (ha.compareMagnitudes_eq hb), Nat.compare_eq_gt.2 hlt]

/-- What holds at the head of every step of a division: the divisor is at the place of the step, the
quotient so far times the divisor of the caller and the remainder give the dividend, one subtraction is
enough, and every subtraction so far has set a bit of the quotient above that place. The step itself
settles in the buffers that are there. So a division can fail only before its first step, at one of four
requests for room; and the counts that it writes down are those of its places and of the bits that are
set in its quotient. -/
theorem division_steps_exact_without_growth :
    divideMagnitudes a b = divideLong a b ∧
    ((LongDivision.start a b).Attempts 4 a.bits (fun _ => False) fun aligned =>
      ∀ before bit after, (List.range (a.bits - b.bits + 1)).reverse = before ++ bit :: after →
        (aligned.steps before).Settles fun s =>
          s.AtHead a.magnitude b.magnitude bit ∧ (s.step bit).Settles s.SameRoom) ∧
    ((divideMagnitudes a b).Attempts 4 a.bits (fun _ => False) fun d =>
      d.Divides a.magnitude b.magnitude) ∧
    (divideMagnitudes a b).Leaves fun _ records => records = [.division a.bits b.bits
      (a.bits - b.bits + 1) (a.magnitude / b.magnitude).bitIndices.length] := by
  have hbits := hb.one_lt_bits hmany
  have hle : b.bits ≤ a.bits := hb.bits_mono ha hlt.le
  have hlong := divideMagnitudes_eq_divideLong ha hb hmany hlt
  refine ⟨hlong, ?_, ?_, ?_⟩
  · refine (LongDivision.attempts_start ha hb hbits hle).imp fun aligned h before bit after hrange => ?_
    exact h.1.settles_steps_atHead hrange
  · rw [hlong]
    exact (attempts_divideLong ha hb hbits hle).imp fun _ hd => hd.1
  · rw [hlong]
    exact leaves_divideLong ha hb hbits hle

end

/-- `45` by `-6` takes four steps, and `7` has three bits that are set. -/
theorem steps_of_forty_five_by_minus_six_exact :
    ∃ a b : Integer, a.WellFormed ∧ b.WellFormed ∧ a.toInt = 45 ∧ b.toInt = -6 ∧
      2 ≤ b.magnitude ∧ b.magnitude < a.magnitude ∧
      ((LongDivision.start a b).Attempts 4 6 (fun _ => False) fun aligned =>
        (aligned.steps [3, 2]).Settles fun s => s.AtHead 45 6 1 ∧ (s.step 1).Settles s.SameRoom) ∧
      (divideMagnitudes a b).Leaves fun _ records => records = [.division 6 3 4 3] := by
  have ha : WellFormed ⟨[45, 0, 0, 0], 6, false⟩ :=
    wellFormed_of_bits (by decide) (by decide) (by decide) (by decide) (by decide)
  have hb : WellFormed ⟨[6, 0, 0, 0], 3, true⟩ :=
    wellFormed_of_bits (by decide) (by decide) (by decide) (by decide) (by decide)
  obtain ⟨-, hsteps, -, hleaves⟩ :=
    division_steps_exact_without_growth ha hb (by decide) (by decide)
  have hcount : (45 / 6).bitIndices.length = 3 := by cbv
  refine ⟨_, _, ha, hb, rfl, rfl, by decide, by decide, ?_, ?_⟩
  · exact hsteps.imp fun aligned h => h [3, 2] 1 [0] rfl
  · rw [← hcount]
    exact hleaves

end Integer

end Multiword
