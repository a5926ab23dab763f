import Multiword.Proofs.Integer.Divisor
import Multiword.Proofs.Run.Heed

/-!
# What a common divisor asks for

The search in place asks for nothing, so whatever memory would refuse does not matter to it. All that
the general form asks for are the copies that the search may use up; what memory answers after these
does not matter either.
-/

set_option autoImplicit false

namespace Multiword

namespace Integer

open ActionOn (heeds_current heeds_checked heeds_action heeds_pure heeds_replace)

/-! ## Copies -/

/-- The only answer that growth heeds is the one to its own request. -/
theorem heeds_ensureCapacity (bits : Nat) (x : Integer) : (ensureCapacity bits).Heeds x 1 := by
  unfold ensureCapacity
  refine heeds_current ?_
  show ActionOn.Heeds (if x.capacity < wordsFor bits then _ else _) x 1
  split
  · have hrequest := Action.heeds_request x.capacity (roundedUp (wordsFor bits))
    exact heeds_action hrequest (Action.makes_any _) fun _ _ => heeds_replace
  · exact heeds_pure.mono (Nat.zero_le 1)

namespace WellFormed

variable {x source : Integer} (hx : x.WellFormed) (hsource : source.WellFormed)

include hx hsource

theorem heeds_copyFrom : (Integer.copyFrom source).Heeds x 1 := by
  unfold Integer.copyFrom
  show ActionOn.Heeds _ x (1 + 0)
  refine (heeds_ensureCapacity source.bits x).bind (hx.makes_ensureCapacity _) fun _ y hy => ?_
  -- with room for the source the rest settles
  have hcopied := hy.wellFormed.settles_copyFrom hsource hy.room
  unfold Integer.copyFrom at hcopied
  exact ((settles_room hy.room).1 hcopied).heeds

end WellFormed

theorem WellFormed.heeds_copy {x : Integer} (hx : x.WellFormed) : x.copy.Heeds 1 :=
  (wellFormed_zero.heeds_copyFrom hx).applyTo

/-! ## Divisors -/

theorem heeds_gcdMagnitudes {x : Integer} {a b : Operand} (hx : x.WellFormed)
    (ha : (a.resolve x).WellFormed) (hb : (b.resolve x).WellFormed) :
    (gcdMagnitudes a b).Heeds x
      (divisorGrowths (a.resolve x).magnitude (b.resolve x).magnitude) := by
  unfold gcdMagnitudes
  refine heeds_current (heeds_checked (ha.sameMagnitude_eq hb) ?_)
  split
  · next hsame =>
    rw [divisorGrowths, if_pos (by simpa using hsame)]
    have hunsigned := (settles_unsigned hx.holds).heeds.mono (Nat.zero_le 1)
    cases a with
    | dest => exact hunsigned
    | value a =>
      cases b with
      | dest => exact hunsigned
      | value b =>
        exact (hx.heeds_copyFrom ha).bind (hx.makes_copyFrom ha) fun _ y hy =>
          (settles_unsigned hy).heeds
  split
  · next hzero =>
    obtain ⟨y, hy, hholds⟩ := hx.cleared
    exact heeds_checked hy (heeds_replace.mono (Nat.zero_le _))
  · next hdifferent hnonzero =>
    rw [divisorGrowths, if_neg (by simpa using hdifferent)]
    rw [ha.isZero_eq, hb.isZero_eq] at hnonzero
    simp only [Bool.or_eq_true, decide_eq_true_eq, not_or] at hnonzero
    -- each copy heeds one answer, and the search on both of them none
    show ActionOn.Heeds _ x (1 + (1 + (0 + 0)))
    refine heeds_action ha.heeds_copy ha.makes_copy fun u hu => ?_
    refine heeds_action hb.heeds_copy hb.makes_copy fun v hv => ?_
    have hdivisor := settles_gcd hu.wellFormed hv.wellFormed
      (by rw [hu.magnitude_eq]; exact hnonzero.1) (by rw [hv.magnitude_eq]; exact hnonzero.2)
    exact heeds_action hdivisor.heeds (Action.makes_any _) fun _ _ => heeds_replace

/-- The search for the greatest common divisor of two numbers that are not zero asks for no room: it
ends well, and in the same way, whatever memory would refuse, and its result lies in a buffer of one of
the two. So the general form asks only for its copies of the operands, for two at most, and for one if
the magnitudes are the same; what memory answers after these changes neither the outcome nor the
destination. -/
theorem gcd_needs_no_room {u v : Integer} (hu : u.WellFormed) (hv : v.WellFormed) :
    (u.magnitude ≠ 0 → v.magnitude ≠ 0 →
      (gcd u v).Settles fun d => CommonDivisor u v d ∧ d.negative = false) ∧
    ∀ (x : Integer) (a b : Operand), x.WellFormed → a.resolve x = u → b.resolve x = v →
      ((gcdMagnitudes a b).Attempts x (divisorGrowths u.magnitude v.magnitude) (max u.bits v.bits)
        (fun _ => False) fun _ y => y.Reaches 0 (divisorOf u.magnitude v.magnitude) false) ∧
      (gcdMagnitudes a b).Heeds x (divisorGrowths u.magnitude v.magnitude) := by
  refine ⟨settles_gcd hu hv, ?_⟩
  rintro x a b hx rfl rfl
  exact ⟨attempts_gcdMagnitudes hx hu hv, heeds_gcdMagnitudes hx hu hv⟩

theorem gcd_of_twelve_and_eighteen_needs_no_room :
    ∃ u v : Integer, u.WellFormed ∧ v.WellFormed ∧ u.toInt = 12 ∧ v.toInt = -18 ∧
      ((gcd u v).Settles fun d => CommonDivisor u v d ∧ d.negative = false) ∧
      (gcdMagnitudes (.value v) .dest).Heeds u 2 ∧ (gcdMagnitudes .dest .dest).Heeds u 1 := by
  have hu : WellFormed ⟨[12, 0, 0, 0], 4, false⟩ :=
    wellFormed_of_bits (by decide) (by decide) (by decide) (by decide) (by decide)
  have hv : WellFormed ⟨[18, 0, 0, 0], 5, true⟩ :=
    wellFormed_of_bits (by decide) (by decide) (by decide) (by decide) (by decide)
  obtain ⟨hsearch, -⟩ := gcd_needs_no_room hu hv
  obtain ⟨-, hdifferent⟩ := gcd_needs_no_room hv hu
  obtain ⟨-, hsame⟩ := gcd_needs_no_room hu hu
  exact ⟨_, _, hu, hv, rfl, rfl, hsearch (by decide) (by decide),
    (hdifferent _ (.value _) .dest hu rfl rfl).2, (hsame _ .dest .dest hu rfl rfl).2⟩

end Integer

end Multiword
