import Multiword.Integer.Divisor
import Multiword.Integer.Quotient
import Multiword.Proofs.Run.Record

/-!
# Arithmetic is quiet

Growth, copies, shifts and differences leave no record where they end well, whatever the numbers are. So
the loops that are built from them are quiet too, and all that a common divisor or a division writes
down is the count that it ends with.
-/

set_option autoImplicit false

namespace Multiword

namespace Integer

open ActionOn (current replace quiet_pure quiet_throw quiet_replace quiet_current quiet_checked
  quiet_action)

/-! ## Storage and shifts -/

theorem quiet_ensureCapacity (bits : Nat) : (ensureCapacity bits).Quiet := by
  refine quiet_current fun x => ?_
  dsimp only
  split
  · exact (quiet_action (Action.quiet_request _ _)).bind fun _ => quiet_replace
  · exact quiet_pure

theorem quiet_copyFrom (source : Integer) : (copyFrom source).Quiet := by
  refine (quiet_ensureCapacity _).bind fun _ => quiet_current fun x => ?_
  refine quiet_checked fun words => quiet_checked fun buffer => ?_
  split
  · exact quiet_checked fun _ => quiet_replace
  · exact quiet_replace

theorem quiet_copy (x : Integer) : x.copy.Quiet :=
  (quiet_copyFrom x).applyTo zero

theorem quiet_setBit (n : Nat) : (setBit n).Quiet := by
  unfold setBit
  split
  · exact quiet_throw
  · refine (quiet_ensureCapacity _).bind fun _ => quiet_current fun x => ?_
    exact quiet_checked fun _ => quiet_checked fun _ => quiet_replace

theorem quiet_shiftLeft (n : Nat) : (shiftLeft n).Quiet := by
  refine quiet_current fun x => ?_
  split
  · exact quiet_pure
  split
  · exact quiet_throw
  · refine (quiet_ensureCapacity _).bind fun _ => quiet_current fun grown => ?_
    exact quiet_checked fun _ => quiet_replace

/-! ## Differences -/

theorem quiet_subWords (less : Integer) : (subWords less).Quiet := by
  refine quiet_current fun x => quiet_checked fun words => quiet_checked fun result => ?_
  exact quiet_checked fun _ => quiet_checked fun _ => quiet_replace

theorem quiet_subWordsFrom (greater : Integer) : (subWordsFrom greater).Quiet := by
  refine (quiet_ensureCapacity _).bind fun _ => quiet_current fun x => ?_
  refine quiet_checked fun words => quiet_checked fun result => ?_
  exact quiet_checked fun _ => quiet_checked fun _ => quiet_replace

theorem quiet_subOrdered (a b : Operand) : (subOrdered a b).Quiet := by
  cases a with
  | dest =>
    cases b with
    | dest => exact quiet_throw
    | value b => exact quiet_subWords b
  | value a =>
    cases b with
    | dest => exact quiet_subWordsFrom a
    | value b => exact (quiet_copyFrom a).bind fun _ => quiet_subWords b

theorem quiet_subMagnitudes (a b : Operand) : (subMagnitudes a b).Quiet := by
  refine quiet_current fun x => quiet_checked fun order => ?_
  have hordered : ∀ a b : Operand, (do
      subOrdered a b
      replace (← current).unsigned : Update Unit).Quiet := fun a b =>
    (quiet_subOrdered a b).bind fun _ => quiet_current fun _ => quiet_replace
  cases order with
  | lt => exact hordered b a
  | eq => exact quiet_checked fun _ => quiet_replace
  | gt => exact hordered a b

/-! ## Rounds of a common divisor -/

theorem quiet_gcdRounds (limit rounds : Nat) (u v : Integer) :
    (gcdRounds limit u v rounds).Quiet := by
  induction limit generalizing u v rounds with
  | zero =>
    unfold gcdRounds
    split
    · exact Action.quiet_pure
    · exact Action.quiet_throw
  | succ limit ih =>
    unfold gcdRounds
    split
    · exact Action.quiet_pure
    refine Action.quiet_checked.bind fun oddU => Action.quiet_checked.bind fun oddV => ?_
    refine Action.quiet_checked.bind fun order => ?_
    refine ((quiet_subMagnitudes _ _).applyTo _).bind fun distance => ?_
    exact Action.quiet_checked.bind fun half => Action.quiet_checked.bind fun counted => ih _ _ _

end Integer

/-! ## Steps of a division -/

namespace LongDivision

open Integer (quiet_ensureCapacity quiet_copy quiet_setBit quiet_shiftLeft quiet_subMagnitudes)

theorem quiet_start (a b : Integer) : (start a b).Quiet := by
  refine Action.quiet_checked.bind fun shift => Action.quiet_checked.bind fun bits => ?_
  refine ((quiet_ensureCapacity bits).applyTo _).bind fun quotient => ?_
  refine (quiet_copy a).bind fun dividend => (quiet_copy b).bind fun copied => ?_
  exact ((quiet_shiftLeft _).applyTo _).bind fun divisor => Action.quiet_pure

theorem quiet_step (bit : Nat) (s : LongDivision) : (s.step bit).Quiet := by
  refine Action.quiet_checked.bind fun order => ?_
  have hmoved : ∀ t : LongDivision, (do
      let divisor ← t.divisor.shiftRight 1
      pure { t with divisor } : Action LongDivision).Quiet := fun t =>
    Action.quiet_checked.bind fun divisor => Action.quiet_pure
  have hsubtracted : (do
      let remainder ← (Integer.subMagnitudes .dest (.value s.divisor)).applyTo s.remainder
      let quotient ← (Integer.setBit bit).applyTo s.quotient
      let subtractions ← unsigned64 (s.subtractions + 1)
      let divisor ← s.divisor.shiftRight 1
      pure { quotient, remainder, divisor, subtractions } : Action LongDivision).Quiet := by
    refine ((quiet_subMagnitudes _ _).applyTo _).bind fun remainder => ?_
    refine ((quiet_setBit bit).applyTo _).bind fun quotient => ?_
    refine Action.quiet_checked.bind fun subtractions => ?_
    exact hmoved ⟨⟨quotient, remainder⟩, s.divisor, subtractions⟩
  cases order with
  | lt => exact hmoved s
  | eq => exact hsubtracted
  | gt => exact hsubtracted

theorem quiet_steps (bits : List Nat) (s : LongDivision) : (s.steps bits).Quiet := by
  induction bits generalizing s with
  | nil => exact Action.quiet_pure
  | cons bit bits ih =>
    unfold steps
    rw [List.foldlM_cons]
    exact (quiet_step bit s).bind fun t => ih t

end LongDivision

end Multiword
