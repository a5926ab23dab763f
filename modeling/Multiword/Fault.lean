/-!
# Faults

The arithmetic below relies on promises: an index lies inside its buffer, an accumulator fits its
machine width, a carry that cannot occur does not occur. Each promise is checked where it is used,
and a check that fails is a *fault*, a result of its own beside every ordinary answer. That no
operation on well-formed numbers ends in a fault is therefore a statement about the definitions
themselves.
-/

set_option autoImplicit false

namespace Multiword

/-- What an internal check found. -/
inductive Fault where
  /-- A word index, or a range of words, reaches outside its buffer. -/
  | outOfRange
  /-- A count or an accumulator left its machine width. -/
  | overflow
  /-- A condition that the caller promises does not hold. -/
  | brokenPromise
  /-- A division of words by zero. -/
  | zeroDivisor
  deriving DecidableEq, Repr

namespace Fault

/-- The text that goes with a fault, if it has one of its own. -/
def message? : Fault → Option String
  | .zeroDivisor => some "division by zero"
  | _ => none

end Fault

/-- A computation whose promises are checked. -/
abbrev Checked (α : Type) := Except Fault α

/-- Go on only if `p` holds. -/
def require (p : Prop) [Decidable p] (fault : Fault) : Checked Unit :=
  if p then .ok () else .error fault

/-- A value of an unsigned 64-bit accumulator or count. -/
def unsigned64 (n : Nat) : Checked Nat :=
  if n < UInt64.size then .ok n else .error .overflow

/-- The difference of two unsigned 64-bit counts, of which the second must not be the larger. -/
def unsignedDifference (m n : Nat) : Checked Nat :=
  if n ≤ m then .ok (m - n) else .error .overflow

/-- A value of a signed 64-bit accumulator: half of the `2 ^ 64` values are negative. -/
def signed64 (n : Int) : Checked Int :=
  if -9223372036854775808 ≤ n ∧ n < 9223372036854775808 then .ok n else .error .overflow

/-- A value of a single word. -/
def unsigned32 (n : Nat) : Checked UInt32 :=
  if n < UInt32.size then .ok (UInt32.ofNat n) else .error .overflow

namespace Checked

@[simp] theorem ok_bind {α β : Type} (a : α) (next : α → Checked β) :
    ((.ok a : Checked α) >>= next) = next a := rfl

@[simp] theorem error_bind {α β : Type} (fault : Fault) (next : α → Checked β) :
    ((.error fault : Checked α) >>= next) = .error fault := rfl

@[simp] theorem pure_eq {α : Type} (a : α) : (pure a : Checked α) = .ok a := rfl

end Checked

/-! ## A check that holds leaves no trace -/

@[simp] theorem require_of {p : Prop} [Decidable p] (fault : Fault) (h : p) :
    require p fault = .ok () := if_pos h

@[simp] theorem require_of_not {p : Prop} [Decidable p] (fault : Fault) (h : ¬p) :
    require p fault = .error fault := if_neg h

@[simp] theorem unsigned64_of_lt {n : Nat} (h : n < 18446744073709551616) :
    unsigned64 n = .ok n := if_pos h

@[simp] theorem unsignedDifference_of_le {m n : Nat} (h : n ≤ m) :
    unsignedDifference m n = .ok (m - n) := if_pos h

@[simp] theorem signed64_of_range {n : Int} (low : -9223372036854775808 ≤ n)
    (high : n < 9223372036854775808) : signed64 n = .ok n := if_pos ⟨low, high⟩

@[simp] theorem unsigned32_of_lt {n : Nat} (h : n < 4294967296) :
    unsigned32 n = .ok (UInt32.ofNat n) := if_pos h

end Multiword
