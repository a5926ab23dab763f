import Multiword.Proofs.Integer.Encoding
import Multiword.Proofs.Integer.Granted
import Multiword.Proofs.Integer.Operator
import Multiword.Proofs.Run.Conclusion

/-!
# Arithmetic meets no fault

A sound integer is well formed and lies in a buffer that memory can have granted. Its bit count is then
far from the end of the machine, so no count overflows: all that can go wrong with sound operands is
that growth is refused or that a divisor is zero. The results are sound again.
-/

set_option autoImplicit false

namespace Multiword

namespace Integer

/-- A well-formed integer in a buffer that memory can have granted. -/
structure Sound (x : Integer) : Prop where
  wellFormed : x.WellFormed
  granted : x.Granted

theorem sound_zero : zero.Sound := ⟨wellFormed_zero, granted_zero⟩

/-! ## Counts -/

section

variable {x y : Integer} (hx : x.Sound)

include hx

theorem Sound.size_lt : x.size < 140737488355328 :=
  lt_of_le_of_lt hx.wellFormed.size_le hx.granted

theorem Sound.bits_lt : x.bits < 4503599627370496 := by
  have h := hx.size_lt
  unfold size wordsFor at h
  omega

/-- Memory that refuses nothing by number grants as much room as a sound integer takes. -/
theorem Sound.generous_grants : Memory.generous.Grants x.bits := by
  have hsize : wordsFor x.bits ≤ x.capacity := hx.wellFormed.size_le
  have hfour : 4 ∣ x.capacity := hx.wellFormed.four_dvd
  have hlength : roundedUp (wordsFor x.bits) ≤ x.capacity := by
    unfold roundedUp
    omega
  exact Memory.generous_grants (lt_of_le_of_lt hlength hx.granted)

/-- A sum has a bit more than the longer operand. -/
theorem Sound.max_bits_lt (hy : y.Sound) : max x.bits y.bits + 1 < UInt64.size := by
  have hleft := hx.bits_lt
  have hright := hy.bits_lt
  rw [show UInt64.size = 18446744073709551616 from rfl]
  omega

/-- A product has as many words as both operands together. -/
theorem Sound.sum_sizes_lt (hy : y.Sound) : (x.size + y.size) * 32 < UInt64.size := by
  have hleft := hx.size_lt
  have hright := hy.size_lt
  rw [show UInt64.size = 18446744073709551616 from rfl]
  omega

theorem Sound.of_capacity (hy : y.WellFormed) (h : y.capacity = x.capacity) : y.Sound :=
  ⟨hy, hx.granted.of_capacity h⟩

theorem Sound.of_holds {magnitude : Nat} {negative : Bool}
    (hy : y.Holds x.capacity magnitude negative) : y.Sound :=
  hx.of_capacity hy.wellFormed hy.capacity_eq

theorem Sound.withSign (negative : Bool) : (x.withSign negative).Sound :=
  hx.of_holds (hx.wellFormed.withSign negative)

theorem Sound.negate : x.negate.Sound :=
  hx.of_holds hx.wellFormed.negate

theorem Sound.setUnsigned (n : UInt64) : ∃ y, x.setUnsigned n = .ok y ∧ y.Sound := by
  obtain ⟨y, hy, hholds⟩ := hx.wellFormed.setUnsigned n
  exact ⟨y, hy, hx.of_holds hholds⟩

theorem Sound.setSigned (n : Int64) : ∃ y, x.setSigned n = .ok y ∧ y.Sound := by
  obtain ⟨y, hy, hholds⟩ := hx.wellFormed.setSigned n
  exact ⟨y, hy, hx.of_holds hholds⟩

end

/-! ## Updates -/

/-- Growth can be refused. -/
def Refusal (e : Error) : Prop := e = .growthRefused

/-- So it can be in a division, and the divisor can be zero. -/
def DivisionCause (divisor : Nat) (e : Error) : Prop :=
  e = .growthRefused ∨ e = .divisionByZero ∧ divisor = 0

theorem reports_of_eq {failure : Failure} (h : failure = .error .growthRefused) :
    failure.Reports Refusal := by
  subst h
  rfl

/-- A count that the machine holds is no reason to fail. -/
theorem reports_of_tooManyBits {bits : Nat} {failure : Failure} (hbits : bits < UInt64.size)
    (h : TooManyBits bits failure) : failure.Reports Refusal :=
  absurd h.2 (Nat.not_le_of_lt hbits)

/-- An attempt on a granted buffer ends with a sound integer, or it is refused. -/
theorem ends_of_attempts {x : Integer} {update : Update Unit} {limit room : Nat}
    {fails : Failure → Prop} {post : Unit → Integer → Prop}
    (h : update.Attempts x limit room fails post) (hwellFormed : ∀ a y, post a y → y.WellFormed)
    (hgranted : update.Makes x fun _ y => y.Granted)
    (hfails : ∀ failure, fails failure → failure.Reports Refusal) :
    update.Ends x (Failure.Reports Refusal) fun _ y => y.Sound := by
  have hends : update.Ends x (Failure.Reports Refusal) post := h.ends rfl hfails
  exact (hends.makes hgranted).mono (fun _ h => h) fun a y hy => ⟨hwellFormed a y hy.1, hy.2⟩

section

variable {x : Integer} (hx : x.Sound)

include hx

theorem ends_copyFrom {source : Integer} (hsource : source.Sound) :
    (copyFrom source).Ends x (Failure.Reports Refusal) fun _ y => y.Sound :=
  ends_of_attempts (hx.wellFormed.copyFrom hsource.wellFormed) (fun _ _ h => h.wellFormed)
    (makes_copyFrom hx.granted source) fun _ (h : False) => h.elim

theorem ends_setBit (n : Nat) :
    (setBit n).Ends x (Failure.Reports Refusal) fun _ y => y.Sound :=
  ends_of_attempts (hx.wellFormed.setBit n) (fun _ _ h => h.wellFormed)
    (makes_setBit hx.granted n) fun _ h => reports_of_eq h.1

theorem ends_shiftLeft (n : Nat) :
    (shiftLeft n).Ends x (Failure.Reports Refusal) fun _ y => y.Sound :=
  ends_of_attempts (hx.wellFormed.shiftLeft n) (fun _ _ h => h.wellFormed)
    (makes_shiftLeft hx.granted n) fun _ h => reports_of_eq h.1

theorem ends_loadBytes {bytes : List UInt8}
    (hbits : bitLength (Bytes.toNat bytes.reverse) < UInt64.size) :
    (loadBytes bytes).Ends x (Failure.Reports Refusal) fun _ y => y.Sound :=
  ends_of_attempts (hx.wellFormed.loadBytes bytes) (fun _ _ h => h.wellFormed)
    (makes_loadBytes hx.granted bytes) fun _ => reports_of_tooManyBits hbits

theorem ends_loadWords {words : List Word} (hbits : bitLength (Words.toNat words) < UInt64.size) :
    (loadWords words).Ends x (Failure.Reports Refusal) fun _ y => y.Sound :=
  ends_of_attempts (hx.wellFormed.loadWords words) (fun _ _ h => h.wellFormed)
    (makes_loadWords hx.granted words) fun _ => reports_of_tooManyBits hbits

/-! ## Two operands -/

section

variable {a b : Operand} (ha : (a.resolve x).Sound) (hb : (b.resolve x).Sound)

include ha hb

theorem ends_addMagnitudes :
    (addMagnitudes a b).Ends x (Failure.Reports Refusal) fun _ y => y.Sound :=
  ends_of_attempts (attempts_addMagnitudes hx.wellFormed ha.wellFormed hb.wellFormed)
    (fun _ _ h => h.wellFormed) (makes_addMagnitudes hx.granted a b)
    fun _ => reports_of_tooManyBits (ha.max_bits_lt hb)

theorem ends_subMagnitudes :
    (subMagnitudes a b).Ends x (Failure.Reports Refusal) fun _ y => y.Sound :=
  ends_of_attempts (attempts_subMagnitudes hx.wellFormed ha.wellFormed hb.wellFormed)
    (fun _ _ h => h.wellFormed) (makes_subMagnitudes hx.granted a b)
    fun _ (h : False) => h.elim

theorem ends_addWithSigns (negateB : Bool) :
    (addWithSigns a b negateB).Ends x (Failure.Reports Refusal) fun _ y => y.Sound :=
  ends_of_attempts (attempts_addWithSigns hx.wellFormed ha.wellFormed hb.wellFormed negateB)
    (fun _ _ h => h.wellFormed) (makes_addWithSigns hx.granted a b negateB)
    fun _ => reports_of_tooManyBits (ha.max_bits_lt hb)

theorem ends_mulMagnitudes :
    (mulMagnitudes a b).Ends x (Failure.Reports Refusal) fun _ y => y.Sound :=
  ends_of_attempts (attempts_mulMagnitudes hx.wellFormed ha.wellFormed hb.wellFormed)
    (fun _ _ h => h.wellFormed) (makes_mulMagnitudes hx.granted a b)
    fun _ => reports_of_tooManyBits (ha.sum_sizes_lt hb)

theorem ends_mul : (mul a b).Ends x (Failure.Reports Refusal) fun _ y => y.Sound :=
  ends_of_attempts (attempts_mul hx.wellFormed ha.wellFormed hb.wellFormed)
    (fun _ _ h => h.wellFormed) (makes_mul hx.granted a b)
    fun _ => reports_of_tooManyBits (ha.sum_sizes_lt hb)

theorem ends_gcdMagnitudes :
    (gcdMagnitudes a b).Ends x (Failure.Reports Refusal) fun _ y => y.Sound :=
  ends_of_attempts (attempts_gcdMagnitudes hx.wellFormed ha.wellFormed hb.wellFormed)
    (fun _ _ h => h.wellFormed) (makes_gcdMagnitudes hx.granted ha.wellFormed hb.wellFormed)
    fun _ (h : False) => h.elim

end

end

end Integer

/-- Both results are sound. -/
structure Division.Sound (d : Division) : Prop where
  quotient : d.quotient.Sound
  remainder : d.remainder.Sound

/-- The errors that an operator can give up for, by the magnitude of its right operand. -/
def Operator.Causes : Operator → Nat → Error → Prop
  | .add, _ | .sub, _ | .mul, _ => Integer.Refusal
  | .quotient, divisor | .remainder, divisor => Integer.DivisionCause divisor

namespace Integer

/-! ## Division -/

section

variable {a b : Integer} (ha : a.Sound) (hb : b.Sound)

include ha hb

theorem ends_divideMagnitudes :
    (divideMagnitudes a b).Ends (Failure.Reports (DivisionCause b.magnitude)) Division.Sound := by
  have hends : (divideMagnitudes a b).Ends (Failure.Reports (DivisionCause b.magnitude)) _ :=
    (attempts_divideMagnitudes ha.wellFormed hb.wellFormed).ends (.inl rfl)
      fun failure hfailure => hfailure.1 ▸ .inr ⟨rfl, hfailure.2⟩
  exact (hends.makes (makes_divideMagnitudes a b)).mono (fun _ h => h) fun d hd =>
    ⟨⟨hd.1.2.quotient.wellFormed, hd.2.1⟩, ⟨hd.1.2.remainder.wellFormed, hd.2.2⟩⟩

theorem ends_divide :
    (divide a b).Ends (Failure.Reports (DivisionCause b.magnitude)) Division.Sound :=
  (ends_divideMagnitudes ha hb).bind fun _ hd =>
    Action.ends_pure ⟨hd.quotient.withSign _, hd.remainder.withSign _⟩

end

/-! ## Operators -/

theorem ends_into (op : Operator) {x : Integer} {a b : Operand} (hx : x.Sound)
    (ha : (a.resolve x).Sound) (hb : (b.resolve x).Sound) :
    (op.into a b).Ends x (Failure.Reports (op.Causes (b.resolve x).magnitude)) fun _ y =>
      y.Sound := by
  cases op with
  | add => exact ends_addWithSigns hx ha hb false
  | sub => exact ends_addWithSigns hx ha hb true
  | mul => exact ends_mul hx ha hb
  | quotient =>
    exact ActionOn.ends_current (ActionOn.ends_action (ends_divide ha hb) fun _ hd =>
      ActionOn.ends_replace hd.quotient)
  | remainder =>
    exact ActionOn.ends_current (ActionOn.ends_action (ends_divide ha hb) fun _ hd =>
      ActionOn.ends_replace hd.remainder)

section

variable {a b : Integer} (ha : a.Sound) (hb : b.Sound)

include ha hb

theorem ends_apply (op : Operator) (ownership : Ownership) :
    (op.apply ownership a b).Ends (Failure.Aborts (op.Causes b.magnitude)) Sound := by
  cases ownership with
  | neither => exact (ends_into op (a := .value a) (b := .value b) sound_zero ha hb).applyTo.orAbort
  | right => exact (ends_into op (a := .value a) (b := .dest) hb ha hb).applyTo.orAbort
  | left => exact (ends_into op (a := .dest) (b := .value b) ha ha hb).applyTo.orAbort
  | both => exact (ends_into op (a := .dest) (b := .value b) ha ha hb).applyTo.orAbort

theorem ends_assign (op : Operator) :
    (op.assign b).Ends a (Failure.Aborts (op.Causes b.magnitude)) fun _ y => y.Sound :=
  (ends_into op (a := .dest) (b := .value b) ha ha hb).orAbort

theorem ends_gcdOf (ownership : Ownership) :
    (gcdOf ownership a b).Ends (Failure.Reports Refusal) Sound := by
  unfold gcdOf
  split
  · exact (ends_gcdMagnitudes (a := .dest) (b := .value b) ha ha hb).applyTo
  · exact (ends_gcdMagnitudes (a := .value a) (b := .value b) sound_zero ha hb).applyTo

end

/-- The copies that a common divisor is made of are granted where nothing is refused by number. -/
theorem exists_granted_gcdOf {a b : Integer} (ha : a.Sound) (hb : b.Sound) (ownership : Ownership) :
    ∃ d, (gcdOf ownership a b).granted = .ok d ∧
      d.Reaches 0 (divisorOf a.magnitude b.magnitude) false := by
  have hdivisor := @attempts_gcdOf ownership a b ha.wellFormed hb.wellFormed fun _ => False
  refine hdivisor.exists_granted ?_ fun _ h => h
  rcases max_choice a.bits b.bits with h | h
  · rw [h]
    exact ha.generous_grants
  · rw [h]
    exact hb.generous_grants

/-- The sum so far is sound after each term. -/
theorem ends_sum {xs : List Integer} (hxs : ∀ x ∈ xs, x.Sound) :
    (sum xs).Ends (Failure.Aborts Refusal) Sound := by
  have hfold : ∀ {total : Integer}, total.Sound →
      (xs.foldlM (fun total x => Operator.add.apply .left total x) total).Ends
        (Failure.Aborts Refusal) Sound := by
    induction xs with
    | nil => exact fun htotal => Action.ends_pure htotal
    | cons x xs ih =>
      intro total htotal
      have hx : x.Sound := hxs x List.mem_cons_self
      rw [List.foldlM_cons]
      exact (ends_apply htotal hx .add .left).bind fun next hnext =>
        ih (fun y hy => hxs y (List.mem_cons_of_mem x hy)) hnext
  exact hfold sound_zero

/-! ## One operand -/

section

variable {x : Integer} (hx : x.Sound)

include hx

theorem ends_copy : x.copy.Ends (Failure.Reports Refusal) Sound :=
  (ends_copyFrom sound_zero hx).applyTo

theorem ends_copyOrAbort : x.copyOrAbort.Ends (Failure.Aborts Refusal) Sound :=
  (ends_copy hx).orAbort

theorem exists_granted_copy : ∃ y, x.copy.granted = .ok y ∧ y.Sound := by
  have hcopied := @WellFormed.copy x hx.wellFormed fun _ => False
  have hmade := (hcopied.and_makes (makes_copy x)).exists_granted hx.generous_grants fun _ h => h
  obtain ⟨y, hrun, hholds, hgranted⟩ := hmade
  exact ⟨y, hrun, hholds.wellFormed, hgranted⟩

/-- A copy is made, and can be refused, only of what the expression does not own. -/
theorem ends_negated (owned : Bool) :
    (x.negated owned).Ends (Failure.Aborts fun e => owned = false ∧ Refusal e) Sound := by
  cases owned with
  | true => exact Action.ends_pure hx.negate
  | false =>
    refine (ends_copyOrAbort hx).mono (fun _ => Failure.Aborts.mono fun _ h => ⟨rfl, h⟩)
      (fun _ h => h) |>.bind fun y hy => ?_
    exact Action.ends_pure hy.negate

theorem ends_shiftedRight (n : Nat) (owned : Bool) :
    (x.shiftedRight n owned).Ends (Failure.Aborts fun e => owned = false ∧ Refusal e) Sound := by
  have hshifted : ∀ {y : Integer} {fails : Failure → Prop}, y.Sound →
      (liftM (y.shiftRight n) : Action Integer).Ends fails Sound := by
    intro y fails hy
    obtain ⟨z, hz, hholds⟩ := hy.wellFormed.shiftRight n
    rw [hz]
    exact Action.ends_pure (hy.of_holds hholds)
  cases owned with
  | true => exact hshifted hx
  | false =>
    refine (ends_copyOrAbort hx).mono (fun _ => Failure.Aborts.mono fun _ h => ⟨rfl, h⟩)
      (fun _ h => h) |>.bind fun y hy => ?_
    exact hshifted hy

theorem ends_shiftedLeft (n : Nat) (owned : Bool) :
    (x.shiftedLeft n owned).Ends (Failure.Aborts Refusal) Sound := by
  have hshifted : ∀ {y : Integer}, y.Sound →
      ((shiftLeft n).applyTo y).orAbort.Ends (Failure.Aborts Refusal) Sound :=
    fun hy => (ends_shiftLeft hy n).applyTo.orAbort
  cases owned with
  | true => exact hshifted hx
  | false => exact (ends_copyOrAbort hx).bind fun y hy => hshifted hy

end

end Integer

end Multiword
