import Multiword.Proofs.Integer.Divisor
import Multiword.Proofs.Integer.Encoding
import Multiword.Proofs.Integer.Product
import Multiword.Proofs.Integer.Quotient
import Multiword.Proofs.Run.Success
import Multiword.Proofs.Words.Length
import Multiword.Text.Parse

/-!
# Buffers stay below the limit of memory

A buffer becomes longer only by a request, and no request for `Memory.wordLimit` words is granted. So
whatever is computed, in whatever state, no buffer gets that long; and then no bit count comes near the
end of the machine.
-/

set_option autoImplicit false

namespace Multiword

namespace Integer

open ActionOn (current replace makes_current makes_checked makes_replace makes_throw makes_pure
  makes_action)

/-- The buffer is no longer than memory grants. -/
def Granted (x : Integer) : Prop := x.capacity < Memory.wordLimit

theorem granted_zero : zero.Granted := by
  unfold Granted
  decide

variable {x y : Integer}

/-- Another buffer of the same length. -/
theorem Granted.of_length {buffer : List Word} {bits : Nat} {negative : Bool} (hx : x.Granted)
    (h : buffer.length = x.capacity) : Granted { buffer, bits, negative } :=
  lt_of_eq_of_lt h hx

theorem Granted.of_capacity (hx : x.Granted) (h : y.capacity = x.capacity) : y.Granted :=
  lt_of_eq_of_lt h hx

theorem capacity_cleared (h : x.cleared = .ok y) : y.capacity = x.capacity := by
  obtain ⟨buffer, hbuffer, h⟩ := Checked.bind_eq_ok.1 h
  cases h
  exact Words.length_clear hbuffer

theorem capacity_normalized {top : Nat} (h : x.normalized top = .ok y) :
    y.capacity = x.capacity := by
  obtain ⟨_, -, h⟩ := Checked.bind_eq_ok.1 h
  cases h
  rfl

theorem capacity_setUnsigned {n : UInt64} (h : x.setUnsigned n = .ok y) :
    y.capacity = x.capacity := by
  obtain ⟨z, hz, h⟩ := Checked.bind_eq_ok.1 h
  obtain ⟨low, hlow, h⟩ := Checked.bind_eq_ok.1 h
  obtain ⟨high, hhigh, h⟩ := Checked.bind_eq_ok.1 h
  calc y.capacity = high.length := capacity_normalized h
    _ = z.capacity := (Words.length_write hhigh).trans (Words.length_write hlow)
    _ = x.capacity := capacity_cleared hz

/-! ## Growth and copies -/

/-- A growth that is not granted makes nothing. -/
theorem makes_ensureCapacity (hx : x.Granted) (bits : Nat) :
    (ensureCapacity bits).Makes x fun _ y => y.Granted := by
  intro memory a y left hrun
  rw [exec_ensureCapacity, Action.exec_request] at hrun
  split at hrun
  · split at hrun
    · next hrequest =>
      split at hrequest
      · cases hrequest
      · next hgranted =>
        cases hrun
        rw [Granted, capacity_grownTo]
        simp only [Bool.or_eq_true, decide_eq_true_eq, not_or, not_le] at hgranted
        exact max_lt hx hgranted.2
    · cases hrun
  · cases hrun
    exact hx

/-- What asks for room first goes on in a buffer that was granted. -/
theorem makes_room {α : Type} {bits : Nat} {next : Unit → Update α} {post : α → Integer → Prop}
    (hx : x.Granted) (h : ∀ y : Integer, y.Granted → (next ()).Makes y post) :
    (ensureCapacity bits >>= next).Makes x post :=
  (makes_ensureCapacity hx bits).bind fun _ y hy => h y hy

/-- The end of an update that writes words and counts their bits. -/
theorem makes_normalized {buffer : List Word} {top : Nat} {f : Integer → Integer}
    (hf : ∀ y : Integer, (f y).capacity = y.capacity) (hx : x.Granted)
    (hlength : buffer.length = x.capacity) :
    (do replace (f (← Integer.normalized { x with buffer } top)) : Update Unit).Makes x
      fun _ y => y.Granted := by
  refine makes_checked fun y hy => makes_replace ?_
  exact (hx.of_length hlength).of_capacity ((hf y).trans (capacity_normalized hy))

theorem makes_copyFrom (hx : x.Granted) (source : Integer) :
    (copyFrom source).Makes x fun _ y => y.Granted := by
  refine makes_room hx fun y hy => makes_current (makes_checked fun words _ => ?_)
  refine makes_checked fun buffer hbuffer => ?_
  have hlength : buffer.length = y.capacity := Words.length_overwrite hbuffer
  split
  · refine makes_checked fun cleared hcleared => makes_replace (hy.of_length ?_)
    exact (Words.length_clear hcleared).trans hlength
  · exact makes_replace (hy.of_length hlength)

/-- The sign does not count. -/
theorem makes_unsigned {update : Update Unit} (h : update.Makes x fun _ y => y.Granted) :
    (update >>= fun _ => current >>= fun y => replace y.unsigned).Makes x fun _ y => y.Granted :=
  h.bind fun _ _ hy => makes_current (makes_replace hy)

theorem makes_copyMagnitude (hx : x.Granted) (source : Integer) :
    (copyMagnitude source).Makes x fun _ y => y.Granted :=
  makes_unsigned (makes_copyFrom hx source)

theorem makes_copy (x : Integer) : x.copy.Makes Granted :=
  (makes_copyFrom granted_zero x).applyTo

theorem makes_setBit (hx : x.Granted) (n : Nat) : (setBit n).Makes x fun _ y => y.Granted := by
  unfold setBit
  split
  · exact makes_throw
  · refine makes_room hx fun y hy => makes_current (makes_checked fun word _ => ?_)
    exact makes_checked fun buffer hbuffer =>
      makes_replace (hy.of_length (Words.length_write hbuffer))

theorem makes_shiftLeft (hx : x.Granted) (n : Nat) :
    (shiftLeft n).Makes x fun _ y => y.Granted := by
  refine makes_current ?_
  split
  · exact makes_pure hx
  split
  · exact makes_throw
  · refine makes_room hx fun y hy => makes_current (makes_checked fun buffer hbuffer => ?_)
    exact makes_replace (hy.of_length (Words.length_shiftLeft hbuffer))

/-! ## Sums and differences -/

theorem makes_doubleMagnitude (hx : x.Granted) :
    doubleMagnitude.Makes x fun _ y => y.Granted :=
  makes_unsigned (makes_shiftLeft hx 1)

theorem makes_addWords (hx : x.Granted) (other : Integer) :
    (addWords other).Makes x fun _ y => y.Granted := by
  refine makes_current (makes_checked fun count _ => makes_checked fun words _ => ?_)
  refine makes_checked fun result hresult => makes_checked fun _ _ => ?_
  refine makes_normalized (fun _ => rfl) hx ?_
  exact Words.length_onLow (fun _ _ => Words.length_addInto) hresult

theorem makes_addOnto (hx : x.Granted) (other : Integer) :
    (addOnto other).Makes x fun _ y => y.Granted := by
  refine makes_current ?_
  split
  · exact makes_replace hx
  split
  · exact makes_copyMagnitude hx other
  refine makes_checked fun same _ => ?_
  split
  · exact makes_doubleMagnitude hx
  · exact makes_checked fun _ _ => makes_room hx fun y hy => makes_addWords hy other

theorem makes_addBoth (hx : x.Granted) (a b : Integer) :
    (addBoth a b).Makes x fun _ y => y.Granted := by
  unfold addBoth
  split
  · exact makes_copyMagnitude hx b
  split
  · exact makes_copyMagnitude hx a
  refine makes_checked fun _ _ => makes_room hx fun y hy => ?_
  refine (makes_copyMagnitude hy a).bind fun _ z hz => makes_checked fun same _ => ?_
  split
  · exact makes_doubleMagnitude hz
  · exact makes_addWords hz b

theorem makes_addMagnitudes (hx : x.Granted) (a b : Operand) :
    (addMagnitudes a b).Makes x fun _ y => y.Granted := by
  rcases a with _ | a <;> rcases b with _ | b
  · exact makes_doubleMagnitude hx
  · exact makes_addOnto hx b
  · exact makes_addOnto hx a
  · exact makes_addBoth hx a b

theorem makes_subWords (hx : x.Granted) (less : Integer) :
    (subWords less).Makes x fun _ y => y.Granted := by
  refine makes_current (makes_checked fun words _ => makes_checked fun result hresult => ?_)
  refine makes_checked fun _ _ => makes_normalized (fun _ => rfl) hx ?_
  exact Words.length_onLow (fun _ _ => Words.length_subInto) hresult

theorem makes_subWordsFrom (hx : x.Granted) (greater : Integer) :
    (subWordsFrom greater).Makes x fun _ y => y.Granted := by
  refine makes_room hx fun y hy => makes_current (makes_checked fun words _ => ?_)
  refine makes_checked fun result hresult => ?_
  refine makes_checked fun _ _ => makes_normalized (fun _ => rfl) hy ?_
  exact Words.length_onLow (fun _ _ => Words.length_subFrom) hresult

theorem makes_subOrdered (hx : x.Granted) (a b : Operand) :
    (subOrdered a b).Makes x fun _ y => y.Granted := by
  rcases a with _ | a <;> rcases b with _ | b
  · exact makes_throw
  · exact makes_subWords hx b
  · exact makes_subWordsFrom hx a
  · exact (makes_copyFrom hx a).bind fun _ y hy => makes_subWords hy b

theorem makes_subMagnitudes (hx : x.Granted) (a b : Operand) :
    (subMagnitudes a b).Makes x fun _ y => y.Granted := by
  refine makes_current (makes_checked fun order _ => ?_)
  cases order with
  | lt => exact makes_unsigned (makes_subOrdered hx b a)
  | eq => exact makes_checked fun y hy => makes_replace (hx.of_capacity (capacity_cleared hy))
  | gt => exact makes_unsigned (makes_subOrdered hx a b)

theorem makes_addWithSigns (hx : x.Granted) (a b : Operand) (negateB : Bool) :
    (addWithSigns a b negateB).Makes x fun _ y => y.Granted := by
  refine makes_current (makes_checked fun order _ => ?_)
  split
  · exact (makes_addMagnitudes hx a b).bind fun _ _ hy => makes_current (makes_replace hy)
  · exact (makes_subMagnitudes hx a b).bind fun _ _ hy => makes_current (makes_replace hy)

/-! ## Products -/

theorem makes_mulWords (hx : x.Granted) (a b : Integer) :
    (mulWords a b).Makes x fun _ y => y.Granted := by
  refine makes_checked fun left _ => makes_checked fun right _ => makes_checked fun size _ => ?_
  split
  · exact makes_throw
  refine makes_room hx fun y hy => makes_current (makes_checked fun cleared hcleared => ?_)
  refine makes_checked fun product hproduct => makes_normalized (fun _ => rfl) hy ?_
  exact (Words.length_mulRows hproduct).trans (Words.length_clear hcleared)

theorem makes_mulMagnitudes (hx : x.Granted) (a b : Operand) :
    (mulMagnitudes a b).Makes x fun _ y => y.Granted := by
  refine makes_current ?_
  split
  · exact makes_checked fun y hy => makes_replace (hx.of_capacity (capacity_cleared hy))
  · have hnew : ∀ a b : Integer, (do replace (← (mulWords a b).applyTo zero) : Update Unit).Makes x
        fun _ y => y.Granted := fun a b =>
      (makes_action (makes_mulWords granted_zero a b).applyTo).bind fun _ _ hy => makes_replace hy
    rcases a with _ | a <;> rcases b with _ | b
    · exact hnew x x
    · exact hnew x b
    · exact hnew a x
    · exact makes_mulWords hx a b

theorem makes_mul (hx : x.Granted) (a b : Operand) : (mul a b).Makes x fun _ y => y.Granted :=
  makes_current ((makes_mulMagnitudes hx a b).bind fun _ _ hy => makes_current (makes_replace hy))

/-! ## Common divisors -/

/-- The result lies in the buffer of a copy. -/
theorem makes_gcdMagnitudes {a b : Operand} (hx : x.Granted) (ha : (a.resolve x).WellFormed)
    (hb : (b.resolve x).WellFormed) : (gcdMagnitudes a b).Makes x fun _ y => y.Granted := by
  have hcopy : ∀ {z : Integer}, z.WellFormed → z.copy.Makes fun y =>
      (y.WellFormed ∧ y.magnitude = z.magnitude) ∧ y.Granted := fun {z} hz =>
    (hz.makes_copy.mono fun _ h => ⟨h.wellFormed, h.magnitude_eq⟩).and (makes_copy z)
  refine makes_current (makes_checked fun same _ => ?_)
  split
  · have hunsigned : (current >>= fun y => replace y.unsigned : Update Unit).Makes x
        fun _ y => y.Granted := makes_current (makes_replace hx)
    rcases a with _ | a <;> rcases b with _ | b
    · exact hunsigned
    · exact hunsigned
    · exact hunsigned
    · exact makes_copyMagnitude hx a
  split
  · exact makes_checked fun y hy => makes_replace (hx.of_capacity (capacity_cleared hy))
  · next hnonzero =>
    rw [ha.isZero_eq, hb.isZero_eq] at hnonzero
    simp only [Bool.or_eq_true, decide_eq_true_eq, not_or] at hnonzero
    refine (makes_action (hcopy ha)).bind fun u _ hu => ?_
    refine (makes_action (hcopy hb)).bind fun v _ hv => ?_
    have hdivisor := settles_gcd hu.1.1 hv.1.1 (by rw [hu.1.2]; exact hnonzero.1)
      (by rw [hv.1.2]; exact hnonzero.2)
    refine (makes_action hdivisor.makes).bind fun d _ hd => makes_replace ?_
    rcases hd.1.capacity_eq with h | h
    · exact hu.2.of_capacity h
    · exact hv.2.of_capacity h

/-! ## Loading and reading -/

theorem makes_loadMagnitude (hx : x.Granted) (words : List Word) (bits : Nat) :
    (loadMagnitude words bits).Makes x fun _ y => y.Granted := by
  refine makes_room hx fun y hy => makes_current (makes_checked fun z hz => ?_)
  refine makes_checked fun buffer hbuffer => makes_replace (hy.of_length ?_)
  exact (Words.length_overwrite hbuffer).trans (capacity_cleared hz)

theorem makes_loadWords (hx : x.Granted) (words : List Word) :
    (loadWords words).Makes x fun _ y => y.Granted :=
  makes_checked fun _ _ => makes_loadMagnitude hx _ _

theorem makes_loadBytes (hx : x.Granted) (bytes : List UInt8) :
    (loadBytes bytes).Makes x fun _ y => y.Granted := by
  intro memory
  rw [exec_loadBytes]
  exact makes_loadWords hx _ memory

theorem makes_mulAddWord (hx : x.Granted) (scale addend : Word) :
    (mulAddWord scale addend).Makes x fun _ y => y.Granted := by
  refine makes_checked fun _ _ => makes_current (makes_checked fun _ _ => ?_)
  refine makes_room hx fun y hy => makes_current (makes_checked fun product hproduct => ?_)
  have hlength : product.1.length = y.capacity :=
    Words.length_onLow (fun _ _ => Words.length_mulWord) hproduct
  have hadded : ∀ {buffer : List Word}, buffer.length = y.capacity → (do
      let top := min (← unsigned64 (y.size + 1)) y.capacity
      let result ← Words.onLow buffer top (Words.addInto · [addend])
      require (result.2 = 0) .brokenPromise
      replace (← Integer.normalized { y with buffer := result.1 } top) : Update Unit).Makes y
        fun _ y => y.Granted := by
    intro buffer hbuffer
    refine makes_checked fun _ _ => makes_checked fun result hresult => makes_checked fun _ _ => ?_
    refine makes_normalized (f := id) (fun _ => rfl) hy ?_
    exact (Words.length_onLow (fun _ _ => Words.length_addInto) hresult).trans hbuffer
  dsimp only
  split
  · exact hadded hlength
  · exact makes_checked fun buffer hbuffer => hadded ((Words.length_write hbuffer).trans hlength)

end Integer

/-! ## Division -/

/-- Both results are granted. -/
def Division.Granted (d : Division) : Prop := d.quotient.Granted ∧ d.remainder.Granted

namespace LongDivision

open Integer (makes_subMagnitudes makes_setBit makes_ensureCapacity makes_copy granted_zero)

theorem makes_step {s : LongDivision} (h : s.toDivision.Granted) (bit : Nat) :
    (s.step bit).Makes fun t => t.toDivision.Granted := by
  refine Action.makes_checked fun order _ => ?_
  have hmoved : ∀ t : LongDivision, t.toDivision.Granted → (do
      let divisor ← t.divisor.shiftRight 1
      pure { t with divisor } : Action LongDivision).Makes fun t => t.toDivision.Granted :=
    fun t ht => Action.makes_checked fun divisor _ => Action.makes_pure ht
  have hsubtracted : (do
      let remainder ← (Integer.subMagnitudes .dest (.value s.divisor)).applyTo s.remainder
      let quotient ← (Integer.setBit bit).applyTo s.quotient
      let subtractions ← unsigned64 (s.subtractions + 1)
      let divisor ← s.divisor.shiftRight 1
      pure { quotient, remainder, divisor, subtractions } : Action LongDivision).Makes fun t =>
        t.toDivision.Granted := by
    refine (makes_subMagnitudes h.2 _ _).applyTo.bind fun remainder hremainder => ?_
    refine (makes_setBit h.1 bit).applyTo.bind fun quotient hquotient => ?_
    refine Action.makes_checked fun subtractions _ => ?_
    exact hmoved ⟨⟨quotient, remainder⟩, s.divisor, subtractions⟩ ⟨hquotient, hremainder⟩
  cases order with
  | lt => exact hmoved s h
  | eq => exact hsubtracted
  | gt => exact hsubtracted

theorem makes_steps {s : LongDivision} (h : s.toDivision.Granted) (bits : List Nat) :
    (s.steps bits).Makes fun t => t.toDivision.Granted := by
  induction bits generalizing s with
  | nil => exact Action.makes_pure h
  | cons bit bits ih =>
    unfold steps
    rw [List.foldlM_cons]
    exact (makes_step h bit).bind fun t ht => ih ht

theorem makes_start (a b : Integer) : (start a b).Makes fun s => s.toDivision.Granted := by
  refine Action.makes_checked fun _ _ => Action.makes_checked fun _ _ => ?_
  refine (makes_ensureCapacity granted_zero _).applyTo.bind fun quotient hquotient => ?_
  refine (makes_copy a).bind fun remainder hremainder => ?_
  refine (makes_copy b).bind fun copied _ => (Action.makes_any _).bind fun divisor _ => ?_
  exact Action.makes_pure ⟨hquotient, hremainder⟩

end LongDivision

namespace Integer

theorem makes_divideLong (a b : Integer) : (divideLong a b).Makes Division.Granted := by
  refine Action.makes_checked fun _ _ => Action.makes_checked fun places _ => ?_
  refine (LongDivision.makes_start a b).bind fun aligned haligned => ?_
  refine (LongDivision.makes_steps haligned _).bind fun done hdone => ?_
  exact (Action.makes_any _).bind fun _ _ => Action.makes_pure hdone

theorem makes_divideMagnitudes (a b : Integer) :
    (divideMagnitudes a b).Makes Division.Granted := by
  unfold divideMagnitudes
  split
  · exact Action.makes_throw
  split
  · exact Action.makes_pure ⟨granted_zero, granted_zero⟩
  split
  · exact (makes_copy a).bind fun y hy => Action.makes_pure ⟨hy, granted_zero⟩
  refine Action.makes_checked fun order _ => ?_
  cases order with
  | lt => exact (makes_copy a).bind fun y hy => Action.makes_pure ⟨granted_zero, hy⟩
  | eq =>
    refine Action.makes_checked fun one hone => Action.makes_pure ⟨?_, granted_zero⟩
    exact granted_zero.of_capacity (capacity_setUnsigned hone)
  | gt => exact makes_divideLong a b

end Integer

end Multiword
