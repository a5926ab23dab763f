import Multiword.Proofs.Run.Commit
import Multiword.Proofs.Sampling
import Multiword.Proofs.Text.Reading
import Multiword.Session.Run

/-!
# Commands commit

Every command leaves all registers well formed, or it fails and leaves the bank as it was. What can
fail in a command comes before its first write; where it is the destination that is written, the
computation on the destination commits by itself.
-/

set_option autoImplicit false

namespace Multiword

namespace Machine

open ActionOn (commits_pure commits_throw commits_action settles_current settles_replace settles_pure)

variable {size : Nat}

/-- What holds of zero holds of every register at the start. -/
theorem Bank.forall_initial {p : Integer → Prop} (h : p .zero) (a : Register size) :
    p ((Bank.initial size).get a) := by
  change p (Vector.replicate size Integer.zero)[a.val]
  rwa [Vector.getElem_replicate]

/-- What holds of every register still does if it holds of the value that one of them takes. -/
theorem Bank.forall_set {p : Integer → Prop} {bank : Bank size} (h : ∀ a, p (bank.get a))
    (x : Register size) {value : Integer} (hvalue : p value) (a : Register size) :
    p (Vector.get (bank.set x value x.isLt) a) := by
  change p (bank.set x value)[a.val]
  rw [Vector.getElem_set]
  split
  · exact hvalue
  · exact h a

/-- All registers are well formed. -/
def Bank.WellFormed (bank : Bank size) : Prop :=
  ∀ a : Register size, (bank.get a).WellFormed

theorem Bank.wellFormed_initial : (Bank.initial size).WellFormed :=
  Bank.forall_initial Integer.wellFormed_zero

theorem Bank.WellFormed.set {bank : Bank size} (h : bank.WellFormed) (x : Register size)
    {value : Integer} (hvalue : value.WellFormed) : Bank.WellFormed (bank.set x value x.isLt) :=
  Bank.forall_set h x hvalue

/-! ## Registers as operands -/

variable {bank : Bank size} {α : Type} {post : α → Bank size → Prop}

theorem commits_read {a : Register size} {next : Integer → Session size α}
    (h : (next (bank.get a)).Commits bank post) : (read a >>= next).Commits bank post := h

theorem settles_write {x : Register size} {value : Integer} {post : Unit → Bank size → Prop}
    (h : post () (bank.set x value x.isLt)) : (write x value).Settles bank post :=
  settles_current (settles_replace h)

/-- An operand is the integer in its register, or a copy of it. -/
theorem commits_operand (hbank : bank.WellFormed) (a : Register size) (owned : Bool) :
    (operand a owned).Commits bank fun x new =>
      new = bank ∧ x.Reaches 0 (bank.get a).magnitude (bank.get a).negative := by
  unfold operand
  refine commits_read ?_
  split
  · have hmakes := Integer.WellFormed.makes_copy (hbank a)
    split
    · next copy hcopy => exact commits_pure ⟨rfl, (hmakes.granted hcopy).reaches (Nat.zero_le _)⟩
    · exact commits_throw
  · exact commits_pure ⟨rfl, (hbank a).holds.reaches (Nat.zero_le _)⟩

/-- An operand stands for the integer in its register, be it the destination or not. -/
theorem exists_operandFor (bank : Bank size) (x a : Register size) :
    ∃ o : Operand, o.resolve (bank.get x) = bank.get a ∧
      ∀ (next : Operand → Session size α) (memory : Memory),
        (operandFor x a >>= next).exec bank memory = (next o).exec bank memory := by
  by_cases hsame : a = x
  · have hdest : operandFor x a = pure .dest := if_pos hsame
    refine ⟨.dest, by rw [hsame]; rfl, fun next memory => ?_⟩
    rw [hdest]
    rfl
  · have hvalue : operandFor x a = (do pure (.value (← read a))) := if_neg hsame
    refine ⟨.value (bank.get a), rfl, fun next memory => ?_⟩
    rw [hvalue]
    rfl

theorem commits_operandFor {x a : Register size} {next : Operand → Session size α}
    (h : ∀ o : Operand, o.resolve (bank.get x) = bank.get a → (next o).Commits bank post) :
    (operandFor x a >>= next).Commits bank post := by
  intro memory
  obtain ⟨o, ho, hexec⟩ := exists_operandFor bank x a
  rw [hexec]
  exact h o ho memory

/-- Both operands of an expression are there before it is computed. -/
theorem commits_operandPair (hbank : bank.WellFormed) (a b : Register size) (ownership : Ownership)
    {next : Integer → Integer → Session size α}
    (h : ∀ left right, left.WellFormed → right.WellFormed → (next left right).Commits bank post) :
    (do
      let left ← operand a ownership.ownsLeft
      let right ← operand b ownership.ownsRight
      next left right).Commits bank post := by
  refine (commits_operand hbank a _).bind ?_
  intro left hleft
  refine (commits_operand hbank b _).bind ?_
  intro right hright
  exact h left right hleft.wellFormed hright.wellFormed

/-- A computation that commits on its destination commits on the bank. -/
theorem commits_update (hbank : bank.WellFormed) {x : Register size} {computation : Update Unit}
    (h : computation.Commits (bank.get x) fun _ y => y.WellFormed) :
    (do
      update x computation
      pure .done : Session size Answer).Commits bank fun _ new => new.WellFormed := by
  have hupdated : (update x computation).Commits bank fun _ new => new.WellFormed :=
    ActionOn.Commits.onPart (Vector.set_getElem_self _) (h.mono fun _ _ hy => hbank.set x hy)
  exact hupdated.bind_settles fun _ new hnew => settles_pure hnew

theorem settles_writeDone (hbank : bank.WellFormed) {x : Register size} {value : Integer}
    (h : value.WellFormed) :
    (do
      write x value
      pure .done : Session size Answer).Settles bank fun _ new => new.WellFormed :=
  ActionOn.settles_of_exec (hbank.set x h) fun _ => rfl

/-- A result goes into a register once it is there. -/
theorem commits_write (hbank : bank.WellFormed) {x : Register size} {action : Action Integer}
    (h : action.Makes Integer.WellFormed) :
    (do
      write x (← action)
      pure .done : Session size Answer).Commits bank fun _ new => new.WellFormed :=
  (commits_action h).bind fun _ hy => (settles_writeDone hbank hy).commits

end Machine

/-! ## Parts of a command -/

theorem Combination.commits_into (op : Combination) {x : Integer} {a b : Operand}
    (hx : x.WellFormed) (ha : (a.resolve x).WellFormed) (hb : (b.resolve x).WellFormed) :
    (op.into a b).Commits x fun _ y => y.WellFormed := by
  cases op with
  | addMagnitudes => exact (Integer.attempts_addMagnitudes hx ha hb).commits.mono fun _ _ h => h.1
  | subMagnitudes =>
    exact (@Integer.attempts_subMagnitudes x a b hx ha hb fun _ => False).commits.mono
      fun _ _ h => h.1
  | mulMagnitudes => exact (Integer.attempts_mulMagnitudes hx ha hb).commits.mono fun _ _ h => h.1
  | gcdMagnitudes =>
    exact (@Integer.attempts_gcdMagnitudes x a b hx ha hb fun _ => False).commits.mono
      fun _ _ h => h.1
  | add => exact (Integer.attempts_addWithSigns hx ha hb false).commits.mono fun _ _ h => h.1
  | sub => exact (Integer.attempts_addWithSigns hx ha hb true).commits.mono fun _ _ h => h.1
  | mul => exact (Integer.attempts_mul hx ha hb).commits.mono fun _ _ h => h.1

theorem Edit.commits_update (edit : Edit) {x : Integer} (hx : x.WellFormed) :
    edit.update.Commits x fun _ y => y.WellFormed := by
  unfold Edit.update
  refine ActionOn.commits_current ?_
  -- edits that only compute settle, and those that ask for room attempt
  have hchecked : ∀ {checked : Checked Integer}, (∃ y, checked = .ok y ∧ y.WellFormed) →
      (do ActionOn.replace (← checked) : Update Unit).Commits x fun _ y => y.WellFormed := by
    rintro checked ⟨y, rfl, hy⟩
    exact (ActionOn.settles_replace hy).commits
  cases edit with
  | negate => exact (ActionOn.settles_replace hx.negate.wellFormed).commits
  | clear =>
    obtain ⟨y, hy, hholds⟩ := hx.cleared
    exact hchecked ⟨y, hy, hholds.wellFormed⟩
  | release => exact (ActionOn.settles_replace Integer.wellFormed_zero).commits
  | setSign negative => exact (ActionOn.settles_replace (hx.withSign negative).wellFormed).commits
  | setUnsigned n =>
    obtain ⟨y, hy, hholds⟩ := hx.setUnsigned n
    exact hchecked ⟨y, hy, hholds.wellFormed⟩
  | setSigned n =>
    obtain ⟨y, hy, hholds⟩ := hx.setSigned n
    exact hchecked ⟨y, hy, hholds.wellFormed⟩
  | shiftLeft n => exact (hx.shiftLeft n).commits.mono fun _ _ h => h.1
  | shiftRight n =>
    obtain ⟨y, hy, hholds⟩ := hx.shiftRight n
    exact hchecked ⟨y, hy, hholds.wellFormed⟩
  | shiftLeftOrAbort n => exact (hx.shiftLeft n).commits.orAbort.mono fun _ _ h => h.1
  | setBit n => exact (hx.setBit n).commits.mono fun _ _ h => h.1
  | loadBytes bytes => exact (hx.loadBytes bytes).commits.mono fun _ _ h => h.1
  | loadWords words => exact (hx.loadWords words).commits.mono fun _ _ h => h.1

theorem Integer.wellFormed_ofUnsigned {n : UInt64} {x : Integer} (h : ofUnsigned n = .ok x) :
    x.WellFormed := by
  obtain ⟨y, hy, hholds⟩ := wellFormed_zero.setUnsigned n
  obtain rfl : y = x := Except.ok.inj (hy.symm.trans h)
  exact hholds.wellFormed

theorem Integer.wellFormed_ofSigned {n : Int64} {x : Integer} (h : ofSigned n = .ok x) :
    x.WellFormed := by
  obtain ⟨y, hy, hholds⟩ := wellFormed_zero.setSigned n
  obtain rfl : y = x := Except.ok.inj (hy.symm.trans h)
  exact hholds.wellFormed

/-- A native integer of any width comes from one of 64 bits, if that fits. -/
theorem Integer.wellFormed_ofNative {type : NativeType} {n : Int} {x : Integer}
    (h : ofNative? type n = .ok (some x)) : x.WellFormed := by
  have hfits : ∀ {fits : Prop} [Decidable fits] {checked : Checked Integer},
      (if fits then some <$> checked else pure none) = .ok (some x) → checked = .ok x := by
    intro fits _ checked hmade
    by_cases hholds : fits
    · rw [if_pos hholds] at hmade
      cases checked with
      | error fault => cases hmade
      | ok y =>
        cases hmade
        rfl
    · rw [if_neg hholds] at hmade
      cases hmade
  cases type with
  | signed width => exact wellFormed_ofSigned (hfits h)
  | unsigned width => exact wellFormed_ofUnsigned (hfits h)

theorem Origin.makes_create (origin : Origin) :
    origin.create.Makes fun created => ∀ x, created = some x → x.WellFormed := by
  have hsome : ∀ {x : Integer}, x.WellFormed → ∀ y, some x = some y → y.WellFormed := by
    rintro x hx y ⟨⟩
    exact hx
  cases origin with
  | zero => exact Action.makes_pure (hsome Integer.wellFormed_zero)
  | text written => exact ((Integer.makes_ofText written).mono fun _ hx => hsome hx).map
  | bytes encoded =>
    exact ((Integer.attempts_ofBytes encoded).makes.mono fun _ hx => hsome hx.wellFormed).map
  | words digits =>
    exact ((Integer.attempts_ofWords digits).makes.mono fun _ hx => hsome hx.wellFormed).map
  | unsigned n =>
    refine Action.makes_checked fun x hx => Action.makes_pure (hsome ?_)
    exact Integer.wellFormed_ofUnsigned hx
  | signed n =>
    refine Action.makes_checked fun x hx => Action.makes_pure (hsome ?_)
    exact Integer.wellFormed_ofSigned hx
  | native type n =>
    refine Action.makes_lift ?_
    rintro created hcreated x rfl
    exact Integer.wellFormed_ofNative hcreated

namespace Machine

variable {size : Nat} {bank : Bank size}

open ActionOn (commits_pure commits_checked commits_action settles_pure)

/-- Questions leave the bank alone. -/
theorem commits_answer (query : Query size) :
    (answer query).Commits bank fun _ new => new = bank := by
  cases query with
  | properties a => exact commits_read (commits_checked fun _ _ => commits_pure rfl)
  | hash a => exact commits_read (commits_checked fun _ _ => commits_pure rfl)
  | testBit a n => exact commits_read (commits_checked fun _ _ => commits_pure rfl)
  | writeBytes a length =>
    refine commits_read ?_
    exact (commits_action (Action.makes_any _)).bind fun _ _ => commits_pure rfl
  | toNative a types => exact commits_read (commits_checked fun _ _ => commits_pure rfl)
  | compare a b =>
    exact commits_read (commits_read (commits_checked fun _ _ => commits_checked fun _ _ =>
      commits_checked fun _ _ => commits_checked fun _ _ => commits_pure rfl))
  | compareNative a type n => exact commits_read (commits_checked fun _ _ => commits_pure rfl)

/-- Copies of several registers are made one after the other. -/
theorem commits_operands (hbank : bank.WellFormed) (terms : List (Register size)) :
    (terms.mapM fun term => operand term true).Commits bank fun xs new =>
      new = bank ∧ ∀ x ∈ xs, x.WellFormed := by
  induction terms with
  | nil => exact commits_pure ⟨rfl, by simp⟩
  | cons term terms ih =>
    rw [List.mapM_cons]
    refine (commits_operand hbank term true).bind fun x hx => ih.bind fun xs hxs => ?_
    exact commits_pure ⟨rfl, List.forall_mem_cons.2 ⟨hx.wellFormed, hxs⟩⟩

/-- A result that is not asked for is dropped. -/
theorem settles_output (hbank : bank.WellFormed) (output : Option (Register size)) {value : Integer}
    (h : value.WellFormed) :
    (output.forM (write · value)).Settles bank fun _ new => new.WellFormed := by
  cases output with
  | none => exact ActionOn.settles_pure hbank
  | some x => exact settles_write (hbank.set x h)

/-- The bounds of a draw are those of the registers that it names. -/
theorem bounded_request (hbank : bank.WellFormed) (request : Request (Register size)) :
    (request.map bank.get).Bounded := by
  cases request with
  | bits n => trivial
  | signedBits n => trivial
  | below bound => exact hbank bound
  | range low high => exact ⟨hbank low, hbank high⟩
  | single low high inclusive => exact ⟨hbank low, hbank high⟩
  | sampler low high inclusive => exact ⟨hbank low, hbank high⟩

/-- Every command commits, on a bank whose registers are well formed. -/
theorem commits_perform (hbank : bank.WellFormed) (command : Command size) :
    (perform command).Commits bank fun _ new => new.WellFormed := by
  cases command with
  | combine op x a b =>
    refine commits_operandFor fun left hleft => commits_operandFor fun right hright => ?_
    refine commits_update hbank (op.commits_into (hbank x) ?_ ?_)
    · rw [hleft]
      exact hbank a
    · rw [hright]
      exact hbank b
  | edit x edit => exact commits_update hbank (edit.commits_update (hbank x))
  | create x origin =>
    refine (commits_action origin.makes_create).bind ?_
    intro created hcreated
    cases created with
    | none => exact commits_pure hbank
    | some value => exact (settles_writeDone hbank (hcreated value rfl)).commits
  | copyFrom x a =>
    have hcopied := (@Integer.WellFormed.copyFrom bank[x] bank[a] (hbank x) (hbank a)
      fun _ => False).commits
    exact commits_read (commits_update hbank (hcopied.mono fun _ _ hy => hy.wellFormed))
  | swap x y =>
    refine commits_read (commits_read (ActionOn.Settles.commits ?_))
    exact ActionOn.settles_of_exec ((hbank.set x (hbank y)).set y (hbank x)) fun _ => rfl
  | copy x a reports =>
    refine commits_read ?_
    cases reports with
    | true =>
      have hcopied := Integer.WellFormed.makes_copy (hbank a)
      exact commits_write hbank (hcopied.mono fun _ hy => hy.wellFormed)
    | false => exact commits_write hbank (Integer.makes_copyOrAbort (hbank a))
  | divideMagnitudes q r ownership a b =>
    apply commits_operandPair hbank a b ownership
    intro left right hleft hright
    -- both results are there before the first of them is written
    refine (commits_action (Integer.attempts_divideMagnitudes hleft hright).makes).bind ?_
    intro division hdivision
    apply ActionOn.Settles.commits
    refine (settles_output hbank q hdivision.2.quotient.wellFormed).bind ?_
    intro _ new hnew
    refine (settles_output hnew r hdivision.2.remainder.wellFormed).bind ?_
    intro _ new hnew
    exact settles_pure hnew
  | divide q r a b =>
    refine commits_read (commits_read ?_)
    refine (commits_action (Integer.attempts_divide (hbank a) (hbank b)).makes).bind ?_
    intro division hdivision
    apply ActionOn.Settles.commits
    refine (settles_output hbank (some q) hdivision.2.1.wellFormed).bind ?_
    intro _ new hnew
    exact settles_writeDone hnew hdivision.2.2.wellFormed
  | gcd ownership x a b =>
    apply commits_operandPair hbank a b ownership
    intro left right hleft hright
    have hdivisor := (@Integer.attempts_gcdOf ownership left right hleft hright
      fun _ => False).makes
    exact commits_write hbank (hdivisor.mono fun _ hy => hy.wellFormed)
  | operate op ownership x a b =>
    apply commits_operandPair hbank a b ownership
    intro left right hleft hright
    have happlied := Integer.makes_apply op ownership hleft hright
    exact commits_write hbank (happlied.mono fun _ hy => hy.wellFormed)
  | assign op x b =>
    refine (commits_operand hbank b true).bind ?_
    intro right hright
    have hassigned := Integer.commits_assign op (hbank x) hright.wellFormed
    exact commits_update hbank (hassigned.mono fun _ _ hy => hy.wellFormed)
  | negate x a owned =>
    refine (commits_operand hbank a owned).bind ?_
    intro value hvalue
    exact commits_write hbank (Integer.makes_negated hvalue.wellFormed owned)
  | shiftLeft x a n owned =>
    refine (commits_operand hbank a owned).bind ?_
    intro value hvalue
    exact commits_write hbank (Integer.makes_shiftedLeft hvalue.wellFormed n owned)
  | shiftRight x a n owned =>
    refine (commits_operand hbank a owned).bind ?_
    intro value hvalue
    exact commits_write hbank (Integer.makes_shiftedRight hvalue.wellFormed n owned)
  | sum x terms =>
    refine (commits_operands hbank terms).bind ?_
    intro xs hxs
    exact commits_write hbank ((Integer.makes_sum hxs).mono fun _ hy => hy.wellFormed)
  | draw x request bytes =>
    have hbounded := bounded_request hbank request
    have hdrawn := (Request.yields_draw hbounded (Source.ofBytes bytes)).resultFrom
    exact ActionOn.commits_current (commits_write hbank hdrawn)
  | ask query =>
    apply (commits_answer query).mono
    intro _ new hnew
    rw [hnew]
    exact hbank

end Machine

end Multiword
