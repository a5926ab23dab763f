import Multiword.Proofs.Sampling.Ending
import Multiword.Proofs.Session.Command
import Multiword.Proofs.Text.Reading

/-!
# No fault is reachable

What a command can fail for is told by the command: a method reports, an operator gives up, a draw
ends in one of its own ways. No command meets a fault, as long as the registers are sound and the bit
counts of its inputs fit the machine; and a command on sound registers leaves them sound. So none of the
internal checks fails in any run from zero on.
-/

set_option autoImplicit false

namespace Multiword

open Integer (Sound Refusal DivisionCause TextCause)

/-! ## Failures -/

/-- A shift without a way to report aborts; the edits that ask for no room do not fail. -/
def Edit.MayFail : Edit → Failure → Prop
  | .shiftLeft _, failure | .setBit _, failure | .loadBytes _, failure | .loadWords _, failure =>
    failure.Reports Refusal
  | .shiftLeftOrAbort _, failure => failure.Aborts Refusal
  | _, _ => False

/-- A text can be wrong; digits can only lack the room. -/
def Origin.MayFail : Origin → Failure → Prop
  | .text _, failure => failure.Reports TextCause
  | .bytes _, failure | .words _, failure => failure.Reports Refusal
  | _, _ => False

/-- The digits that are loaded have a bit count that the machine holds. -/
def Edit.Fits : Edit → Prop
  | .loadBytes bytes => bitLength (Bytes.toNat bytes.reverse) < UInt64.size
  | .loadWords words => bitLength (Words.toNat words) < UInt64.size
  | _ => True

/-- The digits have a bit count that the machine holds. -/
def Origin.Fits : Origin → Prop
  | .bytes encoded => bitLength (Bytes.toNat encoded.reverse) < UInt64.size
  | .words digits => bitLength (Words.toNat digits) < UInt64.size
  | _ => True

namespace Machine

variable {size : Nat}

/-- All that a question can meet is an output that is too short. -/
def Query.MayFail (query : Query size) (bank : Bank size) : Failure → Prop :=
  match query with
  | .writeBytes a length =>
    Failure.Reports fun e => length < (bank.get a).byteSize ∧
      e = .bufferTooSmall (bank.get a).byteSize length
  | _ => fun _ => False

/-- How a command can fail, by what is asked for and by what the registers hold. Only what has no way
to report aborts: operators, copies and sums, and the draws that use these. -/
def Command.MayFail (command : Command size) (bank : Bank size) : Failure → Prop :=
  match command with
  | .combine _ _ _ _ | .copyFrom _ _ | .copy _ _ true | .gcd _ _ _ _ => Failure.Reports Refusal
  | .edit _ change => change.MayFail
  | .create _ origin => origin.MayFail
  | .swap _ _ => fun _ => False
  | .divideMagnitudes _ _ _ _ b | .divide _ _ _ b =>
    Failure.Reports (DivisionCause (bank.get b).magnitude)
  | .operate op _ _ _ b | .assign op _ b => Failure.Aborts (op.Causes (bank.get b).magnitude)
  | .copy _ _ false | .sum _ _ | .shiftLeft _ _ _ _ => Failure.Aborts Refusal
  | .negate _ _ owned | .shiftRight _ _ _ owned =>
    Failure.Aborts fun e => owned = false ∧ Refusal e
  | .draw _ request _ => (request.map bank.get).MayFail
  | .ask query => query.MayFail bank

/-- The bit counts of all inputs fit the machine. -/
def Command.Fits : Command size → Prop
  | .edit _ change => change.Fits
  | .create _ origin => origin.Fits
  | .draw _ request _ => request.Fits
  | _ => True

end Machine

/-! ## Parts of a command -/

theorem Combination.ends_into (op : Combination) {x : Integer} {a b : Operand} (hx : x.Sound)
    (ha : (a.resolve x).Sound) (hb : (b.resolve x).Sound) :
    (op.into a b).Ends x (Failure.Reports Refusal) fun _ y => y.Sound := by
  cases op with
  | addMagnitudes => exact Integer.ends_addMagnitudes hx ha hb
  | subMagnitudes => exact Integer.ends_subMagnitudes hx ha hb
  | mulMagnitudes => exact Integer.ends_mulMagnitudes hx ha hb
  | gcdMagnitudes => exact Integer.ends_gcdMagnitudes hx ha hb
  | add => exact Integer.ends_addWithSigns hx ha hb false
  | sub => exact Integer.ends_addWithSigns hx ha hb true
  | mul => exact Integer.ends_mul hx ha hb

theorem Edit.ends_update {edit : Edit} (hfits : edit.Fits) {x : Integer} (hx : x.Sound) :
    edit.update.Ends x edit.MayFail fun _ y => y.Sound := by
  unfold Edit.update
  refine ActionOn.ends_current ?_
  -- edits that only compute do not fail
  have hchecked : ∀ {checked : Checked Integer}, (∃ y, checked = .ok y ∧ y.Sound) →
      (do ActionOn.replace (← checked) : Update Unit).Ends x (fun _ => False) fun _ y =>
        y.Sound := by
    rintro checked ⟨y, rfl, hy⟩
    exact ActionOn.ends_replace hy
  cases edit with
  | negate => exact ActionOn.ends_replace hx.negate
  | clear =>
    obtain ⟨y, hy, hholds⟩ := hx.wellFormed.cleared
    exact hchecked ⟨y, hy, hx.of_holds hholds⟩
  | release => exact ActionOn.ends_replace Integer.sound_zero
  | setSign negative => exact ActionOn.ends_replace (hx.withSign negative)
  | setUnsigned n => exact hchecked (hx.setUnsigned n)
  | setSigned n => exact hchecked (hx.setSigned n)
  | shiftLeft n => exact Integer.ends_shiftLeft hx n
  | shiftRight n =>
    obtain ⟨y, hy, hholds⟩ := hx.wellFormed.shiftRight n
    exact hchecked ⟨y, hy, hx.of_holds hholds⟩
  | shiftLeftOrAbort n => exact (Integer.ends_shiftLeft hx n).orAbort
  | setBit n => exact Integer.ends_setBit hx n
  | loadBytes bytes => exact Integer.ends_loadBytes hx hfits
  | loadWords words => exact Integer.ends_loadWords hx hfits

/-- A native integer of any width is one of 64 bits, or there is no such integer. -/
theorem Integer.exists_ofNative? (type : NativeType) (n : Int) :
    ∃ created, ofNative? type n = .ok created ∧ ∀ x, created = some x → x.Sound := by
  have hfits : ∀ {fits : Prop} [Decidable fits] {checked : Checked Integer},
      (∃ x, checked = .ok x ∧ x.Sound) → ∃ created : Option Integer,
        (if fits then some <$> checked else pure none) = .ok created ∧
          ∀ x, created = some x → x.Sound := by
    rintro fits _ checked ⟨x, rfl, hx⟩
    by_cases hholds : fits
    · refine ⟨some x, if_pos hholds, ?_⟩
      rintro y ⟨⟩
      exact hx
    · exact ⟨none, if_neg hholds, by simp⟩
  cases type with
  | signed width => exact hfits (sound_zero.setSigned _)
  | unsigned width => exact hfits (sound_zero.setUnsigned _)

theorem Origin.ends_create {origin : Origin} (hfits : origin.Fits) :
    origin.create.Ends origin.MayFail fun created => ∀ x, created = some x → x.Sound := by
  have hsome : ∀ {x : Integer}, x.Sound → ∀ y, some x = some y → y.Sound := by
    rintro x hx y ⟨⟩
    exact hx
  cases origin with
  | zero => exact Action.ends_pure (hsome Integer.sound_zero)
  | text written =>
    exact ((Integer.ends_ofText written).mono (fun _ h => h) fun _ hx => hsome hx).map
  | bytes encoded =>
    have hloaded := (Integer.ends_loadBytes Integer.sound_zero hfits).applyTo
    exact (hloaded.mono (fun _ h => h) fun _ hx => hsome hx).map
  | words digits =>
    have hloaded := (Integer.ends_loadWords Integer.sound_zero hfits).applyTo
    exact (hloaded.mono (fun _ h => h) fun _ hx => hsome hx).map
  | unsigned n =>
    obtain ⟨x, hx, hsound⟩ := Integer.sound_zero.setUnsigned n
    exact Action.ends_checked hx (Action.ends_pure (hsome hsound))
  | signed n =>
    obtain ⟨x, hx, hsound⟩ := Integer.sound_zero.setSigned n
    exact Action.ends_checked hx (Action.ends_pure (hsome hsound))
  | native type n =>
    obtain ⟨created, hcreated, hsound⟩ := Integer.exists_ofNative? type n
    show (liftM (Integer.ofNative? type n) : Action (Option Integer)).Ends _ _
    rw [hcreated]
    exact Action.ends_pure hsound

namespace Machine

open ActionOn (ends_pure ends_checked ends_action ends_replace ends_current)

variable {size : Nat} {bank : Bank size} {α : Type} {fails : Failure → Prop}
  {post : α → Bank size → Prop}

/-! ## Banks -/

/-- All registers are sound. -/
def Bank.Sound (bank : Bank size) : Prop :=
  ∀ a : Register size, (bank.get a).Sound

theorem Bank.Sound.wellFormed (h : bank.Sound) : bank.WellFormed :=
  fun a => (h a).wellFormed

theorem Bank.sound_initial : (Bank.initial size).Sound :=
  Bank.forall_initial Integer.sound_zero

theorem Bank.Sound.set (h : bank.Sound) (x : Register size) {value : Integer}
    (hvalue : value.Sound) : Bank.Sound (bank.set x value x.isLt) :=
  Bank.forall_set h x hvalue

theorem ends_read {a : Register size} {next : Integer → Session size α}
    (h : (next (bank.get a)).Ends bank fails post) : (read a >>= next).Ends bank fails post := h

/-- A copy that is made for a step is granted. -/
theorem ends_operand (hbank : bank.Sound) (a : Register size) (owned : Bool) :
    (operand a owned).Ends bank fails fun x new =>
      new = bank ∧ x.Sound ∧ x.magnitude = (bank.get a).magnitude := by
  unfold operand
  refine ends_read ?_
  split
  · obtain ⟨copy, hcopy, hsound⟩ := Integer.exists_granted_copy (hbank a)
    have hholds := (hbank a).wellFormed.makes_copy.granted hcopy
    rw [hcopy]
    exact ends_pure ⟨rfl, hsound, hholds.magnitude_eq⟩
  · exact ends_pure ⟨rfl, hbank a, rfl⟩

theorem ends_operandFor {x a : Register size} {next : Operand → Session size α}
    (h : ∀ o : Operand, o.resolve (bank.get x) = bank.get a → (next o).Ends bank fails post) :
    (operandFor x a >>= next).Ends bank fails post := by
  intro memory
  obtain ⟨o, ho, hexec⟩ := exists_operandFor bank x a
  rw [hexec]
  exact h o ho memory

/-- Both operands of an expression are there before it is computed. -/
theorem ends_operandPair (hbank : bank.Sound) (a b : Register size) (ownership : Ownership)
    {next : Integer → Integer → Session size α}
    (h : ∀ left right, left.Sound → right.Sound → right.magnitude = (bank.get b).magnitude →
      (next left right).Ends bank fails post) :
    (do
      let left ← operand a ownership.ownsLeft
      let right ← operand b ownership.ownsRight
      next left right).Ends bank fails post := by
  refine (ends_operand hbank a _).bind ?_
  rintro left _ ⟨rfl, hleft, -⟩
  refine (ends_operand hbank b _).bind ?_
  rintro right _ ⟨rfl, hright, hmagnitude⟩
  exact h left right hleft hright hmagnitude

/-- Copies of several registers are made one after the other. -/
theorem ends_operands (hbank : bank.Sound) (terms : List (Register size)) :
    (terms.mapM fun term => operand term true).Ends bank fails fun xs new =>
      new = bank ∧ ∀ x ∈ xs, x.Sound := by
  induction terms with
  | nil => exact ends_pure ⟨rfl, by simp⟩
  | cons term terms ih =>
    rw [List.mapM_cons]
    refine (ends_operand hbank term true).bind ?_
    rintro x _ ⟨rfl, hx, -⟩
    refine ih.bind ?_
    rintro xs _ ⟨rfl, hxs⟩
    exact ends_pure ⟨rfl, List.forall_mem_cons.2 ⟨hx, hxs⟩⟩

theorem ends_update (hbank : bank.Sound) {x : Register size} {computation : Update Unit}
    (h : computation.Ends (bank.get x) fails fun _ y => y.Sound) :
    (do
      update x computation
      pure .done : Session size Answer).Ends bank fails fun _ new => new.Sound := by
  have hupdated : (update x computation).Ends bank fails fun _ new => new.Sound :=
    ActionOn.Ends.onPart (h.mono (fun _ h => h) fun _ _ hy => hbank.set x hy)
  exact hupdated.bind fun _ _ hnew => ends_pure hnew

/-- A result that is not asked for is dropped. -/
theorem ends_output (hbank : bank.Sound) (output : Option (Register size)) {value : Integer}
    (h : value.Sound) : (output.forM (write · value)).Ends bank fails fun _ new => new.Sound := by
  cases output with
  | none => exact ends_pure hbank
  | some x => exact ends_current (ends_replace (hbank.set x h))

theorem ends_writeDone (hbank : bank.Sound) {x : Register size} {value : Integer}
    (h : value.Sound) :
    (do
      write x value
      pure .done : Session size Answer).Ends bank fails fun _ new => new.Sound :=
  (ends_output hbank (some x) h).bind fun _ _ hnew => ends_pure hnew

/-- A result goes into a register once it is there. -/
theorem ends_write (hbank : bank.Sound) {x : Register size} {action : Action Integer}
    (h : action.Ends fails Sound) :
    (do
      write x (← action)
      pure .done : Session size Answer).Ends bank fails fun _ new => new.Sound :=
  ends_action h fun _ hy => ends_writeDone hbank hy

/-! ## Commands -/

/-- Every question is answered; only an output may be too short. -/
theorem ends_answer (hbank : bank.Sound) (query : Query size) :
    (answer query).Ends bank (query.MayFail bank) fun _ new => new = bank := by
  cases query with
  | properties a =>
    obtain ⟨_, h⟩ := (hbank a).wellFormed.exists_properties
    exact ends_read (ends_checked h (ends_pure rfl))
  | hash a =>
    obtain ⟨_, h⟩ := (hbank a).wellFormed.exists_hashBytes
    exact ends_read (ends_checked h (ends_pure rfl))
  | testBit a n =>
    have h := (hbank a).wellFormed.testBit_eq n
    exact ends_read (ends_checked h (ends_pure rfl))
  | writeBytes a length =>
    refine ends_read ?_
    have hwritten := ((hbank a).wellFormed.ends_writeBytes (List.replicate length 0)).applyTo
    rw [List.length_replicate] at hwritten
    exact ends_action hwritten fun _ _ => ends_pure rfl
  | toNative a types =>
    obtain ⟨_, h, -⟩ := @Checked.exists_mapM _ _ types _ fun type _ =>
      (hbank a).wellFormed.exists_toNative? type
    exact ends_read (ends_checked h (ends_pure rfl))
  | compare a b =>
    have ha := (hbank a).wellFormed
    have hb := (hbank b).wellFormed
    exact ends_read (ends_read (ends_checked (ha.compare_eq hb)
      (ends_checked (ha.compareMagnitudes_eq hb) (ends_checked (ha.equal_eq hb)
        (ends_checked (ha.sameMagnitude_eq hb) (ends_pure rfl))))))
  | compareNative a type n =>
    obtain ⟨_, h⟩ := (hbank a).wellFormed.exists_compareNative type n
    exact ends_read (ends_checked h (ends_pure rfl))

/-- A draw within bounds from registers, prepared once for as many draws as one likes. -/
theorem ends_prepare (hbank : bank.Sound) {request : Request (Register size)}
    (hfits : request.Fits) :
    (request.map bank.get).prepare.Ends (request.map bank.get).MayFail fun draw =>
      draw.Delivers (request.map bank.get).MayFail Sound := by
  cases request with
  | bits n => exact Request.ends_prepare hfits trivial
  | signedBits n => exact Request.ends_prepare hfits trivial
  | below bound => exact Request.ends_prepare trivial (hbank bound)
  | range low high => exact Request.ends_prepare trivial ⟨hbank low, hbank high⟩
  | single low high inclusive => exact Request.ends_prepare trivial ⟨hbank low, hbank high⟩
  | sampler low high inclusive => exact Request.ends_prepare trivial ⟨hbank low, hbank high⟩

/-- Every command ends with sound registers or fails as it may. -/
theorem ends_perform (hbank : bank.Sound) {command : Command size} (hfits : command.Fits) :
    (perform command).Ends bank (command.MayFail bank) fun _ new => new.Sound := by
  cases command with
  | combine op x a b =>
    refine ends_operandFor fun left hleft => ends_operandFor fun right hright => ?_
    refine ends_update hbank (op.ends_into (hbank x) ?_ ?_)
    · rw [hleft]
      exact hbank a
    · rw [hright]
      exact hbank b
  | edit x edit => exact ends_update hbank (Edit.ends_update hfits (hbank x))
  | create x origin =>
    refine ends_action (Origin.ends_create hfits) fun created hcreated => ?_
    cases created with
    | none => exact ends_pure hbank
    | some value => exact ends_writeDone hbank (hcreated value rfl)
  | copyFrom x a => exact ends_read (ends_update hbank (Integer.ends_copyFrom (hbank x) (hbank a)))
  | swap x y =>
    refine ends_read (ends_read ((ends_output hbank (some x) (hbank y)).bind fun _ _ hnew => ?_))
    exact ends_writeDone hnew (hbank x)
  | copy x a reports =>
    refine ends_read ?_
    cases reports with
    | true => exact ends_write hbank (Integer.ends_copy (hbank a))
    | false => exact ends_write hbank (Integer.ends_copyOrAbort (hbank a))
  | divideMagnitudes q r ownership a b =>
    refine ends_operandPair hbank a b ownership fun left right hleft hright hmagnitude => ?_
    have hdivided := Integer.ends_divideMagnitudes hleft hright
    rw [hmagnitude] at hdivided
    refine ends_action hdivided fun division hdivision => ?_
    refine (ends_output hbank q hdivision.quotient).bind fun _ _ hnew => ?_
    exact (ends_output hnew r hdivision.remainder).bind fun _ _ hnew => ends_pure hnew
  | divide q r a b =>
    refine ends_read (ends_read ?_)
    refine ends_action (Integer.ends_divide (hbank a) (hbank b)) fun division hdivision => ?_
    refine (ends_output hbank (some q) hdivision.quotient).bind fun _ _ hnew => ?_
    exact ends_writeDone hnew hdivision.remainder
  | gcd ownership x a b =>
    refine ends_operandPair hbank a b ownership fun left right hleft hright _ => ?_
    exact ends_write hbank (Integer.ends_gcdOf hleft hright ownership)
  | operate op ownership x a b =>
    refine ends_operandPair hbank a b ownership fun left right hleft hright hmagnitude => ?_
    have happlied := Integer.ends_apply hleft hright op ownership
    rw [hmagnitude] at happlied
    exact ends_write hbank happlied
  | assign op x b =>
    refine (ends_operand hbank b true).bind ?_
    rintro right _ ⟨rfl, hright, hmagnitude⟩
    have hassigned := Integer.ends_assign (hbank x) hright op
    rw [hmagnitude] at hassigned
    exact ends_update hbank hassigned
  | negate x a owned =>
    refine (ends_operand hbank a owned).bind ?_
    rintro value _ ⟨rfl, hvalue, -⟩
    exact ends_write hbank (Integer.ends_negated hvalue owned)
  | shiftLeft x a n owned =>
    refine (ends_operand hbank a owned).bind ?_
    rintro value _ ⟨rfl, hvalue, -⟩
    exact ends_write hbank (Integer.ends_shiftedLeft hvalue n owned)
  | shiftRight x a n owned =>
    refine (ends_operand hbank a owned).bind ?_
    rintro value _ ⟨rfl, hvalue, -⟩
    exact ends_write hbank (Integer.ends_shiftedRight hvalue n owned)
  | sum x terms =>
    refine (ends_operands hbank terms).bind ?_
    rintro xs _ ⟨rfl, hxs⟩
    exact ends_write hbank (Integer.ends_sum hxs)
  | draw x request bytes =>
    have hdrawn : (request.map bank.get).draw.Delivers (request.map bank.get).MayFail Sound :=
      Draw.delivers_action (ends_prepare hbank hfits) fun _ h => h
    exact ends_current (ends_write hbank (hdrawn _).resultFrom)
  | ask query =>
    refine (ends_answer hbank query).mono (fun _ h => h) ?_
    rintro _ _ rfl
    exact hbank

/-! ## Runs -/

/-- All registers are sound, and a failure is one that the command may end in. A step that fails
leaves the bank as it was, so the registers are those that the command found. -/
structure Step.Allows (step : Step size) (report : Report size) : Prop where
  bank : report.bank.Sound
  failure : ∀ failure, report.outcome = .error failure → step.command.MayFail report.bank failure

theorem Step.allows_run (hbank : bank.Sound) {step : Step size} (hfits : step.command.Fits) :
    step.Allows (step.run bank) := by
  have hends := ends_perform hbank hfits (Memory.new step.refuses)
  have hcommits := commits_perform hbank.wellFormed step.command (Memory.new step.refuses)
  obtain ⟨answer, new, after, hrun, -⟩ | ⟨failure, after, hrun⟩ := hcommits <;>
    rw [hrun] at hends
  · have hnew : new.Sound := hends
    exact ⟨by simpa only [Step.run, hrun] using hnew, by simp [Step.run, hrun]⟩
  · refine ⟨by simpa only [Step.run, hrun] using hbank, ?_⟩
    intro other hother
    simp only [Step.run, hrun] at hother ⊢
    cases hother
    exact hends

/-- Each step starts from what the one before left. -/
theorem allows_of_mem_runAll {steps : List (Step size)} (hbank : bank.Sound)
    (hfits : ∀ step ∈ steps, step.command.Fits) {step : Step size} {report : Report size}
    (h : (step, report) ∈ steps.zip (runAll steps bank)) : step.Allows report := by
  induction steps generalizing bank with
  | nil => exact absurd h List.not_mem_nil
  | cons first steps ih =>
    have hfirst := Step.allows_run hbank (hfits first List.mem_cons_self)
    rw [runAll, List.zip_cons_cons] at h
    rcases List.mem_cons.1 h with heq | hlater
    · cases heq
      exact hfirst
    · exact ih hfirst.bank (fun later h => hfits later (List.mem_cons_of_mem first h)) hlater

theorem Command.not_mayFail_fault (command : Command size) (fault : Fault) :
    ¬command.MayFail bank (.fault fault) := by
  intro h
  cases command with
  | edit x change => cases change <;> exact h
  | create x origin => cases origin <;> exact h
  | copy x a reports => cases reports <;> exact h
  | draw x request bytes => exact (request.map bank.get).not_mayFail_fault fault h
  | ask query => cases query <;> exact h
  | _ => exact h

/-- Whatever steps a machine runs from zero on, and whatever room they are refused, no step meets a
fault, and a step that fails does so in a way that its command may on the registers it found. All
registers can be written out, in every layout, and bounds for draws can be taken from them. -/
theorem no_fault_in_any_run {steps : List (Step size)}
    (hfits : ∀ step ∈ steps, step.command.Fits) {step : Step size} {report : Report size}
    (hreport : (step, report) ∈ steps.zip (runAll steps (Bank.initial size))) :
    (∀ fault, report.outcome ≠ .error (.fault fault)) ∧
      (∀ failure, report.outcome = .error failure → step.command.MayFail report.bank failure) ∧
      (∀ x ∈ report.bank, ∀ layout digits, ∃ text, x.toText layout digits = .ok text) ∧
      ∀ request : Request (Register size), request.Fits →
        (request.map report.bank.get).prepare.Ends (request.map report.bank.get).MayFail fun draw =>
          draw.Delivers (request.map report.bank.get).MayFail Sound := by
  have hallows := allows_of_mem_runAll Bank.sound_initial hfits hreport
  refine ⟨?_, hallows.failure, ?_, fun request => ends_prepare hallows.bank⟩
  · intro fault hfault
    exact step.command.not_mayFail_fault fault (hallows.failure _ hfault)
  · intro x hx layout digits
    obtain ⟨a, ha, rfl⟩ := Vector.getElem_of_mem hx
    exact (hallows.bank ⟨a, ha⟩).wellFormed.exists_toText layout digits

theorem no_fault_in_division_by_zero :
    ∃ steps : List (Step 2), ∃ step report, (∀ step ∈ steps, step.command.Fits) ∧
      (step, report) ∈ steps.zip (runAll steps (Bank.initial 2)) ∧
      report.outcome = .error (.abort .divisionByZero) ∧
      step.command.MayFail report.bank (.abort .divisionByZero) := by
  have hfits : ∀ step ∈ [(⟨.edit 0 (.loadBytes [1, 2]), fun _ => false⟩ : Step 2),
      ⟨.operate .quotient .neither 0 0 1, fun _ => true⟩], step.command.Fits := by
    intro step hstep
    rcases List.mem_pair.1 hstep with rfl | rfl
    · show bitLength (Bytes.toNat [2, 1]) < UInt64.size
      decide
    · trivial
  have hreport : ∀ first second : Step 2, (second, second.run (first.run (Bank.initial 2)).bank) ∈
      [first, second].zip (runAll [first, second] (Bank.initial 2)) :=
    fun _ _ => List.mem_cons_of_mem _ List.mem_cons_self
  have hfailure := (no_fault_in_any_run hfits (hreport _ _)).2.1 (.abort .divisionByZero) (by decide)
  exact ⟨_, _, _, hfits, hreport _ _, by decide, hfailure⟩

end Machine

end Multiword
