import Multiword.Session.Answer
import Multiword.Session.Command
import Multiword.Text.Parse

/-!
# Running a machine

Each step runs one command on the bank, under memory of its own. A step that fails leaves what it
had changed by then, and the machine goes on with the next one. Copies of owned operands are made
before the step and are not part of its memory.
-/

set_option autoImplicit false

namespace Multiword

/-! ## Parts of a command -/

/-- The computation with a destination that a combination stands for. -/
def Combination.into : Combination → Operand → Operand → Update Unit
  | .addMagnitudes => Integer.addMagnitudes
  | .subMagnitudes => Integer.subMagnitudes
  | .mulMagnitudes => Integer.mulMagnitudes
  | .gcdMagnitudes => Integer.gcdMagnitudes
  | .add => Integer.add
  | .sub => Integer.sub
  | .mul => Integer.mul

/-- The computation on a destination that an edit stands for. -/
def Edit.update (edit : Edit) : Update Unit := do
  let x ← ActionOn.current
  match edit with
  | .negate => ActionOn.replace x.negate
  | .clear => ActionOn.replace (← x.cleared)
  | .release => ActionOn.replace x.released
  | .setSign negative => ActionOn.replace (x.withSign negative)
  | .setUnsigned n => ActionOn.replace (← x.setUnsigned n)
  | .setSigned n => ActionOn.replace (← x.setSigned n)
  | .shiftLeft n => Integer.shiftLeft n
  | .shiftRight n => ActionOn.replace (← x.shiftRight n)
  | .shiftLeftOrAbort n => (Integer.shiftLeft n).orAbort
  | .setBit n => Integer.setBit n
  | .loadBytes bytes => Integer.loadBytes bytes
  | .loadWords words => Integer.loadWords words

/-- The integer that comes from an origin, if there is one. -/
def Origin.create : Origin → Action (Option Integer)
  | .zero => pure (some .zero)
  | .text written => some <$> Integer.ofText written
  | .bytes encoded => some <$> Integer.ofBytes encoded
  | .words digits => some <$> Integer.ofWords digits
  | .unsigned n => do pure (some (← Integer.ofUnsigned n))
  | .signed n => do pure (some (← Integer.ofSigned n))
  | .native type n => do pure (← Integer.ofNative? type n)

namespace Machine

/-- The integers of a machine. -/
abbrev Bank (size : Nat) := Vector Integer size

/-- Every register is zero. -/
def Bank.initial (size : Nat) : Bank size := Vector.replicate size .zero

/-- A computation on the bank. -/
abbrev Session (size : Nat) (α : Type) := ActionOn (Bank size) α

variable {size : Nat}

/-- The integer in a register. -/
def read (a : Register size) : Session size Integer := do
  let bank ← ActionOn.current
  pure bank[a]

/-- Put an integer into a register. -/
def write (x : Register size) (value : Integer) : Session size Unit := do
  let bank ← ActionOn.current
  ActionOn.replace (bank.set x value)

/-- Run a computation with a register as its destination. -/
def update (x : Register size) (computation : Update Unit) : Session size Unit :=
  computation.onPart (fun bank => bank[x]) fun bank value => bank.set x value

/-- The integer in a register as an operand: itself, or a copy for the step. -/
def operand (a : Register size) (owned : Bool) : Session size Integer := do
  let value ← read a
  if owned then
    match value.copy.granted with
    | .ok copy => pure copy
    | .error failure => throw failure
  else
    pure value

/-- A register as an operand of a computation with the destination `x`. -/
def operandFor (x a : Register size) : Session size Operand := do
  if a = x then
    pure .dest
  else
    pure (.value (← read a))

/-- Answer a question. -/
def answer : Query size → Session size Answer
  | .properties a => do pure (.properties (← (← read a).properties))
  | .hash a => do pure (.bytes (← (← read a).hashBytes))
  | .testBit a n => do pure (.truth (← (← read a).testBit n))
  | .writeBytes a length => do
    let x ← read a
    let bytes ← x.writeBytes.applyTo (List.replicate length 0)
    pure (.bytes bytes)
  | .toNative a types => do
    let x ← read a
    let values : Checked (List (Option Int)) := types.mapM x.toNative?
    pure (.natives (← values))
  | .compare a b => do
    let x ← read a
    let y ← read b
    pure (.comparison {
      order := ← x.compare y
      magnitudes := ← x.compareMagnitudes y
      equal := ← x.equal y
      sameMagnitude := ← x.sameMagnitude y })
  | .compareNative a type n => do
    pure (.nativeComparison (← (← read a).compareNative type n))

/-- Run a command. -/
def perform : Command size → Session size Answer
  | .ask query => answer query
  | .create x origin => do
    let created : Option Integer ← origin.create
    match created with
    | some value => do
      write x value
      pure .done
    | none => pure .absent
  | .combine op x a b => do
    update x (op.into (← operandFor x a) (← operandFor x b))
    pure .done
  | .edit x edit => do
    update x edit.update
    pure .done
  | .copyFrom x a => do
    update x (Integer.copyFrom (← read a))
    pure .done
  | .swap x y => do
    let first ← read x
    write x (← read y)
    write y first
    pure .done
  | .copy x a reports => do
    let value ← read a
    write x (← if reports then value.copy else value.copyOrAbort)
    pure .done
  | .divideMagnitudes q r ownership a b => do
    let left ← operand a ownership.ownsLeft
    let right ← operand b ownership.ownsRight
    let division ← Integer.divideOf ownership left right
    q.forM (write · division.quotient)
    r.forM (write · division.remainder)
    pure .done
  | .divide q r a b => do
    let division ← Integer.divide (← read a) (← read b)
    write q division.quotient
    write r division.remainder
    pure .done
  | .gcd ownership x a b => do
    let left ← operand a ownership.ownsLeft
    let right ← operand b ownership.ownsRight
    write x (← Integer.gcdOf ownership left right)
    pure .done
  | .operate op ownership x a b => do
    let left ← operand a ownership.ownsLeft
    let right ← operand b ownership.ownsRight
    write x (← op.apply ownership left right)
    pure .done
  | .assign op x b => do
    update x (op.assign (← operand b true))
    pure .done
  | .negate x a owned => do
    write x (← (← operand a owned).negated owned)
    pure .done
  | .shiftLeft x a n owned => do
    write x (← (← operand a owned).shiftedLeft n owned)
    pure .done
  | .shiftRight x a n owned => do
    write x (← (← operand a owned).shiftedRight n owned)
    pure .done
  | .sum x terms => do
    write x (← Integer.sum (← terms.mapM fun term => operand term true))
    pure .done
  | .draw x request bytes => do
    let bank ← ActionOn.current
    let bounds := request.map fun a => bank[a]
    write x (← bounds.draw.resultFrom (Source.ofBytes bytes))
    pure .done

/-- A command, and which of the requests for room in it are refused. -/
structure Step (size : Nat) where
  command : Command size
  refuses : Nat → Bool

/-- How a step ended. -/
structure Report (size : Nat) where
  outcome : Outcome Answer
  bank : Bank size
  log : List Record

/-- Run a step on a bank. -/
def Step.run (step : Step size) (bank : Bank size) : Report size :=
  let (outcome, bank, memory) := (perform step.command).exec bank (Memory.new step.refuses)
  { outcome, bank, log := memory.log }

/-- Run steps one after the other, each on the bank that the one before left. -/
def runAll : List (Step size) → Bank size → List (Report size)
  | [], _ => []
  | step :: steps, bank =>
    let report := step.run bank
    report :: runAll steps report.bank

end Machine

/-! ## Sessions -/

/-- The integers of a session. -/
abbrev Bank := Machine.Bank 6

/-- Every register is zero. -/
def Bank.initial : Bank := Machine.Bank.initial 6

/-- A command of a session, and which of the requests for room in it are refused. -/
abbrev Step := Machine.Step 6

end Multiword
