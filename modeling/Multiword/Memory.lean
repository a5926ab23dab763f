import Multiword.Failure

/-!
# Memory

The only effect of the arithmetic is that a buffer asks for more room. `Memory` answers each request
in turn: it may refuse any of them, as `refuses` says by their number, and it refuses every request
for `Memory.wordLimit` words or more. It also keeps the records that operations leave behind.

An `Action` computes with memory. An `ActionOn σ` changes a place of type `σ` as well; what it has
changed stays changed when it fails, so that whether a failure leaves its destination alone is a
property that can be stated.
-/

set_option autoImplicit false

namespace Multiword

/-- What an operation writes down while it runs. -/
inductive Record where
  /-- A buffer of `old` words was refused to become one of `new` words. -/
  | growthRefused (old new : Nat)
  /-- A greatest common divisor took `rounds` rounds; `2 ^ shift` divides both operands. -/
  | commonDivisor (rounds shift : Nat)
  /-- A division of so many bits by so many bits took `steps` steps and `subtractions` of them
  subtracted. -/
  | division (dividendBits divisorBits steps subtractions : Nat)
  deriving DecidableEq, Repr

/-- A record as a line of text, its level first. -/
def Record.line : Record → String
  | .growthRefused old new => s!"DEBUG big number growth from {old} to {new} words failed"
  | .commonDivisor rounds shift =>
    s!"TRACE binary gcd: {rounds} rounds, common power of two 2^{shift}"
  | .division dividendBits divisorBits steps subtractions =>
    s!"TRACE div_abs: {dividendBits} / {divisorBits} bits, {steps} steps, " ++
      s!"{subtractions} subtractions"

/-- Who grants and refuses growth. -/
structure Memory where
  /-- Whether the request of this number, counted from `0`, is refused. -/
  refuses : Nat → Bool
  /-- How many requests there have been. -/
  requests : Nat
  /-- What was written down, the oldest record first. -/
  log : List Record

namespace Memory

/-- No buffer grows to `2 ^ 47` words. -/
def wordLimit : Nat := 1 <<< 47

/-- Memory that refuses as `refuses` says, before the first request. -/
def new (refuses : Nat → Bool) : Memory :=
  { refuses, requests := 0, log := [] }

/-- Memory that refuses no request by its number. -/
def generous : Memory := new fun _ => false

end Memory

/-- A computation that may ask for room. -/
abbrev Action (α : Type) := ExceptT Failure (StateM Memory) α

/-- A computation that changes a place of type `σ`, and may ask for room. -/
abbrev ActionOn (σ α : Type) := ExceptT Failure (StateT σ (StateM Memory)) α

/-- A fault in a checked computation is a failure. -/
instance {m : Type → Type} [Monad m] : MonadLift Checked (ExceptT Failure m) where
  monadLift checked := ExceptT.mk (pure (checked.mapError Failure.fault))

/-- An action leaves the place alone. -/
instance {σ : Type} : MonadLift Action (ActionOn σ) where
  monadLift action := ExceptT.mk fun place memory =>
    let (result, memory) := action.run.run memory
    ((result, place), memory)

namespace Action

/-- Leave a record. -/
def record (entry : Record) : Action Unit :=
  modify fun memory => { memory with log := memory.log ++ [entry] }

/-- Ask for a buffer of `old` words to become one of `new` words. -/
def request (old new : Nat) : Action Unit := do
  let memory ← get
  set { memory with requests := memory.requests + 1 }
  if memory.refuses memory.requests || Memory.wordLimit ≤ new then
    record (.growthRefused old new)
    throw (.error .growthRefused)

/-- The result, and memory afterwards. -/
def exec {α : Type} (action : Action α) (memory : Memory) : Outcome α × Memory :=
  action.run.run memory

/-- Abort where the action would report. -/
def orAbort {α : Type} (action : Action α) : Action α :=
  tryCatch action fun failure => throw failure.aborting

/-- The result under memory that refuses nothing by number, and none of the requests counted. -/
def granted {α : Type} (action : Action α) : Outcome α :=
  (action.exec Memory.generous).1

end Action

namespace ActionOn

variable {σ τ α : Type}

/-- The result, what has become of the place, and memory afterwards. -/
def exec (action : ActionOn σ α) (place : σ) (memory : Memory) : Outcome α × σ × Memory :=
  let ((result, place), memory) := (action.run.run place).run memory
  (result, place, memory)

/-- The place as it is now. -/
def current : ActionOn σ σ :=
  ExceptT.mk fun place memory => ((.ok place, place), memory)

/-- Put a new value into the place. -/
def replace (place : σ) : ActionOn σ Unit :=
  ExceptT.mk fun _ memory => ((.ok (), place), memory)

/-- What the computation makes of `place`; if it fails, the place is given up. -/
def applyTo (action : ActionOn σ Unit) (place : σ) : Action σ :=
  ExceptT.mk fun memory =>
    let (result, place, memory) := action.exec place memory
    (result.map fun _ => place, memory)

/-- The result of a computation on `place`, which is given up. -/
def resultFrom (action : ActionOn σ α) (place : σ) : Action α :=
  ExceptT.mk fun memory =>
    let (result, _, memory) := action.exec place memory
    (result, memory)

/-- Abort where the computation would report. -/
def orAbort (action : ActionOn σ α) : ActionOn σ α :=
  tryCatch action fun failure => throw failure.aborting

/-- Run a computation on a part of a larger place; the part changes also if it fails. -/
def onPart (part : τ → σ) (replace : τ → σ → τ) (action : ActionOn σ α) : ActionOn τ α :=
  ExceptT.mk fun whole memory =>
    let (result, place, memory) := action.exec (part whole) memory
    ((result, replace whole place), memory)

end ActionOn

/-! ## What runs do

One equation for each way to build a computation, in terms of its run. -/

namespace Action

variable {α β : Type}

@[simp] theorem exec_pure (a : α) (memory : Memory) :
    (pure a : Action α).exec memory = (.ok a, memory) := rfl

@[simp] theorem exec_throw (failure : Failure) (memory : Memory) :
    (throw failure : Action α).exec memory = (.error failure, memory) := rfl

/-- The second part runs where the first has ended well. -/
theorem exec_bind (action : Action α) (next : α → Action β) (memory : Memory) :
    (action >>= next).exec memory =
      match action.exec memory with
      | (.ok a, memory) => (next a).exec memory
      | (.error failure, memory) => (.error failure, memory) := by
  simp only [exec, ExceptT.run, bind, ExceptT.bind, ExceptT.mk, StateT.run, StateT.bind]
  cases h : action memory with
  | mk result memory' => cases result <;> rfl

/-- A check leaves memory alone. -/
@[simp] theorem exec_checked (checked : Checked α) (memory : Memory) :
    (liftM checked : Action α).exec memory = (checked.mapError .fault, memory) := rfl

@[simp] theorem exec_record (entry : Record) (memory : Memory) :
    (record entry).exec memory = (.ok (), { memory with log := memory.log ++ [entry] }) := rfl

/-- A request counts, and a refused one is written down. -/
theorem exec_request (old new : Nat) (memory : Memory) :
    (request old new).exec memory =
      if memory.refuses memory.requests || Memory.wordLimit ≤ new then
        (.error (.error .growthRefused),
          { memory with
            requests := memory.requests + 1
            log := memory.log ++ [.growthRefused old new] })
      else (.ok (), { memory with requests := memory.requests + 1 }) := by
  simp only [exec, request, ExceptT.run, bind, ExceptT.bind, ExceptT.mk, StateT.run, StateT.bind]
  show (ite _ _ _ : Action Unit) _ = _
  split <;> rfl

/-- Aborting changes nothing but the failure. -/
theorem exec_orAbort (action : Action α) (memory : Memory) :
    action.orAbort.exec memory =
      ((action.exec memory).1.mapError Failure.aborting, (action.exec memory).2) := by
  show (ExceptT.tryCatch action _ : Action α) memory = _
  simp only [ExceptT.tryCatch, ExceptT.mk, bind, StateT.bind]
  show _ = ((action memory).1.mapError Failure.aborting, (action memory).2)
  rcases action memory with ⟨_ | _, _⟩ <;> rfl

end Action

namespace ActionOn

variable {σ τ α β : Type}

@[simp] theorem exec_pure (a : α) (place : σ) (memory : Memory) :
    (pure a : ActionOn σ α).exec place memory = (.ok a, place, memory) := rfl

@[simp] theorem exec_throw (failure : Failure) (place : σ) (memory : Memory) :
    (throw failure : ActionOn σ α).exec place memory = (.error failure, place, memory) := rfl

@[simp] theorem exec_current (place : σ) (memory : Memory) :
    (current : ActionOn σ σ).exec place memory = (.ok place, place, memory) := rfl

@[simp] theorem exec_replace (new place : σ) (memory : Memory) :
    (replace new).exec place memory = (.ok (), new, memory) := rfl

/-- The second part runs where the first has ended well, on what that has made of the place. -/
theorem exec_bind (action : ActionOn σ α) (next : α → ActionOn σ β) (place : σ)
    (memory : Memory) :
    (action >>= next).exec place memory =
      match action.exec place memory with
      | (.ok a, place, memory) => (next a).exec place memory
      | (.error failure, place, memory) => (.error failure, place, memory) := by
  simp only [exec, ExceptT.run, bind, ExceptT.bind, ExceptT.mk, StateT.run, StateT.bind]
  cases h : action place memory with
  | mk result memory' =>
    cases result with
    | mk result place' => cases result <;> rfl

/-- A check leaves the place and memory alone. -/
@[simp] theorem exec_checked (checked : Checked α) (place : σ) (memory : Memory) :
    (liftM checked : ActionOn σ α).exec place memory =
      (checked.mapError .fault, place, memory) := rfl

/-- An action leaves the place alone. -/
@[simp] theorem exec_action (action : Action α) (place : σ) (memory : Memory) :
    (liftM action : ActionOn σ α).exec place memory =
      ((action.exec memory).1, place, (action.exec memory).2) := rfl

/-- Aborting changes nothing but the failure. -/
theorem exec_orAbort (action : ActionOn σ α) (place : σ) (memory : Memory) :
    action.orAbort.exec place memory =
      ((action.exec place memory).1.mapError Failure.aborting,
        (action.exec place memory).2) := by
  simp only [exec, orAbort, ExceptT.run, StateT.run]
  show (match (ExceptT.tryCatch action _ : ActionOn σ α) place memory with
    | ((result, place), memory) => (result, place, memory)) = _
  simp only [ExceptT.tryCatch, ExceptT.mk, bind, StateT.bind]
  rcases action place memory with ⟨⟨_ | _, _⟩, _⟩ <;> rfl

@[simp] theorem exec_applyTo (action : ActionOn σ Unit) (place : σ) (memory : Memory) :
    (action.applyTo place).exec memory =
      ((action.exec place memory).1.map fun _ => (action.exec place memory).2.1,
        (action.exec place memory).2.2) := rfl

@[simp] theorem exec_resultFrom (action : ActionOn σ α) (place : σ) (memory : Memory) :
    (action.resultFrom place).exec memory =
      ((action.exec place memory).1, (action.exec place memory).2.2) := rfl

@[simp] theorem exec_onPart (part : τ → σ) (replace : τ → σ → τ) (action : ActionOn σ α)
    (whole : τ) (memory : Memory) :
    (action.onPart part replace).exec whole memory =
      ((action.exec (part whole) memory).1,
        replace whole (action.exec (part whole) memory).2.1,
        (action.exec (part whole) memory).2.2) := rfl

end ActionOn

end Multiword
