import StatesLanguage.Branch.Tolerance
import StatesLanguage.Execution.Error
/-!
Nested workflows that are run side by side. They wait in a queue and are started in order, so many
at a time, and each one in flight is stepped once an advance. A result goes to the place of its
child, whichever child ends first.
-/
namespace StatesLanguage

/-- What came of one step of a workflow. -/
inductive StepOutcome where
  | progressed
  | blocked
  | terminal
  deriving Inhabited, DecidableEq

/-- What can be done with a child of that number. A child that has ended has a result. -/
structure Child (α σ : Type) where
  start : Nat → α → α
  step : Nat → α → σ → StepOutcome × α × σ
  result? : α → Option (Except ExecutionError Value)
  abort : String → α → σ → α × σ

/-- Children that wait, children in flight, and the results so far. A limit of zero is none. -/
structure Branches (α : Type) where
  pending : List (Nat × α)
  inFlight : List (Nat × α) := []
  results : List (Option Value)
  limit : Nat := 0
  tolerance : Tolerance := {}
  recorded : Nat := 0
  failed : Nat := 0
  deriving Inhabited

/-- What came of one advance. -/
inductive BranchOutcome where
  | running (progressed : Bool)
  | completed (results : List Value)
  | failed (error : ExecutionError)
  deriving Inhabited

namespace Branches

variable {α σ : Type}

/-- Children that have all yet to start. -/
def ofList (children : List α) (limit : Nat) (tolerance : Tolerance) : Branches α where
  pending := children.mapIdx fun i child => (i, child)
  results := children.map fun _ => none
  limit := limit
  tolerance := tolerance

def total (b : Branches α) : Nat := b.results.length

/-- How many children can be started now. -/
def freeSlots (b : Branches α) : Nat :=
  if b.limit = 0 then b.pending.length else b.limit - b.inFlight.length

/-- The children that are started next. -/
def nextUp (b : Branches α) : List (Nat × α) := b.pending.take b.freeSlots

/-- Starts as many children as there are free slots. -/
def startNext (c : Child α σ) (b : Branches α) : Branches α :=
  { b with
    pending := b.pending.drop b.freeSlots
    inFlight := b.inFlight ++ b.nextUp.map fun (i, child) => (i, c.start i child) }

/-- The error that a child hands on. -/
def childFailure (e : ExecutionError) : ExecutionError :=
  .composite (e.name?.getD "States.BranchFailed") (e.cause?.getD e.text)

/-- The error of too many failures. -/
def excessFailure (failed total : Nat) : ExecutionError :=
  .composite "States.ExceedToleratedFailureThreshold" s!"{failed} of {total} items failed"

/-- The branches with a result at its place. -/
def fill (b : Branches α) (i : Nat) (v : Value) : Branches α :=
  { b with results := b.results.set i (some v), recorded := b.recorded + 1 }

/-- Takes the result of a child. A failure that is tolerated leaves its payload as the result; for
another one there is the error that ends all branches. -/
def record (b : Branches α) (i : Nat) :
    Except ExecutionError Value → Branches α × Option ExecutionError
  | .ok v => (b.fill i v, none)
  | .error e =>
    let b := { b with failed := b.failed + 1 }
    if b.tolerance.allows b.failed b.total then (b.fill i e.payload, none)
    else if b.tolerance.isConfigured then (b, some (excessFailure b.failed b.total))
    else (b, some (childFailure e))

/-- Aborts children in their order. -/
def abortAll (c : Child α σ) (cause : String) : List (Nat × α) → σ → σ
  | [], s => s
  | (_, child) :: rest, s => abortAll c cause rest (c.abort cause child s).2

/-- Aborts every child in flight and drops the ones that wait. -/
def abandon (c : Child α σ) (cause : String) (b : Branches α) (s : σ) : Branches α × σ :=
  ({ b with pending := [], inFlight := [] }, abortAll c cause b.inFlight s)

/-- Why the siblings of a failed child are aborted. -/
def siblingFailed : String := "A sibling nested workflow failed"

/-- Steps the given children once each, in order, and tells whether one of them moved. Those that go
on stay in flight; those that end are recorded, and the first that fails for good ends the round. -/
def round (c : Child α σ) :
    List (Nat × α) → Bool → Branches α → σ → Except ExecutionError Bool × Branches α × σ
  | [], progressed, b, s => (.ok progressed, b, s)
  | (i, child) :: rest, progressed, b, s =>
    let (outcome, child, s) := c.step i child s
    let progressed := progressed || outcome != .blocked
    match c.result? child with
    | none => round c rest progressed { b with inFlight := b.inFlight ++ [(i, child)] } s
    | some result =>
      match b.record i result with
      | (b, none) => round c rest progressed b s
      | (b, some e) =>
        let (b, s) := { b with inFlight := b.inFlight ++ rest }.abandon c siblingFailed s
        (.error e, b, s)

/-- Starts what can be started and steps every child in flight once. Slots that become free are
filled at the end; those children are stepped by the next advance. -/
def advance (c : Child α σ) (b : Branches α) (s : σ) : BranchOutcome × Branches α × σ :=
  let started := !b.nextUp.isEmpty
  let b := b.startNext c
  match round c b.inFlight started { b with inFlight := [] } s with
  | (.error e, b, s) => (.failed e, b, s)
  | (.ok progressed, b, s) =>
    if b.pending.isEmpty && b.inFlight.isEmpty then
      (.completed (b.results.map Value.ofOption), { b with results := [] }, s)
    else (.running (progressed || !b.nextUp.isEmpty), b.startNext c, s)

end Branches

end StatesLanguage
