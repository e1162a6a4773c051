import StatesLanguage.Branch.Basic
import StatesLanguage.Execution.Context
import StatesLanguage.Job.Runner
/-!
The record of a workflow in execution, with the workflows nested in it.
-/
namespace StatesLanguage

/-- How far a workflow is. -/
inductive Status where
  | pending
  | running
  | succeeded
  | failed
  | aborted
  deriving Inhabited, DecidableEq

/-- Whether the workflow has ended. -/
def Status.isTerminal : Status → Bool
  | .pending | .running => false
  | _ => true

/-- A state that was left, with its output or the payload of its error. -/
structure Entry where
  state : String
  outcome : Except Value Value

mutual

/-- A workflow in execution. The data is the input of the current state, and the next state is the
target of the last transition. The output, the error and the cause of an abort are written when the
workflow ends, each by itself. -/
structure Run where
  execution : Execution
  status : Status
  data : Value
  output : Option Value
  error : Option ExecutionError
  abortCause : Option String
  visit : Option Visit
  next : Option String
  history : List Entry
  steps : Nat

/-- The stay in one state: what is being done there, how often each retrier was used, how often the
state was retried, and the instant before which it is not tried again. -/
structure Visit where
  state : String
  enteredAt : Instant
  progress : Progress
  attempts : List Nat
  retries : Nat
  notBefore : Option Instant

/-- What a state is doing between two steps. -/
inductive Progress where
  | idle
  | job (handle : JobHandle) (launchedAt : Instant)
  | waiting (deadline : Instant)
  | branches (b : Branches Run)

end

namespace Run

/-- A workflow that has yet to start. -/
def ofInput (execution : Execution) (input : Value) : Run where
  execution := execution
  status := .pending
  data := input
  output := none
  error := none
  abortCause := none
  visit := none
  next := none
  history := []
  steps := 0

instance : Inhabited Run := ⟨.ofInput default .null⟩

def isTerminal (r : Run) : Bool := r.status.isTerminal

/-- The name of the current state. -/
def current? (r : Run) : Option String := r.visit.map Visit.state

/-- What the current state is doing. -/
def progress (r : Run) : Progress := r.visit.elim .idle Visit.progress

/-- The context object of a stay in a state. -/
def contextAt (r : Run) (v : Visit) : Value :=
  Context.object r.execution ⟨v.state, v.enteredAt, v.retries⟩

/-- The failure of a workflow that gives no error of its own. -/
def abortFailure (r : Run) : ExecutionError :=
  .composite "States.BranchAborted" (r.abortCause.getD "Nested workflow was aborted")

/-- What a workflow that has ended hands to the one around it. -/
def result? (r : Run) : Option (Except ExecutionError Value) :=
  match r.status with
  | .pending | .running => none
  | .succeeded => some (.ok (r.output.getD .null))
  | .failed => some (.error (r.error.getD r.abortFailure))
  | .aborted => some (.error r.abortFailure)

mutual

/-- The jobs that a workflow holds, those of the workflows in flight inside it included. A workflow
that has ended holds none. -/
def jobs : Run → List JobHandle
  | ⟨_, status, _, _, _, _, visit, _, _, _⟩ => if status.isTerminal then [] else visitJobs? visit

def visitJobs? : Option Visit → List JobHandle
  | none => []
  | some v => visitJobs v

def visitJobs : Visit → List JobHandle
  | ⟨_, _, progress, _, _, _⟩ => progressJobs progress

def progressJobs : Progress → List JobHandle
  | .idle | .waiting _ => []
  | .job handle _ => [handle]
  | .branches b => branchJobs b

def branchJobs : Branches Run → List JobHandle
  | ⟨_, inFlight, _, _, _, _, _⟩ => childJobs inFlight

def childJobs : List (Nat × Run) → List JobHandle
  | [] => []
  | (_, r) :: rest => jobs r ++ childJobs rest

end

mutual

/-- The instants that a workflow waits for: the end of a delay before a retry, the deadline of a
Wait state, and those of the workflows in flight inside it. -/
def deadlines : Run → List Instant
  | ⟨_, status, _, _, _, _, visit, _, _, _⟩ => if status.isTerminal then [] else visitDeadlines? visit

def visitDeadlines? : Option Visit → List Instant
  | none => []
  | some v => visitDeadlines v

def visitDeadlines : Visit → List Instant
  | ⟨_, _, progress, _, _, notBefore⟩ => notBefore.toList ++ progressDeadlines progress

def progressDeadlines : Progress → List Instant
  | .idle | .job _ _ => []
  | .waiting deadline => [deadline]
  | .branches b => branchDeadlines b

def branchDeadlines : Branches Run → List Instant
  | ⟨_, inFlight, _, _, _, _, _⟩ => childDeadlines inFlight

def childDeadlines : List (Nat × Run) → List Instant
  | [] => []
  | (_, r) :: rest => deadlines r ++ childDeadlines rest

end

/-- The earliest instant at which time alone lets the workflow go on. -/
def waitUntil? (r : Run) : Option Instant := Instant.earliest? r.deadlines

/-- Ends a workflow that has not ended, and hands its jobs back to their runner. -/
def abort {σ : Type} (runner : JobRunner σ) (cause : String) (r : Run) (s : σ) : Run × σ :=
  if r.isTerminal then (r, s)
  else
    ({ r with
        status := .aborted
        abortCause := some cause
        next := none
        visit := r.visit.map fun v => { v with progress := .idle } },
      r.jobs.foldl (fun s handle => runner.cleanup handle s) s)

end Run

end StatesLanguage
