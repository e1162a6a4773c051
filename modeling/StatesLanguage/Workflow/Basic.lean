import StatesLanguage.Document.Parse
import StatesLanguage.Execution.Step
import StatesLanguage.Machine.Compile
/-!
Workflows: a machine, its settings, and the record of its execution. A workflow never waits. Each
step advances the current state once, and the one who steps it decides how often.
-/
namespace StatesLanguage

structure Workflow where
  machine : Machine
  config : Config := {}
  run : Run
  deriving Inhabited

/-- Why there is no workflow for a document. -/
inductive BuildError where
  | document (error : Document.DocumentError)
  | machine (fault : Machine.MachineFault)

namespace Workflow

/-- A workflow for a valid document, with its input and the identifier of the execution. -/
def ofDocument (g : Document.Graph) (input : Value) (id : String) (config : Config := {}) :
    Except BuildError Workflow := do
  g.validate.mapError .document
  let machine ← (Machine.compile g).mapError .machine
  return { machine, config, run := .ofInput { id, input } input }

/-- The name of the current state. -/
def current? (w : Workflow) : Option String := w.run.current?

/-- The current state. -/
def state? (w : Workflow) : Option Machine.State := w.current?.bind w.machine.state?

def isTerminal (w : Workflow) : Bool := w.run.isTerminal

/-- Enters the first state without advancing it. -/
def enterStart (now : Instant) (w : Workflow) : Workflow :=
  { w with run := w.run.start w.machine now }

/-- Why a workflow cannot be started again. -/
def startedText (w : Workflow) : String :=
  s!"Workflow error: Workflow {w.run.execution.id} has already started"

/-- Starts a workflow, which can be done once. -/
def start? (now : Instant) (w : Workflow) : Option Workflow :=
  match w.run.status with
  | .pending => some (w.enterStart now)
  | _ => none

variable {σ : Type}

/-- Advances the current state once. Each step has a chance of its own. -/
def step (runner : JobRunner σ) (m : Moment) (w : Workflow) (s : σ) :
    StepOutcome × Workflow × σ :=
  let (outcome, run, s) := w.machine.step ⟨runner, w.config⟩ (m.part w.run.steps) w.run s
  (outcome, { w with run }, s)

/-- Steps from the moment of that number on until the workflow has ended or waits for something
outside, and counts the moments. There is no result when it takes more steps than are allowed. -/
def runFrom (runner : JobRunner σ) (moment : Nat → Moment) :
    Nat → Nat → Workflow → σ → Option (Nat × Workflow × σ)
  | 0, _, _, _ => none
  | fuel + 1, k, w, s =>
    match w.step runner (moment k) s with
    | (.progressed, w, s) => runFrom runner moment fuel (k + 1) w s
    | (_, w, s) => some (k + 1, w, s)

/-- Steps a workflow at most so often, and counts the moments. A workflow that has ended is not
stepped. -/
def stepUntil (runner : JobRunner σ) (moment : Nat → Moment) :
    Nat → Nat → Workflow → σ → Nat × Workflow × σ
  | 0, k, w, s => (k, w, s)
  | n + 1, k, w, s =>
    if w.isTerminal then (k, w, s)
    else
      let (_, w, s) := w.step runner (moment k) s
      stepUntil runner moment n (k + 1) w s

/-- Stops a workflow and hands its jobs back to their runner. -/
def abort (runner : JobRunner σ) (cause : String) (w : Workflow) (s : σ) : Workflow × σ :=
  let (run, s) := w.run.abort runner cause s
  ({ w with run }, s)

/-- The earliest instant at which time alone lets the workflow go on. -/
def waitUntil? (w : Workflow) : Option Instant := w.run.waitUntil?

/-- Workflows as the children of branches. -/
def child (runner : JobRunner σ) (m : Moment) : Child Workflow σ where
  start _ w := w.enterStart m.now
  step i w s := w.step runner (m.child i) s
  result? w := w.run.result?
  abort cause w s := w.abort runner cause s

end Workflow

/-- The earliest instant that a child in flight waits for. -/
def Branches.waitUntil? (b : Branches Workflow) : Option Instant :=
  Instant.earliest? (b.inFlight.filterMap fun c => c.2.waitUntil?)

end StatesLanguage
