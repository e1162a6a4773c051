import StatesLanguage.Execution.Config
import StatesLanguage.Execution.Run
import StatesLanguage.Machine.Basic
/-!
One advance of a state, as far as it needs no nested workflows.
-/
namespace StatesLanguage

/-- What came of an advance: the state waits for something outside, it moved on but is not done, or
it is done. Where no state comes next the workflow has ended. -/
inductive Advance where
  | blocked
  | progressed
  | completed (output : Value) (next : Option String)
  deriving Inhabited

/-- What all workflows of an execution run with. -/
structure Engine (σ : Type) where
  runner : JobRunner σ
  config : Config := {}

/-- The time and the chance of one step. A share lies between zero and one. -/
structure Moment where
  now : Instant
  ids : Identifiers
  share : List Nat → Float

/-- The same moment with the chance of the part with that number. -/
def Moment.part (m : Moment) (n : Nat) : Moment :=
  { m with ids := m.ids.part n, share := fun place => m.share (n :: place) }

/-- The identifiers of the input of a state. -/
def Moment.inputIds (m : Moment) : Identifiers := m.ids.part 0

/-- The identifiers of the output of a state. -/
def Moment.outputIds (m : Moment) : Identifiers := m.ids.part 1

/-- The identifiers of the credentials of a job and of the items of a Map state. -/
def Moment.partIds (m : Moment) : Identifiers := m.ids.part 2

/-- The moment as the nested workflow of that number sees it. -/
def Moment.child (m : Moment) (n : Nat) : Moment := (m.part 3).part n

/-- The value of a path that must lead somewhere. -/
def resolve (p : Path) (input context : Value) : Except ExecutionError Value :=
  (p.evaluate input context).mapError (ExecutionError.ofPath .runtime)

/-- The end of a state with a raw result. -/
def DataFlow.complete (f : DataFlow) (m : Moment) (next : Option String)
    (data context raw : Value) : Except ExecutionError Advance :=
  (f.output m.outputIds data context raw).map fun output => .completed output next

namespace Machine

def Pass.advance (p : Pass) (m : Moment) (data context : Value) :
    Except ExecutionError Advance := do
  let raw ← match p.result with
    | some v => .ok v
    | none => p.flow.effectiveInput m.inputIds data context
  p.flow.complete m p.next data context raw

def Succeed.advance (p : Succeed) (m : Moment) (data context : Value) :
    Except ExecutionError Advance := do
  let input ← p.flow.effectiveInput m.inputIds data context
  p.flow.complete m none data context input

/-- Goes where the first rule that holds leads, or to the default. -/
def Choice.advance (p : Choice) (m : Moment) (name : String) (data context : Value) :
    Except ExecutionError Advance := do
  let input ← p.flow.effectiveInput m.inputIds data context
  let chosen := (p.choices.find? fun c => c.1.holds input context).map Prod.snd
  match chosen.or p.default with
  | some next => p.flow.complete m (some next) data context input
  | none => .error (.noChoice name)

/-- The text of a Fail state. A value that is no string gives its JSON text. -/
def FailText.resolve (data context : Value) : FailText → Except ExecutionError (Option String)
  | .absent => .ok none
  | .literal text => .ok (some text)
  | .path p => (StatesLanguage.resolve p data context).map fun
    | .str text => some text
    | v => some v.text

def Fail.advance (p : Fail) (data context : Value) : Except ExecutionError Advance := do
  let error ← p.error.resolve data context
  let cause ← p.cause.resolve data context
  .error (.declared error cause)

/-- The instant until which a Wait state waits. Seconds are counted from its start. -/
def Delay.deadline (enteredAt : Instant) (input context : Value) :
    Delay → Except ExecutionError Instant
  | .seconds n => .ok (enteredAt.after (.ofSeconds n))
  | .timestamp instant => .ok instant
  | .secondsPath p => do
    let v ← resolve p input context
    let fault := s!"SecondsPath \"{p.text}\" value {v.text} is not a non-negative integer"
    match v with
    | .int n =>
      if 0 ≤ n then .ok (enteredAt.after (.ofSeconds n.toNat)) else .error (.path .runtime fault)
    | _ => .error (.path .runtime fault)
  | .timestampPath p => do
    let v ← resolve p input context
    match v.str?.bind Timestamp.parse? with
    | some instant => .ok instant
    | none =>
      let fault := s!"TimestampPath \"{p.text}\" value {v.text} is not a valid timestamp"
      .error (.path .runtime fault)

/-- The deadline that was found before, or that of a Wait state that has just been entered. -/
def Wait.deadline (p : Wait) (v : Visit) (data context : Value) : Except ExecutionError Instant :=
  match v.progress with
  | .waiting deadline => .ok deadline
  | _ => p.delay.deadline v.enteredAt (p.flow.filteredInput data context) context

/-- Waits for the deadline and hands the input on. -/
def Wait.advance (p : Wait) (m : Moment) (data context : Value) (v : Visit) :
    Except ExecutionError Advance × Visit :=
  match p.deadline v data context with
  | .error e => (.error e, v)
  | .ok deadline =>
    let result : Except ExecutionError Advance :=
      if m.now.before deadline then .ok .blocked
      else do
        let input ← p.flow.effectiveInput m.inputIds data context
        p.flow.complete m p.next data context input
    (result, { v with progress := .waiting deadline })

variable {σ : Type}

/-- Starts the job of a Task state. -/
def Task.launch (p : Task) (e : Engine σ) (m : Moment) (data context : Value) (s : σ) :
    Except ExecutionError JobHandle × σ :=
  let request : Except ExecutionError (Value × Value) := do
    let input ← p.flow.effectiveInput m.inputIds data context
    let credentials ← applyTemplate? p.credentials .null m.partIds data context
    return (input, credentials)
  match request with
  | .error err => (.error err, s)
  | .ok (input, credentials) =>
    let (launched, s) := e.runner.launch p.resource input credentials s
    (launched.mapError fun err => .job taskFailed (some err.message), s)

/-- Whether a job has run for too long. -/
def Task.isOverdue (p : Task) (now launchedAt : Instant) : Bool :=
  p.timeoutSeconds.any fun n => !now.before (launchedAt.after (.ofSeconds n))

/-- The failure of a job that has run for too long. -/
def Task.timeout (p : Task) (name : String) : ExecutionError :=
  .timeout s!"State {name} timed out after {p.timeoutSeconds.getD 0} seconds"

/-- Asks how a job stands. A job that has ended or has run for too long is released. -/
def Task.poll (p : Task) (e : Engine σ) (m : Moment) (data context : Value) (handle : JobHandle)
    (launchedAt : Instant) (v : Visit) (s : σ) : Except ExecutionError Advance × Visit × σ :=
  match e.runner.poll handle s with
  | (.succeeded output, s) =>
    (p.flow.complete m p.next data context output, v, e.runner.cleanup handle s)
  | (.failed error cause, s) =>
    (.error (.job (error.getD taskFailed) cause), v, e.runner.cleanup handle s)
  | (.running, s) =>
    if p.isOverdue m.now launchedAt then
      (.error (p.timeout v.state), v, e.runner.cleanup handle s)
    else (.ok .blocked, { v with progress := .job handle launchedAt }, s)

/-- Polls the job of a Task state, which is started when there is none. -/
def Task.advance (p : Task) (e : Engine σ) (m : Moment) (data context : Value) (v : Visit) (s : σ) :
    Except ExecutionError Advance × Visit × σ :=
  let idle := { v with progress := .idle }
  match v.progress with
  | .job handle launchedAt => p.poll e m data context handle launchedAt idle s
  | _ =>
    match p.launch e m data context s with
    | (.error err, s) => (.error err, idle, s)
    | (.ok handle, s) => p.poll e m data context handle m.now idle s

/-- The items of a Map state, for its filtered input. -/
def Map.items (p : Map) (input context : Value) : Except ExecutionError (List Value) := do
  match ← resolve p.itemsPath input context with
  | .arr items => .ok items
  | v =>
    let fault := s!"ItemsPath \"{p.itemsPath.text}\" resolved to {v.text} which is not an array"
    .error (.path .runtime fault)

/-- The inputs of the items from a number on. They share one context object, in which each item takes
the place of the one before it. The first item whose input cannot be made decides. -/
def Map.itemInputs (p : Map) (ids : Identifiers) (input context : Value) (n : Nat) :
    List Value → Except ExecutionError (List Value)
  | [] => .ok []
  | item :: rest => do
    let context := Context.withItem n item context
    let v ← applyTemplate? p.itemSelector item (ids.part n) input context
    let vs ← p.itemInputs ids input context (n + 1) rest
    return v :: vs

/-- The nested workflows of a Map state, one for each item. -/
def Map.start (p : Map) (m : Moment) (execution : Execution) (data context : Value) :
    Except ExecutionError (Branches Run) := do
  let input := p.flow.filteredInput data context
  let items ← p.items input context
  let inputs ← p.itemInputs m.partIds input context 0 items
  return .ofList (inputs.map (Run.ofInput execution)) p.maxConcurrency p.tolerance

/-- The nested workflows of a Parallel state, one for each branch, all with the same input. -/
def Parallel.start (p : Parallel) (branches : Nat) (m : Moment) (execution : Execution)
    (data context : Value) : Except ExecutionError (Branches Run) := do
  let input ← p.flow.effectiveInput m.inputIds data context
  return .ofList (List.replicate branches (Run.ofInput execution input)) 0 {}

end Machine

end StatesLanguage
