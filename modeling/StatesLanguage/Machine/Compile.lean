import StatesLanguage.Machine.Basic
/-!
State machines from documents. What a document lacks, or what cannot be read in it, is reported for
the first state that it concerns.
-/
namespace StatesLanguage

namespace Machine

mutual

/-- Why a state cannot run. -/
inductive StateFault where
  | flow (fault : FlowFault)
  | path (field : String) (error : Path.ParseError)
  | missing (field : String)
  | ambiguousWait
  | badTimestamp (text : String)
  | noTarget (position : Nat)
  | rule (position : Nat) (fault : RuleFault)
  | nested (label : String) (fault : MachineFault)

/-- Why a document cannot run. -/
inductive MachineFault where
  | missing (field : String)
  | unknownStart (name : String)
  | state (name : String) (fault : StateFault)

end

mutual

/-- The text of a fault. There is none where the program stops at a path instead. -/
def StateFault.message? : StateFault → Option String
  | .flow fault => fault.message?
  | .path field error => error.message?.map fun text => s!"field \"{field}\": {text}"
  | .missing field => some s!"Missing \"{field}\" field"
  | .ambiguousWait =>
    some ("must have exactly one of \"Seconds\", \"SecondsPath\", \"Timestamp\", " ++
      "\"TimestampPath\"")
  | .badTimestamp text => some s!"field \"Timestamp\" value \"{text}\" is not a valid timestamp"
  | .noTarget position => some s!"Choices[{position}] does not have required field \"Next\""
  | .rule position fault => fault.message?.map fun text => s!"Choices[{position}] {text}"
  | .nested label fault => fault.message?.map fun text => s!"{label}: {text}"

def MachineFault.message? : MachineFault → Option String
  | .missing field =>
    some s!"Workflow error: StateMachine does not have required field \"{field}\""
  | .unknownStart name =>
    some (s!"Workflow error: StateMachine field \"StartAt\" value \"{name}\" " ++
      "is not found in \"States\"")
  | .state name fault => fault.message?.map fun text => s!"States.{name}: {text}"

end

/-- A result whose fault lies in the data flow of a state. -/
def inFlow {α : Type} (result : Except FlowFault α) : Except StateFault α := result.mapError .flow

/-- The path of a field that must be one. -/
def fieldPath (field text : String) : Except StateFault Path :=
  (Path.parse text).mapError (.path field)

def Pass.compile (s : Document.Pass) : Except StateFault Pass := do
  let flow ← inFlow (DataFlow.compile s.paths s.parameters none s.resultPath)
  return { next := s.transition.next, flow, result := s.result }

def Task.compile (s : Document.Task) : Except StateFault Task := do
  let some resource := s.resource | .error (.missing "Resource")
  let credentials ← inFlow (compileTemplate? s.credentials)
  let flow ← inFlow (DataFlow.compile s.paths s.parameters s.resultSelector s.resultPath)
  let handling ← inFlow (ErrorHandling.compile s.retry s.catchers)
  return { next := s.transition.next, resource, credentials, timeoutSeconds := s.timeoutSeconds,
           flow, handling }

/-- What a Wait state waits for, which must be given in exactly one way. -/
def Delay.compile (s : Document.Wait) : Except StateFault Delay :=
  match s.seconds, s.secondsPath, s.timestamp, s.timestampPath with
  | some n, none, none, none => .ok (.seconds n)
  | none, some p, none, none => (fieldPath "SecondsPath" p).map .secondsPath
  | none, none, some t, none =>
    match Timestamp.parse? t with
    | some instant => .ok (.timestamp instant)
    | none => .error (.badTimestamp t)
  | none, none, none, some p => (fieldPath "TimestampPath" p).map .timestampPath
  | _, _, _, _ => .error .ambiguousWait

def Wait.compile (s : Document.Wait) : Except StateFault Wait := do
  let delay ← Delay.compile s
  let flow ← inFlow (DataFlow.compile s.paths)
  return { next := s.transition.next, flow, delay }

/-- The rules from a position on, with the states they lead to. -/
def compileChoices (position : Nat) :
    List Document.Rule → Except StateFault (List (ChoiceRule × String))
  | [] => .ok []
  | r :: rest => do
    let some next := r.next | .error (.noTarget position)
    let rule ← (ChoiceRule.compile r).mapError (.rule position)
    let choices ← compileChoices (position + 1) rest
    return (rule, next) :: choices

def Choice.compile (s : Document.Choice) : Except StateFault Choice := do
  let choices ← compileChoices 0 (s.choices.getD [])
  let flow ← inFlow (DataFlow.compile s.paths)
  return { choices, default := s.default, flow }

def Succeed.compile (s : Document.Succeed) : Except StateFault Succeed := do
  let flow ← inFlow (DataFlow.compile s.paths)
  return { flow }

/-- A text of a Fail state. A literal comes before a path. -/
def FailText.compile (field : String) (literal path : Option String) :
    Except StateFault FailText :=
  match literal, path with
  | some text, _ => .ok (.literal text)
  | none, some p => (fieldPath field p).map .path
  | none, none => .ok .absent

def Fail.compile (s : Document.Fail) : Except StateFault Fail := do
  let error ← FailText.compile "ErrorPath" s.error s.errorPath
  let cause ← FailText.compile "CausePath" s.cause s.causePath
  return { error, cause }

def Parallel.compile (s : Document.Parallel) : Except StateFault Parallel := do
  let flow ← inFlow (DataFlow.compile s.paths s.parameters s.resultSelector s.resultPath)
  let handling ← inFlow (ErrorHandling.compile s.retry s.catchers)
  return { next := s.transition.next, flow, handling }

def Map.compile (s : Document.Map) : Except StateFault Map := do
  let itemsPath ← fieldPath "ItemsPath" (s.itemsPath.getD "$")
  let itemSelector ← inFlow (compileTemplate? s.itemSelector)
  let flow ← inFlow (DataFlow.compile s.paths none s.resultSelector s.resultPath)
  let handling ← inFlow (ErrorHandling.compile s.retry s.catchers)
  return {
    next := s.transition.next, itemsPath, itemSelector
    maxConcurrency := s.maxConcurrency.getD 0
    tolerance := ⟨s.toleratedFailureCount, s.toleratedFailurePercentage⟩
    flow, handling }

end Machine

open Machine

mutual

/-- The machine of a document. -/
def Machine.compile : Document.Graph → Except MachineFault Machine
  | ⟨_, startAt, states, _, _⟩ => do
    let some start := startAt | .error (.missing "StartAt")
    let states ← compileStates? states
    if states.any fun s => s.1 == start then return { start, states }
    else .error (.unknownStart start)

def Machine.compileStates? :
    Option (List (String × Document.State)) → Except MachineFault (List (String × State))
  | none => .error (.missing "States")
  | some states => compileStates states

def Machine.compileStates :
    List (String × Document.State) → Except MachineFault (List (String × State))
  | [] => .ok []
  | (name, s) :: rest => do
    let state ← (State.compile s).mapError (.state name)
    let states ← compileStates rest
    return (name, state) :: states

def Machine.State.compile : Document.State → Except StateFault State
  | .pass s => (Pass.compile s).map .pass
  | .task s => (Task.compile s).map .task
  | .wait s => (Wait.compile s).map .wait
  | .choice s => (Choice.compile s).map .choice
  | .succeed s => (Succeed.compile s).map .succeed
  | .fail s => (Fail.compile s).map .fail
  | .parallel s branches => do
    let machines ← compileBranches? branches
    return .parallel (← Parallel.compile s) machines
  | .map s processor => do
    let machine ← compileProcessor? processor
    return .map (← Map.compile s) machine

def Machine.compileBranches? : Option (List Document.Graph) → Except StateFault (List Machine)
  | none => .ok []
  | some graphs => compileBranches 0 graphs

/-- The machines of the branches from a number on. -/
def Machine.compileBranches (position : Nat) :
    List Document.Graph → Except StateFault (List Machine)
  | [] => .ok []
  | g :: rest => do
    let machine ← (Machine.compile g).mapError (.nested (Document.State.branchLabel position))
    let machines ← compileBranches (position + 1) rest
    return machine :: machines

def Machine.compileProcessor? : Option Document.Graph → Except StateFault Machine
  | none => .error (.missing "ItemProcessor")
  | some g => (Machine.compile g).mapError (.nested "ItemProcessor")

end

end StatesLanguage
