import StatesLanguage.Json.Value
/-!
The document model: a graph of named states, as it was written. Fields that a kind of state needs
may still be missing here, so that their absence can be reported by name.
-/
namespace StatesLanguage.Document

/-- A path field. Leaving it out and giving null mean different things. -/
inductive PathField where
  | absent
  | null
  | path (text : String)
  deriving Inhabited, DecidableEq

inductive Jitter where
  | full
  | none
  deriving Inhabited, DecidableEq

/-- One entry of the Retry list of a state. -/
structure Retrier where
  errorEquals : List String := []
  intervalSeconds : Option Float := none
  maxAttempts : Option Nat := none
  backoffRate : Option Float := none
  maxDelaySeconds : Option Float := none
  jitter : Option Jitter := none
  comment : Option String := none
  deriving Inhabited

/-- One entry of the Catch list of a state. -/
structure Catcher where
  errorEquals : List String := []
  next : Option String := none
  resultPath : PathField := .absent
  comment : Option String := none
  deriving Inhabited

/-- A rule of a Choice state, or a rule inside And, Or and Not. The comparison stays among the
entries that have no other meaning, so that an unknown or a second one can be reported. The subject
is the path that is compared. -/
structure Rule where
  subject : Option String := none
  next : Option String := none
  conj : Option (List Rule) := none
  disj : Option (List Rule) := none
  neg : Option Rule := none
  comment : Option String := none
  comparisons : List (String × Value) := []
  deriving Inhabited

namespace Rule

/-- Whether the rule combines other rules rather than comparing a variable. -/
def isBoolean (r : Rule) : Bool := r.conj.isSome || r.disj.isSome || r.neg.isSome

/-- How many comparisons and combinations the rule holds. -/
def operatorCount (r : Rule) : Nat :=
  r.comparisons.length + r.conj.isSome.toNat + r.disj.isSome.toNat + r.neg.isSome.toNat

/-- The comparison of a rule with only one. -/
def comparison? (r : Rule) : Option (String × Value) :=
  match r.comparisons with
  | [c] => some c
  | _ => none

end Rule

/-- Where a state goes when it is done. -/
structure Transition where
  next : Option String := none
  isEnd : Bool := false
  deriving Inhabited, DecidableEq

/-- The paths that choose what a state sees and what it hands on. -/
structure Paths where
  input : PathField := .absent
  output : PathField := .absent
  deriving Inhabited, DecidableEq

structure Pass where
  comment : Option String := none
  transition : Transition := {}
  paths : Paths := {}
  resultPath : PathField := .absent
  parameters : Option Value := none
  result : Option Value := none
  deriving Inhabited

structure Task where
  comment : Option String := none
  transition : Transition := {}
  paths : Paths := {}
  resultPath : PathField := .absent
  parameters : Option Value := none
  resultSelector : Option Value := none
  resource : Option String := none
  credentials : Option Value := none
  timeoutSeconds : Option Nat := none
  retry : List Retrier := []
  catchers : List Catcher := []
  deriving Inhabited

structure Wait where
  comment : Option String := none
  transition : Transition := {}
  paths : Paths := {}
  seconds : Option Nat := none
  secondsPath : Option String := none
  timestamp : Option String := none
  timestampPath : Option String := none
  deriving Inhabited

structure Choice where
  comment : Option String := none
  paths : Paths := {}
  choices : Option (List Rule) := none
  default : Option String := none
  deriving Inhabited

structure Succeed where
  comment : Option String := none
  paths : Paths := {}
  deriving Inhabited

structure Fail where
  comment : Option String := none
  error : Option String := none
  cause : Option String := none
  errorPath : Option String := none
  causePath : Option String := none
  deriving Inhabited

/-- A Parallel state without its branches. -/
structure Parallel where
  comment : Option String := none
  transition : Transition := {}
  paths : Paths := {}
  resultPath : PathField := .absent
  parameters : Option Value := none
  resultSelector : Option Value := none
  retry : List Retrier := []
  catchers : List Catcher := []
  deriving Inhabited

/-- A Map state without its item processor. -/
structure Map where
  comment : Option String := none
  transition : Transition := {}
  paths : Paths := {}
  resultPath : PathField := .absent
  resultSelector : Option Value := none
  itemsPath : Option String := none
  itemSelector : Option Value := none
  maxConcurrency : Option Nat := none
  toleratedFailureCount : Option Nat := none
  toleratedFailurePercentage : Option Float := none
  retry : List Retrier := []
  catchers : List Catcher := []
  deriving Inhabited

mutual

/-- A graph of states: the document itself, the item processor of a Map, or a branch of a
Parallel. The states keep the order of their declaration. -/
structure Graph where
  comment : Option String := none
  startAt : Option String := none
  states : Option (List (String × State)) := none
  version : Option String := none
  timeoutSeconds : Option Nat := none

/-- A state, by its kind. -/
inductive State where
  | pass (fields : Pass)
  | task (fields : Task)
  | wait (fields : Wait)
  | choice (fields : Choice)
  | succeed (fields : Succeed)
  | fail (fields : Fail)
  | parallel (fields : Parallel) (branches : Option (List Graph))
  | map (fields : Map) (processor : Option Graph)

end

instance : Inhabited Graph := ⟨{}⟩

instance : Inhabited State := ⟨.pass {}⟩

/-- The states of a graph in the order of their declaration. -/
def Graph.stateList (g : Graph) : List (String × State) := g.states.getD []

/-- The state of that name in the graph itself. -/
def Graph.state? (g : Graph) (name : String) : Option State := g.stateList.lookup name

/-- The kinds of states. -/
inductive Kind where
  | pass
  | task
  | wait
  | choice
  | succeed
  | fail
  | parallel
  | map
  deriving Inhabited, DecidableEq

/-- The name of a kind in the Type field. -/
def Kind.name : Kind → String
  | .pass => "Pass"
  | .task => "Task"
  | .wait => "Wait"
  | .choice => "Choice"
  | .succeed => "Succeed"
  | .fail => "Fail"
  | .parallel => "Parallel"
  | .map => "Map"

/-- All kinds. -/
def Kind.all : List Kind := [.pass, .task, .wait, .choice, .succeed, .fail, .parallel, .map]

/-- The kind of that name. -/
def Kind.ofName? (name : String) : Option Kind := Kind.all.find? fun k => k.name == name

namespace State

def kind : State → Kind
  | .pass _ => .pass
  | .task _ => .task
  | .wait _ => .wait
  | .choice _ => .choice
  | .succeed _ => .succeed
  | .fail _ => .fail
  | .parallel _ _ => .parallel
  | .map _ _ => .map

/-- The transition of a state that has one. A Choice goes on by its rules, and Succeed and Fail end
the run. -/
def transition? : State → Option Transition
  | .pass s => some s.transition
  | .task s => some s.transition
  | .wait s => some s.transition
  | .parallel s _ => some s.transition
  | .map s _ => some s.transition
  | .choice _ | .succeed _ | .fail _ => none

def next? (s : State) : Option String := s.transition?.bind Transition.next

/-- Whether the state carries a true End. -/
def isEnd (s : State) : Bool := s.transition?.any Transition.isEnd

/-- Whether the state must carry one of Next and End. -/
def requiresTransition (s : State) : Bool := s.transition?.isSome

/-- Whether the kind of the state ends the run. -/
def isTerminal : State → Bool
  | .succeed _ | .fail _ => true
  | _ => false

def retriers : State → List Retrier
  | .task s => s.retry
  | .parallel s _ => s.retry
  | .map s _ => s.retry
  | _ => []

def catchers : State → List Catcher
  | .task s => s.catchers
  | .parallel s _ => s.catchers
  | .map s _ => s.catchers
  | _ => []

/-- The label of a branch. -/
def branchLabel (i : Nat) : String := s!"Branches[{i}]"

/-- The graphs inside a state, with their labels. -/
def nested : State → List (String × Graph)
  | .map _ processor => processor.toList.map fun g => ("ItemProcessor", g)
  | .parallel _ branches => (branches.getD []).mapIdx fun i g => (branchLabel i, g)
  | _ => []

/-- The InputPath, OutputPath and ResultPath of the state, as far as its kind has them. -/
def pathFields : State → List (String × PathField)
  | .pass s => both s.paths ++ [("ResultPath", s.resultPath)]
  | .task s => both s.paths ++ [("ResultPath", s.resultPath)]
  | .wait s => both s.paths
  | .choice s => both s.paths
  | .succeed s => both s.paths
  | .fail _ => []
  | .parallel s _ => both s.paths ++ [("ResultPath", s.resultPath)]
  | .map s _ => both s.paths ++ [("ResultPath", s.resultPath)]
where
  both (p : Paths) : List (String × PathField) := [("InputPath", p.input), ("OutputPath", p.output)]

/-- The payload templates of the state that are given, by field. -/
def templates : State → List (String × Value)
  | .pass s => given "Parameters" s.parameters
  | .task s =>
    given "Parameters" s.parameters ++ given "ResultSelector" s.resultSelector ++
      given "Credentials" s.credentials
  | .parallel s _ => given "Parameters" s.parameters ++ given "ResultSelector" s.resultSelector
  | .map s _ => given "ItemSelector" s.itemSelector ++ given "ResultSelector" s.resultSelector
  | _ => []
where
  given (field : String) (template : Option Value) : List (String × Value) :=
    template.toList.map fun t => (field, t)

end State

end StatesLanguage.Document
