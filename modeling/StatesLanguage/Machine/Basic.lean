import StatesLanguage.Branch.Tolerance
import StatesLanguage.Choice.Rule
import StatesLanguage.Retry.Basic
/-!
State machines that are ready to run. Every path, template and rule in them has been read.
-/
namespace StatesLanguage

namespace Machine

structure Pass where
  next : Option String
  flow : DataFlow
  result : Option Value
  deriving Inhabited

structure Task where
  next : Option String
  resource : String
  credentials : Option Template
  timeoutSeconds : Option Nat
  flow : DataFlow
  handling : ErrorHandling
  deriving Inhabited

/-- What a Wait state waits for. -/
inductive Delay where
  | seconds (n : Nat)
  | secondsPath (path : Path)
  | timestamp (instant : Instant)
  | timestampPath (path : Path)
  deriving Inhabited

structure Wait where
  next : Option String
  flow : DataFlow
  delay : Delay
  deriving Inhabited

/-- A Choice state. Each rule comes with the state it leads to. -/
structure Choice where
  choices : List (ChoiceRule × String)
  default : Option String
  flow : DataFlow
  deriving Inhabited

structure Succeed where
  flow : DataFlow
  deriving Inhabited

/-- The error or the cause of a Fail state. -/
inductive FailText where
  | absent
  | literal (text : String)
  | path (path : Path)
  deriving Inhabited

structure Fail where
  error : FailText
  cause : FailText
  deriving Inhabited

/-- A Parallel state without its branches. -/
structure Parallel where
  next : Option String
  flow : DataFlow
  handling : ErrorHandling
  deriving Inhabited

/-- A Map state without its item processor. A concurrency of zero is no limit. -/
structure Map where
  next : Option String
  itemsPath : Path
  itemSelector : Option Template
  maxConcurrency : Nat
  tolerance : Tolerance
  flow : DataFlow
  handling : ErrorHandling
  deriving Inhabited

end Machine

mutual

/-- A state machine: the states by name, in the order of their declaration, and the name of the
first one. -/
structure Machine where
  start : String
  states : List (String × Machine.State)

inductive Machine.State where
  | pass (fields : Machine.Pass)
  | task (fields : Machine.Task)
  | wait (fields : Machine.Wait)
  | choice (fields : Machine.Choice)
  | succeed (fields : Machine.Succeed)
  | fail (fields : Machine.Fail)
  | parallel (fields : Machine.Parallel) (branches : List Machine)
  | map (fields : Machine.Map) (processor : Machine)

end

namespace Machine

instance : Inhabited Machine := ⟨"", []⟩

instance : Inhabited State := ⟨.pass default⟩

/-- The state of that name in the machine itself. -/
def state? (m : Machine) (name : String) : Option State := m.states.lookup name

namespace State

def kind : State → Document.Kind
  | .pass _ => .pass
  | .task _ => .task
  | .wait _ => .wait
  | .choice _ => .choice
  | .succeed _ => .succeed
  | .fail _ => .fail
  | .parallel _ _ => .parallel
  | .map _ _ => .map

/-- The state that is declared to come next. A Choice state finds its own when it runs. -/
def next? : State → Option String
  | .pass s => s.next
  | .task s => s.next
  | .wait s => s.next
  | .parallel s _ => s.next
  | .map s _ => s.next
  | .choice _ | .succeed _ | .fail _ => none

/-- Whether the machine is done when the state is. -/
def isEnd : State → Bool
  | .succeed _ | .fail _ => true
  | .choice _ => false
  | s => s.next?.isNone

/-- What the state does about errors, for the kinds of states that can. -/
def handling? : State → Option ErrorHandling
  | .task s => some s.handling
  | .parallel s _ => some s.handling
  | .map s _ => some s.handling
  | _ => none

/-- The number of retriers of the state. -/
def retrierCount (s : State) : Nat := s.handling?.elim 0 fun h => h.retriers.length

end State

end Machine

end StatesLanguage
