import StatesLanguage.Document.Basic
/-!
All graphs of a document, each before the graphs inside it.
-/
namespace StatesLanguage.Document

mutual

/-- The graph under its label and all graphs inside it. A nested graph is labelled by the state
around it. -/
def Graph.labelled (label : String) : Graph → List (String × Graph)
  | ⟨comment, startAt, states, version, timeoutSeconds⟩ =>
    (label, ⟨comment, startAt, states, version, timeoutSeconds⟩) :: States.labelled? states

def States.labelled? : Option (List (String × State)) → List (String × Graph)
  | none => []
  | some ss => States.labelled ss

def States.labelled : List (String × State) → List (String × Graph)
  | [] => []
  | (name, s) :: rest => State.labelled name s ++ States.labelled rest

/-- The graphs inside a state of that name. -/
def State.labelled (name : String) : State → List (String × Graph)
  | .parallel _ branches => Branches.labelled? name branches
  | .map _ processor => Processor.labelled? name processor
  | _ => []

def Branches.labelled? (name : String) : Option (List Graph) → List (String × Graph)
  | none => []
  | some gs => Branches.labelled name 0 gs

def Branches.labelled (name : String) (i : Nat) : List Graph → List (String × Graph)
  | [] => []
  | g :: rest =>
    Graph.labelled s!"States.{name}.{State.branchLabel i}" g ++ Branches.labelled name (i + 1) rest

def Processor.labelled? (name : String) : Option Graph → List (String × Graph)
  | none => []
  | some g => Graph.labelled s!"States.{name}.ItemProcessor" g

end

/-- All graphs of a document, outermost first. -/
def Graph.all (g : Graph) : List (String × Graph) := g.labelled "StateMachine"

end StatesLanguage.Document
