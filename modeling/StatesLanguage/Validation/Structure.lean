import StatesLanguage.Document.Nested
import StatesLanguage.Validation.Issue
/-!
Every graph has a start and states, every state the field its kind cannot do without, and every
state that goes on exactly one of Next and a true End.
-/
namespace StatesLanguage.Validation

open Document

/-- An issue when the condition holds. -/
def issueIf (condition : Bool) (issue : Issue) : List Issue := if condition then [issue] else []

/-- The required fields that a graph lacks. -/
def graphIssues (label : String) (g : Graph) : List Issue :=
  issueIf g.startAt.isNone (.graphLacks label "StartAt") ++
    issueIf g.states.isNone (.graphLacks label "States")

/-- The field that a state of its kind needs and lacks. -/
def missingField? : State → Option String
  | .task s => if s.resource.isNone then some "Resource" else none
  | .choice s => if s.choices.isNone then some "Choices" else none
  | .parallel _ branches => if branches.isNone then some "Branches" else none
  | .map _ processor => if processor.isNone then some "ItemProcessor" else none
  | _ => none

/-- The list that a state gives and that has nothing in it. -/
def emptyField? : State → Option String
  | .choice s => if s.choices.any List.isEmpty then some "Choices" else none
  | .parallel _ branches => if branches.any List.isEmpty then some "Branches" else none
  | _ => none

def transitionIssues (name : String) (s : State) : List Issue :=
  match s.transition? with
  | none => []
  | some t =>
    issueIf (t.next.isNone && !t.isEnd) (.noTransition name) ++
      issueIf (t.next.isSome && t.isEnd) (.twoTransitions name)

def stateIssues (name : String) (s : State) : List Issue :=
  (missingField? s).toList.map (.stateLacks name) ++ (emptyField? s).toList.map (.emptyList name) ++
    transitionIssues name s

/-- The issues of shape of one graph. -/
def structureOf (label : String) (g : Graph) : List Issue :=
  graphIssues label g ++ g.stateList.flatMap fun s => stateIssues s.1 s.2

end StatesLanguage.Validation
