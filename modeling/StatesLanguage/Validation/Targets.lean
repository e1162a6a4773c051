import StatesLanguage.Validation.Structure
/-!
Every transition leads to a state of the same graph. Nested graphs are separate in both directions.
-/
namespace StatesLanguage.Validation

open Document

/-- Every field of a state that names another state, with that name. -/
def targets (s : State) : List (String × String) :=
  named "Next" s.next? ++ ofChoice s ++ s.catchers.flatMap fun c => named "Next" c.next
where
  named (field : String) (target : Option String) : List (String × String) :=
    target.toList.map fun t => (field, t)
  ofChoice : State → List (String × String)
    | .choice s =>
      ((s.choices.getD []).flatMap fun r => named "Next" r.next) ++ named "Default" s.default
    | _ => []

/-- An unknown start. A missing start or missing states are an issue of structure. -/
def startIssues (label : String) (g : Graph) : List Issue :=
  match g.startAt, g.states with
  | some start, some _ =>
    issueIf (g.state? start).isNone (.unknownTarget label "StartAt" start)
  | _, _ => []

/-- The transitions of one graph that lead nowhere. -/
def targetsOf (label : String) (g : Graph) : List Issue :=
  startIssues label g ++ g.stateList.flatMap fun s =>
    (targets s.2).flatMap fun t =>
      issueIf (g.state? t.2).isNone (.unknownTarget s!"States.{s.1}" t.1 t.2)

end StatesLanguage.Validation
