import StatesLanguage.Choice.Operator
import StatesLanguage.Path.Syntax
import StatesLanguage.Validation.Structure
/-!
The values of fields: the form of paths and template entries, the time of a Wait, choice rules,
retriers and catchers, and failure tolerance.
-/
namespace StatesLanguage.Validation

open Document

def pathIssues (name field path : String) : List Issue :=
  issueIf (!Path.isValid path) (.badPath name field path)

def referencePathIssues (name field path : String) : List Issue :=
  issueIf (!Path.isReference path) (.badReferencePath name field path)

/-- A path field. A result path must lead to a single place. -/
def pathFieldIssues (name : String) : String × PathField → List Issue
  | (field, .path p) =>
    if field = "ResultPath" then referencePathIssues name field p else pathIssues name field p
  | _ => []

/-- The paths that only some kinds of states have. -/
def kindPathIssues (name : String) : State → List Issue
  | .wait s => given "SecondsPath" s.secondsPath ++ given "TimestampPath" s.timestampPath
  | .fail s => given "ErrorPath" s.errorPath ++ given "CausePath" s.causePath
  | .map s _ => given "ItemsPath" s.itemsPath
  | _ => []
where
  given (field : String) (path : Option String) : List Issue :=
    path.toList.flatMap (pathIssues name field)

/-- Whether a key takes its value from a path or an intrinsic call. -/
def isDynamicKey (key : String) : Bool :=
  match key.toList.reverse with
  | '$' :: '.' :: _ => true
  | _ => false

/-- Whether a value has the form of a path or an intrinsic call. -/
def isExpression : Value → Bool
  | .str e => Path.isValid e || Path.isCall e
  | _ => false

mutual

/-- The entries of a template, at every depth, whose value must be an expression and is none. -/
def templateIssues (name field : String) : Value → List Issue
  | .obj entries => entryIssues name field entries
  | .arr items => itemIssues name field items
  | _ => []

def entryIssues (name field : String) : List (String × Value) → List Issue
  | [] => []
  | (key, v) :: rest =>
    (if isDynamicKey key then issueIf (!isExpression v) (.badEntry name field key v)
      else templateIssues name field v) ++ entryIssues name field rest

def itemIssues (name field : String) : List Value → List Issue
  | [] => []
  | v :: rest => templateIssues name field v ++ itemIssues name field rest

end

/-- All paths and templates of a state. -/
def pathsOf (name : String) (s : State) : List Issue :=
  s.pathFields.flatMap (pathFieldIssues name) ++ kindPathIssues name s ++
    (s.catchers.flatMap fun c => pathFieldIssues name ("ResultPath", c.resultPath)) ++
    s.templates.flatMap fun t => templateIssues name t.1 t.2

/-- A Wait state is told its time in one way. -/
def waitIssues (name : String) : State → List Issue
  | .wait s =>
    let given := s.seconds.isSome.toNat + s.secondsPath.isSome.toNat + s.timestamp.isSome.toNat +
      s.timestampPath.isSome.toNat
    issueIf (given != 1) (.waitAmbiguous name)
  | _ => []

/-- The subject of a comparison. -/
def subjectIssues (location : String) : Option String → List Issue
  | none => [.ruleLacks location "Variable"]
  | some path => issueIf (!Path.isValid path) (.ruleSubject location path)

/-- A comparison: a known operator with an operand that it accepts. -/
def comparisonIssues (location key : String) (operand : Value) : List Issue :=
  match Operator.ofKey? key with
  | none => [.ruleOperator location key]
  | some (_, true) =>
    issueIf (!(operand.str?.any Path.isValid)) (.rulePath location key operand)
  | some (op, false) => issueIf (!op.accepts operand) (.ruleOperand location key operand)

mutual

/-- A rule holds one operator: a combination of rules or a comparison. -/
def ruleIssues (location : String) : Rule → List Issue
  | ⟨subject, next, conj, disj, neg, comment, comparisons⟩ =>
    if (Rule.mk subject next conj disj neg comment comparisons).operatorCount ≠ 1 then
      [.ruleOperators location]
    else
      listIssues? location "And" conj ++ listIssues? location "Or" disj ++
        negationIssues? location neg ++
        match comparisons with
        | [(key, operand)] =>
          subjectIssues location subject ++ comparisonIssues location key operand
        | _ => []

/-- The rules of a combination, of which there is at least one. -/
def listIssues? (location field : String) : Option (List Rule) → List Issue
  | none => []
  | some rules =>
    issueIf rules.isEmpty (.ruleEmpty location field) ++ listIssues location field 0 rules

def listIssues (location field : String) (i : Nat) : List Rule → List Issue
  | [] => []
  | r :: rest =>
    ruleIssues s!"{location}.{field}[{i}]" r ++ listIssues location field (i + 1) rest

def negationIssues? (location : String) : Option Rule → List Issue
  | none => []
  | some r => ruleIssues s!"{location}.Not" r

end

/-- The rules of a Choice state, each of which leads somewhere. -/
def choiceIssues (name : String) : State → List Issue
  | .choice s =>
    ((s.choices.getD []).mapIdx fun i r =>
      let location := s!"States.{name}.Choices[{i}]"
      issueIf r.next.isNone (.ruleLacks location "Next") ++ ruleIssues location r).flatten
  | _ => []

/-- The errors that a retrier or a catcher is for. The name for all errors stands alone, in the last
entry. -/
def errorNameIssues (location : String) (names : List String) (isLast : Bool) : List Issue :=
  if names.isEmpty then [.handlerLacks location "ErrorEquals"]
  else
    issueIf (names.contains "States.ALL" && (1 < names.length || !isLast))
      (.wildcardNotLast location)

def retrierIssues (location : String) (isLast : Bool) (r : Document.Retrier) : List Issue :=
  errorNameIssues location r.errorEquals isLast ++
    issueIf (r.backoffRate.any (· < 1.0)) (.smallBackoff location) ++
    issueIf (r.intervalSeconds.any (· < 0.0)) (.negativeInterval location)

def catcherIssues (location : String) (isLast : Bool) (c : Document.Catcher) : List Issue :=
  errorNameIssues location c.errorEquals isLast ++
    issueIf c.next.isNone (.handlerLacks location "Next")

/-- The retriers and catchers of a state. -/
def handlerIssues (name : String) (s : State) : List Issue :=
  (s.retriers.mapIdx fun i r =>
    retrierIssues s!"States.{name}.Retry[{i}]" (i + 1 == s.retriers.length) r).flatten ++
  (s.catchers.mapIdx fun i c =>
    catcherIssues s!"States.{name}.Catch[{i}]" (i + 1 == s.catchers.length) c).flatten

/-- The share of items of a Map that may fail. -/
def toleranceIssues (name : String) : State → List Issue
  | .map s _ =>
    s.toleratedFailurePercentage.toList.flatMap fun p =>
      issueIf (!(0.0 ≤ p && p ≤ 100.0)) (.badPercentage name p)
  | _ => []

/-- The issues in the fields of one state. -/
def fieldIssues (name : String) (s : State) : List Issue :=
  pathsOf name s ++ waitIssues name s ++ choiceIssues name s ++ handlerIssues name s ++
    toleranceIssues name s

/-- The issues in the fields of one graph. -/
def fieldsOf (g : Graph) : List Issue := g.stateList.flatMap fun s => fieldIssues s.1 s.2

end StatesLanguage.Validation
