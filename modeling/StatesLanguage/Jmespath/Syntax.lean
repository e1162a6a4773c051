import StatesLanguage.Json.Value
/-!
Expressions of the query language JMESPath, as far as paths are written in it.
-/
namespace StatesLanguage.Jmespath

/-- A field of an object, a position in an array, the items of an array, the values of an object, or a
part of an array. -/
inductive Selector where
  | field (name : String)
  | index (position : Int)
  | items
  | values
  | slice (start stop step : Option Int)
  deriving Inhabited, DecidableEq

/-- A path from the current item, or a literal. -/
inductive Operand where
  | path (selectors : List Selector)
  | literal (value : Value)
  deriving Inhabited

inductive Comparator where
  | equal
  | unequal
  | atMost
  | atLeast
  | less
  | greater
  deriving Inhabited, DecidableEq

def Comparator.text : Comparator → List Char
  | .equal => ['=', '=']
  | .unequal => ['!', '=']
  | .atMost => ['<', '=']
  | .atLeast => ['>', '=']
  | .less => ['<']
  | .greater => ['>']

inductive Clause where
  | test (operand : Operand)
  | compare (comparator : Comparator) (left right : Operand)
  deriving Inhabited

/-- A disjunction of conjunctions. -/
abbrev Condition := List (List Clause)

inductive Step where
  | select (s : Selector)
  | filter (condition : Condition)

/-- An expression. What follows a filter belongs to each item that passes it, up to the next filter
with something in between; that one goes through all that was collected. -/
inductive Query where
  | here
  | select (s : Selector) (rest : Query)
  | filter (condition : Condition) (each rest : Query)
  deriving Inhabited

/-- Whether a selector selects more than one place. All that follows belongs to each of them. -/
def Selector.isProjection : Selector → Bool
  | .field _ | .index _ => false
  | .items | .values | .slice _ _ _ => true

/-- An expression split in two: `each` belongs to every item of a filter in front of it, `rest` goes
through what that filter collects. -/
structure Grouping where
  each : Query
  rest : Query
  whole : Query
  startsWithFilter : Bool

/-- The steps of an expression grouped from its end. -/
def grouping : List Step → Grouping
  | [] => ⟨.here, .here, .here, false⟩
  | .filter c :: steps =>
    let g := grouping steps
    ⟨.filter c g.each .here, g.rest, .filter c g.each g.rest, true⟩
  | .select s :: steps =>
    let g := grouping steps
    let whole := Query.select s g.whole
    if s.isProjection then ⟨whole, .here, whole, false⟩
    else if g.startsWithFilter then ⟨.select s .here, g.whole, whole, false⟩
    else ⟨.select s g.each, g.rest, whole, false⟩

/-- The expression of its steps. -/
def Query.ofSteps (steps : List Step) : Query := (grouping steps).whole

end StatesLanguage.Jmespath
