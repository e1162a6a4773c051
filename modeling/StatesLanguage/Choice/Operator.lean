import StatesLanguage.Json.Value
/-!
The comparison operators of choice rules.
-/
namespace StatesLanguage

/-- How two values of one type may stand to each other. -/
inductive Relation where
  | equals
  | lessThan
  | greaterThan
  | lessThanEquals
  | greaterThanEquals
  deriving Inhabited, DecidableEq

/-- What can be asked of a single value. -/
inductive TypeTest where
  | null
  | present
  | numeric
  | string
  | boolean
  | timestamp
  deriving Inhabited, DecidableEq

inductive Operator where
  | string (relation : Relation)
  | stringMatches
  | numeric (relation : Relation)
  | booleanEquals
  | timestamp (relation : Relation)
  | test (question : TypeTest)
  deriving Inhabited, DecidableEq

def Relation.name : Relation → String
  | .equals => "Equals"
  | .lessThan => "LessThan"
  | .greaterThan => "GreaterThan"
  | .lessThanEquals => "LessThanEquals"
  | .greaterThanEquals => "GreaterThanEquals"

def Relation.all : List Relation :=
  [.equals, .lessThan, .greaterThan, .lessThanEquals, .greaterThanEquals]

/-- Whether the relation holds of values in that order. -/
def Relation.admits : Relation → Ordering → Bool
  | .equals, o => o == .eq
  | .lessThan, o => o == .lt
  | .greaterThan, o => o == .gt
  | .lessThanEquals, o => o != .gt
  | .greaterThanEquals, o => o != .lt

def TypeTest.name : TypeTest → String
  | .null => "IsNull"
  | .present => "IsPresent"
  | .numeric => "IsNumeric"
  | .string => "IsString"
  | .boolean => "IsBoolean"
  | .timestamp => "IsTimestamp"

def TypeTest.all : List TypeTest := [.null, .present, .numeric, .string, .boolean, .timestamp]

namespace Operator

def name : Operator → String
  | .string r => "String" ++ r.name
  | .stringMatches => "StringMatches"
  | .numeric r => "Numeric" ++ r.name
  | .booleanEquals => "BooleanEquals"
  | .timestamp r => "Timestamp" ++ r.name
  | .test q => q.name

/-- All operators. -/
def all : List Operator :=
  Relation.all.map .string ++ [.stringMatches] ++ Relation.all.map .numeric ++ [.booleanEquals] ++
    Relation.all.map .timestamp ++ TypeTest.all.map .test

/-- The operator of that name. -/
def ofName? (name : String) : Option Operator := all.find? fun op => op.name == name

/-- Whether the operator asks about one value only. -/
def isTypeTest : Operator → Bool
  | .test _ => true
  | _ => false

/-- Whether the operator can take its operand from a path. -/
def hasPathForm (op : Operator) : Bool := !op.isTypeTest && op != .stringMatches

/-- The text before the last four characters, when those spell Path. -/
def stripPath? (key : String) : Option String :=
  match key.toList.reverse with
  | 'h' :: 't' :: 'a' :: 'P' :: rest => some (String.ofList rest.reverse)
  | _ => none

/-- The operator of a key, and whether the operand is a path to the value to compare with. -/
def ofKey? (key : String) : Option (Operator × Bool) :=
  match ofName? key with
  | some op => some (op, false)
  | none => do
    let op ← (stripPath? key).bind ofName?
    if op.hasPathForm then some (op, true) else none

/-- Whether the operator can compare with that literal. -/
def accepts : Operator → Value → Bool
  | .string _, .str _ | .stringMatches, .str _ | .timestamp _, .str _ => true
  | .numeric _, .int _ | .numeric _, .float _ => true
  | .booleanEquals, .bool _ | .test _, .bool _ => true
  | _, _ => false

end Operator

end StatesLanguage
