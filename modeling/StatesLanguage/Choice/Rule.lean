import StatesLanguage.Choice.Operator
import StatesLanguage.Document.Basic
import StatesLanguage.Path.Basic
import StatesLanguage.Text.Glob
import StatesLanguage.Time.Timestamp
/-!
Choice rules that are ready to be asked, and what they answer.
-/
namespace StatesLanguage

/-- What a value is compared with. -/
inductive Operand where
  | literal (value : Value)
  | path (path : Path)
  deriving Inhabited

inductive ChoiceRule where
  | conj (rules : List ChoiceRule)
  | disj (rules : List ChoiceRule)
  | neg (rule : ChoiceRule)
  | compare (subject : Path) (operator : Operator) (operand : Operand)
  deriving Inhabited

/-- Why a rule cannot be asked. -/
inductive RuleFault where
  | noSubject
  | path (error : Path.ParseError)
  | notOneComparison
  | unknownOperator (key : String)
  | notPath (key : String)
  | wrongType (key : String) (value : Value)

def RuleFault.message? : RuleFault → Option String
  | .noSubject => some "choice rule does not have required field \"Variable\""
  | .path error => error.message?
  | .notOneComparison => some "choice rule must have exactly one comparison operator"
  | .unknownOperator key => some s!"field \"{key}\" is not a valid comparison operator"
  | .notPath key => some s!"field \"{key}\" must be a path"
  | .wrongType key value => some s!"field \"{key}\" value {value.text} has the wrong type"

/-- The order of two floats, none when one is no number. -/
def floatOrder? (x y : Float) : Option Ordering :=
  if x < y then some .lt else if y < x then some .gt else if x == y then some .eq else none

/-- The order of two strings, by code points. -/
def stringOrder? : Value → Value → Option Ordering
  | .str a, .str b => some (compareOfLessAndEq a b)
  | _, _ => none

/-- The order of two numbers: integers of the signed range exactly, others as floats. -/
def numericOrder? (a b : Value) : Option Ordering :=
  match a.signed?, b.signed? with
  | some m, some n => some (compareOfLessAndEq m n)
  | _, _ => do floatOrder? (← a.float?) (← b.float?)

/-- The order of the instants of two timestamps. -/
def timestampOrder? : Value → Value → Option Ordering
  | .str a, .str b => do
    let s ← Timestamp.parse? a
    let t ← Timestamp.parse? b
    return s.order t
  | _, _ => none

/-- The answer for a value that is there. -/
def TypeTest.holds : TypeTest → Value → Bool
  | .null, v => v.isNull
  | .present, _ => true
  | .numeric, .int _ | .numeric, .float _ => true
  | .string, .str _ => true
  | .boolean, .bool _ => true
  | .timestamp, .str s => (Timestamp.parse? s).isSome
  | _, _ => false

/-- Whether a value compares as asked with what is expected. -/
def Operator.compares (value expected : Value) : Operator → Bool
  | .string r => (stringOrder? value expected).any r.admits
  | .numeric r => (numericOrder? value expected).any r.admits
  | .timestamp r => (timestampOrder? value expected).any r.admits
  | .stringMatches =>
    match value, expected with
    | .str text, .str glob => Glob.accepts glob.toList text.toList
    | _, _ => false
  | .booleanEquals =>
    match value, expected with
    | .bool a, .bool b => a == b
    | _, _ => false
  | .test question =>
    match expected with
    | .bool b => question.holds value == b
    | _ => false

/-- The answer when the value or what it is compared with may be missing. Only the test for presence
has an answer for a missing value. -/
def Operator.answers (op : Operator) : Option Value → Option Value → Bool
  | some value, some expected => op.compares value expected
  | none, some (.bool false) => op == .test .present
  | _, _ => false

namespace ChoiceRule

/-- The operand of a key of a rule. -/
def operand (key : String) (byPath : Bool) (op : Operator) (value : Value) :
    Except RuleFault Operand :=
  if byPath then
    match value with
    | .str text => ((Path.parse text).map Operand.path).mapError .path
    | _ => .error (.notPath key)
  else if op.accepts value then .ok (.literal value)
  else .error (.wrongType key value)

/-- The comparison of a rule that combines no others. -/
def compileComparison (subject : Option String) (comparison : Option (String × Value)) :
    Except RuleFault ChoiceRule := do
  let some text := subject | .error .noSubject
  let subject ← (Path.parse text).mapError .path
  let some (key, value) := comparison | .error .notOneComparison
  let some (op, byPath) := Operator.ofKey? key | .error (.unknownOperator key)
  return .compare subject op (← operand key byPath op value)

mutual

/-- The rule as it is asked. Of several combinations in one rule, And comes before Or and Or before
Not. -/
def compile : Document.Rule → Except RuleFault ChoiceRule
  | r@⟨subject, _, all, any, negated, _, _⟩ =>
    match all, any, negated with
    | some rules, _, _ => (compileAll rules).map .conj
    | none, some rules, _ => (compileAll rules).map .disj
    | none, none, some rule => (compile rule).map .neg
    | none, none, none => compileComparison subject r.comparison?

def compileAll : List Document.Rule → Except RuleFault (List ChoiceRule)
  | [] => .ok []
  | r :: rest => do
    let rule ← compile r
    let rules ← compileAll rest
    return rule :: rules

end

mutual

/-- What a rule answers for an input and a context object. -/
def holds (input context : Value) : ChoiceRule → Bool
  | .conj rules => holdAll input context rules
  | .disj rules => holdAny input context rules
  | .neg rule => !holds input context rule
  | .compare subject op operand =>
    op.answers (subject.evaluate input context).toOption
      (match operand with
        | .literal v => some v
        | .path p => (p.evaluate input context).toOption)

def holdAll (input context : Value) : List ChoiceRule → Bool
  | [] => true
  | r :: rest => holds input context r && holdAll input context rest

def holdAny (input context : Value) : List ChoiceRule → Bool
  | [] => false
  | r :: rest => holds input context r || holdAny input context rest

end

end ChoiceRule

end StatesLanguage
