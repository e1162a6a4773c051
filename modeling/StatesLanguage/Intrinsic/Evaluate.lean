import StatesLanguage.Execution.Error
import StatesLanguage.Intrinsic.Call
/-!
The values of intrinsic calls.
-/
namespace StatesLanguage

/-- A source of identifiers. Different places of one evaluation get different ones. -/
abbrev Identifiers := List Nat → String

/-- The identifiers of the part with that number. -/
def Identifiers.part (ids : Identifiers) (n : Nat) : Identifiers := fun place => ids (n :: place)

namespace Intrinsic

/-- What goes wrong in a call. -/
inductive CallFault where
  | argument (error : Path.PathError)
  | notString
  | firstNotString
  | firstNotArray
  | malformedJson
  | placeholders (values places : Nat)
  | overflow
  | notNumbers
  deriving DecidableEq

def CallFault.text : CallFault → String
  | .argument error => error.message
  | .notString => "argument must be a string"
  | .firstNotString => "first argument must be a string"
  | .firstNotArray => "first argument must be an array"
  | .malformedJson => "invalid JSON"
  | .placeholders values places => s!"got {values} arguments for {places} placeholders"
  | .overflow => "integer overflow"
  | .notNumbers => "arguments must be numbers"

/-- The failure of a function. -/
def failure (f : Function) (fault : CallFault) : ExecutionError :=
  .intrinsic s!"States.{f.name}: {fault.text}"

/-- How many placeholders a template has. -/
def placeholders : List Char → Nat
  | [] | [_] => 0
  | c :: d :: rest =>
    if c = '\x7b' ∧ d = '\x7d' then placeholders rest + 1 else placeholders (d :: rest)

/-- The pieces of a template between its placeholders. -/
def pieces : List Char → List (List Char)
  | [] => [[]]
  | [c] => [[c]]
  | c :: d :: rest =>
    if c = '\x7b' ∧ d = '\x7d' then [] :: pieces rest
    else
      match pieces (d :: rest) with
      | piece :: more => (c :: piece) :: more
      | [] => [[c]]

/-- A value put into a text: a string as it is, another value as JSON. -/
def display : Value → String
  | .str s => s
  | v => v.text

/-- The first piece of a template, then a value before each of the others. -/
def fill : List (List Char) → List Value → List Char
  | [], _ => []
  | first :: rest, values =>
    first ++ (rest.zip values).flatMap fun (piece, v) => (display v).toList ++ piece

/-- The template with every placeholder replaced by its value. -/
def format (template : String) (values : List Value) : Except CallFault Value :=
  let places := placeholders template.toList
  if places = values.length then
    .ok (.str (String.ofList (fill (pieces template.toList) values)))
  else .error (.placeholders values.length places)

/-- The sum of two numbers. Integers of the signed range have an exact sum or none; other numbers
are added as floats. -/
def add (a b : Value) : Except CallFault Value :=
  match a.signed?, b.signed? with
  | some m, some n =>
    if Value.minInt ≤ m + n ∧ m + n ≤ Value.maxSigned then .ok (.int (m + n)) else .error .overflow
  | _, _ =>
    match a.float?, b.float? with
    | some x, some y => .ok (Value.ofFloat (x + y))
    | _, _ => .error .notNumbers

/-- The items without those that are equal to an earlier one. -/
def distinct (items : List Value) : List Value :=
  items.foldl (fun kept v => if kept.any fun k => k.same v then kept else kept ++ [v]) []

/-- The value of a function at its arguments. -/
def apply (id : String) : Function → List Value → Except CallFault Value
  | .format, .str template :: values => format template values
  | .format, _ => .error .firstNotString
  | .stringToJson, [.str text] =>
    match Value.parse? text.toList with
    | some v => .ok v
    | none => .error .malformedJson
  | .stringToJson, _ => .error .notString
  | .jsonToString, v :: _ => .ok (.str v.text)
  | .jsonToString, [] => .ok .null
  | .array, values => .ok (.arr values)
  | .arrayLength, .arr items :: _ => .ok (Value.ofNat items.length)
  | .arrayLength, _ => .error .firstNotArray
  | .arrayContains, [.arr items, v] => .ok (.bool (items.any fun i => i.same v))
  | .arrayContains, _ => .error .firstNotArray
  | .arrayUnique, .arr items :: _ => .ok (.arr (distinct items))
  | .arrayUnique, _ => .error .firstNotArray
  | .mathAdd, [a, b] => add a b
  | .mathAdd, _ => .error .notNumbers
  | .uuid, _ => .ok (.str id)

mutual

/-- The value of a call whose paths lead into the input and the context object. Arguments are
evaluated from left to right, and the first that fails decides. -/
def evaluateCall (ids : Identifiers) (input context : Value) (f : Function)
    (arguments : List Argument) : Except ExecutionError Value := do
  let values ← evaluateArguments ids input context f 0 arguments
  (apply (ids []) f values).mapError (failure f)

/-- The values of the arguments of a function from number `n` on. -/
def evaluateArguments (ids : Identifiers) (input context : Value) (f : Function) (n : Nat) :
    List Argument → Except ExecutionError (List Value)
  | [] => .ok []
  | a :: rest => do
    let v ← evaluateArgument (ids.part n) input context f a
    let vs ← evaluateArguments ids input context f (n + 1) rest
    return v :: vs

/-- The value of an argument of a function. -/
def evaluateArgument (ids : Identifiers) (input context : Value) (f : Function) :
    Argument → Except ExecutionError Value
  | .literal v => .ok v
  | .path p => (p.evaluate input context).mapError fun e => failure f (.argument e)
  | .call g arguments => evaluateCall ids input context g arguments

end

/-- The value of a call. -/
def Call.evaluate (c : Call) (ids : Identifiers) (input context : Value) :
    Except ExecutionError Value :=
  evaluateCall ids input context c.function c.arguments

end Intrinsic

end StatesLanguage
