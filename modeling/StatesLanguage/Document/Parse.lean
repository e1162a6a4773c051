import StatesLanguage.Document.Decode
import StatesLanguage.Text.Class
import StatesLanguage.Validation.Check
import StatesLanguage.Yaml.Value
/-!
Documents from text or from a value, and what can be wrong with them.
-/
namespace StatesLanguage.Document

/-- Why there is no valid document. -/
inductive DocumentError where
  | malformedJson
  | malformedYaml
  | notAnObject
  | undecodable (error : DecodeError)
  | invalid (issue : Validation.Issue)
  | manyInvalid (issues : List Validation.Issue)

namespace DocumentError

def code : DocumentError → String
  | .malformedJson => "ERR_DSL_JSON_PARSE"
  | .malformedYaml => "ERR_DSL_YAML_PARSE"
  | .notAnObject | .undecodable _ => "ERR_DSL_INVALID_DOCUMENT"
  | .invalid issue => issue.code.text
  | .manyInvalid _ => "ERR_DSL_VALIDATION_MULTIPLE"

/-- The text of an error. How a text is malformed is not told. -/
def message? : DocumentError → Option String
  | .malformedJson | .malformedYaml => none
  | .notAnObject => some "StateMachine must be an object"
  | .undecodable e => some e.message
  | .invalid issue => some issue.message
  | .manyInvalid found => some (Validation.report found)

/-- The issues behind an error. -/
def issues : DocumentError → List Validation.Issue
  | .invalid issue => [issue]
  | .manyInvalid found => found
  | _ => []

end DocumentError

/-- The graph of a value. -/
def Graph.ofValue (v : Value) : Except DocumentError Graph :=
  match v with
  | .obj _ => (Graph.decode .alone v).mapError .undecodable
  | _ => .error .notAnObject

/-- The document with these states that starts at the first of them. -/
def ofStates (states : Value) : Value :=
  let start := match states with
    | .obj ((name, _) :: _) => name
    | _ => ""
  .obj [("StartAt", .str start), ("States", states)]

/-- The graph of a text: JSON when the first character that is no blank is a brace, else YAML. -/
def Graph.parse (text : List Char) : Except DocumentError Graph := do
  if (trimStart text).head? == some '\x7b' then
    match Value.parse? text with
    | some v => Graph.ofValue v
    | none => .error .malformedJson
  else
    match Yaml.parse? text with
    | some v => Graph.ofValue v
    | none => .error .malformedYaml

/-- Whether a document is valid, with all its issues when it is not. -/
def Graph.validate (g : Graph) : Except DocumentError Unit :=
  match Validation.issues g with
  | [] => .ok ()
  | [issue] => .error (.invalid issue)
  | found => .error (.manyInvalid found)

end StatesLanguage.Document
