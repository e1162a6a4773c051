import StatesLanguage.Document.Basic
import StatesLanguage.Json.Writer
import StatesLanguage.Text.Printable
/-!
What a field must hold, and the ways in which a document can miss it.
-/
namespace StatesLanguage.Document

/-- What a field must hold. -/
inductive Shape where
  | string
  | boolean
  | sequence
  | word64
  | word32
  | number
  | unit
  | stringOrMap
  | singleKey
  | record (name : String)
  | states
  | fewerItems
  | itemCount (n : Nat)
  deriving DecidableEq

/-- How a message names a shape. -/
def Shape.text : Shape → String
  | .string => "a string"
  | .boolean => "a boolean"
  | .sequence => "a sequence"
  | .word64 => "u64"
  | .word32 => "u32"
  | .number => "f64"
  | .unit => "unit"
  | .stringOrMap => "string or map"
  | .singleKey => "map with a single key"
  | .record name => s!"struct {name}"
  | .states => "an object mapping state names to state definitions"
  | .fewerItems => "fewer elements in array"
  | .itemCount n => if n = 1 then "1 element in sequence" else s!"{n} elements in sequence"

/-- How a message names a value. -/
def describe : Value → String
  | .null => "null"
  | .bool b => s!"boolean `{b}`"
  | .int n => s!"integer `{n}`"
  | .float x => s!"floating point `{floatText x}`"
  | .str s => "string " ++ visiblyQuoted s
  | .arr _ => "sequence"
  | .obj _ => "map"

/-- Why a value is no document. -/
inductive DecodeError where
  | invalidType (found : Value) (expected : Shape)
  | invalidValue (found : Value) (expected : Shape)
  | invalidLength (found : Nat) (expected : Shape)
  | duplicateField (name : String)
  | unknownVariant (name : String) (known : List String)
  | duplicateState (name : String)
  | missingType (name : String)
  | unknownType (name : String) (shown : String)
  | inState (name : String) (cause : DecodeError)

namespace DecodeError

/-- Whether the error already names the state it belongs to. -/
def namesState : DecodeError → Bool
  | .duplicateState _ | .missingType _ | .unknownType _ _ | .inState _ _ => true
  | _ => false

/-- The error inside the state of that name. The innermost state is the one that is named. -/
def within (name : String) (e : DecodeError) : DecodeError :=
  if e.namesState then e else .inState name e

/-- Known names in backticks. -/
def alternatives (known : List String) : String :=
  String.intercalate " or " (known.map fun name => s!"`{name}`")

def message : DecodeError → String
  | .invalidType found expected => s!"invalid type: {describe found}, expected {expected.text}"
  | .invalidValue found expected => s!"invalid value: {describe found}, expected {expected.text}"
  | .invalidLength found expected => s!"invalid length {found}, expected {expected.text}"
  | .duplicateField name => s!"duplicate field `{name}`"
  | .unknownVariant name known => s!"unknown variant `{name}`, expected {alternatives known}"
  | .duplicateState name => s!"States.{name} is declared more than once"
  | .missingType name => s!"States.{name} does not have required field \"Type\""
  | .unknownType name shown => s!"States.{name} field \"Type\" value \"{shown}\" is not valid"
  | .inState name cause => s!"States.{name}: {cause.message}"

end DecodeError

end StatesLanguage.Document
