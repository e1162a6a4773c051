import StatesLanguage.Document.Decode
import StatesLanguage.Text.Class
import StatesLanguage.Yaml.Value
/-!
Settings of the engine, from a value, a YAML text or environment variables.
-/
namespace StatesLanguage

/-- The limit on the steps of a workflow, whether completed states are recorded, and whether data is
logged. -/
structure Config where
  maxSteps : Option Nat := none
  recordHistory : Bool := true
  logData : Bool := false
  deriving Inhabited, DecidableEq

/-- Why a text gives no settings. -/
inductive ConfigError where
  | malformed
  | zeroSteps

/-- The text of an error. How a text is malformed is not told. -/
def ConfigError.message? : ConfigError → Option String
  | .malformed => none
  | .zeroSteps => some "Configuration error: max_steps must be greater than zero"

namespace Config

/-- Takes one setting of a value. -/
def read : Document.FieldReader Config := fun key v c => do
  match key with
  | "max_steps" =>
    return { c with maxSteps := ← Document.Decoder.optional Document.Decoder.word64 v }
  | "record_history" => return { c with recordHistory := ← Document.Decoder.boolean v }
  | "log_data" => return { c with logData := ← Document.Decoder.boolean v }
  | _ => return c

def fields : List String := ["max_steps", "record_history", "log_data"]

/-- The settings of a value. -/
def decode : Document.Decoder Config := Document.recordOf "EngineConfig" fields read {} .alone

open Yaml

/-- A scalar that is null or a number of 64 bits. -/
def wordNode? : Node → Option (Option Nat)
  | .scalar text true tag =>
    let cs := text.toList
    if tag.all (· == "tag:yaml.org,2002:null") && (isNull cs || cs.isEmpty && tag.isNone) then
      some none
    else if tag == some "tag:yaml.org,2002:null" then none
    else (natural? maxWord64 cs).map some
  | _ => none

def booleanNode? : Node → Option Bool
  | .scalar text true _ => boolean? text.toList
  | _ => none

/-- One setting of a mapping. Other entries are passed over. -/
def readNode (c : Config) (key : String) (node : Node) : Option Config :=
  match key with
  | "max_steps" => (wordNode? node).map fun n => { c with maxSteps := n }
  | "record_history" => (booleanNode? node).map fun b => { c with recordHistory := b }
  | "log_data" => (booleanNode? node).map fun b => { c with logData := b }
  | _ => some c

/-- The settings of some entries, none of which may be given twice. -/
def readNodes (seen : List String) (c : Config) : List (Node × Node) → Option Config
  | [] => some c
  | (key, node) :: rest => do
    let key ← keyText? key
    if fields.contains key && seen.contains key then none
    else readNodes (key :: seen) (← readNode c key node) rest

/-- The settings of a document: a mapping, a list in the order of the fields, or nothing. -/
def ofNode? : Node → Option Config
  | .map _ entries => readNodes [] {} entries
  | .seq _ items =>
    if items.length ≤ fields.length then
      readNodes [] {} ((fields.map fun f => Node.scalar f true none).zip items)
    else none
  | .scalar text plain _ => if plain && text.isEmpty then some {} else none

/-- The settings of a YAML text. -/
def ofText (text : List Char) : Except ConfigError Config :=
  let config? : Option Config := do
    match ← Node.ofText? text with
    | none => some {}
    | some node => ofNode? node
  match config? with
  | none => .error .malformed
  | some c => if c.maxSteps = some 0 then .error .zeroSteps else .ok c

/-- A positive number of 64 bits in decimal digits, with or without a plus sign. -/
def positive? (text : String) : Option Nat :=
  let digits := match text.toList with
    | '+' :: rest => rest
    | cs => cs
  if digits.isEmpty || !digits.all Char.isDigit then none
  else (some (digits.foldl (fun n c => n * 10 + (c.toNat - 48)) 0)).filter fun n =>
    0 < n && n ≤ maxWord64

/-- A switch in one of its spellings. -/
def switch? (text : String) : Option Bool :=
  let word := String.ofList ((trim text.toList).map Char.toLower)
  if ["1", "true", "yes", "on"].contains word then some true
  else if ["0", "false", "no", "off"].contains word then some false
  else none

/-- The settings of environment variables. What cannot be read counts as not given. -/
def ofEnvironment (value? : String → Option String) : Config where
  maxSteps := (value? "STEPWISE_MAX_STEPS").bind positive?
  recordHistory := ((value? "STEPWISE_RECORD_HISTORY").bind switch?).getD true
  logData := ((value? "STEPWISE_LOG_DATA").bind switch?).getD false

end Config

end StatesLanguage
