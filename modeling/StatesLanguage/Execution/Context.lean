import StatesLanguage.Json.Value
import StatesLanguage.Time.Timestamp
/-!
The context object, which paths that start with two dollar signs lead into.
-/
namespace StatesLanguage

/-- What is known of an execution as a whole. Nested workflows share it. -/
structure Execution where
  id : String
  input : Value
  startedAt : Option Instant := none
  deriving Inhabited

/-- What the context object tells of a state that is being executed. -/
structure Place where
  state : Option String := none
  enteredAt : Option Instant := none
  retries : Nat := 0
  deriving Inhabited

namespace Context

def ofInstant? (t : Option Instant) : Value := Value.ofString? (t.map Timestamp.text)

/-- The context object of a state. -/
def object (e : Execution) (p : Place) : Value :=
  .obj [
    ("Execution", .obj [
      ("Id", .str e.id), ("Input", e.input), ("StartTime", ofInstant? e.startedAt)]),
    ("State", .obj [
      ("Name", Value.ofString? p.state), ("EnteredTime", ofInstant? p.enteredAt),
      ("RetryCount", Value.ofNat p.retries)])]

/-- The context object of one item of a Map. -/
def withItem (index : Nat) (item : Value) (context : Value) : Value :=
  let entry := Value.obj [("Item", .obj [("Index", Value.ofNat index), ("Value", item)])]
  match context with
  | .obj fields => .obj (setField "Map" entry fields)
  | _ => .obj [("Map", entry)]

end Context

end StatesLanguage
