import StatesLanguage.Document.Decode
import StatesLanguage.Json.Source
/-!
Reading the document model directly from JSON text. The fields of the graph and the names of its
states are taken as they come, so that a repeated one is an error; each state is read as a value
first. The first fault in the text is the error, whether the text is malformed or what it says is
no document.
-/
namespace StatesLanguage.Document

inductive TextError where
  | malformed
  | decode (error : DecodeError)

/-- A fault of decoding as a fault of the text. -/
def decoded {α : Type} (result : Except DecodeError α) : Except TextError α :=
  result.mapError .decode

/-- A value as far as its kind goes, which is all that a field without structure looks at. -/
def outline : Source → Except TextError Value
  | .scalar v => .ok v
  | .arr _ _ => .ok (.arr [])
  | .obj _ _ => .ok (.obj [])
  | .malformed => .error .malformed

/-- States onto the ones read before. The depth bounds the nesting inside each state. -/
def readStates (depth : Nat) (done : List (String × State)) :
    List (String × Source) → Except TextError (List (String × State))
  | [] => .ok done
  | (name, s) :: rest => do
    match s.toValue? depth with
    | none => .error .malformed
    | some v =>
      let done ← decoded (States.decodeEntries done [(name, v)])
      readStates depth done rest

/-- The States field. -/
def readStatesField (depth : Nat) : Source → Except TextError (Option (List (String × State)))
  | .obj entries closed => do
    let states ← readStates depth [] entries
    if closed then return some states else .error .malformed
  | s => do decoded (States.decode? (← outline s))

/-- One field of the graph. -/
def readGraphField (depth : Nat) (key : String) (s : Source) (g : Graph) :
    Except TextError Graph := do
  if key = "States" then
    return { g with states := ← readStatesField depth s }
  else if Graph.fields.contains key then decoded (Graph.read key (← outline s) g)
  else if s.isWhole then return g
  else .error .malformed

/-- The fields of the graph, none of them twice. -/
def readGraphEntries (depth : Nat) (seen : List String) (g : Graph) :
    List (String × Source) → Except TextError Graph
  | [] => .ok g
  | (key, s) :: rest => do
    if Graph.fields.contains key && seen.contains key then
      .error (.decode (.duplicateField key))
    else
      let g ← readGraphField depth key s g
      readGraphEntries depth (key :: seen) g rest

/-- The graph that a text gives as an object, or as an array of its fields. -/
def Graph.ofSource : Source → Except TextError Graph
  | .obj entries closed => do
    let g ← readGraphEntries (Source.maxDepth - 2) [] {} entries
    if closed then return g else .error .malformed
  | .arr items closed => do
    let g ← readGraphEntries (Source.maxDepth - 2) [] {} (Graph.fields.zip items)
    if closed && items.length ≤ Graph.fields.length then return g else .error .malformed
  | s => do decoded (Graph.decode .alone (← outline s))

/-- The graph of a JSON text. -/
def Graph.ofText (text : List Char) : Except TextError Graph := do
  let (source, whole) := Source.ofText text
  let g ← Graph.ofSource source
  if whole then return g else .error .malformed

end StatesLanguage.Document
