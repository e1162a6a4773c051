import StatesLanguage.Jmespath.Query
import StatesLanguage.Path.Translation
/-!
Paths: their text, the value they select from a document, and setting the value at a place.
-/
namespace StatesLanguage

namespace Path

/-- Why a text is no path. -/
inductive ParseError where
  | noRoot (path : String)
  | malformed (path : String) (fault : Fault)
  | unsupported (path : String) (refusal : Jmespath.Refusal)
  deriving DecidableEq

/-- The text of an error. There is none where the program stops instead. -/
def ParseError.message? : ParseError → Option String
  | .noRoot path => some s!"Path \"{path}\" must start with \"$\""
  | .malformed path fault => some s!"Invalid path \"{path}\": {fault.text}"
  | .unsupported path refusal =>
    refusal.text?.map fun detail => s!"Path \"{path}\" is not supported: {detail}"

/-- Why a path cannot be followed or set. -/
inductive PathError where
  | unresolved (path : String)
  | zeroStep (path : String)
  | notReference (path : String)
  | insideNonObject (path name : String)
  | insideNonArray (path : String) (position : Int)
  | outOfBounds (path : String) (position : Int)
  deriving DecidableEq

def PathError.message : PathError → String
  | .unresolved path => s!"Path \"{path}\" could not be resolved"
  | .zeroStep path => s!"Path \"{path}\" failed: Runtime error: slice step is zero"
  | .notReference path => s!"Path \"{path}\" is not a reference path"
  | .insideNonObject path name =>
    s!"Cannot set \"{path}\": field \"{name}\" is inside a non-object"
  | .insideNonArray path position =>
    s!"Cannot set \"{path}\": index {position} is inside a non-array"
  | .outOfBounds path position => s!"Cannot set \"{path}\": index {position} is out of bounds"

/-- How a path is followed: key by key, or as an expression of the query language. -/
inductive Route where
  | reference (keys : List Key)
  | query (dialect : Jmespath.Dialect) (q : Jmespath.Query)
  deriving Inhabited

end Path

/-- A path with the text it was read from. A path into the context object starts with two dollar
signs. -/
structure Path where
  text : String
  inContext : Bool
  segments : List Path.Segment
  route : Path.Route
  deriving Inhabited

namespace Path

/-- The keys of segments that are all keys. -/
def keys? (segments : List Segment) : Option (List Key) :=
  segments.mapM fun
    | .select (.key k) => some k
    | _ => none

/-- The route of a path of that text. All that is not a reference path is translated. -/
def route? (text : String) (segments : List Segment) (dialect : Jmespath.Dialect := .narrow) :
    Except ParseError Route :=
  match keys? segments with
  | some ks => .ok (.reference ks)
  | none => do
    let expression ← (translate (fun filter => translateFilter filter.toList) segments).mapError
      (.malformed text)
    let q ← (Jmespath.compile dialect expression).mapError (.unsupported text)
    return .query dialect q

/-- The path of a text. -/
def parse (text : String) (dialect : Jmespath.Dialect := .narrow) : Except ParseError Path := do
  let (inContext, body) ← match text.toList with
    | '$' :: '$' :: rest => .ok (true, rest)
    | '$' :: rest => .ok (false, rest)
    | _ => .error (.noRoot text)
  let segments ← (readSegments body).mapError (.malformed text)
  let route ← route? text segments dialect
  return { text, inContext, segments, route }

/-- Whether the path leads to a single place. -/
def isReferencePath (p : Path) : Bool :=
  match p.route with
  | .reference _ => true
  | .query _ _ => false

/-- A position counted from the start of a list of so many items. -/
def position? (i : Int) (length : Nat) : Option Nat :=
  let i := if i < 0 then i + length else i
  if 0 ≤ i ∧ i < length then some i.toNat else none

/-- What a key selects. -/
def Key.get? : Key → Value → Option Value
  | .field name, .obj fields => fields.lookup name
  | .index i, .arr items => (position? i items.length).bind fun n => items[n]?
  | _, _ => none

/-- The value at a place. -/
def getAt? : List Key → Value → Option Value
  | [], v => some v
  | k :: rest, v => (k.get? v).bind (getAt? rest)

/-- What the path selects from the input, or from the context object when it leads there. -/
def evaluate (p : Path) (input context : Value) : Except PathError Value :=
  let root := if p.inContext then context else input
  match p.route with
  | .reference keys =>
    match getAt? keys root with
    | some v => .ok v
    | none => .error (.unresolved p.text)
  | .query dialect q =>
    match q.eval dialect root with
    | some v => .ok (Jmespath.sorted v)
    | none => .error (.zeroStep p.text)

/-- The data with a new value at a place of the path of that text. Missing objects on the way are
made, arrays are not extended. -/
def setAt (text : String) (value : Value) : List Key → Value → Except PathError Value
  | [], _ => .ok value
  | .field name :: rest, .obj fields => do
    let child ← setAt text value rest ((fields.lookup name).getD (.obj []))
    return .obj (setField name child fields)
  | .field name :: _, _ => .error (.insideNonObject text name)
  | .index i :: rest, .arr items =>
    match position? i items.length with
    | none => .error (.outOfBounds text i)
    | some n => do
      let child ← setAt text value rest (items.getD n .null)
      return .arr (items.set n child)
  | .index i :: _, _ => .error (.insideNonArray text i)

/-- The data with a new value where the path leads, which must be a reference path into the data. -/
def set (p : Path) (data value : Value) : Except PathError Value :=
  match p.inContext, p.route with
  | false, .reference keys => setAt p.text value keys data
  | _, _ => .error (.notReference p.text)

end Path

end StatesLanguage
