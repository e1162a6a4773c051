import StatesLanguage.Yaml.Node
import StatesLanguage.Yaml.Plain
/-!
YAML documents as JSON values. Keys are the text of their scalars, a repeated key is overridden in
place, and nesting is bounded.
-/
namespace StatesLanguage.Yaml

/-- The value of a scalar with a standard tag, which decides how its text is read. Tags of other
kinds have no value. -/
def taggedValue? (tag text : String) : Option Value :=
  let cs := text.toList
  if tag.startsWith "!" then none
  else if tag = "tag:yaml.org,2002:bool" then (boolean? cs).map .bool
  else if tag = "tag:yaml.org,2002:int" then (integer? cs).join.map .int
  else if tag = "tag:yaml.org,2002:float" then (float? cs).map Value.ofFloat
  else if tag = "tag:yaml.org,2002:null" then if isNull cs then some .null else none
  else some (.str text)

/-- The value of a scalar. -/
def scalarValue? (text : String) (plain : Bool) : Option String → Option Value
  | some tag => taggedValue? tag text
  | none => if plain then plainValue? text else some (.str text)

/-- Whether a collection with that tag has a value. -/
def isCollectionTag (tag : Option String) : Bool := tag.all fun t => !t.startsWith "!"

/-- The text of a key. -/
def keyText? : Node → Option String
  | .scalar text _ _ => some text
  | _ => none

mutual

/-- The value of a node with at most so many levels of nesting. -/
def Node.toValue? : Nat → Node → Option Value
  | _, .scalar text plain tag => scalarValue? text plain tag
  | 0, _ => none
  | depth + 1, .seq tag items =>
    if isCollectionTag tag then (itemValues? depth items).map .arr else none
  | depth + 1, .map tag entries =>
    if isCollectionTag tag then
      (entryValues? depth entries).map fun fs => .obj (collectFields fs)
    else none

def itemValues? : Nat → List Node → Option (List Value)
  | _, [] => some []
  | depth, n :: rest =>
    match Node.toValue? depth n with
    | none => none
    | some v => (itemValues? depth rest).map (v :: ·)

def entryValues? : Nat → List (Node × Node) → Option (List (String × Value))
  | _, [] => some []
  | depth, (k, n) :: rest =>
    match keyText? k, Node.toValue? depth n with
    | some key, some v => (entryValues? depth rest).map ((key, v) :: ·)
    | _, _ => none

end

/-- How deep collections may be nested. -/
def maxDepth : Nat := 128

/-- The value of a text, null for an empty one. -/
def parse? (text : List Char) : Option Value := do
  match ← Node.ofText? text with
  | none => some .null
  | some node => node.toValue? maxDepth

end StatesLanguage.Yaml
