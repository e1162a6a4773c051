import StatesLanguage.Yaml.Token
/-!
The tree of a YAML document. An alias stands for the node of its anchor, tags are kept.
-/
namespace StatesLanguage.Yaml

inductive Node where
  | scalar (text : String) (plain : Bool) (tag : Option String)
  | seq (tag : Option String) (items : List Node)
  | map (tag : Option String) (entries : List (Node × Node))
  deriving Inhabited

/-- The empty scalar. -/
def Node.blank : Node := .scalar "" true none

/-- What has been read of a stream: the tokens that remain, the anchors in scope with the number of
their node, the nodes that are complete, and the handles of tags. -/
structure Stream where
  tokens : List Token
  anchors : List (String × Nat) := []
  nodes : List (Nat × Node) := []
  handles : List (String × String) := []

abbrev Reader := StateT Stream Option

namespace Reader

def fail {α : Type} : Reader α := fun _ => none

/-- The next token, which stays. -/
def peek : Reader (Option Token) := do return (← get).tokens.head?

/-- Past a token. -/
def advance : Reader Unit := modify fun s => { s with tokens := s.tokens.tail }

/-- Past a token when it comes next, and whether it did. -/
def take? (t : Token) : Reader Bool := do
  if (← peek) == some t then
    advance
    return true
  else return false

/-- Whether one of the tokens comes next. -/
def before (ts : List Token) : Reader Bool := do
  match ← peek with
  | some t => return ts.contains t
  | none => return false

/-- The tag of a handle and a suffix. -/
def resolveTag (handle suffix : String) : Reader String := do
  if handle = "" then return suffix
  else match (← get).handles.lookup handle with
    | some shorthand => return shorthand ++ suffix
    | none =>
      if handle = "!" then return "!" ++ suffix
      else if handle = "!!" then return "tag:yaml.org,2002:" ++ suffix
      else fail

/-- An anchor before a node, if there is one. -/
def anchor? : Reader (Option String) := do
  match ← peek with
  | some (.anchor name) =>
    advance
    return some name
  | _ => return none

/-- A tag before a node, if there is one. -/
def tag? : Reader (Option String) := do
  match ← peek with
  | some (.tag handle suffix) =>
    advance
    return some (← resolveTag handle suffix)
  | _ => return none

/-- Brings an anchor into scope and gives its node a number. -/
def openAnchor (name : String) : Reader Nat := do
  let s ← get
  let n := s.anchors.length
  set { s with anchors := (name, n) :: s.anchors }
  return n

/-- The node of an anchor is complete. -/
def closeAnchor (n : Nat) (node : Node) : Reader Unit :=
  modify fun s => { s with nodes := (n, node) :: s.nodes }

/-- The node that an alias stands for. It must be complete. -/
def aliased (name : String) : Reader Node := do
  let s ← get
  match (s.anchors.lookup name).bind fun n => s.nodes.lookup n with
  | some node => return node
  | none => fail

mutual

/-- A node. Inside a block mapping, a sequence may stand without indentation of its own. -/
def node : Nat → Bool → Bool → Reader Node
  | 0, _, _ => fail
  | fuel + 1, inBlock, indentless => do
    match ← peek with
    | some (.alias name) =>
      advance
      aliased name
    | _ =>
      let first ← anchor?
      let tag ← tag?
      let anchor ← if first.isSome then pure first else anchor?
      match anchor with
      | none => content fuel inBlock indentless tag (tag.isSome)
      | some name =>
        let n ← openAnchor name
        let result ← content fuel inBlock indentless tag true
        closeAnchor n result
        return result

/-- A node behind its anchor and its tag. Behind one of them it may be missing. -/
def content : Nat → Bool → Bool → Option String → Bool → Reader Node
  | 0, _, _, _, _ => fail
  | fuel + 1, inBlock, indentless, tag, mayMiss => do
    match ← peek with
    | some .entry =>
      if indentless then return .seq tag (← indentlessItems fuel)
      else missing tag mayMiss
    | some (.scalar text plain) =>
      advance
      return .scalar text plain tag
    | some .flowSequence =>
      advance
      return .seq tag (← flowItems fuel true)
    | some .flowMapping =>
      advance
      return .map tag (← flowEntries fuel true)
    | some .blockSequence =>
      if inBlock then
        advance
        return .seq tag (← blockItems fuel)
      else missing tag mayMiss
    | some .blockMapping =>
      if inBlock then
        advance
        return .map tag (← blockEntries fuel)
      else missing tag mayMiss
    | _ => missing tag mayMiss

/-- No node, which is the empty scalar where it is allowed. -/
def missing (tag : Option String) (mayMiss : Bool) : Reader Node :=
  if mayMiss then return .scalar "" true tag else fail

/-- A node, or the empty scalar before one of the tokens. -/
def nodeUnless : Nat → List Token → Bool → Bool → Reader Node
  | 0, _, _, _ => fail
  | fuel + 1, stops, inBlock, indentless => do
    if (← peek).isNone || (← before stops) then return .blank
    else node fuel inBlock indentless

/-- The items of a block sequence up to its end. -/
def blockItems : Nat → Reader (List Node)
  | 0 => fail
  | fuel + 1 => do
    if ← take? .entry then
      let item ← nodeUnless fuel [.entry, .blockEnd] true false
      return item :: (← blockItems fuel)
    else if ← take? .blockEnd then return []
    else fail

/-- The items of a sequence that ends where no dash follows. -/
def indentlessItems : Nat → Reader (List Node)
  | 0 => fail
  | fuel + 1 => do
    if ← take? .entry then
      let item ← nodeUnless fuel [.entry, .key, .value, .blockEnd] true false
      return item :: (← indentlessItems fuel)
    else return []

/-- The entries of a block mapping up to its end. -/
def blockEntries : Nat → Reader (List (Node × Node))
  | 0 => fail
  | fuel + 1 => do
    if ← take? .key then
      let key ← nodeUnless fuel [.key, .value, .blockEnd] true true
      let value ← blockValue fuel
      return (key, value) :: (← blockEntries fuel)
    else if ← take? .blockEnd then return []
    else fail

/-- The value of an entry of a block mapping. -/
def blockValue : Nat → Reader Node
  | 0 => fail
  | fuel + 1 => do
    if ← take? .value then nodeUnless fuel [.key, .value, .blockEnd] true true
    else return .blank

/-- The items of a flow sequence up to its bracket. A single key and value may stand for a mapping
with one entry. -/
def flowItems : Nat → Bool → Reader (List Node)
  | 0, _ => fail
  | fuel + 1, first => do
    if ← take? .flowSequenceEnd then return []
    else
      if !first then
        if !(← take? .flowEntry) then fail
      if ← take? .key then
        let key ← pairKey fuel
        let value ← flowValue fuel .flowSequenceEnd
        return .map none [(key, value)] :: (← flowItems fuel false)
      else if ← take? .flowSequenceEnd then return []
      else
        let item ← node fuel false false
        return item :: (← flowItems fuel false)

/-- The key of a pair in a flow sequence. A missing key takes the token behind it along. -/
def pairKey : Nat → Reader Node
  | 0 => fail
  | fuel + 1 => do
    if ← before [.value, .flowEntry, .flowSequenceEnd] then
      advance
      return .blank
    else node fuel false false

/-- The value of an entry of a flow collection. -/
def flowValue : Nat → Token → Reader Node
  | 0, _ => fail
  | fuel + 1, close => do
    if ← take? .value then nodeUnless fuel [.flowEntry, close] false false
    else return .blank

/-- The entries of a flow mapping up to its brace. -/
def flowEntries : Nat → Bool → Reader (List (Node × Node))
  | 0, _ => fail
  | fuel + 1, first => do
    if ← take? .flowMappingEnd then return []
    else
      if !first then
        if !(← take? .flowEntry) then fail
      if ← take? .key then
        let key ← nodeUnless fuel [.value, .flowEntry, .flowMappingEnd] false false
        let value ← flowValue fuel .flowMappingEnd
        return (key, value) :: (← flowEntries fuel false)
      else if ← take? .flowMappingEnd then return []
      else
        let key ← node fuel false false
        return (key, .blank) :: (← flowEntries fuel false)

end

/-- The directives before a document: at most one version, which must be 1.1 or 1.2, and no handle
twice. -/
def directives : Nat → Bool → Reader Unit
  | 0, _ => fail
  | fuel + 1, versioned => do
    match ← peek with
    | some (.version major minor) =>
      if versioned || major ≠ 1 || (minor ≠ 1 && minor ≠ 2) then fail
      else
        advance
        directives fuel true
    | some (.tagHandle handle shorthand) =>
      if ((← get).handles.lookup handle).isSome then fail
      else
        advance
        modify fun s => { s with handles := s.handles ++ [(handle, shorthand)] }
        directives fuel versioned
    | _ => return ()

/-- Past the markers that end a document. -/
def documentEnds : Nat → Reader Unit
  | 0 => fail
  | fuel + 1 => do
    if ← take? .documentEnd then documentEnds fuel else return ()

/-- The only document of a stream; nothing when the stream is empty. -/
def document (fuel : Nat) : Reader (Option Node) := do
  if (← peek).isNone then return none
  let explicit := match ← peek with
    | some (.version _ _) | some (.tagHandle _ _) | some .documentStart => true
    | _ => false
  directives fuel false
  if explicit then
    if !(← take? .documentStart) then fail
  let stops := match ← peek with
    | none | some (.version _ _) | some (.tagHandle _ _) | some .documentStart
    | some .documentEnd => explicit
    | _ => false
  let root ← if stops then pure Node.blank else node fuel true false
  documentEnds fuel
  if (← peek).isNone then return some root else fail

end Reader

/-- The only document of a text, nothing standing for an empty one. -/
def Node.ofText? (text : List Char) : Option (Option Node) := do
  let ts ← tokens text
  let fuel := 4 * ts.length + 8
  return (← (Reader.document fuel).run { tokens := ts }).1

end StatesLanguage.Yaml
