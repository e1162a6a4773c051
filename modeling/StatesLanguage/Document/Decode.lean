import StatesLanguage.Document.Shape
/-!
Reading the document model from a value. Entries are taken in the order of the object, unknown ones
are passed over, and the first fault is the error. Records may also be given as arrays of their
fields in the order of declaration.
-/
namespace StatesLanguage.Document

/-- A decoder of values. -/
abbrev Decoder (α : Type) := Value → Except DecodeError α

namespace Decoder

def string : Decoder String
  | .str s => .ok s
  | v => .error (.invalidType v .string)

def boolean : Decoder Bool
  | .bool b => .ok b
  | v => .error (.invalidType v .boolean)

/-- A natural number up to a limit. -/
def natural (shape : Shape) (limit : Nat) : Decoder Nat
  | .int n =>
    if 0 ≤ n ∧ n ≤ limit then .ok n.toNat else .error (.invalidValue (.int n) shape)
  | v => .error (.invalidType v shape)

def word64 : Decoder Nat := natural .word64 18446744073709551615

def word32 : Decoder Nat := natural .word32 4294967295

/-- A float, or an integer taken as the nearest float. -/
def number : Decoder Float
  | .float x => .ok x
  | .int n => .ok (Float.ofInt n)
  | v => .error (.invalidType v .number)

/-- Any value. -/
def any : Decoder Value := fun v => .ok v

/-- A value or null. -/
def optional {α : Type} (decode : Decoder α) : Decoder (Option α)
  | .null => .ok none
  | v => (decode v).map some

/-- A list of values. -/
def list {α : Type} (decode : Decoder α) : Decoder (List α)
  | .arr items => items.mapM decode
  | v => .error (.invalidType v .sequence)

/-- A path, or null. -/
def path : Decoder PathField := fun v => do
  match ← optional string v with
  | some p => return .path p
  | none => return .null

end Decoder

open Decoder

/-- What surrounds a record. It decides how a record given as too long an array is reported. -/
inductive Setting where
  | alone
  | inState
  deriving DecidableEq

/-- The error for a record of `fields` fields that is given `items` items. -/
def Setting.surplus (setting : Setting) (fields items : Nat) : DecodeError :=
  match setting with
  | .alone => .invalidLength items .fewerItems
  | .inState => .invalidLength items (.itemCount fields)

/-- Takes one field of a record. -/
abbrev FieldReader (α : Type) := String → Value → α → Except DecodeError α

/-- Takes the entries of an object one by one. -/
def readEntries {α : Type} (read : FieldReader α) (record : α) (entries : List (String × Value)) :
    Except DecodeError α :=
  entries.foldlM (fun r entry => read entry.1 entry.2 r) record

/-- A record given as an object or as an array of its fields. -/
def recordOf {α : Type} (name : String) (fields : List String) (read : FieldReader α) (blank : α)
    (setting : Setting) : Decoder α
  | .obj entries => readEntries read blank entries
  | .arr items => do
    let record ← readEntries read blank (fields.zip items)
    if fields.length < items.length then .error (setting.surplus fields.length items.length)
    else .ok record
  | v => .error (.invalidType v (.record name))

/-- Full or no jitter, as a name or as an object with that name as its only key. -/
def readJitter (setting : Setting) : Decoder Jitter
  | .str name => named name
  | .obj [(name, v)] => do
    let j ← named name
    match v, setting with
    | .null, _ => .ok j
    | .obj [], .inState => .ok j
    | v, _ => .error (.invalidType v .unit)
  | .obj fields => .error (.invalidValue (.obj fields) .singleKey)
  | v => .error (.invalidType v .stringOrMap)
where
  named (name : String) : Except DecodeError Jitter :=
    if name = "FULL" then .ok .full
    else if name = "NONE" then .ok .none
    else .error (.unknownVariant name ["FULL", "NONE"])

def Retrier.fields : List String :=
  ["ErrorEquals", "IntervalSeconds", "MaxAttempts", "BackoffRate", "MaxDelaySeconds",
    "JitterStrategy", "Comment"]

def Retrier.read (setting : Setting) : FieldReader Retrier := fun key v r => do
  match key with
  | "ErrorEquals" => return { r with errorEquals := ← list string v }
  | "IntervalSeconds" => return { r with intervalSeconds := ← optional number v }
  | "MaxAttempts" => return { r with maxAttempts := ← optional word32 v }
  | "BackoffRate" => return { r with backoffRate := ← optional number v }
  | "MaxDelaySeconds" => return { r with maxDelaySeconds := ← optional number v }
  | "JitterStrategy" => return { r with jitter := ← optional (readJitter setting) v }
  | "Comment" => return { r with comment := ← optional string v }
  | _ => return r

def Retrier.decode (setting : Setting) : Decoder Retrier :=
  recordOf "RetrierDefinition" Retrier.fields (Retrier.read setting) {} setting

def Catcher.fields : List String := ["ErrorEquals", "Next", "ResultPath", "Comment"]

def Catcher.read : FieldReader Catcher := fun key v c => do
  match key with
  | "ErrorEquals" => return { c with errorEquals := ← list string v }
  | "Next" => return { c with next := ← optional string v }
  | "ResultPath" => return { c with resultPath := ← path v }
  | "Comment" => return { c with comment := ← optional string v }
  | _ => return c

def Catcher.decode (setting : Setting) : Decoder Catcher :=
  recordOf "CatcherDefinition" Catcher.fields Catcher.read {} setting

mutual

/-- A choice rule. It is always given as an object; every entry without a meaning of its own is kept
as a comparison. -/
def Rule.decode : Decoder Rule
  | .obj entries => Rule.decodeEntries {} entries
  | v => .error (.invalidType v (.record "ChoiceRuleDefinition"))

def Rule.decodeEntries (r : Rule) : List (String × Value) → Except DecodeError Rule
  | [] => .ok r
  | (key, v) :: rest => do
    let r ← match key with
      | "Variable" => (optional string v).map fun s => { r with subject := s }
      | "Next" => (optional string v).map fun s => { r with next := s }
      | "And" => (Rule.decodeList? v).map fun rs => { r with conj := rs }
      | "Or" => (Rule.decodeList? v).map fun rs => { r with disj := rs }
      | "Not" => (Rule.decode? v).map fun n => { r with neg := n }
      | "Comment" => (optional string v).map fun s => { r with comment := s }
      | key => .ok { r with comparisons := r.comparisons ++ [(key, v)] }
    Rule.decodeEntries r rest

/-- A rule or null. -/
def Rule.decode? : Decoder (Option Rule)
  | .null => .ok none
  | .obj entries => (Rule.decodeEntries {} entries).map some
  | v => .error (.invalidType v (.record "ChoiceRuleDefinition"))

/-- A list of rules or null. -/
def Rule.decodeList? : Decoder (Option (List Rule))
  | .null => .ok none
  | .arr items => (Rule.decodeItems items).map some
  | v => .error (.invalidType v .sequence)

def Rule.decodeItems : List Value → Except DecodeError (List Rule)
  | [] => .ok []
  | v :: rest => do
    let r ← Rule.decode v
    let rs ← Rule.decodeItems rest
    .ok (r :: rs)

end

def Pass.read : FieldReader Pass := fun key v s => do
  match key with
  | "Comment" => return { s with comment := ← optional string v }
  | "Next" => return { s with transition.next := ← optional string v }
  | "End" => return { s with transition.isEnd := ← boolean v }
  | "InputPath" => return { s with paths.input := ← path v }
  | "OutputPath" => return { s with paths.output := ← path v }
  | "ResultPath" => return { s with resultPath := ← path v }
  | "Parameters" => return { s with parameters := ← optional any v }
  | "Result" => return { s with result := ← optional any v }
  | _ => return s

def Task.read : FieldReader Task := fun key v s => do
  match key with
  | "Comment" => return { s with comment := ← optional string v }
  | "Next" => return { s with transition.next := ← optional string v }
  | "End" => return { s with transition.isEnd := ← boolean v }
  | "InputPath" => return { s with paths.input := ← path v }
  | "OutputPath" => return { s with paths.output := ← path v }
  | "ResultPath" => return { s with resultPath := ← path v }
  | "Parameters" => return { s with parameters := ← optional any v }
  | "ResultSelector" => return { s with resultSelector := ← optional any v }
  | "Resource" => return { s with resource := ← optional string v }
  | "Credentials" => return { s with credentials := ← optional any v }
  | "TimeoutSeconds" => return { s with timeoutSeconds := ← optional word64 v }
  | "Retry" => return { s with retry := ← list (Retrier.decode .inState) v }
  | "Catch" => return { s with catchers := ← list (Catcher.decode .inState) v }
  | _ => return s

def Wait.read : FieldReader Wait := fun key v s => do
  match key with
  | "Comment" => return { s with comment := ← optional string v }
  | "Next" => return { s with transition.next := ← optional string v }
  | "End" => return { s with transition.isEnd := ← boolean v }
  | "InputPath" => return { s with paths.input := ← path v }
  | "OutputPath" => return { s with paths.output := ← path v }
  | "Seconds" => return { s with seconds := ← optional word64 v }
  | "SecondsPath" => return { s with secondsPath := ← optional string v }
  | "Timestamp" => return { s with timestamp := ← optional string v }
  | "TimestampPath" => return { s with timestampPath := ← optional string v }
  | _ => return s

def Choice.read : FieldReader Choice := fun key v s => do
  match key with
  | "Comment" => return { s with comment := ← optional string v }
  | "InputPath" => return { s with paths.input := ← path v }
  | "OutputPath" => return { s with paths.output := ← path v }
  | "Choices" => return { s with choices := ← Rule.decodeList? v }
  | "Default" => return { s with default := ← optional string v }
  | _ => return s

def Succeed.read : FieldReader Succeed := fun key v s => do
  match key with
  | "Comment" => return { s with comment := ← optional string v }
  | "InputPath" => return { s with paths.input := ← path v }
  | "OutputPath" => return { s with paths.output := ← path v }
  | _ => return s

def Fail.read : FieldReader Fail := fun key v s => do
  match key with
  | "Comment" => return { s with comment := ← optional string v }
  | "Error" => return { s with error := ← optional string v }
  | "Cause" => return { s with cause := ← optional string v }
  | "ErrorPath" => return { s with errorPath := ← optional string v }
  | "CausePath" => return { s with causePath := ← optional string v }
  | _ => return s

/-- The fields of a Parallel state other than its branches. -/
def Parallel.read : FieldReader Parallel := fun key v s => do
  match key with
  | "Comment" => return { s with comment := ← optional string v }
  | "Next" => return { s with transition.next := ← optional string v }
  | "End" => return { s with transition.isEnd := ← boolean v }
  | "InputPath" => return { s with paths.input := ← path v }
  | "OutputPath" => return { s with paths.output := ← path v }
  | "ResultPath" => return { s with resultPath := ← path v }
  | "Parameters" => return { s with parameters := ← optional any v }
  | "ResultSelector" => return { s with resultSelector := ← optional any v }
  | "Retry" => return { s with retry := ← list (Retrier.decode .inState) v }
  | "Catch" => return { s with catchers := ← list (Catcher.decode .inState) v }
  | _ => return s

/-- The fields of a Map state other than its item processor and its item selector. -/
def Map.read : FieldReader Map := fun key v s => do
  match key with
  | "Comment" => return { s with comment := ← optional string v }
  | "Next" => return { s with transition.next := ← optional string v }
  | "End" => return { s with transition.isEnd := ← boolean v }
  | "InputPath" => return { s with paths.input := ← path v }
  | "OutputPath" => return { s with paths.output := ← path v }
  | "ResultPath" => return { s with resultPath := ← path v }
  | "ResultSelector" => return { s with resultSelector := ← optional any v }
  | "ItemsPath" => return { s with itemsPath := ← optional string v }
  | "MaxConcurrency" => return { s with maxConcurrency := ← optional word64 v }
  | "ToleratedFailureCount" => return { s with toleratedFailureCount := ← optional word64 v }
  | "ToleratedFailurePercentage" =>
    return { s with toleratedFailurePercentage := ← optional number v }
  | "Retry" => return { s with retry := ← list (Retrier.decode .inState) v }
  | "Catch" => return { s with catchers := ← list (Catcher.decode .inState) v }
  | _ => return s

/-- The name under which a field of a Map state is declared. Two of them have an older name. -/
def Map.declaredName : String → String
  | "Iterator" => "ItemProcessor"
  | "Parameters" => "ItemSelector"
  | key => key

/-- The kind of a state, from its Type field. -/
def kindOf (name : String) (v : Value) : Except DecodeError Kind :=
  match v.field? "Type" with
  | none => .error (.missingType name)
  | some (.str type) =>
    match Kind.ofName? type with
    | some kind => .ok kind
    | none => .error (.unknownType name type)
  | some other => .error (.unknownType name other.text)

def Graph.fields : List String := ["Comment", "StartAt", "States", "Version", "TimeoutSeconds"]

/-- The fields of a graph other than its states. -/
def Graph.read : FieldReader Graph := fun key v g => do
  match key with
  | "Comment" => return { g with comment := ← optional string v }
  | "StartAt" => return { g with startAt := ← optional string v }
  | "Version" => return { g with version := ← optional string v }
  | "TimeoutSeconds" => return { g with timeoutSeconds := ← optional word64 v }
  | _ => return g

mutual

def Graph.decode (setting : Setting) : Decoder Graph
  | .obj entries => Graph.decodeEntries {} entries
  | .arr items => do
    let g ← Graph.decodeItems {} Graph.fields items
    if Graph.fields.length < items.length then
      .error (setting.surplus Graph.fields.length items.length)
    else .ok g
  | v => .error (.invalidType v (.record "StateMachineDefinition"))

def Graph.decodeEntries (g : Graph) : List (String × Value) → Except DecodeError Graph
  | [] => .ok g
  | (key, v) :: rest => do
    let g ← if key = "States" then (States.decode? v).map fun ss => { g with states := ss }
      else Graph.read key v g
    Graph.decodeEntries g rest

def Graph.decodeItems (g : Graph) : List String → List Value → Except DecodeError Graph
  | key :: keys, v :: rest => do
    let g ← if key = "States" then (States.decode? v).map fun ss => { g with states := ss }
      else Graph.read key v g
    Graph.decodeItems g keys rest
  | _, _ => .ok g

/-- The states of a graph, or null. -/
def States.decode? : Decoder (Option (List (String × State)))
  | .null => .ok none
  | .obj entries => (States.decodeEntries [] entries).map some
  | v => .error (.invalidType v .states)

/-- States onto the ones that were declared before, no name twice. -/
def States.decodeEntries (done : List (String × State)) :
    List (String × Value) → Except DecodeError (List (String × State))
  | [] => .ok done
  | (name, v) :: rest => do
    if (done.lookup name).isSome then .error (.duplicateState name)
    else
      let s ← State.decode name v
      States.decodeEntries (done ++ [(name, s)]) rest

/-- The state of that name. Its kind decides which fields it has. -/
def State.decode (name : String) : Decoder State
  | .obj entries => do
    let kind ← kindOf name (.obj entries)
    let state := match kind with
      | .pass => (readEntries Pass.read {} entries).map State.pass
      | .task => (readEntries Task.read {} entries).map State.task
      | .wait => (readEntries Wait.read {} entries).map State.wait
      | .choice => (readEntries Choice.read {} entries).map State.choice
      | .succeed => (readEntries Succeed.read {} entries).map State.succeed
      | .fail => (readEntries Fail.read {} entries).map State.fail
      | .parallel => Parallel.decodeEntries {} none entries
      | .map => Map.decodeEntries {} none none entries
    state.mapError (DecodeError.within name)
  | _ => .error (.missingType name)

def Parallel.decodeEntries (s : Parallel) (branches : Option (List Graph)) :
    List (String × Value) → Except DecodeError State
  | [] => .ok (.parallel s branches)
  | (key, v) :: rest => do
    if key = "Branches" then
      let branches ← Branches.decode? v
      Parallel.decodeEntries s branches rest
    else
      let s ← Parallel.read key v s
      Parallel.decodeEntries s branches rest

/-- The branches of a Parallel state, or null. -/
def Branches.decode? : Decoder (Option (List Graph))
  | .null => .ok none
  | .arr items => (Branches.decodeItems items).map some
  | v => .error (.invalidType v .sequence)

def Branches.decodeItems : List Value → Except DecodeError (List Graph)
  | [] => .ok []
  | v :: rest => do
    let g ← Graph.decode .inState v
    let gs ← Branches.decodeItems rest
    .ok (g :: gs)

/-- The fields of a Map state. The processor and the selector have two names each, of which a state
may give only one. -/
def Map.decodeEntries (s : Map) (processor : Option (Option Graph))
    (selector : Option (Option Value)) : List (String × Value) → Except DecodeError State
  | [] => .ok (.map { s with itemSelector := selector.join } processor.join)
  | (key, v) :: rest => do
    if Map.declaredName key = "ItemProcessor" then
      if processor.isSome then .error (.duplicateField "ItemProcessor")
      else
        let g ← Processor.decode? v
        Map.decodeEntries s (some g) selector rest
    else if Map.declaredName key = "ItemSelector" then
      if selector.isSome then .error (.duplicateField "ItemSelector")
      else
        let t ← optional any v
        Map.decodeEntries s processor (some t) rest
    else
      let s ← Map.read key v s
      Map.decodeEntries s processor selector rest

/-- The item processor of a Map state, or null. -/
def Processor.decode? : Decoder (Option Graph)
  | .null => .ok none
  | .obj entries => (Graph.decodeEntries {} entries).map some
  | .arr items => do
    let g ← Graph.decodeItems {} Graph.fields items
    if Graph.fields.length < items.length then
      .error (Setting.inState.surplus Graph.fields.length items.length)
    else .ok (some g)
  | v => .error (.invalidType v (.record "StateMachineDefinition"))

end

end StatesLanguage.Document
