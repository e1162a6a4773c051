import StatesLanguage.Document.Basic
/-!
Writing the document model back as a value. Fields come in the order of their declaration, and a
field that is absent or empty is left out.
-/
namespace StatesLanguage.Document

/-- A field that is written when there is something to write. -/
def field (key : String) (value : Option Value) : List (String × Value) :=
  match value with
  | some v => [(key, v)]
  | none => []

def stringField (key : String) (s : Option String) : List (String × Value) :=
  field key (s.map .str)

def natField (key : String) (n : Option Nat) : List (String × Value) :=
  field key (n.map Value.ofNat)

def floatField (key : String) (x : Option Float) : List (String × Value) :=
  field key (x.map .float)

def pathField (key : String) : PathField → List (String × Value)
  | .absent => []
  | .null => [(key, .null)]
  | .path p => [(key, .str p)]

/-- A list that is left out when it is empty. -/
def listField (key : String) (items : List Value) : List (String × Value) :=
  if items.isEmpty then [] else [(key, .arr items)]

def namesField (key : String) (names : List String) : List (String × Value) :=
  [(key, .arr (names.map .str))]

def Jitter.encode : Jitter → Value
  | .full => .str "FULL"
  | .none => .str "NONE"

def Retrier.encode (r : Retrier) : Value :=
  .obj (namesField "ErrorEquals" r.errorEquals ++ floatField "IntervalSeconds" r.intervalSeconds ++
    natField "MaxAttempts" r.maxAttempts ++ floatField "BackoffRate" r.backoffRate ++
    floatField "MaxDelaySeconds" r.maxDelaySeconds ++
    field "JitterStrategy" (r.jitter.map Jitter.encode) ++ stringField "Comment" r.comment)

def Catcher.encode (c : Catcher) : Value :=
  .obj (namesField "ErrorEquals" c.errorEquals ++ stringField "Next" c.next ++
    pathField "ResultPath" c.resultPath ++ stringField "Comment" c.comment)

mutual

def Rule.encode : Rule → Value
  | ⟨subject, next, conj, disj, neg, comment, comparisons⟩ =>
    .obj (stringField "Variable" subject ++ stringField "Next" next ++
      field "And" (Rule.encodeList? conj) ++ field "Or" (Rule.encodeList? disj) ++
      field "Not" (Rule.encode? neg) ++ stringField "Comment" comment ++ comparisons)

def Rule.encode? : Option Rule → Option Value
  | none => none
  | some r => some (Rule.encode r)

def Rule.encodeList? : Option (List Rule) → Option Value
  | none => none
  | some rs => some (.arr (Rule.encodeItems rs))

def Rule.encodeItems : List Rule → List Value
  | [] => []
  | r :: rest => Rule.encode r :: Rule.encodeItems rest

end

def Transition.encode (t : Transition) : List (String × Value) :=
  stringField "Next" t.next ++ [("End", .bool t.isEnd)]

def Paths.encode (p : Paths) : List (String × Value) :=
  pathField "InputPath" p.input ++ pathField "OutputPath" p.output

def retryField (rs : List Retrier) : List (String × Value) :=
  listField "Retry" (rs.map Retrier.encode)

def catchField (cs : List Catcher) : List (String × Value) :=
  listField "Catch" (cs.map Catcher.encode)

/-- The Type field of a kind. -/
def Kind.encode (k : Kind) : List (String × Value) := [("Type", .str k.name)]

def Pass.encode (s : Pass) : List (String × Value) :=
  stringField "Comment" s.comment ++ s.transition.encode ++ s.paths.encode ++
    pathField "ResultPath" s.resultPath ++ field "Parameters" s.parameters ++
    field "Result" s.result

def Task.encode (s : Task) : List (String × Value) :=
  stringField "Comment" s.comment ++ s.transition.encode ++ s.paths.encode ++
    pathField "ResultPath" s.resultPath ++ field "Parameters" s.parameters ++
    field "ResultSelector" s.resultSelector ++ stringField "Resource" s.resource ++
    field "Credentials" s.credentials ++ natField "TimeoutSeconds" s.timeoutSeconds ++
    retryField s.retry ++ catchField s.catchers

def Wait.encode (s : Wait) : List (String × Value) :=
  stringField "Comment" s.comment ++ s.transition.encode ++ s.paths.encode ++
    natField "Seconds" s.seconds ++ stringField "SecondsPath" s.secondsPath ++
    stringField "Timestamp" s.timestamp ++ stringField "TimestampPath" s.timestampPath

def Choice.encode (s : Choice) : List (String × Value) :=
  stringField "Comment" s.comment ++ s.paths.encode ++
    field "Choices" (Rule.encodeList? s.choices) ++ stringField "Default" s.default

def Succeed.encode (s : Succeed) : List (String × Value) :=
  stringField "Comment" s.comment ++ s.paths.encode

def Fail.encode (s : Fail) : List (String × Value) :=
  stringField "Comment" s.comment ++ stringField "Error" s.error ++ stringField "Cause" s.cause ++
    stringField "ErrorPath" s.errorPath ++ stringField "CausePath" s.causePath

/-- A Parallel state around its branches, which are already written. -/
def Parallel.encode (s : Parallel) (branches : Option Value) : List (String × Value) :=
  stringField "Comment" s.comment ++ s.transition.encode ++ s.paths.encode ++
    pathField "ResultPath" s.resultPath ++ field "Parameters" s.parameters ++
    field "ResultSelector" s.resultSelector ++ field "Branches" branches ++
    retryField s.retry ++ catchField s.catchers

/-- A Map state around its item processor, which is already written. -/
def Map.encode (s : Map) (processor : Option Value) : List (String × Value) :=
  stringField "Comment" s.comment ++ s.transition.encode ++ s.paths.encode ++
    pathField "ResultPath" s.resultPath ++ field "ResultSelector" s.resultSelector ++
    stringField "ItemsPath" s.itemsPath ++ field "ItemProcessor" processor ++
    field "ItemSelector" s.itemSelector ++ natField "MaxConcurrency" s.maxConcurrency ++
    natField "ToleratedFailureCount" s.toleratedFailureCount ++
    floatField "ToleratedFailurePercentage" s.toleratedFailurePercentage ++
    retryField s.retry ++ catchField s.catchers

mutual

def Graph.encode : Graph → Value
  | ⟨comment, startAt, states, version, timeoutSeconds⟩ =>
    .obj (stringField "Comment" comment ++ stringField "StartAt" startAt ++
      field "States" (States.encode? states) ++ stringField "Version" version ++
      natField "TimeoutSeconds" timeoutSeconds)

def States.encode? : Option (List (String × State)) → Option Value
  | none => none
  | some ss => some (.obj (States.encodeEntries ss))

def States.encodeEntries : List (String × State) → List (String × Value)
  | [] => []
  | (name, s) :: rest => (name, State.encode s) :: States.encodeEntries rest

def State.encode : State → Value
  | .pass s => .obj (Kind.pass.encode ++ s.encode)
  | .task s => .obj (Kind.task.encode ++ s.encode)
  | .wait s => .obj (Kind.wait.encode ++ s.encode)
  | .choice s => .obj (Kind.choice.encode ++ s.encode)
  | .succeed s => .obj (Kind.succeed.encode ++ s.encode)
  | .fail s => .obj (Kind.fail.encode ++ s.encode)
  | .parallel s branches => .obj (Kind.parallel.encode ++ s.encode (Branches.encode? branches))
  | .map s processor => .obj (Kind.map.encode ++ s.encode (Processor.encode? processor))

def Branches.encode? : Option (List Graph) → Option Value
  | none => none
  | some gs => some (.arr (Branches.encodeItems gs))

def Branches.encodeItems : List Graph → List Value
  | [] => []
  | g :: rest => Graph.encode g :: Branches.encodeItems rest

def Processor.encode? : Option Graph → Option Value
  | none => none
  | some g => some (Graph.encode g)

end

end StatesLanguage.Document
