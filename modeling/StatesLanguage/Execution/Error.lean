import StatesLanguage.Path.Basic
/-!
Failures of a running state. Each has a name, which retriers and catchers match, and may have a
cause.
-/
namespace StatesLanguage

/-- The part of a state's work in which a path could not be followed. -/
inductive Stage where
  | runtime
  | parameters
  | resultPath
  deriving Inhabited, DecidableEq

def Stage.errorName : Stage → String
  | .runtime => "States.Runtime"
  | .parameters => "States.ParameterPathFailure"
  | .resultPath => "States.ResultPathMatchFailure"

inductive ExecutionError where
  | path (stage : Stage) (cause : String)
  | job (error : String) (cause : Option String)
  | timeout (text : String)
  | noChoice (state : String)
  | composite (error cause : String)
  | declared (error cause : Option String)
  | intrinsic (text : String)
  deriving Inhabited, DecidableEq

namespace ExecutionError

/-- The failure of a path in a stage. -/
def ofPath (stage : Stage) (e : Path.PathError) : ExecutionError := .path stage e.message

/-- The name that retriers and catchers match. -/
def name? : ExecutionError → Option String
  | .path stage _ => some stage.errorName
  | .job error _ => some error
  | .timeout _ => some "States.Timeout"
  | .noChoice _ => some "States.NoChoiceMatched"
  | .composite error _ => some error
  | .declared error _ => error
  | .intrinsic _ => some "States.IntrinsicFailure"

/-- The failure in words. -/
def text : ExecutionError → String
  | .path _ cause => cause
  | .job error cause => cause.getD error
  | .timeout text => text
  | .noChoice state => s!"No Choice matched in state {state}"
  | .composite _ cause => cause
  | .declared error cause => (cause.or error).getD "Fail state reached"
  | .intrinsic text => text

/-- The cause that is handed on. Jobs and Fail states may give none. -/
def cause? : ExecutionError → Option String
  | .job _ cause => cause
  | .declared _ cause => cause
  | e => some e.text

/-- The name and the cause as a document. -/
def payload (e : ExecutionError) : Value :=
  .obj (e.name?.toList.map (fun n => ("Error", .str n)) ++
    e.cause?.toList.map fun c => ("Cause", .str c))

end ExecutionError

end StatesLanguage
