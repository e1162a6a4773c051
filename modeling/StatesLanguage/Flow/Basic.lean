import StatesLanguage.Document.Basic
import StatesLanguage.Template.Basic
/-!
The data flow around the work of a state. The input of the state is narrowed by InputPath and shaped
by Parameters; the raw result is shaped by ResultSelector, put into the input of the state by
ResultPath, and narrowed by OutputPath.
-/
namespace StatesLanguage

/-- An InputPath or an OutputPath. -/
inductive FilterPath where
  | whole
  | nothing
  | path (path : Path)
  deriving Inhabited

/-- What a ResultPath does with the result. -/
inductive ResultPath where
  | replace
  | discard
  | merge (path : Path)
  deriving Inhabited

/-- Why a data flow cannot be followed. -/
inductive FlowFault where
  | path (error : Path.ParseError)
  | template (error : TemplateError)
  | notReference (text : String)

def FlowFault.message? : FlowFault → Option String
  | .path error => error.message?
  | .template error => error.message?
  | .notReference text => some s!"ResultPath \"{text}\" must be a reference path"

namespace FilterPath

/-- The path of a field. Leaving the field out keeps the whole document. -/
def compile : Document.PathField → Except FlowFault FilterPath
  | .absent => .ok .whole
  | .null => .ok .nothing
  | .path text =>
    if text = "$" then .ok .whole else ((Path.parse text).map FilterPath.path).mapError .path

/-- The part of a document that is selected. A path that leads nowhere keeps the whole. -/
def apply (data context : Value) : FilterPath → Value
  | .whole => data
  | .nothing => .obj []
  | .path p => (p.evaluate data context).toOption.getD data

end FilterPath

namespace ResultPath

/-- The path of a field. It must be a reference path into the data. -/
def compile : Document.PathField → Except FlowFault ResultPath
  | .absent => .ok .replace
  | .null => .ok .discard
  | .path text =>
    if text = "$" then .ok .replace
    else do
      let p ← (Path.parse text).mapError .path
      if p.inContext || !p.isReferencePath then .error (.notReference text) else .ok (.merge p)

/-- The data with the result in its place. -/
def apply (data result : Value) : ResultPath → Except ExecutionError Value
  | .replace => .ok result
  | .discard => .ok data
  | .merge p => (p.set data result).mapError (ExecutionError.ofPath .resultPath)

end ResultPath

structure DataFlow where
  inputPath : FilterPath := .whole
  parameters : Option Template := none
  resultSelector : Option Template := none
  resultPath : ResultPath := .replace
  outputPath : FilterPath := .whole
  deriving Inhabited

/-- The template of a field that may be left out. -/
def compileTemplate? : Option Value → Except FlowFault (Option Template)
  | none => .ok none
  | some v => ((Template.compile v).map some).mapError .template

/-- The payload of a template, or another value where there is no template. -/
def applyTemplate? (t : Option Template) (otherwise : Value) (ids : Identifiers)
    (input context : Value) : Except ExecutionError Value :=
  match t with
  | some t => t.apply ids input context
  | none => .ok otherwise

namespace DataFlow

def compile (paths : Document.Paths) (parameters resultSelector : Option Value := none)
    (resultPath : Document.PathField := .absent) : Except FlowFault DataFlow := do
  let inputPath ← FilterPath.compile paths.input
  let parameters ← compileTemplate? parameters
  let resultSelector ← compileTemplate? resultSelector
  let resultPath ← ResultPath.compile resultPath
  let outputPath ← FilterPath.compile paths.output
  return { inputPath, parameters, resultSelector, resultPath, outputPath }

/-- The input of the state after InputPath. -/
def filteredInput (f : DataFlow) (data context : Value) : Value := f.inputPath.apply data context

/-- The input of the state after InputPath and Parameters. -/
def effectiveInput (f : DataFlow) (ids : Identifiers) (data context : Value) :
    Except ExecutionError Value :=
  let input := f.filteredInput data context
  applyTemplate? f.parameters input ids input context

/-- The output of the state for a raw result. -/
def output (f : DataFlow) (ids : Identifiers) (data context raw : Value) :
    Except ExecutionError Value := do
  let result ← applyTemplate? f.resultSelector raw ids raw context
  let merged ← f.resultPath.apply data result
  return f.outputPath.apply merged context

end DataFlow

end StatesLanguage
