import StatesLanguage.Intrinsic.Evaluate
/-!
Payload templates: documents in which an entry whose key ends in a point and a dollar sign takes its
value from a path or an intrinsic call.
-/
namespace StatesLanguage

inductive Template where
  | literal (value : Value)
  | object (entries : List (String × Template))
  | array (items : List Template)
  | path (path : Path)
  | call (call : Intrinsic.Call)
  deriving Inhabited

/-- Why a value is no template. -/
inductive TemplateError where
  | notExpression (key : String)
  | path (error : Path.ParseError)
  | call (error : Intrinsic.CallError)

def TemplateError.message? : TemplateError → Option String
  | .notExpression key => some s!"Value of \"{key}\" must be a path or intrinsic function"
  | .path error => error.message?
  | .call error => error.message?

namespace Template

/-- The name that a dynamic entry has in the output. -/
def dynamicName? (key : String) : Option String :=
  match key.toList.reverse with
  | '$' :: '.' :: name => some (String.ofList name.reverse)
  | _ => none

mutual

/-- Whether a value has a dynamic entry at any depth. -/
def isDynamic : Value → Bool
  | .obj fields => anyDynamicField fields
  | .arr items => anyDynamic items
  | _ => false

def anyDynamicField : List (String × Value) → Bool
  | [] => false
  | (key, v) :: rest => (dynamicName? key).isSome || isDynamic v || anyDynamicField rest

def anyDynamic : List Value → Bool
  | [] => false
  | v :: rest => isDynamic v || anyDynamic rest

end

/-- The expression of a dynamic entry. -/
def expression (key : String) : Value → Except TemplateError Template
  | .str e =>
    match e.toList with
    | '$' :: _ => ((Path.parse e).map Template.path).mapError .path
    | _ => ((Intrinsic.Call.parse e).map Template.call).mapError .call
  | _ => .error (.notExpression key)

mutual

/-- The template of a value. A value without dynamic entries is taken as it is. -/
def compile : Value → Except TemplateError Template
  | .obj fields =>
    if anyDynamicField fields then (compileFields fields).map .object
    else .ok (.literal (.obj fields))
  | .arr items =>
    if anyDynamic items then (compileItems items).map .array else .ok (.literal (.arr items))
  | v => .ok (.literal v)

def compileFields : List (String × Value) → Except TemplateError (List (String × Template))
  | [] => .ok []
  | (key, v) :: rest => do
    let entry ← match dynamicName? key with
      | some name => (expression key v).map fun t => (name, t)
      | none => (compile v).map fun t => (key, t)
    let entries ← compileFields rest
    return entry :: entries

def compileItems : List Value → Except TemplateError (List Template)
  | [] => .ok []
  | v :: rest => do
    let t ← compile v
    let ts ← compileItems rest
    return t :: ts

end

mutual

/-- The payload of a template. Of two entries with one name the later one counts, in the place of
the earlier one. -/
def apply (ids : Identifiers) (input context : Value) : Template → Except ExecutionError Value
  | .literal v => .ok v
  | .object entries => (applyEntries ids input context 0 entries).map fun fs =>
      .obj (collectFields fs)
  | .array items => (applyItems ids input context 0 items).map .arr
  | .path p => (p.evaluate input context).mapError (ExecutionError.ofPath .parameters)
  | .call c => c.evaluate ids input context

def applyEntries (ids : Identifiers) (input context : Value) (n : Nat) :
    List (String × Template) → Except ExecutionError (List (String × Value))
  | [] => .ok []
  | (key, t) :: rest => do
    let v ← apply (ids.part n) input context t
    let vs ← applyEntries ids input context (n + 1) rest
    return (key, v) :: vs

def applyItems (ids : Identifiers) (input context : Value) (n : Nat) :
    List Template → Except ExecutionError (List Value)
  | [] => .ok []
  | t :: rest => do
    let v ← apply (ids.part n) input context t
    let vs ← applyItems ids input context (n + 1) rest
    return v :: vs

end

end Template

end StatesLanguage
