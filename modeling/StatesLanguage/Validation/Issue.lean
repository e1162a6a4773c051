import StatesLanguage.Json.Writer
/-!
What can be wrong with a document that has the right shape.
-/
namespace StatesLanguage.Validation

/-- The classes of issues. -/
inductive Code where
  | invalidReference
  | missingRequiredField
  | invalidTransition
  | invalidPath
  | invalidChoiceRule
  | invalidErrorHandler
  | invalidValue
  deriving DecidableEq

def Code.text : Code → String
  | .invalidReference => "ERR_DSL_VALIDATION_INVALID_REFERENCE"
  | .missingRequiredField => "ERR_DSL_VALIDATION_MISSING_REQUIRED_FIELD"
  | .invalidTransition => "ERR_DSL_VALIDATION_INVALID_TRANSITION"
  | .invalidPath => "ERR_DSL_VALIDATION_INVALID_PATH"
  | .invalidChoiceRule => "ERR_DSL_VALIDATION_INVALID_CHOICE_RULE"
  | .invalidErrorHandler => "ERR_DSL_VALIDATION_INVALID_ERROR_HANDLER"
  | .invalidValue => "ERR_DSL_VALIDATION_INVALID_VALUE"

/-- One thing that is wrong, with the place it is found at. A graph is named by its label, a state
by its name, and a rule, a retrier or a catcher by its location. -/
inductive Issue where
  | graphLacks (label field : String)
  | stateLacks (state field : String)
  | emptyList (state field : String)
  | noTransition (state : String)
  | twoTransitions (state : String)
  | unknownTarget (owner field target : String)
  | badPath (state field path : String)
  | badReferencePath (state field path : String)
  | badEntry (state field key : String) (value : Value)
  | waitAmbiguous (state : String)
  | ruleLacks (location field : String)
  | ruleOperators (location : String)
  | ruleEmpty (location field : String)
  | ruleSubject (location path : String)
  | ruleOperator (location key : String)
  | rulePath (location key : String) (operand : Value)
  | ruleOperand (location key : String) (operand : Value)
  | handlerLacks (location field : String)
  | wildcardNotLast (location : String)
  | smallBackoff (location : String)
  | negativeInterval (location : String)
  | badPercentage (state : String) (percentage : Float)

namespace Issue

def code : Issue → Code
  | .graphLacks _ _ | .stateLacks _ _ => .missingRequiredField
  | .emptyList _ _ | .waitAmbiguous _ | .badPercentage _ _ => .invalidValue
  | .noTransition _ | .twoTransitions _ => .invalidTransition
  | .unknownTarget _ _ _ => .invalidReference
  | .badPath _ _ _ | .badReferencePath _ _ _ | .badEntry _ _ _ _ | .ruleSubject _ _
  | .rulePath _ _ _ => .invalidPath
  | .ruleLacks _ _ | .ruleOperators _ | .ruleEmpty _ _ | .ruleOperator _ _ | .ruleOperand _ _ _ =>
    .invalidChoiceRule
  | .handlerLacks _ _ | .wildcardNotLast _ | .smallBackoff _ | .negativeInterval _ =>
    .invalidErrorHandler

/-- The place that an issue is reported at. -/
def place : Issue → String
  | .graphLacks label _ => label
  | .stateLacks state _ | .emptyList state _ | .noTransition state | .twoTransitions state
  | .waitAmbiguous state | .badPercentage state _ => s!"States.{state}"
  | .unknownTarget owner _ _ => owner
  | .badPath state field _ | .badReferencePath state field _ | .badEntry state field _ _ =>
    s!"States.{state}.{field}"
  | .ruleLacks location _ | .ruleOperators location | .ruleEmpty location _
  | .ruleSubject location _ | .ruleOperator location _ | .rulePath location _ _
  | .ruleOperand location _ _ | .handlerLacks location _ | .wildcardNotLast location
  | .smallBackoff location | .negativeInterval location => location

def message : Issue → String
  | .graphLacks label field => s!"{label} does not have required field \"{field}\""
  | .stateLacks state field => s!"Missing \"{field}\" field in state [{state}]"
  | .emptyList state field => s!"States.{state} field \"{field}\" must not be empty"
  | .noTransition state => s!"States.{state} does not have required field \"Next\""
  | .twoTransitions state => s!"States.{state} cannot have both \"Next\" and \"End\""
  | .unknownTarget owner field target =>
    s!"{owner} field \"{field}\" value \"{target}\" is not found in \"States\""
  | .badPath state field path =>
    s!"States.{state} field \"{field}\" value \"{path}\" is not a valid JSONPath"
  | .badReferencePath state field path =>
    s!"States.{state} field \"{field}\" value \"{path}\" is not a valid reference path"
  | .badEntry state field key value =>
    s!"States.{state} field \"{field}\" key \"{key}\" value {value.text} " ++
      "is not a valid JSONPath or intrinsic function"
  | .waitAmbiguous state =>
    s!"States.{state} must have exactly one of " ++
      "\"Seconds\", \"SecondsPath\", \"Timestamp\", \"TimestampPath\""
  | .ruleLacks location field | .handlerLacks location field =>
    s!"{location} does not have required field \"{field}\""
  | .ruleOperators location => s!"{location} must have exactly one comparison operator"
  | .ruleEmpty location field => s!"{location} field \"{field}\" must not be empty"
  | .ruleSubject location path =>
    s!"{location} field \"Variable\" value \"{path}\" is not a valid JSONPath"
  | .ruleOperator location key =>
    s!"{location} field \"{key}\" is not a valid comparison operator"
  | .rulePath location key operand =>
    s!"{location} field \"{key}\" value {operand.text} is not a valid JSONPath"
  | .ruleOperand location key operand =>
    s!"{location} field \"{key}\" value {operand.text} has the wrong type"
  | .wildcardNotLast location =>
    s!"{location} field \"ErrorEquals\" value \"States.ALL\" must appear alone in the last entry"
  | .smallBackoff location => s!"{location} field \"BackoffRate\" must be at least 1.0"
  | .negativeInterval location => s!"{location} field \"IntervalSeconds\" must not be negative"
  | .badPercentage state percentage =>
    s!"States.{state} field \"ToleratedFailurePercentage\" value " ++
      s!"\"{plainFloatText percentage}\" must be between 0 and 100"

end Issue

end StatesLanguage.Validation
