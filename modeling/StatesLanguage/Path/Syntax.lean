import StatesLanguage.Text.Class
import StatesLanguage.Text.Pattern
/-!
Which texts have the form of a path, of a reference path and of an intrinsic call.
-/
namespace StatesLanguage.Path

open Pattern

/-- The characters of a name behind a point. -/
def isNameChar (c : Char) : Bool :=
  !(c == '.' || c == '[' || c == ']' || c == '*' || c == '?' || c == '@' || isBlank c)

def digitForm : Pattern := .one isDecimalDigit

/-- A minus sign or nothing. -/
def signForm : Pattern := Pattern.optional (.char '-')

/-- A name behind a point. -/
def dottedForm : Pattern := .sequence [.char '.', many (.one isNameChar)]

/-- A name in brackets and single quotes. -/
def bracketedForm : Pattern := .sequence [.literal "['", .star (.one (· != '\'')), .literal "']"]

/-- A position in brackets. -/
def indexedForm : Pattern := .sequence [.char '[', signForm, many digitForm, .char ']']

/-- Two or three bounds in brackets. -/
def slicedForm : Pattern :=
  .sequence [.char '[', signForm, .star digitForm, .char ':', signForm, .star digitForm,
    Pattern.optional (.sequence [.char ':', signForm, many digitForm]), .char ']']

/-- A condition in brackets, on one line. -/
def filteredForm : Pattern := .sequence [.literal "[?(", many (.one (· != '\n')), .literal ")]"]

/-- A reference path goes by names and positions. -/
def referenceForm : Pattern :=
  .seq (.char '$') (.star (.oneOf [dottedForm, bracketedForm, indexedForm]))

/-- A path may also project, slice and filter. -/
def pathForm : Pattern :=
  .seq (.char '$') (.star (.oneOf
    [dottedForm, .literal ".*", bracketedForm, indexedForm, .literal "[*]", slicedForm,
      filteredForm]))

/-- A call of an intrinsic function, on one line. -/
def callForm : Pattern :=
  .sequence [.literal "States.", many (.one Char.isAlpha), .char '(', .star (.one (· != '\n')),
    .char ')']

/-- A path into the context object starts with a second dollar sign, which does not count here. -/
def body : List Char → List Char
  | '$' :: '$' :: rest => '$' :: rest
  | path => path

/-- Whether the text has the form of a path. -/
def isValid (path : String) : Bool := pathForm.accepts (body path.toList)

/-- Whether the text has the form of a path to a single place. -/
def isReference (path : String) : Bool := referenceForm.accepts path.toList

/-- Whether the text has the form of an intrinsic call. -/
def isCall (expression : String) : Bool := callForm.accepts expression.toList

end StatesLanguage.Path
