import StatesLanguage.Text.Pattern
/-!
Regular expressions as text, as far as globs need them: characters, the point, and a point that is
repeated, anchored at both ends of the text that is matched.
-/
namespace StatesLanguage.Expression

/-- The characters that stand for themselves only behind a backslash. -/
def metacharacters : List Char :=
  ['\\', '.', '+', '*', '?', '(', ')', '|', '[', ']', '\x7b', '\x7d', '^', '$', '#', '&', '-', '~']

/-- The expression of a single character. -/
def escape (c : Char) : List Char := if metacharacters.contains c then ['\\', c] else [c]

/-- What a point matches: any character but a line feed. -/
def point : Pattern := .one (· != '\n')

/-- The pattern of an expression from some part on, up to the dollar sign at its end. -/
def readParts? : List Char → Option Pattern
  | [] => none
  | ['$'] => some .empty
  | '.' :: '*' :: rest => (readParts? rest).map (.seq (.star point))
  | '.' :: rest => (readParts? rest).map (.seq point)
  | '\\' :: c :: rest =>
    if metacharacters.contains c then (readParts? rest).map (.seq (.char c)) else none
  | c :: rest => if metacharacters.contains c then none else (readParts? rest).map (.seq (.char c))

/-- The pattern of the texts in which an expression is found. Behind a caret and before a dollar
sign it has to match the whole text. -/
def read? : List Char → Option Pattern
  | '^' :: rest => readParts? rest
  | _ => none

end StatesLanguage.Expression
