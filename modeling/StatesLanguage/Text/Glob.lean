import StatesLanguage.Text.Expression
/-!
Glob patterns: a star stands for a run of characters, a backslash takes the next character as it is.
A glob is matched through a regular expression.
-/
namespace StatesLanguage.Glob

/-- The parts of the expression of a glob. A backslash at the end stands for itself. -/
def parts : List Char → List Char
  | [] => []
  | ['\\'] => Expression.escape '\\'
  | '\\' :: c :: rest => Expression.escape c ++ parts rest
  | '*' :: rest => '.' :: '*' :: parts rest
  | c :: rest => Expression.escape c ++ parts rest

/-- The expression of a glob, which has to match the whole text. -/
def expression (glob : List Char) : List Char := '^' :: (parts glob ++ ['$'])

/-- Whether a glob matches a text. -/
def accepts (glob text : List Char) : Bool :=
  (Expression.read? (expression glob)).any (·.accepts text)

end StatesLanguage.Glob
