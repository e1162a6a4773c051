/-!
A place in a YAML text: the text that remains, and the line and column reached.
-/
namespace StatesLanguage.Yaml

/-- Spaces and tabs. -/
def isGap (c : Char) : Bool := c == ' ' || c == '\t'

/-- The characters that end a line. -/
def isBreak (c : Char) : Bool :=
  c == '\n' || c == '\r' || c == '\u0085' || c == '\u2028' || c == '\u2029'

/-- Whether a character is blank or missing. -/
def isGapOrEnd (c : Option Char) : Bool := c.all fun c => isGap c || isBreak c

structure Cursor where
  rest : List Char
  index : Nat := 0
  line : Nat := 0
  column : Nat := 0

namespace Cursor

/-- The next character. -/
def head (c : Cursor) : Option Char := c.rest.head?

/-- The character so many places ahead. -/
def ahead (c : Cursor) (n : Nat) : Option Char := c.rest[n]?

/-- Past one character of a line. -/
def next (c : Cursor) : Cursor :=
  match c.rest with
  | [] => c
  | _ :: rest => { c with rest, index := c.index + 1, column := c.column + 1 }

/-- Past so many characters of a line. -/
def skip (c : Cursor) (n : Nat) : Cursor :=
  { c with rest := c.rest.drop n, index := c.index + n, column := c.column + n }

/-- Past the end of a line, with the break it stands for. -/
def nextLine (c : Cursor) : Cursor × List Char :=
  match c.rest with
  | '\r' :: '\n' :: rest => (⟨rest, c.index + 2, c.line + 1, 0⟩, ['\n'])
  | b :: rest =>
    (⟨rest, c.index + 1, c.line + 1, 0⟩,
      if b == '\u2028' || b == '\u2029' then [b] else ['\n'])
  | [] => (c, [])

/-- Whether a marker of three equal characters stands alone at the start of the line. -/
def atMarker (c : Cursor) (mark : Char) : Bool :=
  c.column == 0 && c.rest.take 3 == [mark, mark, mark] && isGapOrEnd (c.ahead 3)

/-- Whether a document starts or ends here. -/
def atDocumentMarker (c : Cursor) : Bool := c.atMarker '-' || c.atMarker '.'

/-- The characters up to the first that fails, and the place of that one. -/
def takeWhile (c : Cursor) (p : Char → Bool) : List Char × Cursor :=
  let taken := c.rest.takeWhile p
  (taken, c.skip taken.length)

end Cursor

/-- Blanks and line breaks seen since the last character of a scalar. -/
structure Spacing where
  gaps : List Char := []
  first : List Char := []
  others : List Char := []
  broken : Bool := false

namespace Spacing

/-- One line break folds to a space, more of them to one less. -/
def folded (s : Spacing) : List Char :=
  if s.broken then
    if s.first = ['\n'] then (if s.others.isEmpty then [' '] else s.others)
    else s.first ++ s.others
  else s.gaps

/-- A line break more. -/
def addBreak (s : Spacing) (b : List Char) : Spacing :=
  if s.broken then { s with others := s.others ++ b }
  else { gaps := [], first := b, others := s.others, broken := true }

/-- A blank more. Blanks at the start of a line do not count. -/
def addGap (s : Spacing) (c : Char) : Spacing :=
  if s.broken then s else { s with gaps := s.gaps ++ [c] }

end Spacing

/-- Past blanks and line breaks. A tab where indentation is due is refused. -/
def Cursor.skipSpacing (indent : Nat) : Nat → Cursor → Spacing → Option (Cursor × Spacing)
  | 0, _, _ => none
  | fuel + 1, c, s =>
    match c.head with
    | none => some (c, s)
    | some ch =>
      if isGap ch then
        if s.broken && c.column < indent && ch == '\t' then none
        else skipSpacing indent fuel c.next (s.addGap ch)
      else if isBreak ch then
        let (c, b) := c.nextLine
        skipSpacing indent fuel c (s.addBreak b)
      else some (c, s)

end StatesLanguage.Yaml
