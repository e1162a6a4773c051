import StatesLanguage.Json.Source
import StatesLanguage.Yaml.Cursor
/-!
The scalars of YAML: plain, quoted and block text, each read up to its end.
-/
namespace StatesLanguage.Yaml

/-- The characters that structure a flow collection. -/
def isFlowIndicator (c : Char) : Bool :=
  c == ',' || c == '[' || c == ']' || c == '\x7b' || c == '\x7d'

/-- A run of a plain scalar without blanks, in reverse onto `done`. A colon before a flow indicator
is refused. -/
def plainRun (inFlow : Bool) : Nat → Cursor → List Char → Option (Cursor × List Char)
  | 0, _, _ => none
  | fuel + 1, c, done =>
    match c.head with
    | none => some (c, done)
    | some ch =>
      let follows := c.ahead 1
      if isGap ch || isBreak ch then some (c, done)
      else if inFlow && ch == ':' && follows.any (fun f => isFlowIndicator f || f == '?') then none
      else if ch == ':' && isGapOrEnd follows then some (c, done)
      else if inFlow && isFlowIndicator ch then some (c, done)
      else plainRun inFlow fuel c.next (ch :: done)

/-- A plain scalar, with the place behind it and whether a line break was passed at its end. Its
lines must be indented by at least `indent` outside of flow collections. -/
def plainText (inFlow : Bool) (indent : Nat) :
    Nat → Cursor → List Char → Spacing → Option (Cursor × List Char × Bool)
  | 0, _, _, _ => none
  | fuel + 1, c, text, spacing => do
    if c.atDocumentMarker || c.head == some '#' then return (c, text, spacing.broken)
    let (c, run) ← plainRun inFlow (c.rest.length + 1) c []
    let (text, spacing) :=
      if run.isEmpty then (text, spacing) else (text ++ spacing.folded ++ run.reverse, {})
    if c.head.any (fun ch => isGap ch || isBreak ch) then
      let (c, spacing) ← c.skipSpacing indent (c.rest.length + 1) spacing
      if !inFlow && c.column < indent then return (c, text, spacing.broken)
      plainText inFlow indent fuel c text spacing
    else return (c, text, spacing.broken)

/-- The character of a one-letter escape. -/
def escapeChar? : Char → Option Char
  | '0' => some '\x00'
  | 'a' => some '\x07'
  | 'b' => some '\x08'
  | 't' | '\t' => some '\t'
  | 'n' => some '\n'
  | 'v' => some '\x0b'
  | 'f' => some '\x0c'
  | 'r' => some '\r'
  | 'e' => some '\x1b'
  | ' ' => some ' '
  | '"' => some '"'
  | '/' => some '/'
  | '\\' => some '\\'
  | 'N' => some '\u0085'
  | '_' => some '\u00a0'
  | 'L' => some '\u2028'
  | 'P' => some '\u2029'
  | _ => none

/-- The number of digits of a numeric escape. -/
def escapeLength? : Char → Option Nat
  | 'x' => some 2
  | 'u' => some 4
  | 'U' => some 8
  | _ => none

/-- The character behind a backslash and the place behind it. -/
def readEscape (c : Cursor) : Option (Char × Cursor) := do
  let letter ← c.head
  match escapeChar? letter with
  | some ch => return (ch, c.next)
  | none =>
    let count ← escapeLength? letter
    let digits ← (c.next.rest.take count).mapM Source.hexValue?
    let n := digits.foldl (fun n d => n * 16 + d) 0
    if digits.length = count && (n < 0xd800 || (0xdfff < n && n ≤ 0x10ffff)) then
      return (Char.ofNat n, c.skip (count + 1))
    else none

/-- How a run of a quoted scalar ends. -/
inductive RunEnd where
  | quote
  | gap
  | continued

/-- A run of a quoted scalar without blanks, in reverse onto `done`. -/
def quotedRun (single : Bool) : Nat → Cursor → List Char → Option (Cursor × List Char × RunEnd)
  | 0, _, _ => none
  | fuel + 1, c, done => do
    let ch ← c.head
    if isGap ch || isBreak ch then return (c, done, .gap)
    else if single && ch == '\'' then
      if c.ahead 1 == some '\'' then quotedRun single fuel (c.skip 2) ('\'' :: done)
      else return (c.next, done, .quote)
    else if !single && ch == '"' then return (c.next, done, .quote)
    else if !single && ch == '\\' then
      if (c.ahead 1).any isBreak then return (c.next.nextLine.1, done, .continued)
      else
        let (e, c) ← readEscape c.next
        quotedRun single fuel c (e :: done)
    else quotedRun single fuel c.next (ch :: done)

/-- The rest of a quoted scalar up to its quote. A document marker inside is refused, and so is the
end of the text. -/
def quotedText (single : Bool) : Nat → Cursor → List Char → Option (Cursor × List Char)
  | 0, _, _ => none
  | fuel + 1, c, text => do
    if c.atDocumentMarker then none
    let (c, run, how) ← quotedRun single (c.rest.length + 1) c []
    let text := text ++ run.reverse
    match how with
    | .quote => return (c, text)
    | .gap =>
      let (c, spacing) ← c.skipSpacing 0 (c.rest.length + 1) {}
      quotedText single fuel c (text ++ spacing.folded)
    | .continued =>
      let (c, spacing) ← c.skipSpacing 0 (c.rest.length + 1) { broken := true }
      quotedText single fuel c (text ++ spacing.folded)

/-- What becomes of the line breaks at the end of a block scalar. -/
inductive Chomping where
  | strip
  | clip
  | keep

/-- The signs behind the indicator of a block scalar: chomping and indentation, in either order. -/
def blockHeader (c : Cursor) : Option (Chomping × Nat × Cursor) :=
  match c.rest with
  | a :: b :: _ =>
    match chomping? a, indent? a, chomping? b, indent? b with
    | some m, _, _, some n => some (m, n, c.skip 2)
    | _, some n, some m, _ => some (m, n, c.skip 2)
    | _, _, _, _ => one a
  | [a] => one a
  | [] => some (.clip, 0, c)
where
  chomping? : Char → Option Chomping
    | '+' => some .keep
    | '-' => some .strip
    | _ => none
  indent? (d : Char) : Option Nat :=
    if d.isDigit && d != '0' then some (d.toNat - 48) else none
  one (a : Char) : Option (Chomping × Nat × Cursor) :=
    match chomping? a, indent? a with
    | some m, _ => some (m, 0, c.next)
    | _, some n => some (.clip, n, c.next)
    | none, none => if a == '0' then none else some (.clip, 0, c)

/-- Past blanks and a comment to the next line. -/
def restOfLine (c : Cursor) : Option Cursor :=
  let (_, c) := c.takeWhile isGap
  let c := if c.head == some '#' then (c.takeWhile fun ch => !isBreak ch).2 else c
  match c.head with
  | none => some c
  | some ch => if isBreak ch then some c.nextLine.1 else none

/-- Past empty lines and the indentation of the next one, with their breaks and the widest
indentation seen. Indentation is not yet known while `indent` is zero. -/
def blockBreaks (indent : Nat) : Nat → Cursor → List Char → Nat →
    Option (Cursor × List Char × Nat)
  | 0, _, _, _ => none
  | fuel + 1, c, breaks, widest =>
    let spaces := (c.rest.takeWhile (· == ' ')).length
    let c := c.skip (if indent = 0 then spaces else min spaces (indent - c.column))
    let widest := max widest c.column
    match c.head with
    | some '\t' =>
      if indent = 0 || c.column < indent then none else some (c, breaks, widest)
    | some ch =>
      if isBreak ch then
        let (c, b) := c.nextLine
        blockBreaks indent fuel c (breaks ++ b) widest
      else some (c, breaks, widest)
    | none => some (c, breaks, widest)

/-- The lines of a block scalar of known indentation. A folded scalar joins lines that neither start
nor end with a blank. -/
def blockLines (literal : Bool) (indent : Nat) :
    Nat → Cursor → List Char → List Char → List Char → Bool →
      Option (Cursor × List Char × List Char × List Char)
  | 0, _, _, _, _, _ => none
  | fuel + 1, c, text, pending, breaks, afterGap => do
    if c.column ≠ indent || c.head.isNone then return (c, text, pending, breaks)
    let startsGap := c.head.any isGap
    let joint :=
      if !literal && pending.head? == some '\n' && !afterGap && !startsGap then
        (if breaks.isEmpty then [' '] else [])
      else pending
    let (line, c) := c.takeWhile fun ch => !isBreak ch
    let (c, pending) := c.nextLine
    let text := text ++ joint ++ breaks ++ line
    let (c, breaks, _) ← blockBreaks indent (c.rest.length + 1) c [] 0
    blockLines literal indent fuel c text pending breaks startsGap

/-- A block scalar behind its indicator. The indentation is counted from the surrounding block, or
taken from the first line with text. -/
def blockText (literal : Bool) (surrounding : Int) (c : Cursor) : Option (Cursor × List Char) := do
  let (chomping, increment, c) ← blockHeader c
  let c ← restOfLine c
  let given := if increment = 0 then 0 else increment + surrounding.toNat
  let (c, breaks, widest) ← blockBreaks given (c.rest.length + 1) c [] 0
  let indent := if given = 0 then max widest (max (surrounding + 1).toNat 1) else given
  let (c, text, pending, breaks) ←
    blockLines literal indent (c.rest.length + 1) c [] [] breaks false
  match chomping with
  | .strip => return (c, text)
  | .clip => return (c, text ++ pending)
  | .keep => return (c, text ++ pending ++ breaks)

end StatesLanguage.Yaml
