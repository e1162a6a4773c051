import StatesLanguage.Yaml.Scalar
/-!
The tokens of a YAML text. Indentation is made explicit: a block collection starts where the column
first exceeds that of the surrounding block, and ends where it falls back. A mapping key may be
recognised only by the colon behind it; its token is then put where the key began.
-/
namespace StatesLanguage.Yaml

inductive Token where
  | version (major minor : Nat)
  | tagHandle (handle shorthand : String)
  | documentStart
  | documentEnd
  | blockSequence
  | blockMapping
  | blockEnd
  | flowSequence
  | flowSequenceEnd
  | flowMapping
  | flowMappingEnd
  | entry
  | flowEntry
  | key
  | value
  | alias (name : String)
  | anchor (name : String)
  | tag (handle suffix : String)
  | scalar (text : String) (plain : Bool)
  deriving DecidableEq

/-- A place where a key may have begun. -/
structure PossibleKey where
  number : Nat
  required : Bool
  index : Nat
  line : Nat
  column : Nat

/-- The state of a scan: the tokens so far, the columns of the open blocks, and per flow level the
place where a key may have begun. -/
structure Scan where
  cursor : Cursor
  tokens : Array Token := #[]
  columns : List Int := [-1]
  keyAllowed : Bool := true
  key : Option PossibleKey := none
  outerKeys : List (Option PossibleKey) := []

namespace Scan

/-- Whether the scan is inside a flow collection. -/
def inFlow (s : Scan) : Bool := !s.outerKeys.isEmpty

/-- The column of the innermost block. -/
def column (s : Scan) : Int := s.columns.headD (-1)

def push (s : Scan) (t : Token) : Scan := { s with tokens := s.tokens.push t }

/-- Ends the blocks that are indented deeper than the column. -/
def unroll (s : Scan) (column : Int) : Scan :=
  if s.inFlow then s
  else
    let open? := s.columns.span fun c => column < c
    { s with
      tokens := s.tokens ++ (open?.1.map fun _ => Token.blockEnd).toArray
      columns := open?.2 }

/-- Starts a block at the column when that is deeper than the innermost block. Its token goes to
position `number`. -/
def roll (s : Scan) (column : Nat) (number : Nat) (t : Token) : Scan :=
  if s.inFlow || column ≤ s.column then s
  else
    { s with
      columns := column :: s.columns
      tokens := s.tokens.insertIdxIfInBounds number t }

/-- Whether a possible key can no longer be one: it must lie on one line and be short. -/
def isStale (s : Scan) (k : PossibleKey) : Bool :=
  k.line < s.cursor.line || k.index + 1024 < s.cursor.index

/-- Forgets the possible keys that are stale. A key that was required is an error then. -/
def dropStale (s : Scan) : Option Scan := do
  let fresh (k : Option PossibleKey) : Option (Option PossibleKey) :=
    match k with
    | some k => if s.isStale k then (if k.required then none else some none) else some (some k)
    | none => some none
  let key ← fresh s.key
  let outerKeys ← s.outerKeys.mapM fresh
  return { s with key, outerKeys }

/-- Forgets the possible key of this level. -/
def dropKey (s : Scan) : Option Scan :=
  if s.key.any PossibleKey.required then none else some { s with key := none }

/-- Remembers that a key may begin here. -/
def saveKey (s : Scan) : Option Scan :=
  if s.keyAllowed then do
    let required := !s.inFlow && s.column == s.cursor.column
    let s ← s.dropKey
    let c := s.cursor
    return { s with key := some ⟨s.tokens.size, required, c.index, c.line, c.column⟩ }
  else some s

/-- Past an indicator of `n` characters, which is a token. -/
def indicator (s : Scan) (n : Nat) (t : Token) : Scan :=
  { s.push t with cursor := s.cursor.skip n }

/-- A marker that starts or ends a document. -/
def documentMarker (s : Scan) (t : Token) : Option Scan := do
  let s ← (s.unroll (-1)).dropKey
  return { s.indicator 3 t with keyAllowed := false }

def flowStart (s : Scan) (t : Token) : Option Scan := do
  let s ← s.saveKey
  return { s.indicator 1 t with keyAllowed := true, key := none, outerKeys := s.key :: s.outerKeys }

def flowEnd (s : Scan) (t : Token) : Option Scan := do
  let s ← s.dropKey
  return { s.indicator 1 t with
    keyAllowed := false, key := s.outerKeys.head?.join, outerKeys := s.outerKeys.tail }

def comma (s : Scan) : Option Scan := do
  let s ← s.dropKey
  return { s.indicator 1 .flowEntry with keyAllowed := true }

/-- Outside of flow collections, starts a block for an indicator that stands where a key may. -/
def blockFor (s : Scan) (t : Token) : Option Scan :=
  if s.inFlow then some s
  else if s.keyAllowed then some (s.roll s.cursor.column s.tokens.size t)
  else none

def dash (s : Scan) : Option Scan := do
  let s ← (← s.blockFor .blockSequence).dropKey
  return { s.indicator 1 .entry with keyAllowed := true }

def question (s : Scan) : Option Scan := do
  let s ← (← s.blockFor .blockMapping).dropKey
  return { s.indicator 1 .key with keyAllowed := !s.inFlow }

/-- The colon of a value. The key token is put before the key when one began on this line. -/
def colon (s : Scan) : Option Scan :=
  match s.key with
  | some k =>
    let s := { s with tokens := s.tokens.insertIdxIfInBounds k.number .key }
    let s := s.roll k.column k.number .blockMapping
    some { s.indicator 1 .value with keyAllowed := false, key := none }
  | none => do
    let s ← s.blockFor .blockMapping
    return { s.indicator 1 .value with keyAllowed := !s.inFlow }

/-- The characters of anchors, tag handles and directive names. -/
def isWordChar (c : Char) : Bool := c.isAlphanum || c == '_' || c == '-'

/-- The characters that may follow an anchor. -/
def endsAnchor (c : Option Char) : Bool :=
  isGapOrEnd c || c.any fun c =>
    c == '?' || c == ':' || c == ',' || c == ']' || c == '\x7d' || c == '%' || c == '@' ||
      c.toNat == 0x60

/-- An anchor or an alias. -/
def named (s : Scan) (t : String → Token) : Option Scan := do
  let s ← s.saveKey
  let (name, c) := s.cursor.next.takeWhile isWordChar
  if name.isEmpty || !endsAnchor c.head then none
  else return { s.push (t (String.ofList name)) with cursor := c, keyAllowed := false }

/-- The characters of a tag. The brackets and the comma belong to it only where it is delimited. -/
def isTagChar (delimited : Bool) (c : Char) : Bool :=
  isWordChar c || ";/?:@&=+$.!~*'()%".toList.contains c ||
    delimited && (c == ',' || c == '[' || c == ']')

/-- A tag without its percent escapes. -/
def unescapeTag : List Char → Option (List UInt8)
  | [] => some []
  | '%' :: a :: b :: rest => do
    let a ← Source.hexValue? a
    let b ← Source.hexValue? b
    let rest ← unescapeTag rest
    return (UInt8.ofNat (a * 16 + b)) :: rest
  | '%' :: _ => none
  | c :: rest => (unescapeTag rest).map (UInt8.ofNat c.toNat :: ·)

/-- The text of a tag. -/
def tagText (cs : List Char) : Option String := do
  String.fromUTF8? (ByteArray.mk (← unescapeTag cs).toArray)

/-- The handle and the suffix of a tag behind its exclamation mark. -/
def tagParts (c : Cursor) : Option (String × String × Cursor) := do
  if c.head == some '<' then
    let (uri, c) := c.next.takeWhile (isTagChar true)
    if uri.isEmpty || c.head != some '>' then none
    else return ("", ← tagText uri, c.next)
  else
    let (word, d) := c.takeWhile isWordChar
    if d.head == some '!' then
      let (suffix, d) := d.next.takeWhile (isTagChar false)
      if suffix.isEmpty then none
      else return ("!" ++ String.ofList word ++ "!", ← tagText suffix, d)
    else
      let (rest, d) := d.takeWhile (isTagChar false)
      let suffix := word ++ rest
      if suffix.isEmpty then return ("", "!", d)
      else return ("!", ← tagText suffix, d)

def tag (s : Scan) : Option Scan := do
  let s ← s.saveKey
  let (handle, suffix, c) ← tagParts s.cursor.next
  if isGapOrEnd c.head || s.inFlow && c.head == some ',' then
    return { s.push (.tag handle suffix) with cursor := c, keyAllowed := false }
  else none

def blockScalar (s : Scan) (literal : Bool) : Option Scan := do
  let s ← s.dropKey
  let (c, text) ← blockText literal s.column s.cursor.next
  return { s.push (.scalar (String.ofList text) false) with cursor := c, keyAllowed := true }

def quotedScalar (s : Scan) (single : Bool) : Option Scan := do
  let s ← s.saveKey
  let (c, text) ← quotedText single (s.cursor.rest.length + 1) s.cursor.next []
  return { s.push (.scalar (String.ofList text) false) with cursor := c, keyAllowed := false }

def plainScalar (s : Scan) : Option Scan := do
  let s ← s.saveKey
  let c := s.cursor
  let (c, text, broken) ← plainText s.inFlow (s.column + 1).toNat (c.rest.length + 1) c [] {}
  return { s.push (.scalar (String.ofList text) true) with cursor := c, keyAllowed := broken }

/-- A decimal number of a version. -/
def versionNumber (c : Cursor) : Option (Nat × Cursor) :=
  let (digits, c) := c.takeWhile Char.isDigit
  if digits.isEmpty || 9 < digits.length then none else some (Source.digitsValue digits, c)

/-- The token of a directive behind its percent sign, and the place behind it. -/
def directiveToken (c : Cursor) : Option (Token × Cursor) := do
  let (name, c) := c.takeWhile isWordChar
  if !isGapOrEnd c.head then none
  let c := (c.takeWhile isGap).2
  if name = "YAML".toList then
    let (major, c) ← versionNumber c
    if c.head != some '.' then none
    let (minor, c) ← versionNumber c.next
    return (.version major minor, c)
  else if name = "TAG".toList then
    if c.head != some '!' then none
    let (word, d) := c.next.takeWhile isWordChar
    let (handle, d) :=
      if d.head == some '!' then ("!" ++ String.ofList word ++ "!", d.next)
      else ("!" ++ String.ofList word, d)
    if !handle.endsWith "!" || !d.head.any isGap then none
    let (uri, d) := (d.takeWhile isGap).2.takeWhile (isTagChar true)
    if uri.isEmpty || !isGapOrEnd d.head then none
    return (.tagHandle handle (← tagText uri), d)
  else none

def directive (s : Scan) : Option Scan := do
  let s ← (s.unroll (-1)).dropKey
  let (t, c) ← directiveToken s.cursor.next
  let c ← restOfLine c
  return { s.push t with cursor := c, keyAllowed := false }

/-- Past blanks, comments and line breaks. A tab does not separate where a key may begin. -/
def skipBlanks : Nat → Scan → Scan
  | 0, s => s
  | fuel + 1, s =>
    let c := (s.cursor.takeWhile fun ch => ch == ' ' || ch == '\t' && (s.inFlow || !s.keyAllowed)).2
    let c := if c.head == some '#' then (c.takeWhile fun ch => !isBreak ch).2 else c
    if c.head.any isBreak then
      skipBlanks fuel { s with cursor := c.nextLine.1, keyAllowed := s.keyAllowed || !s.inFlow }
    else { s with cursor := c }

/-- Whether a character starts a plain scalar. -/
def startsPlain (s : Scan) (ch : Char) : Bool :=
  let follows := s.cursor.ahead 1
  let reserved := "-?:,[]\x7b\x7d#&*!|>'\"%@".toList.contains ch || ch.toNat == 0x60
  !(isGap ch || isBreak ch || reserved) || ch == '-' && !follows.any isGap ||
    !s.inFlow && (ch == '?' || ch == ':') && !isGapOrEnd follows

/-- The next token at a character, blanks being passed. -/
def fetch (s : Scan) (ch : Char) : Option Scan :=
  let alone := isGapOrEnd (s.cursor.ahead 1)
  if s.cursor.column == 0 && ch == '%' then s.directive
  else if s.cursor.atMarker '-' then s.documentMarker .documentStart
  else if s.cursor.atMarker '.' then s.documentMarker .documentEnd
  else if ch == '[' then s.flowStart .flowSequence
  else if ch == '\x7b' then s.flowStart .flowMapping
  else if ch == ']' then s.flowEnd .flowSequenceEnd
  else if ch == '\x7d' then s.flowEnd .flowMappingEnd
  else if ch == ',' then s.comma
  else if ch == '-' && alone then s.dash
  else if ch == '?' && (s.inFlow || alone) then s.question
  else if ch == ':' && (s.inFlow || alone) then s.colon
  else if ch == '*' then s.named .alias
  else if ch == '&' then s.named .anchor
  else if ch == '!' then s.tag
  else if ch == '|' && !s.inFlow then s.blockScalar true
  else if ch == '>' && !s.inFlow then s.blockScalar false
  else if ch == '\'' then s.quotedScalar true
  else if ch == '"' then s.quotedScalar false
  else if s.startsPlain ch then s.plainScalar
  else none

/-- All tokens from here on. The fuel bounds their number. -/
def run : Nat → Scan → Option (List Token)
  | 0, _ => none
  | fuel + 1, s => do
    let s ← (skipBlanks (s.cursor.rest.length + 1) s).dropStale
    let s := s.unroll s.cursor.column
    match s.cursor.head with
    | none => do
      let s ← (s.unroll (-1)).dropKey
      return s.tokens.toList
    | some ch =>
      let s ← s.fetch ch
      run fuel s

end Scan

/-- The characters that may stand in a YAML text. -/
def isAdmitted (c : Char) : Bool :=
  let n := c.toNat
  n == 9 || n == 10 || n == 13 || 0x20 ≤ n && n ≤ 0x7e || n == 0x85 || 0xa0 ≤ n && n ≤ 0xd7ff ||
    0xe000 ≤ n && n ≤ 0xfffd && n != 0xfeff || 0x10000 ≤ n

/-- The tokens of a text, which may start with a byte order mark. -/
def tokens (text : List Char) : Option (List Token) :=
  let text := match text with
    | '\ufeff' :: rest => rest
    | cs => cs
  if text.all isAdmitted then Scan.run (text.length + 2) { cursor := { rest := text } } else none

end StatesLanguage.Yaml
