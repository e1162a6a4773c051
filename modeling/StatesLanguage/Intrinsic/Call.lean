import StatesLanguage.Path.Basic
/-!
Calls of intrinsic functions: the functions, their arguments, and how a text is read as a call.
-/
namespace StatesLanguage.Intrinsic

inductive Function where
  | format
  | stringToJson
  | jsonToString
  | array
  | arrayLength
  | arrayContains
  | arrayUnique
  | mathAdd
  | uuid
  deriving Inhabited, DecidableEq

def Function.name : Function → String
  | .format => "Format"
  | .stringToJson => "StringToJson"
  | .jsonToString => "JsonToString"
  | .array => "Array"
  | .arrayLength => "ArrayLength"
  | .arrayContains => "ArrayContains"
  | .arrayUnique => "ArrayUnique"
  | .mathAdd => "MathAdd"
  | .uuid => "UUID"

def Function.all : List Function :=
  [.format, .stringToJson, .jsonToString, .array, .arrayLength, .arrayContains, .arrayUnique,
    .mathAdd, .uuid]

/-- The function of that name. -/
def Function.ofName? (name : String) : Option Function := Function.all.find? fun f => f.name == name

/-- Whether the function can be called with so many arguments. -/
def Function.takes : Function → Nat → Bool
  | .format, n => 1 ≤ n
  | .array, _ => true
  | .stringToJson, n | .jsonToString, n | .arrayLength, n | .arrayUnique, n => n == 1
  | .arrayContains, n | .mathAdd, n => n == 2
  | .uuid, n => n == 0

/-- An argument of a call. -/
inductive Argument where
  | literal (value : Value)
  | path (path : Path)
  | call (function : Function) (arguments : List Argument)
  deriving Inhabited

/-- A call of a function. -/
structure Call where
  function : Function
  arguments : List Argument
  deriving Inhabited

/-- Why a text is no call. -/
inductive CallError where
  | noStart (text : String)
  | unknownFunction (name : String)
  | expected (c : Char) (position : Nat) (text : String)
  | arity (name : String) (count : Nat)
  | path (error : Path.ParseError)
  | argument (token : String)
  | openString (text : String)
  | trailing (text : String)

/-- The text of an error. There is none where the program stops at a path instead. -/
def CallError.message? : CallError → Option String
  | .noStart text => some s!"Intrinsic call must start with \"States.\": \"{text}\""
  | .unknownFunction name => some s!"Unknown intrinsic function States.{name}"
  | .expected c position text => some s!"Expected '{c}' at position {position} in \"{text}\""
  | .arity name count => some s!"States.{name} called with {count} arguments"
  | .path error => error.message?
  | .argument token => some s!"Invalid intrinsic argument \"{token}\""
  | .openString text => some s!"Unterminated string in \"{text}\""
  | .trailing text => some s!"Unexpected text after intrinsic call in \"{text}\""

/-- What every call starts with. -/
def opening : List Char := ['S', 't', 'a', 't', 'e', 's', '.']

/-- The length of a text in bytes. -/
def byteLength (cs : List Char) : Nat := cs.foldl (fun n c => n + c.utf8Size) 0

/-- Past blanks and a fixed character. The text is the whole expression, for the error. -/
def expect (text : String) (c : Char) (cs : List Char) : Except CallError (List Char) :=
  match trimStart cs with
  | d :: rest =>
    if d = c then .ok rest
    else .error (.expected c (text.utf8ByteSize - byteLength (d :: rest)) text)
  | [] => .error (.expected c text.utf8ByteSize text)

/-- A string behind its opening quote. A backslash stands for the character behind it. -/
def readString : List Char → Option (List Char × List Char)
  | [] => none
  | '\\' :: c :: rest => (readString rest).map fun (s, rest) => (c :: s, rest)
  | '\\' :: [] => none
  | '\'' :: rest => some ([], rest)
  | c :: rest => (readString rest).map fun (s, rest) => (c :: s, rest)

/-- An argument as text, up to a comma or a parenthesis that is neither quoted nor enclosed. -/
def readToken (quote : Option Char) (depth : Int) : List Char → List Char × List Char
  | [] => ([], [])
  | c :: rest =>
    let more (quote : Option Char) (depth : Int) :=
      let (token, rest) := readToken quote depth rest
      (c :: token, rest)
    match quote with
    | some q => if c = q then more none depth else more quote depth
    | none =>
      if c = '\'' ∨ c = '"' then more (some c) depth
      else if c = '[' ∨ c = '(' then more none (depth + 1)
      else if c = ']' then more none (depth - 1)
      else if c = ')' ∧ 0 < depth then more none (depth - 1)
      else if (c = ')' ∨ c = ',') ∧ depth = 0 then ([], c :: rest)
      else more none depth

/-- A path or a JSON value. -/
def tokenArgument (token : List Char) : Except CallError Argument :=
  match token with
  | '$' :: _ => ((Path.parse (String.ofList token)).map .path).mapError .path
  | _ =>
    match Value.parse? token with
    | some v => .ok (.literal v)
    | none => .error (.argument (String.ofList token))

mutual

/-- A call at the start of a text, and what follows it. -/
def readCall (text : String) : Nat → List Char → Except CallError (Call × List Char)
  | 0, _ => .error (.noStart text)
  | fuel + 1, cs => do
    let cs := trimStart cs
    if !opening.isPrefixOf cs then .error (.noStart text)
    else
      let cs := cs.drop opening.length
      let name := String.ofList (cs.takeWhile Char.isAlphanum)
      match Function.ofName? name with
      | none => .error (.unknownFunction name)
      | some f =>
        let cs := trimStart (← expect text '(' (cs.dropWhile Char.isAlphanum))
        let (arguments, rest) ← match cs with
          | ')' :: rest => .ok ([], rest)
          | cs => readArguments text fuel cs
        if f.takes arguments.length then return (⟨f, arguments⟩, rest)
        else .error (.arity name arguments.length)

/-- The arguments of a call up to its parenthesis, at least one. -/
def readArguments (text : String) :
    Nat → List Char → Except CallError (List Argument × List Char)
  | 0, _ => .error (.noStart text)
  | fuel + 1, cs => do
    let (argument, rest) ← readArgument text fuel (trimStart cs)
    match trimStart rest with
    | ',' :: rest =>
      let (arguments, rest) ← readArguments text fuel rest
      return (argument :: arguments, rest)
    | rest => return ([argument], ← expect text ')' rest)

/-- One argument. -/
def readArgument (text : String) : Nat → List Char → Except CallError (Argument × List Char)
  | 0, _ => .error (.noStart text)
  | fuel + 1, cs => do
    match cs with
    | '\'' :: rest =>
      match readString rest with
      | some (s, rest) => return (.literal (.str (String.ofList s)), rest)
      | none => .error (.openString text)
    | cs =>
      if opening.isPrefixOf cs then
        let (call, rest) ← readCall text fuel cs
        return (.call call.function call.arguments, rest)
      else
        let (token, rest) := readToken none 0 cs
        return (← tokenArgument (trim token), rest)

end

/-- The call that a text spells. Each level of nesting takes at least a character of the text. -/
def Call.parse (text : String) : Except CallError Call := do
  let (call, rest) ← readCall text (3 * text.length + 3) text.toList
  if (trimStart rest).isEmpty then return call else .error (.trailing text)

end StatesLanguage.Intrinsic
