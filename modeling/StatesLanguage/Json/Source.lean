import StatesLanguage.Json.Value
/-!
JSON text, read as far as it is well formed. A repeated key is still visible here; turning the
reading into a value lets the last one win and refuses deep nesting.
-/
namespace StatesLanguage

/-- What a JSON text says, up to the place where it breaks off. -/
inductive Source where
  | scalar (value : Value)
  | arr (items : List Source) (closed : Bool)
  | obj (fields : List (String × Source)) (closed : Bool)
  | malformed
  deriving Inhabited

namespace Source

/-- The blanks that may stand between tokens. -/
def isSpace (c : Char) : Bool := c == ' ' || c == '\n' || c == '\t' || c == '\r'

def skipSpace (cs : List Char) : List Char := cs.dropWhile isSpace

/-- The value of a hexadecimal digit. -/
def hexValue? (c : Char) : Option Nat :=
  if c.isDigit then some (c.toNat - 48)
  else if 'a' ≤ c ∧ c ≤ 'f' then some (c.toNat - 87)
  else if 'A' ≤ c ∧ c ≤ 'F' then some (c.toNat - 55)
  else none

/-- The number of four hexadecimal digits. -/
def hexQuad? (a b c d : Char) : Option Nat := do
  let a ← hexValue? a
  let b ← hexValue? b
  let c ← hexValue? c
  let d ← hexValue? d
  some (((a * 16 + b) * 16 + c) * 16 + d)

/-- The character of a one-letter escape. -/
def escape? : Char → Option Char
  | '"' => some '"'
  | '\\' => some '\\'
  | '/' => some '/'
  | 'b' => some '\x08'
  | 'f' => some '\x0c'
  | 'n' => some '\n'
  | 'r' => some '\r'
  | 't' => some '\t'
  | _ => none

/-- The rest of a string, after its opening quote, in reverse onto `done`. Control characters must
be escaped, and a surrogate escape needs its other half. -/
def readString (done : List Char) : List Char → Option (String × List Char)
  | [] => none
  | '"' :: rest => some (String.ofList done.reverse, rest)
  | '\\' :: 'u' :: a :: b :: c :: d :: rest =>
    match hexQuad? a b c d with
    | none => none
    | some n =>
      if n < 0xd800 || 0xdfff < n then readString (Char.ofNat n :: done) rest
      else if 0xdbff < n then none
      else match rest with
        | '\\' :: 'u' :: a :: b :: c :: d :: rest =>
          match hexQuad? a b c d with
          | none => none
          | some m =>
            if 0xdc00 ≤ m && m ≤ 0xdfff then
              readString (Char.ofNat (0x10000 + (n - 0xd800) * 0x400 + (m - 0xdc00)) :: done) rest
            else none
        | _ => none
  | '\\' :: c :: rest =>
    match escape? c with
    | some e => readString (e :: done) rest
    | none => none
  | c :: rest => if c.toNat < 32 then none else readString (c :: done) rest

/-- The largest significand that is read digit by digit. -/
def maxSignificand : Nat := 18446744073709551615

/-- A significand read so far. Once it would pass 64 bits, further digits only move the point. -/
structure Significand where
  digits : Nat
  exponent : Int
  full : Bool

/-- The digits before the point. -/
def Significand.whole (digits : List Char) : Significand :=
  digits.foldl (fun s c =>
    let next := s.digits * 10 + (c.toNat - 48)
    if s.full || maxSignificand < next then ⟨s.digits, s.exponent + 1, true⟩
    else ⟨next, s.exponent, false⟩) ⟨0, 0, false⟩

/-- The digits behind the point. -/
def Significand.fraction (s : Significand) (digits : List Char) : Significand :=
  digits.foldl (fun s c =>
    let next := s.digits * 10 + (c.toNat - 48)
    if s.full || maxSignificand < next then ⟨s.digits, s.exponent, true⟩
    else ⟨next, s.exponent - 1, false⟩) { s with full := false }

/-- A power of ten as a float. -/
def powerOfTen (n : Nat) : Float := Float.ofScientific 1 false n

/-- `significand * 10 ^ exponent`, rounded after the significand and after each power of ten.
A power beyond the range of floats is applied in parts, and an overflow has no value. -/
def scaled? (x : Float) (exponent : Int) : Nat → Option Float
  | 0 => none
  | steps + 1 =>
    if exponent.natAbs ≤ 308 then
      if 0 ≤ exponent then
        let y := x * powerOfTen exponent.toNat
        if y.isInf then none else some y
      else some (x / powerOfTen exponent.natAbs)
    else if x == 0.0 then some x
    else if 0 ≤ exponent then none
    else scaled? (x / powerOfTen 308) (exponent + 308) steps

/-- The float of a significand and an exponent. Four steps bring every non-zero significand to
zero. -/
def floatOf? (negative : Bool) (s : Significand) (exponent : Int) : Option Float :=
  (scaled? (Float.ofNat s.digits) (s.exponent + exponent) 8).map fun x => if negative then -x else x

/-- The largest exponent that is read as a number. -/
def maxExponent : Nat := 2147483647

/-- The value of decimal digits. -/
def digitsValue (digits : List Char) : Nat := digits.foldl (fun n c => n * 10 + (c.toNat - 48)) 0

/-- The rest of a number from its exponent mark. -/
def readExponent (negative : Bool) (s : Significand) (cs : List Char) :
    Option (Value × List Char) :=
  let (down, cs) := match cs with
    | '+' :: rest => (false, rest)
    | '-' :: rest => (true, rest)
    | rest => (false, rest)
  let digits := cs.takeWhile Char.isDigit
  let rest := cs.dropWhile Char.isDigit
  if digits.isEmpty then none
  else
    let n := digitsValue digits
    if maxExponent < n then
      if s.digits ≠ 0 && !down then none
      else some (.float (if negative then -0.0 else 0.0), rest)
    else
      (floatOf? negative s (if down then -(Int.ofNat n) else n)).map fun x => (.float x, rest)

/-- A number without point and exponent: an integer when it fits 64 bits, else a float. Minus zero
is a float. -/
def integerOf (negative : Bool) (s : Significand) : Option Value :=
  if s.full then (floatOf? negative s 0).map .float
  else if !negative then some (.int s.digits)
  else if s.digits = 0 || 9223372036854775808 < s.digits then
    some (.float (-(Float.ofNat s.digits)))
  else some (.int (-(Int.ofNat s.digits)))

/-- A number after its sign. -/
def readMagnitude (negative : Bool) (cs : List Char) : Option (Value × List Char) :=
  let digits := cs.takeWhile Char.isDigit
  let rest := cs.dropWhile Char.isDigit
  match digits with
  | [] => none
  | '0' :: _ :: _ => none
  | _ =>
    let whole := Significand.whole digits
    match rest with
    | '.' :: rest =>
      let decimals := rest.takeWhile Char.isDigit
      if decimals.isEmpty then none
      else
        let s := whole.fraction decimals
        match rest.dropWhile Char.isDigit with
        | 'e' :: rest | 'E' :: rest => readExponent negative s rest
        | rest => (floatOf? negative s 0).map fun x => (.float x, rest)
    | 'e' :: rest | 'E' :: rest => readExponent negative whole rest
    | rest => (integerOf negative whole).map fun v => (v, rest)

def readNumber : List Char → Option (Value × List Char)
  | '-' :: rest => readMagnitude true rest
  | cs => readMagnitude false cs

/-- A reading and the text behind it, or none when the text broke off inside. -/
abbrev Reading (α : Type) := α × Option (List Char)

mutual

/-- A value at the start of the text. The fuel bounds the tokens read. -/
def readValue : Nat → List Char → Reading Source
  | 0, _ => (.malformed, none)
  | fuel + 1, cs =>
    match skipSpace cs with
    | 'n' :: 'u' :: 'l' :: 'l' :: rest => (.scalar .null, some rest)
    | 't' :: 'r' :: 'u' :: 'e' :: rest => (.scalar (.bool true), some rest)
    | 'f' :: 'a' :: 'l' :: 's' :: 'e' :: rest => (.scalar (.bool false), some rest)
    | '"' :: rest =>
      match readString [] rest with
      | some (s, rest) => (.scalar (.str s), some rest)
      | none => (.malformed, none)
    | '[' :: rest =>
      match skipSpace rest with
      | ']' :: rest => (.arr [] true, some rest)
      | rest =>
        let (items, rest) := readItems fuel rest
        (.arr items rest.isSome, rest)
    | '\x7b' :: rest =>
      match skipSpace rest with
      | '\x7d' :: rest => (.obj [] true, some rest)
      | rest =>
        let (fields, rest) := readFields fuel rest
        (.obj fields rest.isSome, rest)
    | cs =>
      match readNumber cs with
      | some (v, rest) => (.scalar v, some rest)
      | none => (.malformed, none)

/-- The items of an array up to its bracket, at least one. -/
def readItems : Nat → List Char → Reading (List Source)
  | 0, _ => ([], none)
  | fuel + 1, cs =>
    match readValue fuel cs with
    | (item, none) => ([item], none)
    | (item, some rest) =>
      match skipSpace rest with
      | ']' :: rest => ([item], some rest)
      | ',' :: rest =>
        let (items, rest) := readItems fuel rest
        (item :: items, rest)
      | _ => ([item], none)

/-- The entries of an object up to its brace, at least one. -/
def readFields : Nat → List Char → Reading (List (String × Source))
  | 0, _ => ([], none)
  | fuel + 1, cs =>
    match skipSpace cs with
    | '"' :: rest =>
      match readString [] rest with
      | none => ([], none)
      | some (key, rest) =>
        match skipSpace rest with
        | ':' :: rest =>
          match readValue fuel rest with
          | (value, none) => ([(key, value)], none)
          | (value, some rest) =>
            match skipSpace rest with
            | '\x7d' :: rest => ([(key, value)], some rest)
            | ',' :: rest =>
              let (fields, rest) := readFields fuel rest
              ((key, value) :: fields, rest)
            | _ => ([(key, value)], none)
        | _ => ([(key, .malformed)], none)
    | _ => ([], none)

end

/-- The reading of a whole text and whether nothing but blanks follows it. -/
def ofText (text : List Char) : Source × Bool :=
  match readValue (text.length + 1) text with
  | (source, some rest) => (source, (skipSpace rest).isEmpty)
  | (source, none) => (source, false)

/-- How deep arrays and objects may be nested in a value. -/
def maxDepth : Nat := 127

mutual

/-- The value that was read, when the text was whole and nested at most so deep. -/
def toValue? : Nat → Source → Option Value
  | _, .scalar v => some v
  | 0, .arr _ _ => none
  | depth + 1, .arr items closed =>
    if closed then (itemsToValues? depth items).map .arr else none
  | 0, .obj _ _ => none
  | depth + 1, .obj fields closed =>
    if closed then (fieldsToValues? depth fields).map fun fs => .obj (collectFields fs) else none
  | _, .malformed => none

def itemsToValues? : Nat → List Source → Option (List Value)
  | _, [] => some []
  | depth, s :: rest =>
    match toValue? depth s with
    | none => none
    | some v => (itemsToValues? depth rest).map (v :: ·)

def fieldsToValues? : Nat → List (String × Source) → Option (List (String × Value))
  | _, [] => some []
  | depth, (k, s) :: rest =>
    match toValue? depth s with
    | none => none
    | some v => (fieldsToValues? depth rest).map ((k, v) :: ·)

end

mutual

/-- Whether the text of a value was whole, nested however deep. -/
def isWhole : Source → Bool
  | .scalar _ => true
  | .arr items closed => closed && itemsWhole items
  | .obj fields closed => closed && fieldsWhole fields
  | .malformed => false

def itemsWhole : List Source → Bool
  | [] => true
  | s :: rest => isWhole s && itemsWhole rest

def fieldsWhole : List (String × Source) → Bool
  | [] => true
  | (_, s) :: rest => isWhole s && fieldsWhole rest

end

end Source

/-- The value of a JSON text. -/
def Value.parse? (text : List Char) : Option Value :=
  match Source.ofText text with
  | (source, true) => source.toValue? Source.maxDepth
  | (_, false) => none

end StatesLanguage
