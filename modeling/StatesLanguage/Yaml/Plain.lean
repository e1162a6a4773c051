import StatesLanguage.Json.Source
/-!
What a plain scalar stands for: null, a boolean, a number, or its own text.
-/
namespace StatesLanguage.Yaml

def isNull (cs : List Char) : Bool :=
  ["~", "null", "Null", "NULL"].any fun s => s.toList == cs

def boolean? (cs : List Char) : Option Bool :=
  if ["true", "True", "TRUE"].any fun s => s.toList == cs then some true
  else if ["false", "False", "FALSE"].any fun s => s.toList == cs then some false
  else none

/-- The number of digits in a radix, at least one of them. A plus sign may come first. -/
def digitsIn? (radix : Nat) (cs : List Char) : Option Nat :=
  let cs := match cs with
    | '+' :: rest => rest
    | cs => cs
  if cs.isEmpty then none
  else cs.foldlM (fun n c => do
    let d ← Source.hexValue? c
    if d < radix then some (n * radix + d) else none) 0

/-- The text without one sign at its start. -/
def unsigned : List Char → List Char
  | '-' :: rest | '+' :: rest => rest
  | cs => cs

/-- Digits behind a leading zero are text. -/
def isZeroPadded (cs : List Char) : Bool :=
  match unsigned cs with
  | '0' :: rest => !rest.isEmpty && rest.all Char.isDigit
  | _ => false

/-- The radix of a marker and the digits behind it. -/
def radix? : List Char → Option (Nat × List Char)
  | '0' :: 'x' :: rest => some (16, rest)
  | '0' :: 'o' :: rest => some (8, rest)
  | '0' :: 'b' :: rest => some (2, rest)
  | _ => none

def startsSigned (cs : List Char) : Bool := cs.head? == some '+' || cs.head? == some '-'

/-- A number without sign, up to a limit. -/
def natural? (limit : Nat) (cs : List Char) : Option Nat :=
  let body := match cs with
    | '+' :: rest => rest
    | cs => cs
  let bounded (n : Option Nat) : Option Nat := n.filter (· ≤ limit)
  match radix? body with
  | some (radix, rest) => if startsSigned rest then none else bounded (digitsIn? radix rest)
  | none =>
    if startsSigned body || isZeroPadded cs then none else bounded (digitsIn? 10 body)

/-- A negative number down to a limit, or one of the numbers without sign that `natural?` leaves
aside. -/
def negative? (limit : Nat) (cs : List Char) : Option Int :=
  let bounded (n : Option Nat) : Option Int := (n.filter (· ≤ limit)).map fun n => -(Int.ofNat n)
  match cs with
  | '-' :: rest =>
    match radix? rest with
    | some (radix, rest) => if startsSigned rest then none else bounded (digitsIn? radix rest)
    | none =>
      if startsSigned rest || isZeroPadded cs then none else bounded (digitsIn? 10 rest)
  | _ => none

/-- The decimal of a float: digits with or without a point, and an exponent. -/
def decimal? (cs : List Char) : Option Float := do
  let whole := cs.takeWhile Char.isDigit
  let rest := cs.dropWhile Char.isDigit
  let (decimals, rest) := match rest with
    | '.' :: rest => (rest.takeWhile Char.isDigit, rest.dropWhile Char.isDigit)
    | rest => ([], rest)
  if whole.isEmpty && decimals.isEmpty then none
  let exponent ← match rest with
    | [] => some 0
    | 'e' :: rest | 'E' :: rest =>
      let digits := unsigned rest
      if digits.isEmpty || !digits.all Char.isDigit then none
      else
        let n := min (Source.digitsValue digits) 100000
        some (if rest.head? == some '-' then -(Int.ofNat n) else n)
    | _ => none
  let scale := exponent - decimals.length
  return Float.ofScientific (Source.digitsValue (whole ++ decimals)) (scale < 0) scale.natAbs

/-- A float, which may be infinite or no number. -/
def float? (cs : List Char) : Option Float :=
  let positive := match cs with
    | '+' :: rest => rest
    | cs => cs
  if cs.head? == some '+' && startsSigned positive then none
  else if [".inf", ".Inf", ".INF"].any fun s => s.toList == positive then some (1.0 / 0.0)
  else if ["-.inf", "-.Inf", "-.INF"].any fun s => s.toList == cs then some (-1.0 / 0.0)
  else if [".nan", ".NaN", ".NAN"].any fun s => s.toList == cs then some (0.0 / 0.0)
  else
    (match positive with
      | '-' :: rest => if startsSigned rest then none else (decimal? rest).map fun x => -x
      | rest => decimal? rest).filter Float.isFinite

/-- The largest 64-bit and 128-bit numbers. -/
def maxWord64 : Nat := 18446744073709551615

def maxWord128 : Nat := 340282366920938463463374607431768211455

/-- An integer of up to 64 bits, nothing for one of up to 128, and no integer beyond. -/
def integer? (cs : List Char) : Option (Option Int) :=
  match natural? maxWord64 cs with
  | some n => some (some n)
  | none =>
    match negative? (Nat.pow 2 63) cs with
    | some n => some (some n)
    | none =>
      if (natural? maxWord128 cs).isSome || (negative? (Nat.pow 2 127) cs).isSome then some none
      else none

/-- The value of a plain scalar. An integer that needs more than 64 bits has none, and a float that
is not finite is null. -/
def plainValue? (text : String) : Option Value :=
  let cs := text.toList
  if cs.isEmpty || isNull cs then some .null
  else match boolean? cs with
    | some b => some (.bool b)
    | none =>
      match integer? cs with
      | some n => n.map .int
      | none =>
        if isZeroPadded cs then some (.str text)
        else match float? cs with
          | some x => some (Value.ofFloat x)
          | none => some (.str text)

end StatesLanguage.Yaml
