import StatesLanguage.Time.Date
import StatesLanguage.Time.Instant
/-!
Timestamps in the form of RFC 3339.
-/
namespace StatesLanguage.Timestamp

/-- The number of a text of decimal digits. -/
def number (digits : List Char) : Nat :=
  digits.foldl (fun n c => n * 10 + (c.toNat - 48)) 0

/-- The number of the first so many characters, which must be digits, and the rest. -/
def digits? (count : Nat) (cs : List Char) : Option (Nat × List Char) :=
  let field := cs.take count
  if field.length = count ∧ field.all Char.isDigit then some (number field, cs.drop count) else none

/-- The text after a separator. -/
def separator? (isSeparator : Char → Bool) : List Char → Option (List Char)
  | c :: rest => if isSeparator c then some rest else none
  | [] => none

/-- The nanoseconds of a fraction of a second. Digits after the ninth do not count. -/
def fraction? : List Char → Option (Nat × List Char)
  | '.' :: cs =>
    let digits := cs.takeWhile Char.isDigit
    let kept := digits.take 9
    if digits.isEmpty then none
    else some (number kept * Nat.pow 10 (9 - kept.length), cs.drop digits.length)
  | cs => some (0, cs)

/-- The seconds that local time is ahead, at the end of a timestamp. -/
def offset? : List Char → Option Int
  | ['Z'] | ['z'] => some 0
  | sign :: cs => do
    let factor ←
      if sign = '+' then some 1 else if sign = '-' ∨ sign = '\u2212' then some (-1) else none
    let (hours, cs) ← digits? 2 cs
    let (minutes, cs) ← digits? 2 (← separator? (· == ':') cs)
    if cs.isEmpty ∧ hours ≤ 23 ∧ minutes ≤ 59 then
      some (factor * (hours * 3600 + minutes * 60 : Nat))
    else none
  | [] => none

/-- The instant of a timestamp. The second 60 is the leap second that follows the second 59. -/
def parse? (text : String) : Option Instant := do
  let (year, cs) ← digits? 4 text.toList
  let (month, cs) ← digits? 2 (← separator? (· == '-') cs)
  let (day, cs) ← digits? 2 (← separator? (· == '-') cs)
  let cs ← separator? (fun c => c == 'T' || c == 't' || c == ' ') cs
  let (hour, cs) ← digits? 2 cs
  let (minute, cs) ← digits? 2 (← separator? (· == ':') cs)
  let (second, cs) ← digits? 2 (← separator? (· == ':') cs)
  let (nanos, cs) ← fraction? cs
  let ahead ← offset? cs
  let date : Date := ⟨year, month, day⟩
  if date.isValid && hour ≤ 23 && minute ≤ 59 && second ≤ 60 then
    let leap := second == 60
    let seconds := hour * 3600 + minute * 60 + (if leap then 59 else second)
    some ⟨date.toDays * 86400 + seconds - ahead, if leap then nanos + 1000000000 else nanos⟩
  else none

/-- A number with at least so many digits. -/
def padded (width n : Nat) : String :=
  let digits := toString n
  String.ofList (List.replicate (width - digits.length) '0') ++ digits

/-- The fraction of a second in as many groups of three digits as it needs. -/
def fractionText (nanos : Nat) : String :=
  if nanos = 0 then ""
  else if nanos % 1000000 = 0 then "." ++ padded 3 (nanos / 1000000)
  else if nanos % 1000 = 0 then "." ++ padded 6 (nanos / 1000)
  else "." ++ padded 9 nanos

/-- The year in four digits, with a sign when it needs more. -/
def yearText (year : Int) : String :=
  if 0 ≤ year ∧ year ≤ 9999 then padded 4 year.toNat
  else (if year < 0 then "-" else "+") ++ padded 4 year.natAbs

/-- The timestamp of an instant, in universal time. -/
def text (t : Instant) : String :=
  let date := Date.ofDays (t.seconds / 86400)
  let second := (t.seconds % 86400).toNat
  let leap := Span.nanosPerSecond ≤ t.nanos
  let nanos := if leap then t.nanos - Span.nanosPerSecond else t.nanos
  yearText date.year ++ "-" ++ padded 2 date.month ++ "-" ++ padded 2 date.day ++ "T" ++
    padded 2 (second / 3600) ++ ":" ++ padded 2 (second / 60 % 60) ++ ":" ++
    padded 2 (if leap then second % 60 + 1 else second % 60) ++ fractionText nanos ++ "+00:00"

end StatesLanguage.Timestamp
