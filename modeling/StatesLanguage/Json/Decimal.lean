/-!
Decimal text of binary floats: the shortest decimal that reads back, laid out positionally or with
an exponent.
-/
namespace StatesLanguage

/-- The number `digits * 10 ^ exponent`. -/
structure Decimal where
  digits : Nat
  exponent : Int
  deriving Repr, DecidableEq

/-- The number `mantissa * 2 ^ exponent` and whether the gap to the float below it is half the gap
to the float above. -/
structure Binary where
  mantissa : Nat
  exponent : Int
  narrowBelow : Bool

/-- The magnitude of a finite float. -/
def Binary.ofFloat (x : Float) : Binary :=
  let bits := x.toBits.toNat % Nat.pow 2 63
  let fraction := bits % Nat.pow 2 52
  let scale := bits / Nat.pow 2 52
  if scale = 0 then ⟨fraction, -1074, false⟩
  else ⟨fraction + Nat.pow 2 52, Int.ofNat scale - 1075, fraction == 0 && 1 < scale⟩

/-- The reals that round to one float, as numerators over one denominator. -/
structure Interval where
  value : Nat
  low : Nat
  high : Nat
  denominator : Nat
  closed : Bool

/-- A float owns the reals nearer to it than to its neighbours, and both ends when its mantissa is
even. -/
def Binary.interval (b : Binary) : Interval :=
  let scale := b.exponent - 2
  let up := Nat.pow 2 scale.toNat
  { value := 4 * b.mantissa * up
    low := (4 * b.mantissa - if b.narrowBelow then 1 else 2) * up
    high := (4 * b.mantissa + 2) * up
    denominator := Nat.pow 2 (-scale).toNat
    closed := b.mantissa % 2 == 0 }

/-- The least exponent `p` of at most the given size with `value < 10 ^ p`. -/
def magnitudeAbove (num den : Nat) : Nat → Int
  | 0 => 0
  | steps + 1 => if den ≤ num then 1 + magnitudeAbove num (den * 10) steps else 0

/-- The count of zeros after the point of a number below one tenth. -/
def magnitudeBelow (num den : Nat) : Nat → Int
  | 0 => 0
  | steps + 1 => if num * 10 < den then 1 + magnitudeBelow (num * 10) den steps else 0

namespace Interval

/-- The exponent `p` with `10 ^ (p - 1) ≤ value < 10 ^ p`. No float reaches 400 places. -/
def magnitude (i : Interval) : Int :=
  if i.denominator ≤ i.value then magnitudeAbove i.value i.denominator 400
  else -magnitudeBelow i.value i.denominator 400

/-- Whether `digits * 10 ^ exponent` lies in the interval. -/
def holds (i : Interval) (d : Decimal) : Bool :=
  let point := d.digits * Nat.pow 10 d.exponent.toNat * i.denominator
  let scale := Nat.pow 10 (-d.exponent).toNat
  if i.closed then i.low * scale ≤ point && point ≤ i.high * scale
  else i.low * scale < point && point < i.high * scale

/-- The neighbour of the value on the grid of `10 ^ exponent` that lies in the interval: the nearer
one when both do, and the even one at equal distance. -/
def onGrid (i : Interval) (exponent : Int) : Option Decimal :=
  let num := i.value * Nat.pow 10 (-exponent).toNat
  let den := i.denominator * Nat.pow 10 exponent.toNat
  let below : Decimal := ⟨num / den, exponent⟩
  let above : Decimal := ⟨num / den + 1, exponent⟩
  let rest := 2 * (num % den)
  match i.holds below, i.holds above with
  | true, true =>
    if rest < den || rest == den && below.digits % 2 == 0 then some below else some above
  | true, false => some below
  | false, true => some above
  | false, false => none

/-- The first grid, from the coarsest, with a point in the interval. -/
def shortestFrom (i : Interval) (magnitude : Int) (places : Nat) : Nat → Decimal
  | 0 => ⟨0, 0⟩
  | steps + 1 =>
    match i.onGrid (magnitude - places) with
    | some d => d
    | none => i.shortestFrom magnitude (places + 1) steps

end Interval

/-- The number without the zeros at its end. -/
def stripZeros (digits : Nat) (exponent : Int) : Nat → Decimal
  | 0 => ⟨digits, exponent⟩
  | steps + 1 =>
    if digits % 10 = 0 ∧ digits ≠ 0 then stripZeros (digits / 10) (exponent + 1) steps
    else ⟨digits, exponent⟩

/-- The shortest decimal that rounds to the magnitude of a finite float, the nearest one of those.
Seventeen digits always suffice. -/
def Decimal.ofFloat (x : Float) : Decimal :=
  let b := Binary.ofFloat x
  if b.mantissa = 0 then ⟨0, 0⟩
  else
    let i := b.interval
    let d := i.shortestFrom i.magnitude 1 18
    stripZeros d.digits d.exponent 20

/-- So many zeros. -/
def zeros (n : Nat) : String := String.ofList (List.replicate n '0')

namespace Decimal

/-- The digits written out. -/
def figures (d : Decimal) : List Char := (toString d.digits).toList

/-- The exponent of the first digit. -/
def leading (d : Decimal) : Int := d.exponent + (d.figures.length : Int) - 1

/-- Positional text, `whole` standing after a number without decimals. -/
def positional (d : Decimal) (whole : String) : String :=
  let figures := d.figures
  let point := d.leading + 1
  if 0 ≤ d.exponent then String.ofList figures ++ zeros d.exponent.toNat ++ whole
  else if 0 < point then
    String.ofList (figures.take point.toNat) ++ "." ++ String.ofList (figures.drop point.toNat)
  else "0." ++ zeros (-point).toNat ++ String.ofList figures

/-- One digit before the point, the others after it, and a signed exponent. -/
def scientific (d : Decimal) : String :=
  let mantissa := match d.figures with
    | [] => ""
    | [c] => String.singleton c
    | c :: rest => String.singleton c ++ "." ++ String.ofList rest
  let e := d.leading
  mantissa ++ (if e < 0 then "e-" else "e+") ++ toString e.natAbs

end Decimal

/-- Whether the sign bit of a float is set. -/
def signed (x : Float) : Bool := Nat.pow 2 63 ≤ x.toBits.toNat

/-- The text of a float in a document: positional with at least one decimal while the first digit
stands between the fifth decimal and the sixteenth place, and with an exponent beyond. -/
def floatText (x : Float) : String :=
  if !x.isFinite then "null"
  else
    let d := Decimal.ofFloat x
    let magnitude := if -5 ≤ d.leading ∧ d.leading ≤ 15 then d.positional ".0" else d.scientific
    if signed x then "-" ++ magnitude else magnitude

/-- The text of a float in prose: always positional, and without decimals when it is whole. -/
def plainFloatText (x : Float) : String :=
  if x.isNaN then "NaN"
  else
    let magnitude := if x.isInf then "inf" else (Decimal.ofFloat x).positional ""
    if signed x then "-" ++ magnitude else magnitude

end StatesLanguage
