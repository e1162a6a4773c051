import StatesLanguage.Json.Rounding
import StatesLanguage.Json.Value
/-!
What implementations of the query language do not have in common.
-/
namespace StatesLanguage.Jmespath

/-- How an implementation deals with numbers: which ones it reads as positions and bounds, and which
ones it takes to be equal. -/
structure Dialect where
  reads : Int → Bool
  equal : Value → Value → Bool

/-- Whether a float is neither zero nor too small for full precision. -/
def isNormal (x : Float) : Bool :=
  let scale := x.toBits.toNat / Nat.pow 2 52 % 2048
  0 < scale && scale < 2047

/-- The gap between one and the next float. -/
def epsilon : Float := Float.scaleB 1.0 (-52)

/-- The least float of full precision. -/
def leastNormal : Float := Float.scaleB 1.0 (-1022)

/-- Equality of floats up to rounding. -/
def nearlyEqual (a b : Float) : Bool :=
  let gap := (a - b).abs
  if a == b then true
  else if !isNormal a || !isNormal b then gap < epsilon * leastNormal
  else gap / (a.abs + b.abs) < epsilon

/-- Equality of integers up to rounding, as of the floats nearest to them. A quotient of floats is
less than the gap between one and the next float where it is so by half of the last digit. -/
def nearlySame (a b : Int) : Bool :=
  let x := rounded a
  let y := rounded b
  let gap := roundedNat (x - y).natAbs
  let sum := roundedNat (x.natAbs + y.natAbs)
  x == y || gap * Nat.pow 2 106 < sum * (Nat.pow 2 54 - 1)

/-- Equality of numbers up to rounding, whatever their kind. -/
def nearly : Value → Value → Bool
  | .int a, .int b => nearlySame a b
  | .int a, .float b => nearlyEqual (Float.ofInt a) b
  | .float a, .int b => nearlyEqual a (Float.ofInt b)
  | .float a, .float b => nearlyEqual a b
  | _, _ => false

/-- The implementation that paths are followed with: positions of 32 bits, and numbers that are equal
up to rounding. -/
def Dialect.narrow : Dialect where
  reads n := n.natAbs ≤ 2147483647
  equal := nearly

end StatesLanguage.Jmespath
