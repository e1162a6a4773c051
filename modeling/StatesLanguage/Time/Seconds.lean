import StatesLanguage.Json.Decimal
import StatesLanguage.Time.Instant
/-!
Spans given as a number of seconds with a fraction.
-/
namespace StatesLanguage

/-- A quotient rounded to the nearest whole number, a half to the even one. -/
def roundHalfEven (num den : Nat) : Nat :=
  let below := num / den
  let rest := 2 * (num % den)
  if rest < den || rest == den && below % 2 == 0 then below else below + 1

/-- The span of so many seconds to the nearest nanosecond. What is no positive number has no length,
and what is too long is the longest span. -/
def Span.ofFloat (seconds : Float) : Span :=
  if seconds.isNaN || seconds ≤ 0 then .zero
  else if seconds.isInf then .longest
  else
    let b := Binary.ofFloat seconds
    .ofNanos (roundHalfEven (b.mantissa * Nat.pow 2 b.exponent.toNat * nanosPerSecond)
      (Nat.pow 2 (-b.exponent).toNat))

end StatesLanguage
