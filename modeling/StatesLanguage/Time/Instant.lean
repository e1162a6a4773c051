/-!
Instants and spans of time, to the nanosecond.
-/
namespace StatesLanguage

/-- A length of time. The nanoseconds stay below a second. -/
structure Span where
  seconds : Nat
  nanos : Nat
  deriving Inhabited, DecidableEq

/-- A point in time: seconds since the start of 1970 and nanoseconds into that second. In a leap
second the nanoseconds run on past the second that comes before it. -/
structure Instant where
  seconds : Int
  nanos : Nat
  deriving Inhabited, DecidableEq

namespace Span

def nanosPerSecond : Nat := 1000000000

/-- No length of time. -/
def zero : Span := ⟨0, 0⟩

/-- The longest span. -/
def longest : Span := ⟨18446744073709551615, 999999999⟩

def ofSeconds (n : Nat) : Span := ⟨n, 0⟩

/-- The span of so many nanoseconds, or the longest one. -/
def ofNanos (n : Nat) : Span :=
  if n / nanosPerSecond ≤ longest.seconds then ⟨n / nanosPerSecond, n % nanosPerSecond⟩ else longest

end Span

namespace Instant

/-- The instants in their order. -/
def order (a b : Instant) : Ordering :=
  if a.seconds < b.seconds then .lt
  else if b.seconds < a.seconds then .gt
  else if a.nanos < b.nanos then .lt
  else if b.nanos < a.nanos then .gt
  else .eq

/-- Whether an instant comes before another. -/
def before (a b : Instant) : Bool := a.order b == .lt

/-- The earlier of two instants. -/
def earlier (a b : Instant) : Instant := if b.before a then b else a

/-- The earliest of some instants. -/
def earliest? : List Instant → Option Instant
  | [] => none
  | a :: rest => some ((earliest? rest).elim a (earlier a))

/-- The last instant that can be told: the end of the year 262142. -/
def latest : Instant := ⟨8210266876799, 999999999⟩

/-- The instant a span after another, or the last one. -/
def after (a : Instant) (d : Span) : Instant :=
  let nanos := a.nanos + d.nanos
  let sum : Instant :=
    ⟨a.seconds + d.seconds + (nanos / Span.nanosPerSecond : Nat), nanos % Span.nanosPerSecond⟩
  if latest.before sum then latest else sum

end Instant

end StatesLanguage
