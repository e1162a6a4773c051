import StatesLanguage.Flow.Basic
import StatesLanguage.Time.Seconds
/-!
The Retry and Catch lists of a state.
-/
namespace StatesLanguage

/-- Whether a pattern matches the name of an error. A star at the end of a pattern matches any
ending, and only States.ALL matches an error without a name. -/
def patternMatches (pattern : String) (name : Option String) : Bool :=
  pattern == "States.ALL" ||
    name.any fun name =>
      match pattern.toList.reverse with
      | '*' :: start => start.reverse.isPrefixOf name.toList
      | _ => pattern == name

/-- Whether one of the patterns matches. -/
def errorMatches (patterns : List String) (name : Option String) : Bool :=
  patterns.any fun pattern => patternMatches pattern name

structure Retrier where
  errors : List String
  interval : Float
  maxAttempts : Nat
  backoff : Float
  maxDelay : Option Float
  jitter : Document.Jitter
  deriving Inhabited

structure Catcher where
  errors : List String
  next : String
  resultPath : ResultPath
  deriving Inhabited

/-- A power by repeated squaring. -/
def powerFrom (acc base : Float) (n : Nat) : Float :=
  let acc := if n % 2 = 1 then acc * base else acc
  if n / 2 = 0 then acc else powerFrom acc (base * base) (n / 2)
termination_by n

/-- A power with a whole exponent, a negative one giving the reciprocal. -/
def power (base : Float) (exponent : Int) : Float :=
  let p := powerFrom 1 base exponent.natAbs
  if exponent < 0 then 1 / p else p

/-- The smaller of two floats, of which a NaN does not count. -/
def smaller (x y : Float) : Float :=
  if x.isNaN then y else if y < x then y else x

namespace Retrier

def ofDocument (r : Document.Retrier) : Retrier where
  errors := r.errorEquals
  interval := r.intervalSeconds.getD 1.0
  maxAttempts := r.maxAttempts.getD 3
  backoff := r.backoffRate.getD 2.0
  maxDelay := r.maxDelaySeconds
  jitter := r.jitter.getD .none

/-- The exponent of the backoff rate for an attempt, counted from one. It has 32 bits, the upper
half of which are negative. -/
def exponent (attempt : Nat) : Int := Int.bmod (attempt - 1 : Nat) (Nat.pow 2 32)

/-- The seconds to wait before an attempt. -/
def seconds (r : Retrier) (attempt : Nat) : Float :=
  let delay := r.interval * power r.backoff (exponent attempt)
  r.maxDelay.elim delay (smaller delay)

/-- The wait before an attempt. Full jitter takes only a share of it, between zero and one. -/
def delay (r : Retrier) (share : Float) (attempt : Nat) : Span :=
  let seconds := r.seconds attempt
  if r.jitter = .full && seconds.isFinite then .ofFloat (seconds * share) else .ofFloat seconds

def handles (r : Retrier) (name : Option String) : Bool := errorMatches r.errors name

end Retrier

namespace Catcher

def ofDocument (c : Document.Catcher) : Except FlowFault Catcher := do
  let resultPath ← ResultPath.compile c.resultPath
  return { errors := c.errorEquals, next := c.next.getD "", resultPath }

def handles (c : Catcher) (name : Option String) : Bool := errorMatches c.errors name

end Catcher

/-- What a state does about its errors. -/
structure ErrorHandling where
  retriers : List Retrier := []
  catchers : List Catcher := []
  deriving Inhabited

namespace ErrorHandling

def compile (retry : List Document.Retrier) (catchers : List Document.Catcher) :
    Except FlowFault ErrorHandling := do
  let catchers ← catchers.mapM Catcher.ofDocument
  return { retriers := retry.map Retrier.ofDocument, catchers }

/-- The first retrier for an error and its number. No later one counts, even when the attempts of
the first are used up. -/
def retrierFor? (h : ErrorHandling) (name : Option String) : Option (Nat × Retrier) :=
  (h.retriers.mapIdx fun i r => (i, r)).find? fun (_, r) => r.handles name

/-- The first catcher for an error. -/
def catcherFor? (h : ErrorHandling) (name : Option String) : Option Catcher :=
  h.catchers.find? fun c => c.handles name

end ErrorHandling

end StatesLanguage
