import StatesLanguage.Workflow.Basic
/-!
Driving a workflow to its end: it is run until it waits, then time passes, and so on. Time is
counted here, so that a day of waiting takes no time at all.
-/
namespace StatesLanguage

/-- Time that goes on by a tick from step to step, and the chance of the steps. -/
structure Timeline where
  tick : Span
  ids : Identifiers
  share : List Nat → Float

namespace Span

/-- The nanoseconds of a span. -/
def toNanos (d : Span) : Nat := d.seconds * nanosPerSecond + d.nanos

/-- A span so many times over. -/
def times (d : Span) (n : Nat) : Span := .ofNanos (d.toNanos * n)

end Span

namespace Instant

/-- The nanoseconds since the start of 1970. -/
def toNanos (a : Instant) : Int := a.seconds * Span.nanosPerSecond + a.nanos

/-- The span from one instant to a later one, and none to an earlier one. -/
def spanTo (a b : Instant) : Span := .ofNanos (b.toNanos - a.toNanos).toNat

end Instant

namespace Timeline

/-- The moment so many ticks after an instant. -/
def moment (t : Timeline) (start : Instant) (n : Nat) : Moment :=
  ⟨start.after (t.tick.times n), t.ids, t.share⟩

end Timeline

namespace Workflow

variable {σ : Type}

/-- How long to wait before the next round: until the instant that the workflow waits for, or for
the poll interval when it waits for a job, but not beyond the end of the time. -/
def pause (w : Workflow) (now giveUp : Instant) (pollInterval : Span) : Span :=
  let wait := w.waitUntil?.elim pollInterval now.spanTo
  let left := now.spanTo giveUp
  if wait.toNanos ≤ left.toNanos then wait else left

/-- Runs a workflow in rounds from an instant on, until it has ended or the time is up, and gives
the instant at which it stopped. There is no result when it takes more rounds, or a round takes more
steps, than are allowed. -/
def drive (runner : JobRunner σ) (t : Timeline) (pollInterval : Span) (giveUp : Instant)
    (steps : Nat) : Nat → Instant → Workflow → σ → Option (Instant × Workflow × σ)
  | 0, _, _, _ => none
  | rounds + 1, start, w, s => do
    let (k, w, s) ← w.runFrom runner (t.moment start) steps 0 s
    let now := (t.moment start k).now
    if w.isTerminal || !now.before giveUp then return (now, w, s)
    else
      drive runner t pollInterval giveUp steps rounds
        (now.after (w.pause now giveUp pollInterval)) w s

end Workflow

end StatesLanguage
