import StatesLanguage.Json.Value
/-!
What runs the work of Task states. A runner starts a job, tells how it stands, and releases it.
-/
namespace StatesLanguage

/-- A job that was started for a resource. -/
structure JobHandle where
  id : String
  resource : String
  deriving Inhabited, DecidableEq

/-- How a job stands. -/
inductive JobStatus where
  | running
  | succeeded (output : Value)
  | failed (error cause : Option String)
  deriving Inhabited

/-- Whether the job has come to its end. -/
def JobStatus.isFinished : JobStatus → Bool
  | .running => false
  | _ => true

/-- Why a job was not started. -/
inductive JobError where
  | unsupported (resource : String)
  | refused (resource reason : String)
  deriving DecidableEq

def JobError.message : JobError → String
  | .unsupported resource => s!"No job runner registered for resource \"{resource}\""
  | .refused resource reason => s!"Failed to launch job for \"{resource}\": {reason}"

/-- The name of a failure of a job that gives none. -/
def taskFailed : String := "States.TaskFailed"

/-- A runner whose own state is a `σ`. A job is launched with its input and its credentials, which
are null when there are none. -/
structure JobRunner (σ : Type) where
  launch : String → Value → Value → σ → Except JobError JobHandle × σ
  poll : JobHandle → σ → JobStatus × σ
  cleanup : JobHandle → σ → σ

end StatesLanguage
