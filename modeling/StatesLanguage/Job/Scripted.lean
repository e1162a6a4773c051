import StatesLanguage.Job.Runner
/-!
A runner whose jobs follow scripts. Each launch takes the next script for its resource, and a job
without a script answers its input at once.
-/
namespace StatesLanguage

/-- What a job does. It first reports so many times that it is running. -/
inductive JobScript where
  | succeed (polls : Nat) (output : Option Value)
  | fail (polls : Nat) (error cause : Option String)
  | hang
  | reject (reason : String)
  deriving Inhabited

namespace JobScript

/-- Answers the input at once. -/
def echo : JobScript := .succeed 0 none

/-- How often the job reports that it is running before it ends. -/
def polls : JobScript → Nat
  | .succeed n _ | .fail n _ _ => n
  | _ => 0

/-- How a job stands when it has reported often enough that it is running. -/
def status (input : Value) : JobScript → JobStatus
  | .succeed _ output => .succeeded (output.getD input)
  | .fail _ error cause => .failed error cause
  | .hang | .reject _ => .running

end JobScript

/-- A job that has not been released. -/
structure ScriptedJob where
  script : JobScript
  pollsLeft : Nat
  input : Value
  deriving Inhabited

/-- A launch that was accepted. -/
structure Launch where
  job : String
  resource : String
  input : Value
  credentials : Value
  deriving Inhabited

/-- The scripts that are left for each resource, the jobs that are alive, and what has happened. -/
structure ScriptedJobs where
  scripts : List (String × List JobScript) := []
  jobs : List (String × ScriptedJob) := []
  launches : List Launch := []
  cleaned : List String := []
  peak : Nat := 0
  deriving Inhabited

namespace ScriptedJobs

/-- The next script for a resource, which is used up. -/
def nextScript (s : ScriptedJobs) (resource : String) : JobScript × ScriptedJobs :=
  match s.scripts.lookup resource with
  | some (script :: rest) => (script, { s with scripts := setField resource rest s.scripts })
  | _ => (.echo, s)

/-- Starts a job under a name. -/
def start (s : ScriptedJobs) (job resource : String) (script : JobScript)
    (input credentials : Value) : ScriptedJobs :=
  let jobs := s.jobs ++ [(job, ⟨script, script.polls, input⟩)]
  { s with
    jobs
    launches := s.launches ++ [⟨job, resource, input, credentials⟩]
    peak := max s.peak jobs.length }

/-- How a job stands. -/
def report (s : ScriptedJobs) (job : String) : JobStatus × ScriptedJobs :=
  match s.jobs.lookup job with
  | none => (.failed (some taskFailed) (some s!"Unknown job {job}"), s)
  | some j =>
    if j.pollsLeft = 0 then (j.script.status j.input, s)
    else (.running, { s with jobs := setField job { j with pollsLeft := j.pollsLeft - 1 } s.jobs })

/-- Releases a job that is alive. -/
def release (s : ScriptedJobs) (job : String) : ScriptedJobs :=
  if (s.jobs.lookup job).isSome then
    { s with jobs := s.jobs.filter fun j => j.1 != job, cleaned := s.cleaned ++ [job] }
  else s

end ScriptedJobs

/-- The runner, with a name for each job by the number of its launch. -/
def scriptedRunner (name : Nat → String) : JobRunner ScriptedJobs where
  launch resource input credentials s :=
    match s.nextScript resource with
    | (.reject reason, s) => (.error (.refused resource reason), s)
    | (script, s) =>
      let job := name s.launches.length
      (.ok ⟨job, resource⟩, s.start job resource script input credentials)
  poll handle s := s.report handle.id
  cleanup handle s := s.release handle.id

end StatesLanguage
