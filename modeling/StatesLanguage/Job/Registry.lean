import StatesLanguage.Job.Runner
import StatesLanguage.Text.Printable
/-!
Runners by the scheme of the resources they are for.
-/
namespace StatesLanguage

/-- The text before the first colon with two slashes. -/
def schemeChars? : List Char → Option (List Char)
  | [] => none
  | ':' :: '/' :: '/' :: _ => some []
  | c :: rest => (schemeChars? rest).map (c :: ·)

/-- The scheme of a resource. -/
def scheme? (resource : String) : Option String :=
  (schemeChars? resource.toList).map String.ofList

/-- One runner for each scheme. -/
structure Registry (σ : Type) where
  runners : List (String × JobRunner σ) := []

namespace Registry

variable {σ : Type}

/-- The registry with a runner for a scheme, in place of an earlier one. -/
def register (r : Registry σ) (scheme : String) (runner : JobRunner σ) : Registry σ :=
  ⟨setField scheme runner r.runners⟩

/-- The schemes that have a runner, in their order. -/
def schemes (r : Registry σ) : List String := (r.runners.map Prod.fst).mergeSort fun a b => a ≤ b

/-- The runner for a resource. -/
def runnerFor? (r : Registry σ) (resource : String) : Option (JobRunner σ) :=
  (scheme? resource).bind fun scheme => r.runners.lookup scheme

/-- The registry as a runner, which hands every job to the runner for its resource. -/
def runner (r : Registry σ) : JobRunner σ where
  launch resource input credentials s :=
    match r.runnerFor? resource with
    | some runner => runner.launch resource input credentials s
    | none => (.error (.unsupported resource), s)
  poll handle s :=
    match r.runnerFor? handle.resource with
    | some runner => runner.poll handle s
    | none => (.failed (some taskFailed) (some (JobError.unsupported handle.resource).message), s)
  cleanup handle s :=
    match r.runnerFor? handle.resource with
    | some runner => runner.cleanup handle s
    | none => s

/-- The registry in words. -/
def text (r : Registry σ) : String :=
  let schemes := String.intercalate ", " (r.schemes.map visiblyQuoted)
  "JobRunnerRegistry \x7b schemes: [" ++ schemes ++ "] \x7d"

end Registry

end StatesLanguage
