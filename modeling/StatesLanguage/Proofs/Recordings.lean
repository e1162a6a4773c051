import StatesLanguage.Proofs.Chains
import StatesLanguage.Proofs.Likeness

/-! The histories of workflows are written and never read. Whether they are kept, and whether data is
logged, changes nothing else. -/
namespace StatesLanguage

variable {σ : Type}

namespace Run

mutual

/-- A workflow without its history and those of the workflows nested in it. Nothing else is left
out. -/
def unrecorded : Run → Run
  | ⟨execution, status, data, output, error, abortCause, visit, next, _, steps⟩ =>
    ⟨execution, status, data, output, error, abortCause, unrecordedVisit? visit, next, [], steps⟩

def unrecordedVisit? : Option Visit → Option Visit
  | none => none
  | some v => some (unrecordedVisit v)

def unrecordedVisit : Visit → Visit
  | ⟨state, enteredAt, progress, attempts, retries, notBefore⟩ =>
    ⟨state, enteredAt, unrecordedProgress progress, attempts, retries, notBefore⟩

def unrecordedProgress : Progress → Progress
  | .idle => .idle
  | .job handle launchedAt => .job handle launchedAt
  | .waiting deadline => .waiting deadline
  | .branches b => .branches (unrecordedBranches b)

def unrecordedBranches : Branches Run → Branches Run
  | ⟨pending, inFlight, results, limit, tolerance, recorded, failed⟩ =>
    ⟨unrecordedChildren pending, unrecordedChildren inFlight, results, limit, tolerance, recorded,
      failed⟩

def unrecordedChildren : List (Nat × Run) → List (Nat × Run)
  | [] => []
  | (i, r) :: rest => (i, unrecorded r) :: unrecordedChildren rest

end

theorem unrecordedBranches_eq (b : Branches Run) :
    unrecordedBranches b = { b with
      pending := unrecordedChildren b.pending
      inFlight := unrecordedChildren b.inFlight } := by
  cases b
  rfl

end Run

variable {H : List Entry → List Entry → Prop}

mutual

/-- Runs that are alike differ in nothing but their histories. -/
theorem Run.Like.unrecorded_eq {r r' : Run} {T : Multiset JobHandle} :
    Run.Like H r r' T → r.unrecorded = r'.unrecorded
  | .unvisited _ => by rw [Run.unrecorded, Run.unrecorded]
  | .visited _ hv _ => by
    rw [Run.unrecorded, Run.unrecorded, Run.unrecordedVisit?, Run.unrecordedVisit?,
      hv.unrecorded_eq]

theorem Visit.Like.unrecorded_eq {v v' : Visit} {T : Multiset JobHandle} :
    Visit.Like H v v' T → Run.unrecordedVisit v = Run.unrecordedVisit v'
  | .intro hp => by rw [Run.unrecordedVisit, Run.unrecordedVisit, hp.unrecorded_eq]

theorem Progress.Like.unrecorded_eq {p p' : Progress} {T : Multiset JobHandle} :
    Progress.Like H p p' T → Run.unrecordedProgress p = Run.unrecordedProgress p'
  | .idle | .job | .waiting => rfl
  | .branches hb => by
    rw [Run.unrecordedProgress, Run.unrecordedProgress, unrecorded_branches_eq hb]

theorem unrecorded_branches_eq {b b' : Branches Run} {T : Multiset JobHandle} :
    Branches.Alike (Run.Like H) b b' T → Run.unrecordedBranches b = Run.unrecordedBranches b'
  | .intro hwaiting hflying => by
    simp only [Run.unrecordedBranches_eq, unrecorded_children_eq hwaiting,
      unrecorded_children_eq hflying]

theorem unrecorded_children_eq {xs xs' : List (Nat × Run)} {T : Multiset JobHandle} :
    Paired (Run.Like H) xs xs' T → Run.unrecordedChildren xs = Run.unrecordedChildren xs'
  | .nil => rfl
  | .cons hr hrest => by
    rw [Run.unrecordedChildren, Run.unrecordedChildren, hr.unrecorded_eq,
      unrecorded_children_eq hrest]

end

/-- Engines with one runner and one limit of steps cannot be told apart, whatever they record. -/
theorem Engine.agree_recording (runner : JobRunner σ) {config config' : Config}
    (h : config.maxSteps = config'.maxSteps) :
    Engine.Agree ⟨runner, config⟩ ⟨runner, config'⟩ (fun _ _ => True) fun _ => True where
  limit := h
  unrecorded := trivial
  recorded _ _ := trivial
  launch _ _ _ _ := rfl
  poll _ _ := rfl
  cleanup _ _ := rfl
  carried _ _ := trivial

namespace Run

variable {e : Engine σ}

/-- A workflow without a record keeps none. -/
theorem unkept_invariant (h : e.config.recordHistory = false) :
    Invariant e fun _ r => r.history = [] where
  fresh _ _ _ := rfl
  start hr := (start_history _).trans hr
  abort hr := (abort_history _ _ _).trans hr
  step {machine r m s} hr := by
    have hstarted (hr : r.history = []) : (r.start machine m.now).history = [] :=
      (start_history m.now).trans hr
    refine step_rule (Q := fun q => q.2.1.history = []) ?_ ?_ ?_ ?_ ?_
    · intro _
      exact hr
    · intro _ _
      exact (abort_history _ _ _).trans (hstarted hr)
    · intro _ _
      exact (abort_history _ _ _).trans (hstarted hr)
    · intro v _ _ _
      exact (abort_history _ _ _).trans (hstarted hr)
    · intro v st res v' s' _ _ _ _ _
      have hbegun : (r.begun machine m.now).history = [] := hstarted hr
      rcases res with err | _ | _ | ⟨output, _ | next⟩ <;>
        simp [settle, leave, enter, h, hbegun]

end Run

namespace Workflow

/-- What is recorded and logged is for an observer only. Workflows whose settings differ in that are
the same after each of the same calls, at every depth, but for their histories, and their runners
were told the same. Where no history is to be kept, none is. -/
theorem recording_neutral (runner : JobRunner σ) (machine : Machine) (config : Config)
    (recordHistory logData : Bool) (execution : Execution) (input : Value) (ops : List Operation)
    (s : σ) :
    List.Forall₂ (fun x x' => x.1.run.unrecorded = x'.1.run.unrecorded ∧ x.2 = x'.2)
      (session runner.traced ops ⟨machine, config, .ofInput execution input⟩ (s, []))
      (session runner.traced ops
        ⟨machine, { config with recordHistory, logData }, .ofInput execution input⟩ (s, [])) ∧
    ∀ x ∈ session runner.traced ops
        ⟨machine, { config with recordHistory := false, logData }, .ofInput execution input⟩ (s, []),
      Run.Everywhere (fun _ r => r.history = []) machine x.1.run := by
  refine ⟨?_, fun x hx => ?_⟩
  · have hagree : Engine.Agree ⟨runner.traced, config⟩
        ⟨runner.traced, { config with recordHistory, logData }⟩ (fun _ _ => True) (fun _ => True) :=
      Engine.agree_recording runner.traced rfl
    refine (session_like hagree (fun _ _ => trivial) execution input ops (s, [])).imp ?_
    intro x x' h
    obtain ⟨T, hr, hs, -⟩ := h.runs
    exact ⟨hr.unrecorded_eq, hs⟩
  · exact ((session_reaches .new x hx).everywhere (Run.unkept_invariant rfl)).2.2

end Workflow

end StatesLanguage
