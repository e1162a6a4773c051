import StatesLanguage.Proofs.Coherence

/-! What a caller can do with a workflow: start it, step it, run it until it waits, and abort it, in
any order and as often as it likes. -/
namespace StatesLanguage

/-- The moment at the start of 1970, with no chance in it. -/
def Moment.zero : Moment := ⟨default, fun _ => "", fun _ => 0⟩

/-- A runner with one job, which never ends. -/
def hangingRunner : JobRunner Unit := ⟨fun resource _ _ s => (.ok ⟨"job", resource⟩, s),
  fun _ s => (.running, s), fun _ s => s⟩

namespace Workflow

variable {σ : Type} {runner : JobRunner σ} {w₀ w : Workflow} {s₀ s : σ}

/-- A workflow after some calls, with the state that the runner is in. -/
inductive Reaches (runner : JobRunner σ) (w₀ : Workflow) (s₀ : σ) : Workflow → σ → Prop where
  | new : Reaches runner w₀ s₀ w₀ s₀
  | start {w w' : Workflow} {s : σ} {now : Instant} : Reaches runner w₀ s₀ w s →
    w.start? now = some w' → Reaches runner w₀ s₀ w' s
  | step {w w' : Workflow} {s s' : σ} {m : Moment} {o : StepOutcome} : Reaches runner w₀ s₀ w s →
    w.step runner m s = (o, w', s') → Reaches runner w₀ s₀ w' s'
  | run {w w' : Workflow} {s s' : σ} {moment : Nat → Moment} {fuel k n : Nat} :
    Reaches runner w₀ s₀ w s → w.runFrom runner moment fuel k s = some (n, w', s') →
    Reaches runner w₀ s₀ w' s'
  | abort {w w' : Workflow} {s s' : σ} {cause : String} : Reaches runner w₀ s₀ w s →
    w.abort runner cause s = (w', s') → Reaches runner w₀ s₀ w' s'

/-- A run is a number of steps. -/
theorem runFrom_rule {I : Workflow → σ → Prop} (step : ∀ {w s m}, I w s →
      I (w.step runner m s).2.1 (w.step runner m s).2.2) {moment : Nat → Moment} {fuel k n : Nat}
    {w' : Workflow} {s' : σ} (h : I w s)
    (hrun : w.runFrom runner moment fuel k s = some (n, w', s')) : I w' s' := by
  induction fuel generalizing k w s with
  | zero => simp [runFrom] at hrun
  | succ fuel ih =>
    have hstep := step (m := moment k) h
    rcases hres : w.step runner (moment k) s with ⟨o, w₁, s₁⟩
    rw [hres] at hstep
    rw [runFrom, hres] at hrun
    cases o with
    | progressed => exact ih hstep hrun
    | blocked | terminal =>
      cases hrun
      exact hstep

/-- What a start, a step and an abort keep holds after any calls. -/
theorem Reaches.rule {I : Workflow → σ → Prop} (new : I w₀ s₀)
    (start : ∀ {w s now}, I w s → I (w.enterStart now) s)
    (step : ∀ {w s m}, I w s → I (w.step runner m s).2.1 (w.step runner m s).2.2)
    (abort : ∀ {w s cause}, I w s → I (w.abort runner cause s).1 (w.abort runner cause s).2)
    (h : Reaches runner w₀ s₀ w s) : I w s := by
  induction h with
  | new => exact new
  | @start w w' s now _ hstart ih =>
    have hw' : w' = w.enterStart now := by
      unfold start? at hstart
      split at hstart
      · exact (Option.some.inj hstart).symm
      · cases hstart
    rw [hw']
    exact start ih
  | @step _ _ _ _ m _ _ hstep ih =>
    have h := step (m := m) ih
    rwa [hstep] at h
  | run _ hrun ih => exact runFrom_rule step ih hrun
  | @abort w _ s _ cause _ habort ih =>
    have h : I (w.abort runner cause s).1 (w.abort runner cause s).2 := abort ih
    rwa [habort] at h

theorem Reaches.stepped (h : Reaches runner w₀ s₀ w s) (m : Moment) :
    Reaches runner w₀ s₀ (w.step runner m s).2.1 (w.step runner m s).2.2 :=
  .step h rfl

/-- What every step keeps holds of a workflow and all that are nested in it after any calls. -/
theorem Reaches.everywhere {machine : Machine} {config : Config} {execution : Execution}
    {input : Value} {P : Machine → Run → Prop} (hP : Run.Invariant ⟨runner, config⟩ P)
    (h : Reaches runner ⟨machine, config, .ofInput execution input⟩ s₀ w s) :
    w.machine = machine ∧ w.config = config ∧ Run.Everywhere P machine w.run := by
  refine h.rule (I := fun w _ => w.machine = machine ∧ w.config = config ∧
    Run.Everywhere P machine w.run) ?_ ?_ ?_ ?_
  · exact ⟨rfl, rfl, hP.everywhere_fresh execution input⟩
  · rintro w s now ⟨rfl, rfl, hrun⟩
    exact ⟨rfl, rfl, hP.everywhere_start hrun⟩
  · rintro w s m ⟨rfl, rfl, hrun⟩
    exact ⟨rfl, rfl, hP.everywhere_step w.machine hrun⟩
  · rintro w s cause ⟨rfl, rfl, hrun⟩
    exact ⟨rfl, rfl, hP.everywhere_abort hrun⟩

end Workflow

end StatesLanguage
