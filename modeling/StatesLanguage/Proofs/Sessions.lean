import StatesLanguage.Proofs.Calls

/-! Calls on a workflow one after another, with what is seen after each of them, and the calls that
are made of the runner in turn. -/
namespace StatesLanguage

variable {σ : Type}

/-- A call of a workflow on its runner, with all that the runner is told. -/
inductive RunnerCall where
  | launch (resource : String) (input credentials : Value)
  | poll (handle : JobHandle)
  | cleanup (handle : JobHandle)

/-- The runner that writes down what it is told. -/
def JobRunner.traced (runner : JobRunner σ) : JobRunner (σ × List RunnerCall) where
  launch resource input credentials s :=
    let (launched, s') := runner.launch resource input credentials s.1
    (launched, s', s.2 ++ [.launch resource input credentials])
  poll handle s :=
    let (status, s') := runner.poll handle s.1
    (status, s', s.2 ++ [.poll handle])
  cleanup handle s := (runner.cleanup handle s.1, s.2 ++ [.cleanup handle])

namespace Workflow

/-- A call on a workflow. To start one that has been started does nothing, and a run is given up
after so many steps. -/
inductive Operation where
  | start (now : Instant)
  | step (m : Moment)
  | run (moment : Nat → Moment) (fuel : Nat)
  | abort (cause : String)

/-- The workflow after a call, unless it is a run that does not come to an end. -/
def perform (runner : JobRunner σ) (w : Workflow) (s : σ) : Operation → Option (Workflow × σ)
  | .start now => some ((w.start? now).getD w, s)
  | .step m => some (w.step runner m s).2
  | .run moment fuel => (w.runFrom runner moment fuel 0 s).map Prod.snd
  | .abort cause => some (w.abort runner cause s)

/-- What is seen after each call, as long as the calls come to an end. -/
def session (runner : JobRunner σ) : List Operation → Workflow → σ → List (Workflow × σ)
  | [], _, _ => []
  | op :: rest, w, s =>
    match w.perform runner s op with
    | some (w, s) => (w, s) :: session runner rest w s
    | none => []

variable {runner runner' : JobRunner σ} {w₀ w w' : Workflow} {s₀ s s' : σ}

theorem perform_reaches {op : Operation} (h : Reaches runner w₀ s₀ w s)
    (hop : w.perform runner s op = some (w', s')) : Reaches runner w₀ s₀ w' s' := by
  cases op with
  | start now =>
    cases hstart : w.start? now with
    | none =>
      rw [perform, hstart] at hop
      cases hop
      exact h
    | some w₁ =>
      rw [perform, hstart] at hop
      cases hop
      exact .start h hstart
  | step m =>
    rcases hstep : w.step runner m s with ⟨o, w₁, s₁⟩
    rw [perform, hstep] at hop
    cases hop
    exact .step h hstep
  | run moment fuel =>
    obtain ⟨⟨n, w₁, s₁⟩, hrun, hlast⟩ := Option.map_eq_some_iff.mp hop
    cases hlast
    exact .run h hrun
  | abort cause => exact .abort h (Option.some.inj hop)

/-- What is seen in a session are workflows that calls lead to. -/
theorem session_reaches {ops : List Operation} (h : Reaches runner w₀ s₀ w s) :
    ∀ x ∈ session runner ops w s, Reaches runner w₀ s₀ x.1 x.2 := by
  induction ops generalizing w s with
  | nil => simp [session]
  | cons op rest ih =>
    intro x hx
    rw [session] at hx
    cases hop : w.perform runner s op with
    | none =>
      rw [hop] at hx
      cases hx
    | some y =>
      rw [hop] at hx
      have hy : Reaches runner w₀ s₀ y.1 y.2 := perform_reaches h hop
      rcases List.mem_cons.mp hx with rfl | hx
      · exact hy
      · exact ih hy x hx

section

variable {I : Workflow → σ → Workflow → σ → Prop}

/-- Workflows side by side that are started, stepped and aborted together. -/
structure Alongside (runner runner' : JobRunner σ) (I : Workflow → σ → Workflow → σ → Prop) :
    Prop where
  status : ∀ {w s w' s'}, I w s w' s' → w.run.status = w'.run.status
  start : ∀ {w s w' s'} now, I w s w' s' → I (w.enterStart now) s (w'.enterStart now) s'
  outcome : ∀ {w s w' s'} m, I w s w' s' → (w.step runner m s).1 = (w'.step runner' m s').1
  step : ∀ {w s w' s'} m, I w s w' s' →
    I (w.step runner m s).2.1 (w.step runner m s).2.2 (w'.step runner' m s').2.1
      (w'.step runner' m s').2.2
  abort : ∀ {w s w' s'} cause, I w s w' s' →
    I (w.abort runner cause s).1 (w.abort runner cause s).2 (w'.abort runner' cause s').1
      (w'.abort runner' cause s').2

theorem Alongside.start? (hI : Alongside runner runner' I) (now : Instant) (h : I w s w' s') :
    I ((w.start? now).getD w) s ((w'.start? now).getD w') s' := by
  unfold Workflow.start?
  rw [← hI.status h]
  cases w.run.status with
  | pending => exact hI.start now h
  | _ => exact h

/-- Runs side by side come to an end after the same number of steps, or both do not. -/
theorem Alongside.runFrom (hI : Alongside runner runner' I) (moment : Nat → Moment) (fuel k : Nat)
    (h : I w s w' s') :
    Option.Rel (fun x x' => I x.2.1 x.2.2 x'.2.1 x'.2.2)
      (w.runFrom runner moment fuel k s) (w'.runFrom runner' moment fuel k s') := by
  induction fuel generalizing k w s w' s' with
  | zero => exact .none
  | succ fuel ih =>
    have houtcome := hI.outcome (moment k) h
    have hstep := hI.step (moment k) h
    rcases hleft : w.step runner (moment k) s with ⟨o, w₁, s₁⟩
    rcases hright : w'.step runner' (moment k) s' with ⟨o', w₁', s₁'⟩
    rw [hleft, hright] at houtcome hstep
    have houtcome : o = o' := houtcome
    subst houtcome
    rw [Workflow.runFrom, Workflow.runFrom, hleft, hright]
    cases o with
    | progressed => exact ih (k + 1) hstep
    | blocked | terminal => exact .some hstep

theorem Alongside.perform (hI : Alongside runner runner' I) (op : Operation) (h : I w s w' s') :
    Option.Rel (fun x x' => I x.1 x.2 x'.1 x'.2) (w.perform runner s op)
      (w'.perform runner' s' op) := by
  cases op with
  | start now => exact .some (hI.start? now h)
  | step m => exact .some (hI.step m h)
  | run moment fuel =>
    have hrun := hI.runFrom moment fuel 0 h
    rw [Workflow.perform, Workflow.perform]
    generalize w.runFrom runner moment fuel 0 s = x, w'.runFrom runner' moment fuel 0 s' = x' at hrun
    cases hrun with
    | none => exact .none
    | some hlast => exact .some hlast
  | abort cause => exact .some (hI.abort cause h)

/-- The same calls on workflows side by side show them side by side after each call. -/
theorem Alongside.session (hI : Alongside runner runner' I) (ops : List Operation)
    (h : I w s w' s') :
    List.Forall₂ (fun x x' => I x.1 x.2 x'.1 x'.2) (session runner ops w s)
      (session runner' ops w' s') := by
  induction ops generalizing w s w' s' with
  | nil => exact .nil
  | cons op rest ih =>
    have hop := hI.perform op h
    rw [Workflow.session, Workflow.session]
    generalize w.perform runner s op = x, w'.perform runner' s' op = x' at hop
    cases hop with
    | none => exact .nil
    | some hnext => exact .cons hnext (ih hnext)

end

end Workflow

end StatesLanguage
