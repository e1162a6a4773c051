import StatesLanguage.Proofs.Calls
import StatesLanguage.Proofs.Promises
import StatesLanguage.Proofs.Twins

/-! Nested workflows come to the same results in whatever way they are interleaved. Each has a twin
that runs alone, and the twin tells how many steps it has yet to take. -/
namespace StatesLanguage

namespace Workflow

variable {σ : Type} {runner : JobRunner σ} {s₀ s : σ} {outputs : List Value} {w : Workflow} {v : Value}
  {refusal : JobRequest → Option JobError} {answer : JobRequest → Nat → JobStatus}

/-- A workflow that has some steps to take to an output, from some moment and some state of the
runner on. -/
def ComesTo (runner : JobRunner σ) (moment : Nat → Moment) (k n : Nat) (w : Workflow) (s : σ)
    (v : Value) : Prop :=
  (w.stepUntil runner moment n k s).2.1.run.Succeeded v

/-- A workflow that succeeds with an output when it is started and stepped alone, so many times. -/
def YieldsIn (runner : JobRunner σ) (s₀ : σ) (n : Nat) (w : Workflow) (v : Value) : Prop :=
  ∃ now moment s T, runner.Serves s₀ s T ∧ (w.enterStart now).ComesTo runner moment 0 n s v

/-- A workflow that succeeds with an output when it is started and stepped alone. -/
def Yields (runner : JobRunner σ) (s₀ : σ) (w : Workflow) (v : Value) : Prop :=
  ∃ n, w.YieldsIn runner s₀ n v

/-- A child that waits and would succeed with its output if it were alone. -/
def Promising (runner : JobRunner σ) (s₀ : σ) (outputs : List Value) (i : Nat) (w : Workflow)
    (n : Nat) : Prop :=
  w.machine.Steady ∧ (∃ execution input, w.run = .ofInput execution input) ∧
    ∃ v, outputs[i]? = some v ∧ w.YieldsIn runner s₀ n v

/-- A child in flight whose twin succeeds with its output after some more steps alone. -/
def Underway (runner : JobRunner σ) (s₀ : σ) (outputs : List Value) (i : Nat) (w : Workflow)
    (x : Multiset JobTicket × Nat) : Prop :=
  w.machine.Steady ∧ w.run.isTerminal = false ∧ ∃ v, outputs[i]? = some v ∧
    ∃ twin U moment k s, w.run.Twin twin (x.1, U) ∧ runner.Serves s₀ s U ∧
      { w with run := twin }.ComesTo runner moment k x.2 s v

theorem comesTo_of_terminal {moment : Nat → Moment} {k n : Nat} (h : w.isTerminal = true) :
    w.ComesTo runner moment k n s v ↔ w.run.Succeeded v := by
  cases n with
  | zero => exact Iff.rfl
  | succ n => rw [ComesTo, stepUntil, if_pos h]

theorem comesTo_succ {moment : Nat → Moment} {k n : Nat} (h : w.isTerminal = false) :
    w.ComesTo runner moment k (n + 1) s v ↔
      (w.step runner (moment k) s).2.1.ComesTo runner moment (k + 1) n
        (w.step runner (moment k) s).2.2 v := by
  rw [ComesTo, stepUntil, if_neg (by simp [h])]
  exact Iff.rfl

/-- A child that is started has a twin that was started alone. -/
theorem underway_start {i n : Nat} (h : Promising runner s₀ outputs i w n) (now : Instant) :
    Underway runner s₀ outputs i (w.enterStart now) (0, n) := by
  obtain ⟨hsteady, ⟨execution, input, hfresh⟩, v, hv, now', moment, s, T, hs, hcomes⟩ := h
  have hpending : w.run.status = .pending := by
    rw [hfresh]
    rfl
  have htwin : w.run.Twin w.run 0 := by
    rw [hfresh]
    exact Machine.twin_ofInput rfl rfl input
  have hrunning : (w.run.start w.machine now).status = .running :=
    Run.start_status (Run.isTerminal_of_pending hpending) now
  refine ⟨hsteady, Run.isTerminal_of_running hrunning, v, hv, _, 0, moment, 0, s,
    htwin.start w.machine now now', ?_, hcomes⟩
  have hs : runner.Serves s₀ s (T + 0) := by rwa [add_zero]
  exact .lost hs

/-- A child in flight and its twin take a step each, and so the child is one step nearer to its
output. -/
theorem underway_step {i n : Nat} {m : Moment} {T F : Multiset JobTicket}
    (hrunner : runner.Oblivious s₀ refusal answer)
    (h : Underway runner s₀ outputs i w (T, n)) (hs : runner.Serves s₀ s (T + F)) :
    ∃ k, n = k + 1 ∧
      (((w.step runner m s).2.1.run.result? = none ∧ ∃ T',
          Underway runner s₀ outputs i (w.step runner m s).2.1 (T', k) ∧
            runner.Serves s₀ (w.step runner m s).2.2 (T' + F)) ∨
        ∃ v, (w.step runner m s).2.1.run.result? = some (.ok v) ∧ outputs[i]? = some v ∧
          runner.Serves s₀ (w.step runner m s).2.2 F) := by
  obtain ⟨hsteady, hterminal, v, hv, twin, U, moment, k, sₐ, htwin, hsₐ, hcomes⟩ := h
  have hterminal' : twin.isTerminal = false := by rw [← htwin.isTerminal_eq, hterminal]
  cases n with
  | zero =>
    have hsucceeded : twin.Succeeded v := hcomes
    simp [Run.isTerminal, hsucceeded.status, Status.isTerminal] at hterminal'
  | succ n =>
    refine ⟨n, rfl, ?_⟩
    rw [comesTo_succ (w := { w with run := twin }) hterminal'] at hcomes
    have hboth : runner.ServesBoth s₀ s sₐ ((T, U) + (F, 0)) := ⟨hs, by simpa using hsₐ⟩
    have hstep : InStep Run.Twin (runner.ServesBoth s₀) (F, 0)
        (w.machine.step ⟨runner, w.config⟩ (m.part w.run.steps) w.run s)
        (w.machine.step ⟨runner, w.config⟩ ((moment k).part twin.steps) twin sₐ) :=
      Machine.step_twins hrunner hsteady htwin hboth
    obtain ⟨-, ⟨T', U'⟩, htwin', hs', hsₐ'⟩ := hstep
    have hsₐ' : runner.Serves s₀ _ (U' + 0) := hsₐ'
    rw [add_zero] at hsₐ'
    have hended : (w.step runner m s).2.1.run.result?.isSome =
        (w.step runner m s).2.1.run.isTerminal := Run.result_isSome
    cases hr : (w.step runner m s).2.1.run.result? with
    | none =>
      rw [hr] at hended
      exact .inl ⟨rfl, T', ⟨hsteady, hended.symm, v, hv, _, U', moment, k + 1, _, htwin', hsₐ',
        hcomes⟩, hs'⟩
    | some r =>
      rw [hr] at hended
      have hterminal : (step runner (moment k) { w with run := twin } sₐ).2.1.isTerminal = true :=
        htwin'.isTerminal_eq.symm.trans hended.symm
      have hsucceeded := (comesTo_of_terminal hterminal).mp hcomes
      have hresult : (w.step runner m s).2.1.run.result? = some (.ok v) :=
        htwin'.result_eq.trans hsucceeded.result
      exact .inr ⟨v, hr.symm.trans hresult, hv, .lost hs'⟩

theorem child_promises (hrunner : runner.Oblivious s₀ refusal answer) (m : Moment) :
    (Workflow.child runner m).Promises outputs (Promising runner s₀ outputs)
      (Underway runner s₀ outputs) (runner.Serves s₀) where
  start := fun h => underway_start h m.now
  step := by
    intro i w s o w' s' T F n h hs hstep
    have hunder := underway_step (m := m.child i) hrunner h hs
    rw [show w.step runner (m.child i) s = (o, w', s') from hstep] at hunder
    exact hunder

/-- Workflows that each succeed alone all succeed together, with the same outputs in their order,
whatever the limit and the times of their steps. -/
theorem schedule_independent {children : List Workflow}
    (hrunner : runner.Oblivious s₀ refusal answer)
    (hsteady : ∀ w ∈ children, w.machine.Steady)
    (hfresh : ∀ w ∈ children, ∃ execution input, w.run = .ofInput execution input)
    (halone : List.Forall₂ (Yields runner s₀) children outputs)
    (limit : Nat) (tolerance : Tolerance) (moment : Nat → Moment) {T : Multiset JobTicket}
    (hs : runner.Serves s₀ s T) :
    ∃ n b s', (Branches.ofList children limit tolerance).advanceUntil
      (fun k => Workflow.child runner (moment k)) n 0 s = (.completed outputs, b, s') := by
  have hpromising : ∀ i w, children[i]? = some w → ∃ n, Promising runner s₀ outputs i w n := by
    intro i w hw
    obtain ⟨hi, rfl⟩ := List.getElem?_eq_some_iff.mp hw
    have hi' : i < outputs.length := halone.length_eq ▸ hi
    obtain ⟨n, hn⟩ := halone.get hi hi'
    exact ⟨n, hsteady _ (List.getElem_mem hi), hfresh _ (List.getElem_mem hi), outputs[i],
      List.getElem?_eq_getElem hi', hn⟩
  have hstart : ∃ P, Branches.Promised outputs (Promising runner s₀ outputs)
      (Underway runner s₀ outputs) (.ofList children limit tolerance) 0 P 0 :=
    Branches.promised_ofList halone.length_eq hpromising limit tolerance
  obtain ⟨P, hb⟩ := hstart
  have hs : runner.Serves s₀ s (T + 0) := by rwa [add_zero]
  exact Branches.advanceUntil_promised (fun k => child_promises hrunner (moment k)) hb (.lost hs) 0

/-- The path to the name of the current state. -/
def stateNamePath : Path where
  text := "$$.State.Name"
  inContext := true
  segments := [.select (.key (.field "State")), .select (.key (.field "Name"))]
  route := .reference [.field "State", .field "Name"]

/-- A workflow with one job, which is launched with the name of the state. -/
def jobWorkflow (resource : String) : Workflow where
  machine := ⟨"Ask", [("Ask", .task
    ⟨none, resource, none, none, { parameters := some (.path stateNamePath) }, {}⟩)]⟩
  run := .ofInput default .null

theorem jobWorkflow_steady (resource : String) : (jobWorkflow resource).machine.Steady := by
  have hname : stateNamePath.Timeless :=
    Path.timeless_of_fields rfl (by decide) (by decide)
  have hflow : DataFlow.Steady { parameters := some (.path stateNamePath) } :=
    ⟨by simp [FilterPath.Steady], by rintro _ ⟨⟩; exact .path hname, by simp,
      by simp [FilterPath.Steady]⟩
  refine .intro ?_ ?_
  · intro x hx
    obtain rfl := List.mem_singleton.mp hx
    exact ⟨hflow, by simp, rfl, rfl⟩
  · intro x hx
    obtain rfl := List.mem_singleton.mp hx
    simp [Machine.State.machines]

/-- Two workflows that share one slot answer as each of them does alone. -/
theorem two_jobs_scheduled : ∃ n b s, (Branches.ofList [jobWorkflow "fetch", jobWorkflow "store"] 1
    {}).advanceUntil (fun _ => Workflow.child secondPollRunner .zero) n 0 (0, fun _ => 0) =
      (.completed [.str "fetch", .str "store"], b, s) := by
  refine schedule_independent secondPoll_oblivious ?_ ?_ ?_ 1 {} (fun _ => .zero) .new
  · simp [jobWorkflow_steady]
  · simp [jobWorkflow]
  · refine .cons ?_ (.cons ?_ .nil)
    · exact ⟨2, Moment.zero.now, fun _ => .zero, _, _, .new, ⟨rfl, rfl⟩⟩
    · exact ⟨2, Moment.zero.now, fun _ => .zero, _, _, .new, ⟨rfl, rfl⟩⟩

end Workflow

end StatesLanguage
