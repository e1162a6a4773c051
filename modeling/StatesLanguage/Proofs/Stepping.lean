import StatesLanguage.Proofs.Rounds
import StatesLanguage.Proofs.Nesting
import StatesLanguage.Proofs.Outcomes

/-! Rules for the parts of a step, one for each function, so that no proof has to unfold them. -/
namespace StatesLanguage

variable {σ : Type} {e : Engine σ} {m : Moment} {s : σ}

namespace Run

variable {machine : Machine} {r : Run}

/-- A workflow that has failed with an error, the payload of which is its output. -/
structure Failed (r : Run) (err : ExecutionError) : Prop where
  status : r.status = .failed
  error : r.error = some err
  output : r.output = some err.payload

/-- A workflow that has ended with an output. -/
structure Succeeded (r : Run) (output : Value) : Prop where
  status : r.status = .succeeded
  output : r.output = some output

/-- A workflow that was aborted for a cause. -/
structure Aborted (r : Run) (cause : String) : Prop where
  status : r.status = .aborted
  cause : r.abortCause = some cause

/-- Workflows that are as far, with the same output, error and cause. -/
structure EndsAs (r r' : Run) : Prop where
  status : r.status = r'.status
  output : r.output = r'.output
  error : r.error = r'.error
  abortCause : r.abortCause = r'.abortCause

theorem EndsAs.isTerminal {r' : Run} (h : r.EndsAs r') : r.isTerminal = r'.isTerminal := by
  rw [Run.isTerminal, Run.isTerminal, h.status]

theorem EndsAs.result {r' : Run} (h : r.EndsAs r') : r.result? = r'.result? := by
  rw [result?, result?, abortFailure, abortFailure, h.status, h.output, h.error, h.abortCause]

theorem Succeeded.result {output : Value} (h : r.Succeeded output) : r.result? = some (.ok output) := by
  simp [result?, h.status, h.output]

theorem Failed.result {err : ExecutionError} (h : r.Failed err) : r.result? = some (.error err) := by
  simp [result?, h.status, h.error]

theorem Aborted.result {cause : String} (h : r.Aborted cause) :
    r.result? = some (.error (.composite "States.BranchAborted" cause)) := by
  simp [result?, abortFailure, h.status, h.cause]

theorem failed_fail (err : ExecutionError) : (r.fail err).Failed err := ⟨rfl, rfl, rfl⟩

theorem succeeded_succeed (output : Value) : (r.succeed output).Succeeded output := ⟨rfl, rfl⟩

theorem aborted_abort (hr : r.isTerminal = false) (runner : JobRunner σ) (cause : String) (s : σ) :
    (r.abort runner cause s).1.Aborted cause := by
  simp only [abort, hr, Bool.false_eq_true, if_false]
  exact ⟨rfl, rfl⟩

/-- A workflow at the start of a step: it has been started, and the step is counted. -/
def begun (machine : Machine) (now : Instant) (r : Run) : Run :=
  { r.start machine now with steps := (r.start machine now).steps + 1 }

theorem start_of_pending (h : r.status = .pending) (now : Instant) :
    r.start machine now = { r with
      status := .running
      execution := { r.execution with startedAt := r.execution.startedAt.or (some now) }
      visit := some (arrive machine machine.start now) } := by
  simp [start, h, enter]

theorem start_of_not_pending (h : r.status ≠ .pending) (now : Instant) :
    r.start machine now = r := by
  cases hs : r.status <;> simp_all [start]

theorem isTerminal_of_running (h : r.status = .running) : r.isTerminal = false := by
  rw [isTerminal, h]
  rfl

theorem start_status (h : r.isTerminal = false) (now : Instant) :
    (r.start machine now).status = .running := by
  cases hs : r.status with
  | pending => rw [start_of_pending hs]
  | running => rw [start_of_not_pending (by simp [hs]), hs]
  | _ => simp [isTerminal, hs, Status.isTerminal] at h

theorem begun_status (h : r.isTerminal = false) (now : Instant) :
    (r.begun machine now).status = .running := start_status h now

theorem stepWith_eq (e : Engine σ) (now : Instant) (machine : Machine)
    (advance : Run → Visit → σ → Option (Except ExecutionError Advance × Visit × σ))
    (r : Run) (s : σ) :
    r.stepWith e now machine advance s =
      if r.isTerminal then (.terminal, r, s)
      else if (r.start machine now).isExhausted e.config then
        (r.start machine now).stop e (stepLimit e.config) s
      else match (r.begun machine now).visit with
        | none => (r.begun machine now).stop e "Workflow has no current state" s
        | some v =>
          match advance (r.begun machine now) v s with
          | none => (r.begun machine now).stop e s!"State {v.state} is not defined" s
          | some (res, v, s) =>
            (((r.begun machine now).settle e.config machine now v res).1,
              ((r.begun machine now).settle e.config machine now v res).2, s) :=
  rfl

/-- A step does nothing to a workflow that has ended, stops one that cannot go on, and otherwise
advances the current state and settles what came of it. -/
theorem step_rule {Q : StepOutcome × Run × σ → Prop}
    (ended : r.isTerminal = true → Q (.terminal, r, s))
    (exhausted : r.isTerminal = false → (r.start machine m.now).isExhausted e.config = true →
      Q ((r.start machine m.now).stop e (stepLimit e.config) s))
    (lost : r.isTerminal = false → (r.begun machine m.now).visit = none →
      Q ((r.begun machine m.now).stop e "Workflow has no current state" s))
    (undefined : ∀ {v}, r.isTerminal = false → (r.begun machine m.now).visit = some v →
      machine.state? v.state = none →
      Q ((r.begun machine m.now).stop e s!"State {v.state} is not defined" s))
    (advanced : ∀ {v st res v' s'}, r.isTerminal = false →
      (r.start machine m.now).isExhausted e.config = false →
      (r.begun machine m.now).visit = some v → machine.state? v.state = some st →
      Machine.State.advance e m st (r.begun machine m.now) v s = (res, v', s') →
      Q (((r.begun machine m.now).settle e.config machine m.now v' res).1,
        ((r.begun machine m.now).settle e.config machine m.now v' res).2, s')) :
    Q (machine.step e m r s) := by
  rw [Machine.step_eq, stepWith_eq]
  by_cases hterminal : r.isTerminal = true
  · rw [if_pos hterminal]
    exact ended hterminal
  rw [if_neg hterminal]
  have hterminal : r.isTerminal = false := by simpa using hterminal
  by_cases hexhausted : (r.start machine m.now).isExhausted e.config = true
  · rw [if_pos hexhausted]
    exact exhausted hterminal hexhausted
  rw [if_neg hexhausted]
  have hexhausted : (r.start machine m.now).isExhausted e.config = false := by
    simpa using hexhausted
  cases hv : (r.begun machine m.now).visit with
  | none => exact lost hterminal hv
  | some v =>
    cases hst : machine.state? v.state with
    | none => simpa only [hst, Option.map_none] using undefined hterminal hv hst
    | some st =>
      rcases hadv : Machine.State.advance e m st (r.begun machine m.now) v s with ⟨res, v', s'⟩
      simpa only [hst, Option.map_some, hadv] using advanced hterminal hexhausted hv hst hadv

end Run

/-- A state that can be retried waits out its delay, or does its work and handles an error. -/
theorem ErrorHandling.guard_rule {h : ErrorHandling} {data : Value} {v : Visit}
    {work : Visit → σ → Except ExecutionError Advance × Visit × σ}
    {Q : Except ExecutionError Advance × Visit × σ → Prop}
    (waiting : v.notBefore.any (fun t => m.now.before t) = true → Q (.ok .blocked, v, s))
    (worked : ∀ {a v' s'}, v.notBefore.any (fun t => m.now.before t) = false →
      work { v with notBefore := none } s = (.ok a, v', s') → Q (.ok a, v', s'))
    (handled : ∀ {err v' s'}, v.notBefore.any (fun t => m.now.before t) = false →
      work { v with notBefore := none } s = (.error err, v', s') →
      Q ((h.handle m data err v').1, (h.handle m data err v').2, s')) :
    Q (h.guard m data work v s) := by
  unfold guard
  split_ifs with hwait
  · exact waiting hwait
  · have hwait : v.notBefore.any (fun t => m.now.before t) = false := by simpa using hwait
    rcases hwork : work { v with notBefore := none } s with ⟨err | a, v', s'⟩
    · exact handled hwait hwork
    · exact worked hwait hwork

/-- What the first catcher for an error makes of it, or the error itself where there is none. -/
def ErrorHandling.caught (h : ErrorHandling) (data : Value) (err : ExecutionError) :
    Except ExecutionError Advance :=
  match h.catcherFor? err.name? with
  | some c => (c.resultPath.apply data err.payload).map fun output => .completed output (some c.next)
  | none => .error err

/-- An error is retried, caught, or handed on; catching it may fail in turn. -/
theorem ErrorHandling.handle_rule {h : ErrorHandling} {data : Value} {err : ExecutionError}
    {v : Visit} {Q : Except ExecutionError Advance × Visit → Prop}
    (retried : ∀ {i r}, h.retrierFor? err.name? = some (i, r) →
      v.attempts.getD i 0 < r.maxAttempts →
      Q (.ok .progressed,
        { v with
          progress := .idle
          attempts := v.attempts.set i (v.attempts.getD i 0 + 1)
          retries := v.retries + 1
          notBefore := some
            (m.now.after (r.delay (m.share []) (v.attempts.getD i 0 + 1))) }))
    (caught : ∀ {c output}, h.catcherFor? err.name? = some c →
      c.resultPath.apply data err.payload = .ok output →
      Q (.ok (.completed output (some c.next)), v))
    (misplaced : ∀ {c err'}, h.catcherFor? err.name? = some c →
      c.resultPath.apply data err.payload = .error err' → Q (.error err', v))
    (failed : h.catcherFor? err.name? = none → Q (.error err, v)) :
    Q (h.handle m data err v) := by
  have hcaught : Q (h.caught data err, v) := by
    unfold ErrorHandling.caught
    cases hc : h.catcherFor? err.name? with
    | none => exact failed hc
    | some c =>
      cases hp : c.resultPath.apply data err.payload with
      | error err' => simpa [hp, Except.map] using misplaced hc hp
      | ok output => simpa [hp, Except.map] using caught hc hp
  unfold handle
  cases hr : h.retrierFor? err.name? with
  | none => exact hcaught
  | some x =>
    obtain ⟨i, r⟩ := x
    simp only
    split_ifs with hused
    · exact retried hr hused
    · exact hcaught

/-- What a state makes of an advance of its nested workflows. -/
def Machine.takeAdvance (complete : Value → Except ExecutionError Advance) (v : Visit) :
    BranchOutcome × Branches Run × σ → Except ExecutionError Advance × Visit × σ
  | (.running progressed, b, s) =>
    (.ok (if progressed then .progressed else .blocked), { v with progress := .branches b }, s)
  | (.completed results, _, s) => (complete (.arr results), { v with progress := .idle }, s)
  | (.failed err, _, s) => (.error err, { v with progress := .idle }, s)

theorem Branches.work_branches {start : Except ExecutionError (Branches Run)} {c : Child Run σ}
    {complete : Value → Except ExecutionError Advance} {v : Visit} {b : Branches Run}
    (hb : v.progress = .branches b ∨ (∀ b, v.progress ≠ .branches b) ∧ start = .ok b) :
    work start c complete v s = Machine.takeAdvance complete v (b.advance c s) := by
  unfold work
  rcases hb with hp | ⟨hp, rfl⟩
  · rw [hp]
    rfl
  · cases hprogress : v.progress with
    | branches b => exact (hp b hprogress).elim
    | _ => rfl

theorem Branches.work_unopened {c : Child Run σ}
    {complete : Value → Except ExecutionError Advance} {v : Visit} {err : ExecutionError}
    (hp : ∀ b, v.progress ≠ .branches b) :
    work (.error err) c complete v s = (.error err, { v with progress := .idle }, s) := by
  unfold work
  cases hprogress : v.progress with
  | branches b => exact (hp b hprogress).elim
  | _ => rfl

/-- The nested workflows of a state are advanced, after they have been made where there are none. -/
theorem Branches.work_rule {start : Except ExecutionError (Branches Run)} {c : Child Run σ}
    {complete : Value → Except ExecutionError Advance} {v : Visit}
    {Q : Except ExecutionError Advance × Visit × σ → Prop}
    (unstarted : ∀ {err}, (∀ b, v.progress ≠ .branches b) → start = .error err →
      Q (.error err, { v with progress := .idle }, s))
    (running : ∀ {b p b' s'}, (v.progress = .branches b ∨
        (∀ b, v.progress ≠ .branches b) ∧ start = .ok b) →
      b.advance c s = (.running p, b', s') →
      Q (.ok (if p then .progressed else .blocked), { v with progress := .branches b' }, s'))
    (completed : ∀ {b rs b' s'}, (v.progress = .branches b ∨
        (∀ b, v.progress ≠ .branches b) ∧ start = .ok b) →
      b.advance c s = (.completed rs, b', s') →
      Q (complete (.arr rs), { v with progress := .idle }, s'))
    (failed : ∀ {b err b' s'}, (v.progress = .branches b ∨
        (∀ b, v.progress ≠ .branches b) ∧ start = .ok b) →
      b.advance c s = (.failed err, b', s') →
      Q (.error err, { v with progress := .idle }, s')) :
    Q (work start c complete v s) := by
  have htaken {b : Branches Run} (hb : v.progress = .branches b ∨
      (∀ b, v.progress ≠ .branches b) ∧ start = .ok b) : Q (work start c complete v s) := by
    rw [work_branches hb]
    rcases hadv : b.advance c s with ⟨p | rs | err, b', s'⟩
    · exact running hb hadv
    · exact completed hb hadv
    · exact failed hb hadv
  cases hp : v.progress with
  | branches b => exact htaken (.inl hp)
  | _ =>
    have hnone : ∀ b, v.progress ≠ .branches b := by simp [hp]
    obtain ⟨err, hstart⟩ | ⟨b, hstart⟩ : (∃ err, start = .error err) ∨ ∃ b, start = .ok b := by
      cases start <;> simp
    · rw [hstart, work_unopened hnone]
      exact unstarted hnone hstart
    · exact htaken (.inr ⟨hnone, hstart⟩)

namespace Machine

/-- A job is launched when the request for it can be made. -/
theorem Task.launch_rule {p : Task} {data context : Value}
    {Q : Except ExecutionError JobHandle × σ → Prop}
    (unready : ∀ {err}, Q (.error err, s))
    (asked : ∀ {input credentials}, p.flow.effectiveInput m.inputIds data context = .ok input →
      applyTemplate? p.credentials .null m.partIds data context = .ok credentials →
      Q ((e.runner.launch p.resource input credentials s).1.mapError fun err =>
        .job taskFailed (some err.message), (e.runner.launch p.resource input credentials s).2)) :
    Q (p.launch e m data context s) := by
  unfold launch
  simp only [bind, Except.bind, pure, Except.pure]
  cases hinput : p.flow.effectiveInput m.inputIds data context with
  | error err => exact unready
  | ok input =>
    cases hcredentials : applyTemplate? p.credentials .null m.partIds data context with
    | error err => simpa only [hcredentials] using unready
    | ok credentials => simpa only [hcredentials] using asked hinput hcredentials

/-- A job that has ended or is overdue is released, and another one is kept. -/
theorem Task.poll_rule {p : Task} {data context : Value} {handle : JobHandle}
    {launchedAt : Instant} {v : Visit} {Q : Except ExecutionError Advance × Visit × σ → Prop}
    (succeeded : ∀ {output s'}, e.runner.poll handle s = (.succeeded output, s') →
      Q (p.flow.complete m p.next data context output, v, e.runner.cleanup handle s'))
    (failed : ∀ {error cause s'}, e.runner.poll handle s = (.failed error cause, s') →
      Q (.error (.job (error.getD taskFailed) cause), v, e.runner.cleanup handle s'))
    (overdue : ∀ {s'}, e.runner.poll handle s = (.running, s') →
      p.isOverdue m.now launchedAt = true →
      Q (.error (p.timeout v.state), v, e.runner.cleanup handle s'))
    (running : ∀ {s'}, e.runner.poll handle s = (.running, s') →
      p.isOverdue m.now launchedAt = false →
      Q (.ok .blocked, { v with progress := .job handle launchedAt }, s')) :
    Q (p.poll e m data context handle launchedAt v s) := by
  unfold poll
  rcases hpoll : e.runner.poll handle s with ⟨_ | output | ⟨error, cause⟩, s'⟩
  · cases hdue : p.isOverdue m.now launchedAt with
    | true => simpa only [hdue, if_true] using overdue hpoll hdue
    | false => simpa only [hdue, Bool.false_eq_true, if_false] using running hpoll hdue
  · exact succeeded hpoll
  · exact failed hpoll

/-- The job of a Task state is polled, after it has been launched where there is none. -/
theorem Task.advance_rule {p : Task} {data context : Value} {v : Visit}
    {Q : Except ExecutionError Advance × Visit × σ → Prop}
    (held : ∀ {handle launchedAt}, v.progress = .job handle launchedAt →
      Q (p.poll e m data context handle launchedAt { v with progress := .idle } s))
    (unlaunched : ∀ {err s'}, (∀ handle launchedAt, v.progress ≠ .job handle launchedAt) →
      p.launch e m data context s = (.error err, s') →
      Q (.error err, { v with progress := .idle }, s'))
    (launched : ∀ {handle s'}, (∀ handle launchedAt, v.progress ≠ .job handle launchedAt) →
      p.launch e m data context s = (.ok handle, s') →
      Q (p.poll e m data context handle m.now { v with progress := .idle } s')) :
    Q (p.advance e m data context v s) := by
  unfold advance
  cases hp : v.progress with
  | job handle launchedAt => exact held hp
  | idle | waiting | branches =>
    have hnone : ∀ handle launchedAt, v.progress ≠ .job handle launchedAt := by simp [hp]
    rcases hlaunch : p.launch e m data context s with ⟨err | handle, s'⟩
    · exact unlaunched hnone hlaunch
    · exact launched hnone hlaunch

/-- The work of a state in a stay, apart from what it does about errors. -/
def State.work (e : Engine σ) (m : Moment) (r : Run) (stay : Visit) :
    State → Visit → σ → Except ExecutionError Advance × Visit × σ
  | .pass p, v, s => (p.advance m r.data (r.contextAt stay), v, s)
  | .succeed p, v, s => (p.advance m r.data (r.contextAt stay), v, s)
  | .fail p, v, s => (p.advance r.data (r.contextAt stay), v, s)
  | .choice p, v, s => (p.advance m stay.state r.data (r.contextAt stay), v, s)
  | .wait p, v, s =>
    ((p.advance m r.data (r.contextAt stay) v).1, (p.advance m r.data (r.contextAt stay) v).2, s)
  | .task p, v, s => p.advance e m r.data (r.contextAt stay) v s
  | .parallel p branches, v, s =>
    Branches.work (p.start branches.length m r.execution r.data (r.contextAt stay))
      (State.child e m (.parallel p branches))
      (p.flow.complete m p.next r.data (r.contextAt stay)) v s
  | .map p processor, v, s =>
    Branches.work (p.start m r.execution r.data (r.contextAt stay))
      (State.child e m (.map p processor))
      (p.flow.complete m p.next r.data (r.contextAt stay)) v s

/-- To complete a state is to leave it. -/
theorem DataFlow.complete_leaves {f : DataFlow} {next : Option String} {data context raw : Value}
    {a : Advance} (h : f.complete m next data context raw = .ok a) : ∃ output next, a = .completed output next := by
  obtain ⟨output, -, heq⟩ := map_ok h
  exact ⟨output, next, heq.symm⟩

/-- A state that neither waits nor nests nor has a job is left at once. -/
theorem State.plain_leaves {st : State} {r : Run} {stay v : Visit} {a : Advance}
    (hst : st.handling? = none) (hwait : ∀ p, st ≠ .wait p)
    (h : (st.work e m r stay v s).1 = .ok a) : ∃ output next, a = .completed output next := by
  cases st with
  | wait p => exact (hwait p rfl).elim
  | task | parallel | map => cases hst
  | pass p =>
    simp only [State.work, Pass.advance] at h
    split at h
    · exact DataFlow.complete_leaves h
    · obtain ⟨input, -, h⟩ := bind_ok h
      exact DataFlow.complete_leaves h
  | succeed p =>
    obtain ⟨input, -, h⟩ := bind_ok h
    exact DataFlow.complete_leaves h
  | fail p =>
    obtain ⟨error, -, h⟩ := bind_ok h
    obtain ⟨cause, -, h⟩ := bind_ok h
    cases h
  | choice p =>
    obtain ⟨input, -, h⟩ := bind_ok h
    dsimp only at h
    split at h
    · exact DataFlow.complete_leaves h
    · cases h

/-- A state that can be retried guards its work. -/
theorem State.advance_eq (st : State) (r : Run) (v : Visit) (s : σ) :
    State.advance e m st r v s =
      match st.handling? with
      | none => st.work e m r v v s
      | some h => h.guard m r.data (st.work e m r v) v s := by
  cases st with
  | parallel p branches => exact advance_parallel p branches r v s
  | map p processor => exact advance_map p processor r v s
  | _ => rfl

/-- Nested workflows as a state makes them: each has yet to start, and there is a machine for it. -/
def State.Opens (st : State) (execution : Execution) (b : Branches Run) : Prop :=
  (st.kind = .parallel ∨ st.kind = .map) ∧
    ∃ (inputs : List Value) (limit : Nat) (tolerance : Tolerance),
      b = .ofList (inputs.map (Run.ofInput execution)) limit tolerance ∧
        ∀ i < inputs.length, (st.machineAt? i).isSome

theorem Parallel.opens {p : Parallel} {branches : List Machine} {execution : Execution}
    {data context : Value} {b : Branches Run}
    (h : p.start branches.length m execution data context = .ok b) :
    (State.parallel p branches).Opens execution b := by
  unfold start at h
  simp only [bind, Except.bind, pure, Except.pure] at h
  split at h
  · cases h
  · rename_i input _
    cases h
    refine ⟨Or.inl rfl, List.replicate branches.length input, 0, {}, by simp, ?_⟩
    intro i hi
    simp only [List.length_replicate] at hi
    simp [State.machineAt?, hi]

theorem Map.opens {p : Map} {processor : Machine} {execution : Execution}
    {data context : Value} {b : Branches Run}
    (h : p.start m execution data context = .ok b) :
    (State.map p processor).Opens execution b := by
  unfold start at h
  simp only [bind, Except.bind, pure, Except.pure] at h
  split at h
  · cases h
  · split at h
    · cases h
    · rename_i inputs _
      cases h
      exact ⟨Or.inr rfl, inputs, p.maxConcurrency, p.tolerance, rfl, fun _ _ => rfl⟩

/-- The nested workflows that a state makes, if it is one that nests. -/
def State.opening? (m : Moment) (r : Run) (stay : Visit) :
    State → Option (Except ExecutionError (Branches Run))
  | .parallel p branches =>
    some (p.start branches.length m r.execution r.data (r.contextAt stay))
  | .map p _ => some (p.start m r.execution r.data (r.contextAt stay))
  | _ => none

theorem State.opening_opens {st : State} {r : Run} {stay : Visit} {b : Branches Run}
    (h : st.opening? m r stay = some (.ok b)) : st.Opens r.execution b := by
  cases st with
  | parallel p branches => exact Parallel.opens (Option.some.inj h)
  | map p processor => exact Map.opens (Option.some.inj h)
  | _ => cases h

/-- Nested workflows that a state has made in a workflow of that execution. -/
def State.Makes (st : State) (execution : Execution) (b : Branches Run) : Prop :=
  ∃ m r stay, r.execution = execution ∧ st.opening? m r stay = some (.ok b)

theorem State.Makes.opens {st : State} {execution : Execution} {b : Branches Run}
    (h : st.Makes execution b) : st.Opens execution b := by
  obtain ⟨m, r, stay, rfl, hopening⟩ := h
  exact opening_opens hopening

/-- The work of a state has the parts of a plain state, of a Task, or of one that nests. -/
theorem State.work_rule {st : State} {r : Run} {stay v : Visit}
    {Q : Except ExecutionError Advance × Visit × σ → Prop}
    (plain : ∀ {res}, st.handling? = none → (∀ p, st ≠ .wait p) →
      (∀ v' (s' : σ), st.work e m r stay v' s' = (res, v', s')) → Q (res, v, s))
    (wait : ∀ {p}, st = .wait p → Q ((p.advance m r.data (r.contextAt stay) v).1,
      (p.advance m r.data (r.contextAt stay) v).2, s))
    (task : ∀ {p}, st = .task p → Q (p.advance e m r.data (r.contextAt stay) v s))
    (nested : ∀ {start flow}, st.kind = .parallel ∨ st.kind = .map →
      (∀ b, start = .ok b → st.Makes r.execution b) →
      Q (Branches.work start (st.child e m)
        (DataFlow.complete flow m st.next? r.data (r.contextAt stay)) v s)) :
    Q (st.work e m r stay v s) := by
  cases st with
  | wait p => exact wait rfl
  | task p => exact task rfl
  | parallel p branches =>
    exact nested (Or.inl rfl) fun b hb => ⟨m, r, stay, rfl, congrArg some hb⟩
  | map p processor =>
    exact nested (Or.inr rfl) fun b hb => ⟨m, r, stay, rfl, congrArg some hb⟩
  | pass | succeed | fail | choice => exact plain rfl (by simp) fun _ _ => rfl

/-- An advance waits out a delay, or does the work of the state and sees to its errors. -/
theorem State.advance_rule {st : State} {r : Run} {v : Visit}
    {Q : Except ExecutionError Advance × Visit × σ → Prop}
    (waiting : v.notBefore.any (fun t => m.now.before t) = true → Q (.ok .blocked, v, s))
    (worked : ∀ {w res v' s'}, (w = v ∨ w = { v with notBefore := none }) →
      st.work e m r v w s = (res, v', s') → (∀ err, res = .error err → st.handling? = none) →
      Q (res, v', s'))
    (handled : ∀ {h err v' s'}, st.handling? = some h →
      st.work e m r v { v with notBefore := none } s = (.error err, v', s') →
      Q ((h.handle m r.data err v').1, (h.handle m r.data err v').2, s')) :
    Q (State.advance e m st r v s) := by
  rw [State.advance_eq]
  cases hst : st.handling? with
  | none => exact worked (Or.inl rfl) rfl fun _ _ => hst
  | some h =>
    refine ErrorHandling.guard_rule waiting ?_ ?_
    · intro a v' s' _ hwork
      exact worked (Or.inr rfl) hwork (by simp)
    · intro err v' s' _ hwork
      exact handled hst hwork

/-- A state that waits out a delay does nothing. -/
theorem State.advance_delayed {st : State} {h : ErrorHandling} {r : Run} {v : Visit}
    (hst : st.handling? = some h)
    (hwait : v.notBefore.any (fun t => m.now.before t) = true) :
    State.advance e m st r v s = (.ok .blocked, v, s) := by
  rw [State.advance_eq, hst]
  simp only [ErrorHandling.guard, hwait, if_true]

/-- The number of steps does not count in an advance. -/
theorem State.advance_counted (st : State) (r : Run) (n : Nat) (v : Visit) (s : σ) :
    State.advance e m st { r with steps := n } v s = State.advance e m st r v s := by
  cases st <;> rfl

end Machine

namespace Run

/-- A step of a running workflow advances its state and settles what came of it. -/
theorem step_running {machine : Machine} {r : Run} {v : Visit} {st : Machine.State}
    (hr : r.status = .running) (hlimit : r.isExhausted e.config = false)
    (hv : r.visit = some v) (hst : machine.state? v.state = some st) :
    machine.step e m r s =
      (({ r with steps := r.steps + 1 }.settle e.config machine m.now
          (st.advance e m r v s).2.1 (st.advance e m r v s).1).1,
        ({ r with steps := r.steps + 1 }.settle e.config machine m.now
          (st.advance e m r v s).2.1 (st.advance e m r v s).1).2,
        (st.advance e m r v s).2.2) := by
  have hstarted : r.start machine m.now = r := start_of_not_pending (by simp [hr]) m.now
  have hbegun : r.begun machine m.now = { r with steps := r.steps + 1 } := by
    rw [begun, hstarted]
  refine step_rule (Q := fun q => q = _) ?_ ?_ ?_ ?_ ?_
  · intro hterminal
    rw [isTerminal_of_running hr] at hterminal
    cases hterminal
  · intro _ hexhausted
    rw [hstarted, hlimit] at hexhausted
    cases hexhausted
  · intro _ hnone
    rw [hbegun] at hnone
    cases hv.symm.trans hnone
  · intro v' _ hv' hnone
    rw [hbegun] at hv'
    cases hv.symm.trans hv'
    rw [hst] at hnone
    cases hnone
  · intro v' st' res w s' _ _ hv' hst' hadv
    rw [hbegun] at hv' hadv
    cases hv.symm.trans hv'
    rw [hst, Option.some.injEq] at hst'
    subst st'
    rw [Machine.State.advance_counted] at hadv
    rw [hadv, hbegun]

end Run

end StatesLanguage
