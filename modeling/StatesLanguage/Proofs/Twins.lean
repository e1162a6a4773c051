import StatesLanguage.Proofs.Custody
import StatesLanguage.Proofs.Pairs
import StatesLanguage.Proofs.Steady
import StatesLanguage.Proofs.Tickets

/-! Runs of a steady machine at different times and with different runners. They stay twins, and each
step has the same outcome for both. -/
namespace StatesLanguage

variable {σ : Type}

mutual

/-- Runs that only instants and the handles of jobs tell apart, with the tickets for these jobs. Of
runs that have ended only the end counts. -/
inductive Run.Twin : Run → Run → Tickets → Prop where
  | pending {id : String} {input data : Value} {started started' : Option Instant}
    {output : Option Value} {error : Option ExecutionError} {cause next next' : Option String}
    {history history' : List Entry} {steps : Nat} :
    Run.Twin
      ⟨⟨id, input, started⟩, .pending, data, output, error, cause, none, next, history, steps⟩
      ⟨⟨id, input, started'⟩, .pending, data, output, error, cause, none, next', history', steps⟩ 0
  | running {id : String} {input data : Value} {started started' : Instant}
    {output : Option Value} {error : Option ExecutionError} {cause next next' : Option String}
    {v v' : Visit} {history history' : List Entry} {steps : Nat} {T : Tickets} :
    Visit.Twin v v' T →
    Run.Twin
      ⟨⟨id, input, some started⟩, .running, data, output, error, cause, some v, next, history,
        steps⟩
      ⟨⟨id, input, some started'⟩, .running, data, output, error, cause, some v', next', history',
        steps⟩ T
  | ended {r r' : Run} : r.isTerminal = true → r.EndsAs r' → Run.Twin r r' 0

inductive Visit.Twin : Visit → Visit → Tickets → Prop where
  | intro {state : String} {entered entered' : Instant} {p p' : Progress} {attempts : List Nat}
    {retries : Nat} {T : Tickets} : Progress.Twin p p' T →
    Visit.Twin ⟨state, entered, p, attempts, retries, none⟩
      ⟨state, entered', p', attempts, retries, none⟩ T

inductive Progress.Twin : Progress → Progress → Tickets → Prop where
  | idle : Progress.Twin .idle .idle 0
  | job {handle handle' : JobHandle} {launched launched' : Instant} {q : JobRequest} {n : Nat} :
    Progress.Twin (.job handle launched) (.job handle' launched') (q.tickets handle handle' n)
  | branches {b b' : Branches Run} {T : Tickets} : Branches.Alike Run.Twin b b' T →
    Progress.Twin (.branches b) (.branches b') T

end

mutual

/-- The tickets of twins are for the jobs that they hold. -/
theorem Run.Twin.jobs {r r' : Run} {T : Tickets} : Run.Twin r r' T →
    T.1.map JobTicket.handle = r.jobs ∧ T.2.map JobTicket.handle = r'.jobs
  | .pending => ⟨rfl, rfl⟩
  | .running hv => by
    rw [Run.jobs_of_visit rfl rfl, Run.jobs_of_visit rfl rfl]
    exact hv.jobs
  | .ended hr hends => by
    have hr' : r'.isTerminal = true := by rwa [← hends.isTerminal]
    exact ⟨by rw [Run.jobs_of_terminal hr]; rfl, by rw [Run.jobs_of_terminal hr']; rfl⟩

theorem Visit.Twin.jobs {v v' : Visit} {T : Tickets} : Visit.Twin v v' T →
    T.1.map JobTicket.handle = Run.progressJobs v.progress ∧
      T.2.map JobTicket.handle = Run.progressJobs v'.progress
  | .intro hp => hp.jobs

theorem Progress.Twin.jobs {p p' : Progress} {T : Tickets} : Progress.Twin p p' T →
    T.1.map JobTicket.handle = Run.progressJobs p ∧ T.2.map JobTicket.handle = Run.progressJobs p'
  | .idle => ⟨rfl, rfl⟩
  | .job => ⟨rfl, rfl⟩
  | .branches hb => branches_jobs hb

theorem branches_jobs {b b' : Branches Run} {T : Tickets} : Branches.Alike Run.Twin b b' T →
    T.1.map JobTicket.handle = Run.branchJobs b ∧ T.2.map JobTicket.handle = Run.branchJobs b'
  | .intro _ hflying => by
    simpa only [Run.branchJobs_eq, Run.childJobs_eq] using children_jobs hflying

theorem children_jobs {xs xs' : List (Nat × Run)} {T : Tickets} : Paired Run.Twin xs xs' T →
    T.1.map JobTicket.handle = Run.childJobs xs ∧ T.2.map JobTicket.handle = Run.childJobs xs'
  | .nil => ⟨rfl, rfl⟩
  | .cons hr hrest => by
    obtain ⟨hleft, hright⟩ := hr.jobs
    obtain ⟨hlefts, hrights⟩ := children_jobs hrest
    simp [Run.childJobs, hleft, hright, hlefts, hrights]

end

namespace Run.Twin

variable {r r' : Run} {T F : Tickets} {runner : JobRunner σ} {s₀ s s' : σ}

theorem ends (h : Twin r r' T) : r.EndsAs r' := by
  cases h with
  | pending | running => exact ⟨rfl, rfl, rfl, rfl⟩
  | ended _ hends => exact hends

theorem isTerminal_eq (h : Twin r r' T) : r.isTerminal = r'.isTerminal :=
  h.ends.isTerminal

theorem result_eq (h : Twin r r' T) : r.result? = r'.result? :=
  h.ends.result

theorem start (h : Twin r r' T) (machine : Machine) (now now' : Instant) :
    Twin (r.start machine now) (r'.start machine now') T := by
  cases h with
  | @pending _ _ _ started started' =>
    cases started <;> cases started' <;> exact .running (.intro .idle)
  | running hv => exact .running hv
  | ended hr hends =>
    have hr' : r'.isTerminal = true := by rwa [← hends.isTerminal]
    rw [start_of_not_pending (by rintro hp; simp [isTerminal, hp, Status.isTerminal] at hr),
      start_of_not_pending (by rintro hp; simp [isTerminal, hp, Status.isTerminal] at hr')]
    exact .ended hr hends

/-- Twins that have begun a step are in the same state, with the same data. -/
theorem of_running (h : Twin r r' T) (hr : r.status = .running) :
    ∃ v v', r.visit = some v ∧ r'.visit = some v' ∧ Visit.Twin v v' T ∧
      r.data = r'.data ∧ r.execution.id = r'.execution.id ∧
      r.execution.input = r'.execution.input ∧ r.steps = r'.steps ∧
      Context.Agree (r.contextAt v) (r'.contextAt v') := by
  cases h with
  | pending => cases hr
  | ended hended => simp [isTerminal, hr, Status.isTerminal] at hended
  | @running _ _ _ _ _ _ _ _ _ _ v v' _ _ _ _ hv =>
    refine ⟨v, v', rfl, rfl, hv, rfl, rfl, rfl, rfl, ?_⟩
    cases hv
    exact .object

theorem counted (h : Twin r r' T) (hr : r.status = .running) :
    Twin { r with steps := r.steps + 1 } { r' with steps := r'.steps + 1 } T := by
  cases h with
  | pending => cases hr
  | ended hended => simp [isTerminal, hr, Status.isTerminal] at hended
  | running hv => exact .running hv

/-- Twins that are aborted release all their jobs. -/
theorem abort (h : Twin r r' T) (hs : runner.ServesBoth s₀ s s' (T + F)) (cause : String) :
    Twin (r.abort runner cause s).1 (r'.abort runner cause s').1 0 ∧
      runner.ServesBoth s₀ (r.abort runner cause s).2 (r'.abort runner cause s').2 F := by
  obtain ⟨hleft, hright⟩ := h.jobs
  cases hr : r.isTerminal with
  | true =>
    have hr' : r'.isTerminal = true := by rw [← h.isTerminal_eq, hr]
    simp only [Run.abort, hr, hr', if_true]
    exact ⟨.ended hr h.ends, hs.lost⟩
  | false =>
    have hr' : r'.isTerminal = false := by rw [← h.isTerminal_eq, hr]
    simp only [Run.abort, hr, hr', Bool.false_eq_true, if_false]
    exact ⟨.ended rfl ⟨rfl, h.ends.output, h.ends.error, rfl⟩, hs.1.releases hleft,
      hs.2.releases hright⟩

end Run.Twin

section

variable {e : Engine σ} {m m' : Moment} {s₀ s s' : σ} {v v' : Visit} {T F : Tickets}
  {data context context' : Value} {refusal : JobRequest → Option JobError}
  {answer : JobRequest → Nat → JobStatus}

/-- Twins that leave a state without a job. -/
theorem inStep_idle {res : Except ExecutionError Advance} (hv : Visit.Twin v v' 0)
    (hs : e.runner.ServesBoth s₀ s s' F) :
    InStep Visit.Twin (e.runner.ServesBoth s₀) F (res, v, s) (res, v', s') :=
  ⟨rfl, 0, hv, by rwa [zero_add]⟩

/-- Without retriers an error leads to the same at all times, and the stay is as it was. -/
theorem ErrorHandling.handle_unretried {h : ErrorHandling} (hretriers : h.retriers = [])
    (m m' : Moment) (data : Value) (err : ExecutionError) (v v' : Visit) :
    (h.handle m data err v).1 = (h.handle m' data err v').1 ∧ (h.handle m data err v).2 = v := by
  simp [handle, retrierFor?, hretriers]

/-- A state without retriers does the same about the errors of twins. -/
theorem ErrorHandling.guard_twins {h : ErrorHandling} (hretriers : h.retriers = [])
    {work work' : Visit → σ → Except ExecutionError Advance × Visit × σ}
    (hv : Visit.Twin v v' T)
    (hwork : InStep Visit.Twin (e.runner.ServesBoth s₀) F (work v s) (work' v' s')) :
    InStep Visit.Twin (e.runner.ServesBoth s₀) F (h.guard m data work v s)
      (h.guard m' data work' v' s') := by
  cases hv with
  | intro hp =>
    simp only [guard, Option.any_none, Bool.false_eq_true, if_false]
    obtain ⟨res, w, w', s₁, s₁', U, hleft, hright, hv, hs⟩ := hwork.split
    simp only [hleft, hright]
    cases res with
    | ok a => exact ⟨rfl, U, hv, hs⟩
    | error err =>
      obtain ⟨heq, hw⟩ := handle_unretried hretriers m m' data err w w'
      obtain ⟨-, hw'⟩ := handle_unretried hretriers m' m data err w' w
      refine ⟨heq, U, ?_, hs⟩
      simpa only [hw, hw'] using hv

namespace Machine

theorem Task.launch_twins {p : Task} (m m' : Moment) (data : Value)
    (hrunner : e.runner.Oblivious s₀ refusal answer) (hp : p.Steady)
    (hc : Context.Agree context context') (hs : e.runner.ServesBoth s₀ s s' F) :
    (∃ err s₁ s₁', p.launch e m data context s = (.error err, s₁) ∧
      p.launch e m' data context' s' = (.error err, s₁') ∧ e.runner.ServesBoth s₀ s₁ s₁' F) ∨
    ∃ (q : JobRequest) (handle handle' : JobHandle) (s₁ s₁' : σ),
      p.launch e m data context s = (.ok handle, s₁) ∧
      p.launch e m' data context' s' = (.ok handle', s₁') ∧
      e.runner.ServesBoth s₀ s₁ s₁' (q.tickets handle handle' 0 + F) := by
  have hinput : p.flow.effectiveInput m.inputIds data context =
      p.flow.effectiveInput m'.inputIds data context' := hp.flow.effectiveInput_eq hc
  have hcredentials : applyTemplate? p.credentials .null m.partIds data context =
      applyTemplate? p.credentials .null m'.partIds data context' :=
    applyTemplate_eq hp.credentials hc
  simp only [launch, bind, Except.bind, pure, Except.pure, ← hinput, ← hcredentials]
  cases p.flow.effectiveInput m.inputIds data context with
  | error err => exact .inl ⟨err, s, s', rfl, rfl, hs⟩
  | ok input =>
    cases applyTemplate? p.credentials .null m.partIds data context with
    | error err => exact .inl ⟨err, s, s', rfl, rfl, hs⟩
    | ok credentials =>
      obtain ⟨err, s₁, s₁', hleft, hright, hs⟩ | ⟨handle, handle', s₁, s₁', hleft, hright, hs⟩ :=
        hs.request hrunner ⟨p.resource, input, credentials⟩
      · change e.runner.launch p.resource input credentials s = _ at hleft
        change e.runner.launch p.resource input credentials s' = _ at hright
        simp only [hleft, hright]
        exact .inl ⟨_, s₁, s₁', rfl, rfl, hs⟩
      · change e.runner.launch p.resource input credentials s = _ at hleft
        change e.runner.launch p.resource input credentials s' = _ at hright
        simp only [hleft, hright]
        exact .inr ⟨_, handle, handle', s₁, s₁', rfl, rfl, hs⟩

theorem Task.poll_twins {p : Task} {q : JobRequest} {handle handle' : JobHandle} {n : Nat}
    {launched launched' : Instant} (hrunner : e.runner.Oblivious s₀ refusal answer)
    (hp : p.Steady) (hc : Context.Agree context context') (hv : Visit.Twin v v' 0)
    (hs : e.runner.ServesBoth s₀ s s' (q.tickets handle handle' n + F)) :
    InStep Visit.Twin (e.runner.ServesBoth s₀) F
      (p.poll e m data context handle launched v s)
      (p.poll e m' data context' handle' launched' v' s') := by
  obtain ⟨heq, hs⟩ := hs.poll hrunner
  unfold poll
  rcases hleft : e.runner.poll handle s with ⟨status, s₁⟩
  rcases hright : e.runner.poll handle' s' with ⟨status', s₁'⟩
  simp only [hleft, hright] at heq hs
  subst status'
  cases status with
  | succeeded output =>
    simp only [hp.flow.complete_eq m m' hc]
    exact inStep_idle hv hs.cleanup
  | failed error cause => exact inStep_idle hv hs.cleanup
  | running =>
    simp only [isOverdue, hp.timeout, Option.any_none, Bool.false_eq_true, if_false]
    cases hv with
    | intro _ => exact ⟨rfl, _, .intro .job, hs⟩

theorem Task.advance_twins {p : Task} (hrunner : e.runner.Oblivious s₀ refusal answer)
    (hp : p.Steady) (hc : Context.Agree context context') (hv : Visit.Twin v v' T)
    (hs : e.runner.ServesBoth s₀ s s' (T + F)) :
    InStep Visit.Twin (e.runner.ServesBoth s₀) F (p.advance e m data context v s)
      (p.advance e m' data context' v' s') := by
  cases hv with
  | intro hp' =>
    cases hp' with
    | job => exact poll_twins hrunner hp hc (.intro .idle) hs
    | idle | branches =>
      unfold advance
      obtain ⟨err, s₁, s₁', hleft, hright, hs⟩ | ⟨q, handle, handle', s₁, s₁', hleft, hright, hs⟩ :=
        launch_twins m m' data hrunner hp hc hs.lost
      · simp only [hleft, hright]
        exact inStep_idle (.intro .idle) hs
      · simp only [hleft, hright]
        exact poll_twins hrunner hp hc (.intro .idle) hs

/-- Nested workflows that are made alike, or cannot be made for the same reason. -/
inductive MadeAlike :
    Except ExecutionError (Branches Run) → Except ExecutionError (Branches Run) → Prop where
  | failed {err : ExecutionError} : MadeAlike (.error err) (.error err)
  | made {b b' : Branches Run} : Branches.Alike Run.Twin b b' 0 → MadeAlike (.ok b) (.ok b')

theorem twin_ofInput {x x' : Execution} (hid : x.id = x'.id) (hinput : x.input = x'.input)
    (data : Value) : Run.Twin (.ofInput x data) (.ofInput x' data) 0 := by
  obtain ⟨id, input, started⟩ := x
  obtain ⟨id', input', started'⟩ := x'
  simp only at hid hinput
  subst hid hinput
  exact .pending

theorem Map.itemInputs_eq {p : Map} (hp : p.Steady) (hc : Context.Agree context context')
    (ids ids' : Identifiers) (input : Value) (n : Nat) (items : List Value) :
    p.itemInputs ids input context n items = p.itemInputs ids' input context' n items := by
  induction items generalizing n context context' with
  | nil => rfl
  | cons item rest ih =>
    have hitem : applyTemplate? p.itemSelector item (ids.part n) input
          (Context.withItem n item context) =
        applyTemplate? p.itemSelector item (ids'.part n) input
          (Context.withItem n item context') :=
      applyTemplate_eq hp.selector hc.item
    rw [itemInputs, itemInputs, hitem, ih hc.item]

theorem Map.start_twins {p : Map} {x x' : Execution} (hp : p.Steady)
    (hc : Context.Agree context context') (hid : x.id = x'.id) (hinput : x.input = x'.input) :
    MadeAlike (p.start m x data context) (p.start m' x' data context') := by
  have hitems : p.items (p.flow.filteredInput data context') context =
      p.items (p.flow.filteredInput data context') context' := by
    simp only [items, resolve, hp.items hc]
  simp only [start, bind, Except.bind, pure, Except.pure, hp.flow.filteredInput_eq hc, hitems]
  cases p.items (p.flow.filteredInput data context') context' with
  | error err => exact .failed
  | ok items =>
    simp only [Map.itemInputs_eq hp hc m.partIds m'.partIds]
    cases p.itemInputs m'.partIds (p.flow.filteredInput data context') context' 0 items with
    | error err => exact .failed
    | ok inputs => exact .made (Branches.alike_ofList (twin_ofInput hid hinput) inputs _ _)

theorem Parallel.start_twins {p : Parallel} {x x' : Execution} (hp : p.flow.Steady)
    (hc : Context.Agree context context') (hid : x.id = x'.id) (hinput : x.input = x'.input)
    (n : Nat) :
    MadeAlike (p.start n m x data context) (p.start n m' x' data context') := by
  have heffective : p.flow.effectiveInput m.inputIds data context =
      p.flow.effectiveInput m'.inputIds data context' := hp.effectiveInput_eq hc
  simp only [start, bind, Except.bind, pure, Except.pure, heffective]
  cases p.flow.effectiveInput m'.inputIds data context' with
  | error err => exact .failed
  | ok input =>
    have hb := Branches.alike_ofList (twin_ofInput hid hinput) (List.replicate n input) 0 {}
    simp only [List.map_replicate] at hb
    exact .made hb

theorem visit_twins : Visit.Pairs Visit.Twin Run.Twin where
  nested hv := by
    cases hv with
    | intro hp =>
      cases hp with
      | branches hb => exact .inl ⟨_, _, rfl, rfl, hb⟩
      | idle | job => exact .inr ⟨by simp, by simp⟩
  branches hv hb := by
    cases hv
    exact .intro (.branches hb)
  idle hv := by
    cases hv
    exact .intro .idle

theorem branches_twins {start start' : Except ExecutionError (Branches Run)} {c c' : Child Run σ}
    {complete complete' : Value → Except ExecutionError Advance} (hstart : MadeAlike start start')
    (hc : c.Pairs c' Run.Twin (e.runner.ServesBoth s₀)) (hcomplete : complete = complete')
    (hv : Visit.Twin v v' T) (hs : e.runner.ServesBoth s₀ s s' (T + F)) :
    InStep Visit.Twin (e.runner.ServesBoth s₀) F (Branches.work start c complete v s)
      (Branches.work start' c' complete' v' s') := by
  subst hcomplete
  refine Branches.work_pairs visit_twins hc ?_ hv hs
  cases hstart with
  | failed => exact .inl ⟨_, rfl, rfl⟩
  | made hb => exact .inr ⟨_, _, rfl, rfl, hb⟩

/-- What a step of a steady machine does about twins. -/
def KeepsTwins (e : Engine σ) (s₀ : σ) (machine : Machine) : Prop :=
  ∀ {m m' : Moment} {r r' : Run} {s s' : σ} {T F : Tickets}, Run.Twin r r' T →
    e.runner.ServesBoth s₀ s s' (T + F) →
    InStep Run.Twin (e.runner.ServesBoth s₀) F (machine.step e m r s) (machine.step e m' r' s')

theorem State.child_pairs {st : State} (h : ∀ sub ∈ st.machines, sub.KeepsTwins e s₀) :
    (st.child e m).Pairs (st.child e m') Run.Twin (e.runner.ServesBoth s₀) :=
  State.child_in_step (fun hr => hr.start _ _ _) (fun sub hsub => h sub hsub)
    (fun hr => hr.result_eq) (fun hr hs => (hr.abort hs _).2) (fun hs => hs.lost)

/-- Twins in a steady state advance alike. -/
theorem State.advance_twins {st : State} {r r' : Run}
    (hrunner : e.runner.Oblivious s₀ refusal answer) (hst : st.Steady)
    (h : ∀ sub ∈ st.machines, sub.KeepsTwins e s₀) (hdata : r.data = r'.data)
    (hid : r.execution.id = r'.execution.id) (hinput : r.execution.input = r'.execution.input)
    (hc : Context.Agree (r.contextAt v) (r'.contextAt v')) (hv : Visit.Twin v v' T)
    (hs : e.runner.ServesBoth s₀ s s' (T + F)) :
    InStep Visit.Twin (e.runner.ServesBoth s₀) F (State.advance e m st r v s)
      (State.advance e m' st r' v' s') := by
  cases st with
  | wait p => exact hst.elim
  | pass p =>
    refine ⟨?_, T, hv, hs⟩
    simp only [State.advance, hdata]
    exact Pass.advance_eq hst hc
  | succeed p =>
    refine ⟨?_, T, hv, hs⟩
    simp only [State.advance, hdata]
    exact Succeed.advance_eq hst hc
  | fail p =>
    refine ⟨?_, T, hv, hs⟩
    simp only [State.advance, hdata]
    exact Fail.advance_eq hst.1 hst.2 hc
  | choice p =>
    refine ⟨?_, T, hv, hs⟩
    have hstate : v.state = v'.state := by cases hv; rfl
    simp only [State.advance, hdata, hstate]
    exact Choice.advance_eq hst.1 hst.2 hc
  | task p =>
    simp only [State.advance, hdata]
    exact ErrorHandling.guard_twins hst.retriers hv (Task.advance_twins hrunner hst hc hv hs)
  | parallel p branches =>
    rw [advance_parallel, advance_parallel, hdata]
    refine ErrorHandling.guard_twins hst.2 hv ?_
    refine branches_twins (Parallel.start_twins hst.1 hc hid hinput _) (State.child_pairs h) ?_ hv hs
    funext raw
    exact hst.1.complete_eq m m' hc
  | map p processor =>
    rw [advance_map, advance_map, hdata]
    refine ErrorHandling.guard_twins hst.retriers hv ?_
    refine branches_twins (Map.start_twins hst hc hid hinput) (State.child_pairs h) ?_ hv hs
    funext raw
    exact hst.flow.complete_eq m m' hc

theorem settle_twins {machine : Machine} {r r' : Run} {U : Tickets}
    {res : Except ExecutionError Advance} (hr : Run.Twin r r' U) (hrunning : r.status = .running)
    (hv : Visit.Twin v v' T) (hs : e.runner.ServesBoth s₀ s s' (T + F)) (now now' : Instant) :
    InStep Run.Twin (e.runner.ServesBoth s₀) F
      ((r.settle e.config machine now v res).1, (r.settle e.config machine now v res).2, s)
      ((r'.settle e.config machine now' v' res).1, (r'.settle e.config machine now' v' res).2, s') := by
  have hlost : e.runner.ServesBoth s₀ s s' (0 + F) := by
    rw [zero_add]
    exact hs.lost
  cases hr with
  | pending => cases hrunning
  | ended hended => simp [Run.isTerminal, hrunning, Status.isTerminal] at hended
  | running _ =>
    rcases res with err | _ | _ | ⟨output, _ | next⟩
    · exact ⟨rfl, 0, .ended rfl ⟨rfl, rfl, rfl, rfl⟩, hlost⟩
    · exact ⟨rfl, T, .running hv, hs⟩
    · exact ⟨rfl, T, .running hv, hs⟩
    · exact ⟨rfl, 0, .ended rfl ⟨rfl, rfl, rfl, rfl⟩, hlost⟩
    · exact ⟨rfl, 0, .running (.intro .idle), hlost⟩

/-- Twins of a steady machine stay twins, and each step has the same outcome for both. -/
theorem step_twins (hrunner : e.runner.Oblivious s₀ refusal answer) {machine : Machine}
    (hmachine : machine.Steady) : machine.KeepsTwins e s₀ := by
  induction hmachine with
  | @intro machine hstates _ ih =>
    intro m m' r r' s s' T F hr hs
    rw [step_eq, step_eq, Run.stepWith_eq, Run.stepWith_eq, ← hr.isTerminal_eq]
    by_cases hterminal : r.isTerminal = true
    · rw [if_pos hterminal, if_pos hterminal]
      exact ⟨rfl, T, hr, hs⟩
    rw [if_neg hterminal, if_neg hterminal]
    -- The start, the limit of steps and the search for the state see no instants, so that both runs
    -- take the same way.
    have hstarted := hr.start machine m.now m'.now
    have hrunning : (r.start machine m.now).status = .running :=
      Run.start_status (by simpa using hterminal) m.now
    have hbegun : Run.Twin (r.begun machine m.now) (r'.begun machine m'.now) T :=
      hstarted.counted hrunning
    obtain ⟨v, v', hvisit, hvisit', hv, hdata, hid, hinput, hsteps, hc⟩ :=
      hstarted.of_running hrunning
    have hstop : ∀ {r r' : Run} {cause : String}, Run.Twin r r' T →
        InStep Run.Twin (e.runner.ServesBoth s₀) F (r.stop e cause s) (r'.stop e cause s') := by
      intro r r' cause hr
      obtain ⟨haborted, hs⟩ := hr.abort hs cause
      exact ⟨rfl, 0, haborted, by rwa [zero_add]⟩
    have hexhausted : (r.start machine m.now).isExhausted e.config =
        (r'.start machine m'.now).isExhausted e.config := by
      rw [Run.isExhausted, Run.isExhausted, hsteps]
    rw [← hexhausted]
    by_cases hlimit : (r.start machine m.now).isExhausted e.config = true
    · rw [if_pos hlimit, if_pos hlimit]
      exact hstop hstarted
    rw [if_neg hlimit, if_neg hlimit]
    have hvisit : (r.begun machine m.now).visit = some v := hvisit
    have hvisit' : (r'.begun machine m'.now).visit = some v' := hvisit'
    have hstate : v.state = v'.state := by cases hv; rfl
    simp only [hvisit, hvisit', ← hstate]
    cases hst : machine.state? v.state with
    | none => exact hstop hbegun
    | some st =>
      have hmem := mem_states hst
      have hadvance : InStep Visit.Twin (e.runner.ServesBoth s₀) F
          (State.advance e m st (r.begun machine m.now) v s)
          (State.advance e m' st (r'.begun machine m'.now) v' s') :=
        State.advance_twins hrunner (hstates _ hmem) (ih _ hmem) hdata hid hinput hc hv hs
      obtain ⟨res, v₁, v₁', s₁, s₁', U, hleft, hright, hv, hs⟩ := hadvance.split
      simp only [Option.map_some, hleft, hright]
      exact settle_twins hbegun hrunning hv hs m.now m'.now

end Machine

end

end StatesLanguage
