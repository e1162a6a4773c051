import StatesLanguage.Proofs.Calls
import StatesLanguage.Proofs.Closed

/-! A workflow goes from state to state along the transitions of its graph, and never loses its way
when its document is valid. -/
namespace StatesLanguage

variable {σ : Type} {e : Engine σ} {m : Moment} {s : σ}

namespace Machine

variable {machine : Machine} {st : State} {r : Run} {v v' : Visit} {s' : σ}
  {res : Except ExecutionError Advance}

/-- The states that a workflow is led through, in order. -/
inductive Trail (machine : Machine) : List String → Prop where
  | nil : Trail machine []
  | start : Trail machine [machine.start]
  | next {trail : List String} {name next : String} {st : State} :
    Trail machine (trail ++ [name]) → machine.state? name = some st → next ∈ st.targets →
    Trail machine (trail ++ [name] ++ [next])

/-- A trail in a closed machine is one of states of the machine. -/
theorem Trail.defined {trail : List String} (h : machine.Trail trail) (hclosed : machine.Closed) :
    ∀ name ∈ trail, (machine.state? name).isSome := by
  induction h with
  | nil => simp
  | start =>
    intro name hname
    rw [List.mem_singleton.mp hname]
    exact hclosed.start
  | next _ hst hnext ih =>
    intro name hname
    rcases List.mem_append.mp hname with hname | hname
    · exact ih name hname
    · rw [List.mem_singleton.mp hname]
      exact hclosed.target hst hnext

/-- A result that leads nowhere but to targets of the state. -/
def State.Leads (st : State) (res : Except ExecutionError Advance) : Prop :=
  ∀ output next, res = .ok (.completed output (some next)) → next ∈ st.targets

theorem State.leads_error {err : ExecutionError} : st.Leads (.error err) := by
  intro output next h
  cases h

theorem State.leads_complete {f : DataFlow} {next : Option String} {data context raw : Value}
    (h : ∀ name, next = some name → name ∈ st.targets) :
    st.Leads (f.complete m next data context raw) := by
  intro output name hres
  obtain ⟨value, _, heq⟩ := map_ok hres
  cases heq
  exact h name rfl

theorem State.leads_next {f : DataFlow} {next : Option String} {data context raw : Value}
    (h : st.next? = next) : st.Leads (f.complete m next data context raw) := by
  refine leads_complete fun name hname => ?_
  simp [targets, h, hname]

theorem State.leads_bind {α : Type} {x : Except ExecutionError α}
    {f : α → Except ExecutionError Advance} (h : ∀ a, st.Leads (f a)) : st.Leads (x >>= f) := by
  intro output next hres
  obtain ⟨a, _, ha⟩ := bind_ok hres
  exact h a output next ha

theorem Pass.leads {p : Pass} {data context : Value} :
    (State.pass p).Leads (p.advance m data context) := by
  unfold Pass.advance
  split
  · exact State.leads_bind fun raw => State.leads_next rfl
  · exact State.leads_bind fun raw => State.leads_next rfl

theorem Choice.leads {p : Choice} {name : String} {data context : Value} :
    (State.choice p).Leads (p.advance m name data context) := by
  refine State.leads_bind fun input => ?_
  dsimp only
  cases hchosen : ((p.choices.find? fun c => c.1.holds input context).map Prod.snd).or p.default with
  | none => exact State.leads_error
  | some next =>
    refine State.leads_complete fun name hname => ?_
    cases hname
    rw [State.targets, List.mem_append, List.mem_append]
    refine Or.inl (Or.inr (List.mem_append.mpr ?_))
    rcases Option.or_eq_some_iff.mp hchosen with hfound | ⟨_, hdefault⟩
    · obtain ⟨c, hc, hcnext⟩ := Option.map_eq_some_iff.mp hfound
      rw [← hcnext]
      exact Or.inl (List.mem_map_of_mem (List.mem_of_find?_eq_some hc))
    · exact Or.inr (by simp [hdefault])

theorem Wait.leads {p : Wait} {data context : Value} :
    (State.wait p).Leads (p.advance m data context v).1 := by
  unfold Wait.advance
  split
  · exact State.leads_error
  · simp only
    split_ifs
    · intro output next h
      cases h
    · exact State.leads_bind fun input => State.leads_next rfl

theorem Task.poll_leads {p : Task} {data context : Value} {handle : JobHandle}
    {launchedAt : Instant} :
    (State.task p).Leads (p.poll e m data context handle launchedAt v s).1 := by
  refine Task.poll_rule (Q := fun q => (State.task p).Leads q.1) ?_ ?_ ?_ ?_
  · intro output s' _
    exact State.leads_next rfl
  · intro error cause s' _
    exact State.leads_error
  · intro s' _ _
    exact State.leads_error
  · intro s' _ _ output next h
    cases h

theorem Task.leads {p : Task} {data context : Value} :
    (State.task p).Leads (p.advance e m data context v s).1 := by
  refine Task.advance_rule (Q := fun q => (State.task p).Leads q.1) ?_ ?_ ?_
  · intro handle launchedAt _
    exact Task.poll_leads
  · intro err s' _ _
    exact State.leads_error
  · intro handle s' _ _
    exact Task.poll_leads

theorem State.branches_leads {start : Except ExecutionError (Branches Run)} {c : Child Run σ}
    {complete : Value → Except ExecutionError Advance} (h : ∀ raw, st.Leads (complete raw)) :
    st.Leads (Branches.work start c complete v s).1 := by
  refine Branches.work_rule (Q := fun q => st.Leads q.1) ?_ ?_ ?_ ?_
  · intro err _ _
    exact State.leads_error
  · intro b p b' s' _ _ output next hres
    cases p <;> cases hres
  · intro b rs b' s' _ _
    exact h _
  · intro b err b' s' _ _
    exact State.leads_error

theorem State.work_leads {stay : Visit} : st.Leads (st.work e m r stay v s).1 := by
  cases st with
  | pass p => exact Pass.leads
  | succeed p =>
    exact State.leads_bind fun input => State.leads_complete (by simp)
  | fail p =>
    refine State.leads_bind fun error => State.leads_bind fun cause => State.leads_error
  | choice p => exact Choice.leads
  | wait p => exact Wait.leads
  | task p => exact Task.leads
  | parallel p branches =>
    exact State.branches_leads fun raw => State.leads_next rfl
  | map p processor =>
    exact State.branches_leads fun raw => State.leads_next rfl

/-- What a state leads to is its Next, one of its rules, its default, or one of its catchers. -/
theorem State.advance_leads : st.Leads (State.advance e m st r v s).1 := by
  refine State.advance_rule (Q := fun q => st.Leads q.1) ?_ ?_ ?_
  · intro _ output next h
    cases h
  · rintro w res v' s' _ hwork _
    have hleads : st.Leads (st.work e m r v w s).1 := State.work_leads
    rwa [hwork] at hleads
  · intro h err v' s' hst _
    refine ErrorHandling.handle_rule (Q := fun q => st.Leads q.1) ?_ ?_ ?_ ?_
    · intro i retrier _ _ output next hres
      cases hres
    · intro c value hc _ output next hres
      cases hres
      have hmem : c ∈ h.catchers := List.mem_of_find?_eq_some hc
      rw [State.targets, State.catcherTargets, hst]
      exact List.mem_append_right _ (List.mem_map_of_mem hmem)
    · intro c err' _ _
      exact State.leads_error
    · intro _
      exact State.leads_error

end Machine

/-- The states of a trail that have been left: the last one is not as long as the workflow is in it,
or when it was aborted there. -/
def Status.left (trail : List String) : Status → List String
  | .succeeded | .failed => trail
  | _ => trail.dropLast

namespace Run

variable {machine : Machine} {r : Run} {config : Config} {trail : List String}

/-- A workflow that has been led along a trail: it is in the last state, and what it has recorded
are the states before. -/
structure Follows (config : Config) (machine : Machine) (trail : List String) (r : Run) : Prop where
  path : machine.Trail trail
  current : r.current? = trail.getLast?
  history : config.recordHistory = true → r.history.map Entry.state = r.status.left trail

theorem follows_ofInput (execution : Execution) (input : Value) :
    Follows config machine [] (.ofInput execution input) :=
  ⟨.nil, rfl, fun _ => rfl⟩

theorem Follows.unvisited (h : Follows config machine trail r) (hv : r.visit = none) :
    trail = [] := by
  have hcurrent := h.current
  rw [current?, hv, Option.map_none] at hcurrent
  exact List.getLast?_eq_none_iff.mp hcurrent.symm

theorem Follows.visited {v : Visit} (h : Follows config machine trail r) (hv : r.visit = some v) :
    ∃ init, trail = init ++ [v.state] := by
  have hcurrent := h.current
  rw [current?, hv, Option.map_some] at hcurrent
  exact List.getLast?_eq_some_iff.mp hcurrent.symm

/-- To start is to enter the first state. -/
theorem follows_start (hc : Coherent machine r) (h : Follows config machine trail r)
    (now : Instant) : ∃ trail', trail <+: trail' ∧ trail'.length ≤ max 1 trail.length ∧
      Follows config machine trail' (r.start machine now) := by
  by_cases hr : r.status = .pending
  · have hempty := h.unvisited (hc.unvisited hr)
    subst hempty
    refine ⟨[machine.start], List.nil_prefix, by simp, ?_⟩
    rw [start_of_pending hr]
    refine ⟨.start, rfl, fun hrecord => ?_⟩
    have hhistory := h.history hrecord
    rwa [hr] at hhistory
  · rw [start_of_not_pending hr]
    exact ⟨trail, List.prefix_rfl, by omega, h⟩

theorem follows_abort (h : Follows config machine trail r) (runner : JobRunner σ) (cause : String) :
    Follows config machine trail (r.abort runner cause s).1 := by
  cases hr : r.isTerminal with
  | true => simpa [abort, hr] using h
  | false =>
    simp only [abort, hr, Bool.false_eq_true, if_false]
    refine ⟨h.path, ?_, fun hrecord => ?_⟩
    · rw [← h.current, current?, current?, Option.map_map]
      rfl
    · have hhistory := h.history hrecord
      have hleft : r.status.left trail = trail.dropLast := by
        rw [isTerminal] at hr
        cases hstatus : r.status <;> simp_all [Status.isTerminal, Status.left]
      rwa [hleft] at hhistory

/-- To settle what came of an advance is to stay, to follow one transition, or to end. -/
theorem follows_settle (now : Instant) {v v' : Visit} {st : Machine.State}
    {res : Except ExecutionError Advance} (h : Follows e.config machine trail r)
    (hrunning : r.status = .running) (hv : r.visit = some v)
    (hst : machine.state? v.state = some st) (hstay : v'.state = v.state) (hleads : st.Leads res) :
    ∃ trail', trail <+: trail' ∧ trail'.length ≤ trail.length + 1 ∧
      Follows e.config machine trail' (r.settle e.config machine now v' res).2 := by
  obtain ⟨init, rfl⟩ := h.visited hv
  have hleft : e.config.recordHistory = true → r.history.map Entry.state = init := by
    intro hrecord
    have hhistory := h.history hrecord
    rw [hrunning] at hhistory
    simpa [Status.left] using hhistory
  have hstayed : Follows e.config machine (init ++ [v.state]) { r with visit := some v' } := by
    refine ⟨h.path, by simp [current?, hstay], fun hrecord => ?_⟩
    exact h.history hrecord
  have hrecorded : ∀ outcome, e.config.recordHistory = true →
      (r.leave e.config v' none outcome).history.map Entry.state = init ++ [v.state] := by
    intro outcome hrecord
    simp [leave, hrecord, hleft hrecord, hstay]
  rcases res with err | _ | _ | ⟨output, _ | next⟩
  · exact ⟨_, List.prefix_rfl, by omega, h.path, by simp [settle, leave, current?, hstay],
      fun hrecord => hrecorded _ hrecord⟩
  · exact ⟨_, List.prefix_rfl, by omega, hstayed⟩
  · exact ⟨_, List.prefix_rfl, by omega, hstayed⟩
  · exact ⟨_, List.prefix_rfl, by omega, h.path, by simp [settle, leave, current?, hstay],
      fun hrecord => hrecorded _ hrecord⟩
  · refine ⟨init ++ [v.state] ++ [next], List.prefix_append _ _, by simp,
      .next h.path hst (hleads output next rfl), by simp [settle, enter, current?, arrive],
      fun hrecord => ?_⟩
    simp [settle, leave, enter, hrecord, hleft hrecord, hstay, hrunning, Status.left]

/-- A step follows at most one transition, after it has entered the first state where there is no
other. -/
theorem follows_step (hc : Coherent machine r) (h : Follows e.config machine trail r) :
    ∃ trail', trail <+: trail' ∧ trail'.length ≤ max 1 trail.length + 1 ∧
      Follows e.config machine trail' (machine.step e m r s).2.1 := by
  obtain ⟨trail₁, hprefix, hlength, hstart⟩ := follows_start hc h m.now
  have hstopped : ∀ {r' : Run} {cause}, Follows e.config machine trail₁ r' →
      ∃ trail', trail <+: trail' ∧ trail'.length ≤ max 1 trail.length + 1 ∧
        Follows e.config machine trail' (r'.stop e cause s).2.1 := by
    intro r' cause hr'
    exact ⟨trail₁, hprefix, by omega, follows_abort hr' e.runner cause⟩
  have hbegun : Follows e.config machine trail₁ (r.begun machine m.now) :=
    ⟨hstart.path, hstart.current, hstart.history⟩
  refine step_rule (Q := fun q => ∃ trail', trail <+: trail' ∧
    trail'.length ≤ max 1 trail.length + 1 ∧ Follows e.config machine trail' q.2.1) ?_ ?_ ?_ ?_ ?_
  · intro _
    exact ⟨trail, List.prefix_rfl, by omega, h⟩
  · intro _ _
    exact hstopped hstart
  · intro _ _
    exact hstopped hbegun
  · intro v _ _ _
    exact hstopped hbegun
  · intro v st res v' s' hr _ hv hst hadv
    have hstay := (Machine.State.advance_shifts hadv).1
    have hleads : st.Leads (Machine.State.advance e m st (r.begun machine m.now) v s).1 :=
      Machine.State.advance_leads
    rw [hadv] at hleads
    obtain ⟨trail₂, hprefix₂, hlength₂, hsettled⟩ :=
      follows_settle m.now hbegun (begun_status hr _) hv hst hstay hleads
    exact ⟨trail₂, hprefix.trans hprefix₂, by omega, hsettled⟩

theorem follows_invariant : Invariant e fun machine r =>
    Coherent machine r ∧ ∃ trail, Follows e.config machine trail r where
  fresh _ execution input := ⟨coherent_ofInput execution input, [], follows_ofInput execution input⟩
  start := by
    rintro machine r now ⟨hc, trail, h⟩
    obtain ⟨trail', _, _, h'⟩ := follows_start hc h now
    exact ⟨coherent_start hc now, trail', h'⟩
  step := by
    rintro machine r m s ⟨hc, trail, h⟩
    obtain ⟨trail', _, _, h'⟩ := follows_step (m := m) (s := s) hc h
    exact ⟨coherent_invariant.step hc, trail', h'⟩
  abort := by
    rintro machine r cause s ⟨hc, trail, h⟩
    exact ⟨coherent_abort hc _ cause s, trail, follows_abort h _ cause⟩

theorem Within.closed {machine' : Machine} {r' : Run} (h : Within machine r machine' r')
    (hclosed : machine.Closed) : machine'.Closed := by
  induction h with
  | self => exact hclosed
  | nested _ _ hst _ hsub _ ih => exact ih (hclosed.nested hst (Machine.State.mem_machines hsub))

/-- The current state of a workflow that runs a closed machine is a state of the machine. -/
theorem current_defined (hclosed : machine.Closed) (hc : Coherent machine r)
    (h : Follows config machine trail r) (hr : r.status = .running) :
    ∃ name st, r.current? = some name ∧ machine.state? name = some st := by
  obtain ⟨v, hv⟩ := Option.isSome_iff_exists.mp (hc.visited hr)
  obtain ⟨init, rfl⟩ := h.visited hv
  obtain ⟨st, hst⟩ := Option.isSome_iff_exists.mp (h.path.defined hclosed v.state (by simp))
  exact ⟨v.state, st, by rw [current?, hv]; rfl, hst⟩

/-- The only abort that a workflow of a closed machine makes itself is for too many steps. -/
theorem step_aborted (hclosed : machine.Closed) (hc : Coherent machine r)
    (h : Follows e.config machine trail r) (hr : r.isTerminal = false)
    (haborted : (machine.step e m r s).2.1.status = .aborted) :
    (r.start machine m.now).isExhausted e.config = true ∧
      (machine.step e m r s).2.1.abortCause = some (stepLimit e.config) := by
  obtain ⟨trail', _, _, hstart⟩ := follows_start hc h m.now
  have hcstart := coherent_start hc m.now
  obtain ⟨name, st, hcurrent, hst⟩ :=
    current_defined hclosed hcstart hstart (start_status hr m.now)
  revert haborted
  refine step_rule (Q := fun q => q.2.1.status = .aborted →
    _ ∧ q.2.1.abortCause = some (stepLimit e.config)) ?_ ?_ ?_ ?_ ?_
  · intro hterminal
    rw [hr] at hterminal
    cases hterminal
  · intro _ hexhausted _
    refine ⟨hexhausted, ?_⟩
    rw [stop, abort, isTerminal_of_running (start_status hr _)]
    rfl
  · intro _ hv
    have hv : (r.start machine m.now).visit = none := hv
    rw [current?, hv] at hcurrent
    cases hcurrent
  · intro v _ hv hnone
    have hv : (r.start machine m.now).visit = some v := hv
    rw [current?, hv] at hcurrent
    cases hcurrent
    rw [hst] at hnone
    cases hnone
  · intro v st res v' s' _ _ _ _ _ haborted
    have hrunning : (r.begun machine m.now).status = .running := begun_status hr _
    rcases res with err | _ | _ | ⟨output, _ | next⟩ <;>
      simp [settle, leave, enter, hrunning] at haborted

end Run

namespace Workflow

variable {runner : JobRunner σ} {g : Document.Graph} {input : Value} {id : String}
  {config : Config} {w₀ w : Workflow} {s₀ : σ} {machine : Machine} {r : Run}

/-- The machine of a new workflow is that of its document, no graph of which leads out of itself. -/
theorem ofDocument_sealed (h : ofDocument g input id config = .ok w₀) :
    Machine.compile g = .ok w₀.machine ∧ (∀ x ∈ g.all, x.2.Sealed) ∧
      w₀ = ⟨w₀.machine, config, .ofInput { id, input } input⟩ := by
  obtain ⟨_, hvalid, h⟩ := bind_ok h
  obtain ⟨machine, hmachine, h⟩ := bind_ok h
  cases h
  have hissues := Document.issues_of_validate (mapError_ok hvalid)
  exact ⟨mapError_ok hmachine, fun x hx => Document.sealed_of_valid hissues hx, rfl⟩

/-- The machine of a valid document is closed, with all machines inside it. -/
theorem ofDocument_closed (h : ofDocument g input id config = .ok w₀) :
    w₀.machine.Closed ∧ w₀ = ⟨w₀.machine, config, .ofInput { id, input } input⟩ := by
  obtain ⟨hmachine, hsealed, hnew⟩ := ofDocument_sealed h
  exact ⟨Machine.compile_closed g "StateMachine" hmachine hsealed, hnew⟩

/-- A workflow of a valid document keeps to its graph, and so does each that is nested in it. While
it runs it is in a state of its own machine; it was led there along a trail from the first state, of
which a step adds one transition at most; the only abort that it makes itself is for too many steps;
and all workflows that it nests have machines of their own. -/
theorem led_along_graph (hw : ofDocument g input id config = .ok w₀)
    (h : Reaches runner w₀ s₀ w s) (hin : Run.Within w.machine w.run machine r) :
    (r.status = .running → ∃ name st, r.current? = some name ∧ machine.state? name = some st) ∧
    (∃ trail, Run.Follows config machine trail r ∧
      ∀ m s, ∃ trail', trail <+: trail' ∧ trail'.length ≤ max 1 trail.length + 1 ∧
        Run.Follows config machine trail' (machine.step ⟨runner, config⟩ m r s).2.1) ∧
    (∀ m s, r.isTerminal = false →
      (machine.step ⟨runner, config⟩ m r s).2.1.status = .aborted →
      (r.start machine m.now).isExhausted config = true ∧
        (machine.step ⟨runner, config⟩ m r s).2.1.abortCause = some (Run.stepLimit config)) ∧
    (∀ v b x, r.visit = some v → v.progress = .branches b → x ∈ b.pending ++ b.inFlight →
      ∃ st sub, machine.state? v.state = some st ∧ st.machineAt? x.1 = some sub) := by
  obtain ⟨hclosed, hnew⟩ := ofDocument_closed hw
  rw [hnew] at h
  obtain ⟨hmachine, -, hall⟩ := h.everywhere Run.follows_invariant
  rw [hmachine] at hin
  obtain ⟨hc, trail, hfollows⟩ := hall machine r hin
  have hclosed := hin.closed hclosed
  refine ⟨Run.current_defined hclosed hc hfollows, ⟨trail, hfollows, fun m s => ?_⟩,
    fun m s hr haborted => ?_, fun v b x hv hb hx => ?_⟩
  · exact Run.follows_step (e := ⟨runner, config⟩) hc hfollows
  · exact Run.step_aborted (e := ⟨runner, config⟩) hclosed hc hfollows hr haborted
  · cases hst : machine.state? v.state with
    | none =>
      rw [hc.undefined v hv hst] at hb
      cases hb
    | some st =>
      have hfits := hc.fits v st hv hst
      rw [hb] at hfits
      cases hfits with
      | branches _ hstaffed =>
        have hsome : (st.machineAt? x.1).isSome := by
          rcases List.mem_append.mp hx with hx | hx
          · exact (hstaffed.waiting x hx).1
          · exact (hstaffed.flying x hx).1
        obtain ⟨sub, hsub⟩ := Option.isSome_iff_exists.mp hsome
        exact ⟨st, sub, rfl, hsub⟩

section

/-- A document with a branch, and a catcher that leads past it. -/
def branchingGraph : Document.Graph where
  startAt := some "First"
  states := some [
    ("First", .pass { transition := { next := some "Both" } }),
    ("Both", .parallel
      { transition := { next := some "Done" },
        catchers := [{ errorEquals := ["States.ALL"], next := some "Done" }] }
      (some [{
        startAt := some "Work"
        states := some [
          ("Work", .task { transition := { isEnd := true }, resource := some "local" })] }])),
    ("Done", .succeed {})]

def branchingWorkflow : Workflow := (ofDocument branchingGraph .null "id").toOption.getD default

/-- The workflow after two steps. -/
def branchingStepped : Workflow :=
  (branchingWorkflow.stepUntil hangingRunner (fun _ => .zero) 2 0 ()).2.1

/-- After two steps the branch is in its own first state. -/
theorem branch_led_along_graph : ofDocument branchingGraph .null "id" = .ok branchingWorkflow ∧
    Reaches hangingRunner branchingWorkflow () branchingStepped () ∧
    branchingStepped.current? = some "Both" ∧
    ∃ machine r, Run.Within branchingStepped.machine branchingStepped.run machine r ∧
      r.current? = some "Work" ∧ r.status = .running ∧
      ∃ name st, r.current? = some name ∧ machine.state? name = some st := by
  have hw : ofDocument branchingGraph .null "id" = .ok branchingWorkflow := rfl
  have hreach : Reaches hangingRunner branchingWorkflow () branchingStepped () :=
    .step (m := .zero) (.step (m := .zero) .new rfl) rfl
  have hin : ∃ machine r, Run.Within branchingStepped.machine branchingStepped.run machine r ∧
      r.current? = some "Work" ∧ r.status = .running :=
    ⟨_, _, .nested rfl rfl rfl (List.mem_singleton.mpr rfl) rfl .self, rfl, rfl⟩
  obtain ⟨machine, r, hin, hcurrent, hrunning⟩ := hin
  exact ⟨hw, hreach, rfl, machine, r, hin, hcurrent, hrunning,
    (led_along_graph hw hreach hin).1 hrunning⟩

end

end Workflow

end StatesLanguage
