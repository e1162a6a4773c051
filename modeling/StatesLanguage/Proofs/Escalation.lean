import StatesLanguage.Proofs.Abandonment
import StatesLanguage.Proofs.Paces

/-! How a failure rises through nested workflows that neither tolerate nor handle it. Each level hands
it on under a name and with a cause, and from the second level on these stay as they are. -/
namespace StatesLanguage

variable {α σ : Type}

namespace Branches

variable {c : Child α σ} {todo : List (Nat × α)} {log : List (ChildStep α)} {b b' : Branches α}
  {s s' : σ} {i : Nat} {x : ChildStep α} {fault : ExecutionError}

/-- To hand a failure on once more changes nothing. -/
@[simp] theorem childFailure_childFailure (err : ExecutionError) :
    childFailure (childFailure err) = childFailure err := rfl

theorem childFailure_name (err : ExecutionError) :
    (childFailure err).name? = some (err.name?.getD "States.BranchFailed") := rfl

/-- Without a tolerance every failure is recorded as an error. -/
theorem record_intolerant (h : b.tolerance.isConfigured = false) (fault : ExecutionError) :
    b.record i (.error fault) = ({ b with failed := b.failed + 1 }, some (childFailure fault)) := by
  simp [record, Tolerance.allows, h]

/-- Without a tolerance a child that fails ends the round with its failure. -/
theorem round_intolerant (h : b.tolerance.isConfigured = false) {p : Bool}
    {o : Except ExecutionError Bool}
    (hround : round c.logged todo p b (s, []) = (o, b', s', log)) (hx : x ∈ log) :
    x.found ∈ todo ∧
      ∀ fault, c.result? x.after = some (.error fault) → o = .error (childFailure fault) := by
  suffices hrule : ∀ y ∈ (round c.logged todo p b (s, [])).2.2.2, y.found ∈ todo ∧
      ∀ fault, c.result? y.after = some (.error fault) →
        (round c.logged todo p b (s, [])).1 = .error (childFailure fault) by
    rw [hround] at hrule
    exact hrule x hx
  -- as long as the round goes on no child has failed
  refine round_rule
    (I := fun rest _ b (s : σ × List (ChildStep α)) => b.tolerance.isConfigured = false ∧
      (∀ y ∈ rest, y ∈ todo) ∧ ∀ y ∈ s.2, y.found ∈ todo ∧
        ∀ fault, c.result? y.after ≠ some (.error fault))
    (Q := fun (q : _ × _ × σ × List (ChildStep α)) => ∀ y ∈ q.2.2.2, y.found ∈ todo ∧
      ∀ fault, c.result? y.after = some (.error fault) → q.1 = .error (childFailure fault))
    ?_ ?_ ?_ ?_ ⟨h, fun _ => id, by simp⟩
  · rintro i a rest p b ⟨s, log⟩ o a' ⟨s', log'⟩ ⟨htolerance, htodo, hlog⟩ hstep hr
    cases hstep
    obtain ⟨hfirst, hrest⟩ := List.forall_mem_cons.mp htodo
    refine ⟨htolerance, hrest, List.forall_mem_append.mpr ⟨hlog, List.forall_mem_singleton.mpr ?_⟩⟩
    exact ⟨hfirst, fun fault hfault => nomatch hr.symm.trans hfault⟩
  · rintro i a rest p b ⟨s, log⟩ o a' ⟨s', log'⟩ r b₁ ⟨htolerance, htodo, hlog⟩ hstep hr hrec
    cases hstep
    obtain ⟨hfirst, hrest⟩ := List.forall_mem_cons.mp htodo
    cases r with
    | error fault => simp [record_intolerant htolerance] at hrec
    | ok v =>
      cases hrec
      refine ⟨htolerance, hrest,
        List.forall_mem_append.mpr ⟨hlog, List.forall_mem_singleton.mpr ?_⟩⟩
      exact ⟨hfirst, fun fault hfault => nomatch hr.symm.trans hfault⟩
  · rintro i a rest p b ⟨s, log⟩ o a' ⟨s', log'⟩ r b₁ err ⟨htolerance, htodo, hlog⟩ hstep hr hrec
    cases hstep
    obtain ⟨fault, rfl, -⟩ := record_some hrec
    rw [record_intolerant htolerance] at hrec
    cases hrec
    simp only [abandon, abortAll_logged]
    refine List.forall_mem_append.mpr ⟨fun y hy => ⟨(hlog y hy).1, fun fault hfault => ?_⟩,
      List.forall_mem_singleton.mpr ⟨htodo _ List.mem_cons_self, fun fault' hfault => ?_⟩⟩
    · exact ((hlog y hy).2 fault hfault).elim
    · cases hr.symm.trans hfault
      rfl
  · rintro p b s ⟨-, -, hlog⟩ y hy
    exact ⟨(hlog y hy).1, fun fault hfault => ((hlog y hy).2 fault hfault).elim⟩

/-- Without a tolerance a child that fails in an advance is what the advance fails with. -/
theorem advance_intolerant (h : b.tolerance.isConfigured = false) {o : BranchOutcome}
    (hadv : b.advance c.logged (s, []) = (o, b', s', log)) (hx : x ∈ log) :
    x.found ∈ (b.startNext c).inFlight ∧
      ∀ fault, c.result? x.after = some (.error fault) → o = .failed (childFailure fault) := by
  have htolerance : { b.startNext c with inFlight := [] }.tolerance.isConfigured = false := h
  revert hadv
  refine advance_rule (Q := fun q => q = (o, b', s', log) → _) ?_ ?_ ?_
  · rintro err b₁ s₁ hround ⟨⟩
    obtain ⟨hfound, hfails⟩ := round_intolerant htolerance hround hx
    exact ⟨hfound, fun fault hfault => by cases hfails fault hfault; rfl⟩
  · rintro p b₁ s₁ hround _ _ ⟨⟩
    obtain ⟨hfound, hfails⟩ := round_intolerant htolerance hround hx
    exact ⟨hfound, fun fault hfault => nomatch hfails fault hfault⟩
  · rintro p b₁ s₁ hround _ ⟨⟩
    obtain ⟨hfound, hfails⟩ := round_intolerant htolerance hround hx
    exact ⟨hfound, fun fault hfault => nomatch hfails fault hfault⟩

theorem advance_tolerance {p : Bool} (h : b.advance c s = (.running p, b', s')) :
    b'.tolerance = b.tolerance := by
  obtain ⟨q, b₁, hround, -, -, rfl⟩ := advance_running h
  exact (round_length hround).2.1

end Branches

section

variable {e : Engine σ} {m : Moment} {machine : Machine} {st : Machine.State} {r : Run}
  {stay v : Visit} {b b' : Branches Run} {s : σ}

namespace Machine

/-- How many failures of its nested workflows a state puts up with. -/
def State.tolerance : State → Tolerance
  | .map p _ => p.tolerance
  | _ => {}

theorem State.opening_tolerance (h : st.opening? m r stay = some (.ok b)) :
    b.tolerance = st.tolerance := by
  cases st with
  | parallel p branches =>
    obtain ⟨input, -, hb⟩ := bind_ok (Option.some.inj h)
    cases hb
    rfl
  | map p processor =>
    obtain ⟨items, children, -, -, rfl⟩ := Map.start_children (Option.some.inj h)
    rfl
  | _ => cases h

theorem State.Makes.tolerance {execution : Execution} (h : st.Makes execution b) :
    b.tolerance = st.tolerance := by
  obtain ⟨m, r, stay, -, hopening⟩ := h
  exact opening_tolerance hopening

end Machine

/-- A stay whose nested workflows put up with as many failures as its state does. -/
def Visit.Tolerates (machine : Machine) (v : Visit) : Prop :=
  ∀ st b, machine.state? v.state = some st → v.progress = .branches b → b.tolerance = st.tolerance

theorem Visit.tolerates_invariant : Visit.Invariant e Visit.Tolerates where
  arrive _ _ _ := by rintro st b _ ⟨⟩
  idle _ := by rintro st b _ ⟨⟩
  advance := by
    intro machine st m r v res v' s s' h hst hadv st' b' hst' hb'
    obtain ⟨hstate, hshifts⟩ := Machine.State.advance_shifts hadv
    rw [hstate, hst, Option.some.injEq] at hst'
    subst hst'
    rw [hb'] at hshifts
    generalize hp : v.progress = p at hshifts
    cases hshifts with
    | same => exact h st b' hst hp
    | @branches b _ _ _ hb hadvanced =>
      rw [Branches.advance_tolerance hadvanced]
      exact hb.elim (fun hb => h st b hst (hp.trans hb)) Machine.State.Makes.tolerance

theorem ErrorHandling.handle_passed {h : ErrorHandling} {data : Value} {err : ExecutionError}
    (hretry : h.retrierFor? err.name? = none) (hcatch : h.catcherFor? err.name? = none) :
    h.handle m data err v = (.error err, v) := by
  rw [handle, hretry, hcatch]

theorem Machine.State.handling_of_kind (h : st.kind = .parallel ∨ st.kind = .map) :
    ∃ handling, st.handling? = some handling := by
  cases st with
  | parallel p branches => exact ⟨_, rfl⟩
  | map p processor => exact ⟨_, rfl⟩
  | _ => simp [kind] at h

theorem Machine.State.kind_of_machineAt {i : Nat} {sub : Machine}
    (h : st.machineAt? i = some sub) : st.kind = .parallel ∨ st.kind = .map := by
  cases st with
  | parallel p branches => exact .inl rfl
  | map p processor => exact .inr rfl
  | _ => cases h

/-- Entering the first state before a step is what the step does itself. -/
theorem Run.step_start (hr : r.isTerminal = false) :
    machine.step e m (r.start machine m.now) s = machine.step e m r s := by
  have hrunning : (r.start machine m.now).status = .running := start_status hr m.now
  have hagain : (r.start machine m.now).start machine m.now = r.start machine m.now :=
    start_of_not_pending (by simp [hrunning]) m.now
  have hbegun : (r.start machine m.now).begun machine m.now = r.begun machine m.now := by
    rw [begun, hagain, begun]
  rw [Machine.step_eq, Machine.step_eq, stepWith_eq, stepWith_eq, hagain, hbegun, hr,
    isTerminal_of_running hrunning]
  rfl

end

/-- A state that neither tolerates nor retries nor catches an error of that name. -/
structure Machine.State.Passes (st : Machine.State) (name : Option String) : Prop where
  intolerant : st.tolerance.isConfigured = false
  unretried : ∀ h, st.handling? = some h → h.retrierFor? name = none
  uncaught : ∀ h, st.handling? = some h → h.catcherFor? name = none

/-- A step of a workflow, at a moment and from a state of the runner. -/
structure Turn (σ : Type) where
  moment : Moment
  machine : Machine
  run : Run
  runner : σ

namespace Turn

variable {e : Engine σ} {t u : Turn σ} {st : Machine.State} {v : Visit} {b : Branches Run}
  {err : ExecutionError}

/-- The workflow as the step advances it. -/
def started (t : Turn σ) : Run := t.run.start t.machine t.moment.now

/-- The workflow after the step. -/
def after (e : Engine σ) (t : Turn σ) : Run := (t.machine.step e t.moment t.run t.runner).2.1

/-- A step that comes to the nested workflows of a state. -/
structure Advances (e : Engine σ) (t : Turn σ) (st : Machine.State) (v : Visit)
    (b : Branches Run) : Prop where
  live : t.run.isTerminal = false
  left : t.started.isExhausted e.config = false
  visit : t.started.visit = some v
  state : t.machine.state? v.state = some st
  ready : v.notBefore.any (fun instant => t.moment.now.before instant) = false
  branches : v.progress = .branches b ∨
    (∀ b, v.progress ≠ .branches b) ∧ st.opening? t.moment t.started v = some (.ok b)

/-- A step of a state that takes in the step of a workflow nested in it, after those of the siblings
before it. -/
inductive TakesIn (e : Engine σ) (t : Turn σ) (st : Machine.State) (u : Turn σ) : Prop where
  | intro (before behind : List (ChildStep Run)) {v : Visit} {b b' : Branches Run} {i : Nat}
      {o : BranchOutcome} {s' : σ} :
      t.Advances e st v b → st.machineAt? i = some u.machine → u.moment = t.moment.child i →
      Branches.StepsTaken (st.child e t.moment) t.runner before u.runner →
      b.advance (st.child e t.moment).logged (t.runner, []) =
        (o, b', s', before ++ ⟨i, u.run, u.after e⟩ :: behind) → TakesIn e t st u

/-- What all nested workflows of a workflow put up with is what their states do. -/
def Tolerates (t : Turn σ) : Prop :=
  Run.Everywhere (fun machine r => ∀ v, r.visit = some v → v.Tolerates machine) t.machine t.run

theorem Advances.tolerance (h : t.Advances e st v b) (ht : t.Tolerates) :
    b.tolerance = st.tolerance := by
  have hstarted : ∀ v, t.started.visit = some v → v.Tolerates t.machine :=
    (Visit.tolerates_invariant (e := e)).run.start ht.here
  rcases h.branches with hb | ⟨-, hopening⟩
  · exact hstarted v h.visit st b h.state hb
  · exact Machine.State.opening_tolerance hopening

/-- A step that ends the workflow with an error. -/
structure Fails (e : Engine σ) (t : Turn σ) (err : ExecutionError) : Prop where
  outcome : (t.machine.step e t.moment t.run t.runner).1 = .terminal
  failed : (t.after e).Failed err

/-- The step fails where the advance of its state does. -/
theorem Advances.fails_of_advance (h : t.Advances e st v b)
    (hadv : (st.advance e t.moment t.started v t.runner).1 = .error err) : t.Fails e err := by
  have hrunning : t.started.status = .running := Run.start_status h.live t.moment.now
  have hstep := Run.step_running (m := t.moment) (s := t.runner) hrunning h.left h.visit h.state
  rw [hadv, started, Run.step_start h.live] at hstep
  refine ⟨by rw [hstep]; rfl, ?_⟩
  rw [after, hstep]
  exact Run.failed_fail err

/-- The failure of its nested workflows is the failure of the workflow where the state lets it
pass. -/
theorem Advances.fails (h : t.Advances e st v b) (hkind : st.kind = .parallel ∨ st.kind = .map)
    (hpasses : st.Passes err.name?) {b' : Branches Run} {s' : σ}
    (hfailed : b.advance (st.child e t.moment) t.runner = (.failed err, b', s')) :
    t.Fails e err := by
  refine h.fails_of_advance ?_
  obtain ⟨complete, hwork⟩ := Machine.State.work_takes (e := e) (v := { v with notBefore := none })
    hkind h.branches
  obtain ⟨handling, hh⟩ := Machine.State.handling_of_kind hkind
  have hpassed (v : Visit) : handling.handle t.moment t.started.data err v = (.error err, v) :=
    ErrorHandling.handle_passed (hpasses.unretried _ hh) (hpasses.uncaught _ hh)
  rw [Machine.State.advance_eq, hh]
  simp only [ErrorHandling.guard, h.ready, Bool.false_eq_true, if_false, hwork, hfailed,
    Machine.takeAdvance, hpassed]

/-- A step that takes in another one, and whose state lets an error of that name pass. -/
def HandsOn (e : Engine σ) (name : String) (t u : Turn σ) : Prop :=
  ∃ st, t.TakesIn e st u ∧ st.Passes (some name)

theorem HandsOn.tolerates {name : String} (h : HandsOn e name t u) (ht : t.Tolerates) :
    u.Tolerates := by
  obtain ⟨st, ⟨_, _, hadvances, hsub, -, -, hadv⟩, hpasses⟩ := h
  have hintolerant := hpasses.intolerant
  rw [← hadvances.tolerance ht] at hintolerant
  obtain ⟨hfound, -⟩ := Branches.advance_intolerant hintolerant hadv
    (List.mem_append_right _ List.mem_cons_self)
  have hinvariant := (Visit.tolerates_invariant (e := e)).run
  exact hinvariant.everywhere_flying (hinvariant.everywhere_start ht) hadvances.visit
    hadvances.state (hadvances.branches.imp_right fun h => Machine.State.opening_opens h.2) hfound
    hsub

/-- One level hands the failure of the next one on. -/
theorem HandsOn.fails {name : String} (h : HandsOn e name t u) (ht : t.Tolerates)
    (hu : (u.after e).result? = some (.error err)) (hname : err.name?.getD "States.BranchFailed" = name) :
    t.Fails e (Branches.childFailure err) := by
  obtain ⟨st, ⟨_, _, hadvances, hsub, -, -, hadv⟩, hpasses⟩ := h
  have hintolerant := hpasses.intolerant
  rw [← hadvances.tolerance ht] at hintolerant
  obtain ⟨-, hfails⟩ := Branches.advance_intolerant hintolerant hadv
    (List.mem_append_right _ List.mem_cons_self)
  rw [hfails err hu] at hadv
  refine hadvances.fails (Machine.State.kind_of_machineAt hsub) ?_ (Branches.advance_unlogged hadv)
  rwa [Branches.childFailure_name, hname]

/-- However many levels there are, all of them fail alike. -/
theorem rises {levels : List (Turn σ)} (ht : t.Tolerates)
    (hu : (u.after e).result? = some (.error err))
    (hchain : List.IsChain (HandsOn e (err.name?.getD "States.BranchFailed"))
      (t :: levels ++ [u])) :
    ∀ x ∈ t :: levels, x.Fails e (Branches.childFailure err) := by
  induction levels generalizing t with
  | nil =>
    obtain ⟨hlast, -⟩ := List.isChain_cons_cons.mp hchain
    exact List.forall_mem_singleton.mpr (hlast.fails ht hu rfl)
  | cons x rest ih =>
    obtain ⟨hfirst, hrest⟩ := List.isChain_cons_cons.mp hchain
    have hbelow := ih (hfirst.tolerates ht) hrest
    refine List.forall_mem_cons.mpr ⟨?_, hbelow⟩
    have hlevel := hfirst.fails ht (hbelow x List.mem_cons_self).failed.result rfl
    rwa [Branches.childFailure_childFailure] at hlevel

end Turn

namespace Workflow

variable {runner : JobRunner σ} {machine : Machine} {config : Config} {execution : Execution}
  {input : Value} {w : Workflow} {s₀ s : σ} {m : Moment} {inner : Turn σ}
  {err : ExecutionError}

/-- The step of a workflow as one that may take in others. -/
def turn (m : Moment) (w : Workflow) (s : σ) : Turn σ := ⟨m.part w.run.steps, w.machine, w.run, s⟩

/-- In a workflow that is reached by any calls, let a step go down through nested workflows to one that
fails, and let no state on the way tolerate, retry or catch the error. Then the step fails the workflow
at each level, the outermost one included: with the name of the error, which is `States.BranchFailed`
where it has none, and with its cause, which is its text where it has none. What the outermost one
hands out does not tell how many levels there are. -/
theorem failure_rises (levels : List (Turn σ))
    (h : Reaches runner ⟨machine, config, .ofInput execution input⟩ s₀ w s)
    (hfailed : (inner.after ⟨runner, config⟩).status = .failed)
    (herror : (inner.after ⟨runner, config⟩).error = some err)
    (hchain : List.IsChain (Turn.HandsOn ⟨runner, config⟩ (err.name?.getD "States.BranchFailed"))
      (w.turn m s :: levels ++ [inner])) :
    (∀ t ∈ w.turn m s :: levels, (t.after ⟨runner, config⟩).Failed
      (.composite (err.name?.getD "States.BranchFailed") (err.cause?.getD err.text))) ∧
    ∃ w' s', w.step runner m s = (.terminal, w', s') ∧
      w'.run.output = some (.obj [("Error", .str (err.name?.getD "States.BranchFailed")),
        ("Cause", .str (err.cause?.getD err.text))]) := by
  obtain ⟨hmachine, hconfig, htolerates⟩ := h.everywhere Visit.tolerates_invariant.run
  rw [← hmachine] at htolerates
  have hresult : (inner.after ⟨runner, config⟩).result? = some (.error err) := by
    rw [Run.result?, hfailed, herror]
    rfl
  have hfails := Turn.rises (t := w.turn m s) htolerates hresult hchain
  rw [← hconfig] at hfails ⊢
  have hroot := hfails _ List.mem_cons_self
  exact ⟨fun t ht => (hfails t ht).failed, _, _, Prod.ext hroot.outcome rfl, hroot.failed.output⟩

section

/-- A Fail state that says nothing, in an item of a Map state in a branch of a Parallel state. -/
def silentMachine : Machine := ⟨"Stop", [("Stop", .fail ⟨.absent, .absent⟩)]⟩

def itemsState : Machine.State := .map ⟨none, ⟨"$", false, [], .reference []⟩, none, 0, {}, {}, {}⟩
  silentMachine

def itemsMachine : Machine := ⟨"Items", [("Items", itemsState)]⟩

def groupState : Machine.State := .parallel ⟨none, {}, {}⟩ [itemsMachine]

def groupWorkflow : Workflow :=
  ⟨⟨"Group", [("Group", groupState)]⟩, {}, .ofInput default (.arr [.null])⟩

/-- The step of the branch in the first step of the workflow. -/
def itemsTurn : Turn Unit where
  moment := (groupWorkflow.turn .zero ()).moment.child 0
  machine := itemsMachine
  run := (Run.ofInput (groupWorkflow.turn .zero ()).started.execution (.arr [.null])).start
    itemsMachine Moment.zero.now
  runner := ()

/-- The step of the item in that step. -/
def silentTurn : Turn Unit where
  moment := itemsTurn.moment.child 0
  machine := silentMachine
  run := (Run.ofInput itemsTurn.run.execution .null).start silentMachine Moment.zero.now
  runner := ()

/-- A failure without a name and a cause gets both at the first level and keeps them. -/
theorem silent_failure_rises :
    (silentTurn.after ⟨failingRunner, {}⟩).Failed (.declared none none) ∧
    List.IsChain (Turn.HandsOn ⟨failingRunner, {}⟩ "States.BranchFailed")
      [groupWorkflow.turn .zero (), itemsTurn, silentTurn] ∧
    (itemsTurn.after ⟨failingRunner, {}⟩).Failed
      (.composite "States.BranchFailed" "Fail state reached") ∧
    (groupWorkflow.step failingRunner .zero ()).2.1.run.output = some (.obj
      [("Error", .str "States.BranchFailed"), ("Cause", .str "Fail state reached")]) := by
  have hinner : (silentTurn.after ⟨failingRunner, {}⟩).Failed (.declared none none) :=
    ⟨rfl, rfl, rfl⟩
  have hgroup : (groupWorkflow.turn .zero ()).TakesIn ⟨failingRunner, {}⟩ groupState itemsTurn := by
    refine .intro (i := 0) [] []
      ⟨rfl, rfl, rfl, rfl, rfl, .inr ⟨?_, rfl⟩⟩ rfl rfl .nil rfl
    rintro b ⟨⟩
  have hitems : itemsTurn.TakesIn ⟨failingRunner, {}⟩ itemsState silentTurn := by
    refine .intro (i := 0) [] []
      ⟨rfl, rfl, rfl, rfl, rfl, .inr ⟨?_, rfl⟩⟩ rfl rfl .nil rfl
    rintro b ⟨⟩
  have hchain : List.IsChain (Turn.HandsOn ⟨failingRunner, {}⟩ "States.BranchFailed")
      [groupWorkflow.turn .zero (), itemsTurn, silentTurn] := by
    refine .cons_cons ⟨_, hgroup, rfl, ?_, ?_⟩ (.cons_cons ⟨_, hitems, rfl, ?_, ?_⟩ (.singleton _))
    all_goals
      rintro _ ⟨⟩
      rfl
  have hnew : Reaches failingRunner groupWorkflow () groupWorkflow () := .new
  obtain ⟨hlevels, w', s', hstep, houtput⟩ :=
    failure_rises (m := .zero) [itemsTurn] hnew hinner.status hinner.error hchain
  refine ⟨hinner, hchain, hlevels _ (by simp), ?_⟩
  rw [hstep, houtput]
  rfl

end

end Workflow

end StatesLanguage
