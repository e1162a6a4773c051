import StatesLanguage.Proofs.Everywhere
import StatesLanguage.Workflow.Basic

/-! Between two calls the record of a workflow fits its machine: what the current state is doing is
something that a state of its kind does. -/
namespace StatesLanguage

variable {σ : Type} {e : Engine σ} {m : Moment} {s : σ}

namespace Machine

variable {machine : Machine} {st : State} {r : Run} {execution : Execution} {b : Branches Run}

/-- Children that have a machine each. Those that wait have yet to start and the others have not
ended. -/
structure State.Staffed (st : State) (b : Branches Run) : Prop where
  waiting : ∀ x ∈ b.pending, (st.machineAt? x.1).isSome ∧ x.2.status = .pending
  flying : ∀ x ∈ b.inFlight, (st.machineAt? x.1).isSome ∧ x.2.status = .running

/-- What a state of that kind can be doing between two steps. -/
inductive State.Fits (st : State) : Progress → Prop where
  | idle : Fits st .idle
  | job {t : Task} {handle : JobHandle} {launchedAt : Instant} : st = .task t →
    Fits st (.job handle launchedAt)
  | waiting {w : Wait} {deadline : Instant} : st = .wait w → Fits st (.waiting deadline)
  | branches {b : Branches Run} : st.kind = .parallel ∨ st.kind = .map → st.Staffed b →
    Fits st (.branches b)

theorem State.Opens.staffed (h : st.Opens execution b) : st.Staffed b := by
  obtain ⟨hfresh, hempty⟩ := h.fresh
  refine ⟨fun x hx => ?_, by simp [hempty]⟩
  obtain ⟨hsome, input, hinput⟩ := hfresh x hx
  exact ⟨hsome, by rw [hinput]; rfl⟩

theorem running_of_result {r : Run} (hstatus : r.status ≠ .pending) (h : r.result? = none) :
    r.status = .running := by
  unfold Run.result? at h
  split at h <;> simp_all

theorem State.staffed_advance {b' : Branches Run} {o : BranchOutcome} {s' : σ}
    (h : st.Staffed b) (hadv : b.advance (st.child e m) s = (o, b', s')) : st.Staffed b' := by
  have hkept := Branches.advance_invariant (c := st.child e m) (s := s)
    (W := fun i child => (st.machineAt? i).isSome ∧ child.status = .pending)
    (K := fun i child => (st.machineAt? i).isSome ∧ child.status = .running)
    ?_ ?_ h.waiting h.flying
  · rw [hadv] at hkept
    exact ⟨hkept.1, hkept.2⟩
  · rintro i child ⟨hsome, hpending⟩
    obtain ⟨sub, hsub⟩ := Option.isSome_iff_exists.mp hsome
    rw [State.child_start hsub, Run.start_of_pending hpending]
    exact ⟨hsome, rfl⟩
  · rintro i child s o child' s' ⟨hsome, _⟩ hstep hresult
    obtain ⟨sub, hsub⟩ := Option.isSome_iff_exists.mp hsome
    rw [State.child_step hsub] at hstep
    have hstatus : (sub.step e (m.child i) child s).2.1.status ≠ .pending := step_not_pending
    rw [hstep] at hstatus
    exact ⟨hsome, running_of_result hstatus hresult⟩

theorem State.Fits.shifts {p q : Progress} (h : st.Fits p)
    (hshifts : st.Shifts e m execution s p q) : st.Fits q := by
  cases hshifts with
  | same => exact h
  | idle => exact .idle
  | waiting hst => exact .waiting hst
  | job hst => exact .job hst
  | branches hb hadv =>
    rcases hb with rfl | hmakes
    · cases h with
      | branches hkind hstaffed => exact .branches hkind (staffed_advance hstaffed hadv)
    · exact .branches hmakes.opens.1 (staffed_advance hmakes.opens.staffed hadv)

end Machine

namespace Run

variable {machine : Machine} {r : Run}

/-- A record that fits its machine by itself, whatever is nested in it. -/
structure Coherent (machine : Machine) (r : Run) : Prop where
  unvisited : r.status = .pending → r.visit = none
  visited : r.status = .running → r.visit.isSome
  stopped : r.isTerminal = true → ∀ v, r.visit = some v → v.progress = .idle
  undefined : ∀ v, r.visit = some v → machine.state? v.state = none → v.progress = .idle
  fits : ∀ v st, r.visit = some v → machine.state? v.state = some st → st.Fits v.progress

theorem isTerminal_of_pending (h : r.status = .pending) : r.isTerminal = false := by
  rw [isTerminal, h]
  rfl

theorem coherent_ofInput (execution : Execution) (input : Value) :
    Coherent machine (.ofInput execution input) := by
  refine ⟨fun _ => rfl, ?_, ?_, ?_, ?_⟩ <;> simp [ofInput]

theorem coherent_start (h : Coherent machine r) (now : Instant) :
    Coherent machine (r.start machine now) := by
  by_cases hr : r.status = .pending
  · rw [start_of_pending hr]
    refine ⟨by simp, by simp, ?_, ?_, ?_⟩
    · intro _ v hv
      cases hv
      rfl
    · intro v hv _
      cases hv
      rfl
    · intro v st hv _
      cases hv
      exact .idle
  · rw [start_of_not_pending hr]
    exact h

theorem coherent_abort (h : Coherent machine r) (runner : JobRunner σ) (cause : String) (s : σ) :
    Coherent machine (r.abort runner cause s).1 := by
  cases hr : r.isTerminal with
  | true => simpa [abort, hr] using h
  | false =>
    have hidle : ∀ v, (r.abort runner cause s).1.visit = some v → v.progress = .idle :=
      fun v hv => abort_visit hr hv
    have hstatus : (r.abort runner cause s).1.status = .aborted := by simp [abort, hr]
    refine ⟨by simp [hstatus], by simp [hstatus], fun _ => hidle, fun v hv _ => hidle v hv, ?_⟩
    intro v st hv _
    rw [hidle v hv]
    exact .idle

theorem step_visited (h : Coherent machine r)
    (hrunning : (machine.step e m r s).2.1.status = .running) :
    (machine.step e m r s).2.1.visit.isSome := by
  revert hrunning
  refine step_rule (Q := fun q => q.2.1.status = .running → q.2.1.visit.isSome) ?_ ?_ ?_ ?_ ?_
  · intro _ hrunning
    exact h.visited hrunning
  · intro hr _
    simp [stop, abort, isTerminal_of_running (start_status hr _)]
  · intro hr _
    simp [stop, abort, isTerminal_of_running (begun_status hr _)]
  · intro v hr _ _
    simp [stop, abort, isTerminal_of_running (begun_status hr _)]
  · intro v st res v' s' _ _ _ _ _
    rcases res with err | _ | _ | ⟨output, _ | next⟩ <;> simp [settle, leave, enter]

theorem step_stopped (h : Coherent machine r)
    (hterminal : (machine.step e m r s).2.1.isTerminal = true) :
    ∀ v, (machine.step e m r s).2.1.visit = some v → v.progress = .idle := by
  revert hterminal
  refine step_rule (Q := fun q => q.2.1.isTerminal = true →
    ∀ v, q.2.1.visit = some v → v.progress = .idle) ?_ ?_ ?_ ?_ ?_
  · intro hr _ v hv
    exact h.stopped hr v hv
  · intro hr _ _ v hv
    exact abort_visit (isTerminal_of_running (start_status hr _)) hv
  · intro hr _ _ v hv
    exact abort_visit (isTerminal_of_running (begun_status hr _)) hv
  · intro v hr _ _ _ v hv
    exact abort_visit (isTerminal_of_running (begun_status hr _)) hv
  · intro v st res v' s' hr _ _ _ _ hterminal w hw
    have hrunning : (r.begun machine m.now).status = .running := begun_status hr _
    rcases res with err | _ | _ | ⟨output, _ | next⟩
    case ok.blocked => simp [settle, isTerminal, hrunning, Status.isTerminal] at hterminal
    case ok.progressed => simp [settle, isTerminal, hrunning, Status.isTerminal] at hterminal
    all_goals
      cases hw
      rfl

/-- The record of a workflow fits its machine after every call. -/
theorem coherent_invariant : Invariant e Coherent where
  fresh _ execution input := coherent_ofInput execution input
  start h := coherent_start h _
  abort h := coherent_abort h _ _ _
  step {machine r m s} h := by
    have hstart := coherent_start h m.now
    refine ⟨fun hpending => (Machine.step_not_pending hpending).elim, step_visited h,
      step_stopped h, ?_, ?_⟩
    · intro v' hv' hst
      rcases Machine.step_visit hv' with hidle | hv | ⟨v, st, _, hst', hstate, _⟩
      · exact hidle
      · exact h.undefined v' hv hst
      · rw [hstate, hst'] at hst
        cases hst
    · intro v' st hv' hst
      rcases Machine.step_visit hv' with hidle | hv | ⟨v, st', hv, hst', hstate, hshifts⟩
      · rw [hidle]
        exact .idle
      · exact h.fits v' st hv hst
      · rw [hstate, hst', Option.some.injEq] at hst
        subst st'
        exact (hstart.fits v st hv hst').shifts hshifts

end Run

end StatesLanguage
