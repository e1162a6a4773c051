import StatesLanguage.Proofs.Rounds
import StatesLanguage.Proofs.Stepping

/-! The workflows nested in a workflow, and what holds of all of them between two calls. -/
namespace StatesLanguage

variable {σ : Type} {e : Engine σ} {m : Moment} {s : σ}

namespace Run

/-- A workflow and those nested in it at any depth, each with its machine. -/
inductive Within : Machine → Run → Machine → Run → Prop where
  | self {machine : Machine} {r : Run} : Within machine r machine r
  | nested {machine sub machine' : Machine} {r child r' : Run} {v : Visit} {b : Branches Run}
      {st : Machine.State} {i : Nat} :
      r.visit = some v → v.progress = .branches b → machine.state? v.state = some st →
      (i, child) ∈ b.pending ++ b.inFlight → st.machineAt? i = some sub →
      Within sub child machine' r' → Within machine r machine' r'

/-- What holds of a workflow and of all that are nested in it. -/
def Everywhere (P : Machine → Run → Prop) (machine : Machine) (r : Run) : Prop :=
  ∀ machine' r', Within machine r machine' r' → P machine' r'

section

variable {P : Machine → Run → Prop} {machine : Machine} {r : Run}

theorem Everywhere.here (h : Everywhere P machine r) : P machine r := h machine r .self

theorem Everywhere.nested {sub : Machine} {child : Run} {v : Visit} {b : Branches Run}
    {st : Machine.State} {i : Nat} (h : Everywhere P machine r) (hv : r.visit = some v)
    (hb : v.progress = .branches b) (hst : machine.state? v.state = some st)
    (hchild : (i, child) ∈ b.pending ++ b.inFlight) (hsub : st.machineAt? i = some sub) :
    Everywhere P sub child :=
  fun machine' r' hw => h machine' r' (.nested hv hb hst hchild hsub hw)

theorem Everywhere.of_nested (here : P machine r)
    (nested : ∀ {v b st i child sub}, r.visit = some v → v.progress = .branches b →
      machine.state? v.state = some st → (i, child) ∈ b.pending ++ b.inFlight →
      st.machineAt? i = some sub → Everywhere P sub child) : Everywhere P machine r := by
  intro machine' r' hw
  cases hw with
  | self => exact here
  | nested hv hb hst hchild hsub hw => exact nested hv hb hst hchild hsub _ _ hw

theorem Everywhere.of_unvisited (here : P machine r) (h : r.visit = none) :
    Everywhere P machine r :=
  of_nested here fun hv => by simp [h] at hv

end

end Run

namespace Machine

/-- What a state may be doing after an advance: the same, nothing, waiting for an instant or a job,
or running nested workflows that have been advanced. -/
inductive State.Shifts (e : Engine σ) (m : Moment) (st : State) (execution : Execution) (s : σ)
    (p : Progress) : Progress → Prop where
  | same : Shifts e m st execution s p p
  | idle : Shifts e m st execution s p .idle
  | waiting {w : Wait} {deadline : Instant} : st = .wait w →
    Shifts e m st execution s p (.waiting deadline)
  | job {t : Task} {handle : JobHandle} {launchedAt : Instant} : st = .task t →
    Shifts e m st execution s p (.job handle launchedAt)
  | branches {b b' : Branches Run} {progressed : Bool} {s' : σ} :
    (p = .branches b ∨ st.Makes execution b) →
    b.advance (st.child e m) s = (.running progressed, b', s') →
    Shifts e m st execution s p (.branches b')

variable {machine : Machine} {st : State} {r : Run} {v v' : Visit} {s' : σ}
  {res : Except ExecutionError Advance}

theorem Wait.advance_shifts {w : Wait} {data context : Value} (hst : st = .wait w) :
    (w.advance m data context v).2.state = v.state ∧
      st.Shifts e m r.execution s v.progress (w.advance m data context v).2.progress := by
  unfold Wait.advance
  split
  · exact ⟨rfl, .same⟩
  · exact ⟨rfl, .waiting hst⟩

theorem Task.poll_shifts {t : Task} {data context : Value} {handle : JobHandle}
    {launchedAt : Instant} {p : Progress} (hst : st = .task t) (s₀ : σ) :
    (t.poll e m data context handle launchedAt { v with progress := .idle } s).2.1.state = v.state ∧
      st.Shifts e m r.execution s₀ p
        (t.poll e m data context handle launchedAt { v with progress := .idle } s).2.1.progress := by
  refine Task.poll_rule (Q := fun q => q.2.1.state = v.state ∧
    st.Shifts e m r.execution s₀ p q.2.1.progress) ?_ ?_ ?_ ?_
  · intro output s' _
    exact ⟨rfl, .idle⟩
  · intro error cause s' _
    exact ⟨rfl, .idle⟩
  · intro s' _ _
    exact ⟨rfl, .idle⟩
  · intro s' _ _
    exact ⟨rfl, .job hst⟩

theorem Task.advance_shifts {t : Task} {data context : Value} (hst : st = .task t) :
    (t.advance e m data context v s).2.1.state = v.state ∧
      st.Shifts e m r.execution s v.progress (t.advance e m data context v s).2.1.progress := by
  refine Task.advance_rule (Q := fun q => q.2.1.state = v.state ∧
    st.Shifts e m r.execution s v.progress q.2.1.progress) ?_ ?_ ?_
  · intro handle launchedAt _
    exact Task.poll_shifts hst s
  · intro err s' _ _
    exact ⟨rfl, .idle⟩
  · intro handle s' _ _
    exact Task.poll_shifts hst s

theorem State.work_shifts (st : State) (stay : Visit) :
    (st.work e m r stay v s).2.1.state = v.state ∧
      st.Shifts e m r.execution s v.progress (st.work e m r stay v s).2.1.progress := by
  refine State.work_rule (Q := fun q => q.2.1.state = v.state ∧
    st.Shifts e m r.execution s v.progress q.2.1.progress) ?_ ?_ ?_ ?_
  · intro res _ _ _
    exact ⟨rfl, .same⟩
  · intro p hst
    exact Wait.advance_shifts hst
  · intro p hst
    exact Task.advance_shifts hst
  · intro start flow _ hmakes
    refine Branches.work_rule (Q := fun q => q.2.1.state = v.state ∧
      st.Shifts e m r.execution s v.progress q.2.1.progress) ?_ ?_ ?_ ?_
    · intro err _ _
      exact ⟨rfl, .idle⟩
    · intro b p b' s' hb hadv
      exact ⟨rfl, .branches (hb.imp_right fun h => hmakes b h.2) hadv⟩
    · intro b rs b' s' _ _
      exact ⟨rfl, .idle⟩
    · intro b err b' s' _ _
      exact ⟨rfl, .idle⟩

/-- An advance does not leave the stay, and the state goes on with what it is able to do. -/
theorem State.advance_shifts (h : State.advance e m st r v s = (res, v', s')) :
    v'.state = v.state ∧ st.Shifts e m r.execution s v.progress v'.progress := by
  revert h
  refine State.advance_rule (Q := fun q => q = (res, v', s') → _) ?_ ?_ ?_
  · rintro _ ⟨⟩
    exact ⟨rfl, .same⟩
  · rintro w res v' s' hw hwork _ ⟨⟩
    have hshifts := State.work_shifts (e := e) (m := m) (r := r) (v := w) (s := s) st v
    rw [hwork] at hshifts
    rcases hw with rfl | rfl
    · exact hshifts
    · exact hshifts
  · rintro h err w s' _ hwork heq
    have hshifts := State.work_shifts (e := e) (m := m) (r := r) (s := s)
      (v := { v with notBefore := none }) st v
    rw [hwork] at hshifts
    have hv' : v' = (h.handle m r.data err w).2 := by
      cases heq
      rfl
    subst hv'
    refine ErrorHandling.handle_rule (Q := fun q => q.2.state = v.state ∧
      st.Shifts e m r.execution s v.progress q.2.progress) ?_ ?_ ?_ ?_
    · intro i r _ _
      exact ⟨hshifts.1, .idle⟩
    all_goals
      intros
      exact hshifts

end Machine

namespace Run

variable {machine : Machine} {r : Run} {v v' : Visit} {config : Config} {now : Instant}
  {res : Except ExecutionError Advance} {runner : JobRunner σ} {cause : String}

theorem settle_visit (h : (r.settle config machine now v res).2.visit = some v') :
    v' = v ∨ v'.progress = .idle := by
  rcases res with err | _ | _ | ⟨output, _ | next⟩
  all_goals
    simp only [settle, leave, enter, arrive, succeed, fail, Option.some.injEq] at h
    subst v'
  · exact Or.inr rfl
  · exact Or.inl rfl
  · exact Or.inl rfl
  · exact Or.inr rfl
  · exact Or.inr rfl

theorem abort_visit (hr : r.isTerminal = false)
    (h : (r.abort runner cause s).1.visit = some v') : v'.progress = .idle := by
  simp only [abort, hr, Bool.false_eq_true, if_false, Option.map_eq_some_iff] at h
  obtain ⟨v, _, rfl⟩ := h
  rfl

theorem abort_terminal {s : σ} : (r.abort runner cause s).1.isTerminal = true := by
  cases hr : r.isTerminal with
  | true => simp [abort, hr]
  | false =>
    simp only [abort, hr, Bool.false_eq_true, if_false]
    rfl

theorem start_visit (h : (r.start machine now).visit = some v') :
    v'.progress = .idle ∨ r.visit = some v' := by
  by_cases hr : r.status = .pending
  · rw [start_of_pending hr] at h
    simp only [Option.some.injEq] at h
    exact Or.inl (by rw [← h]; rfl)
  · rw [start_of_not_pending hr] at h
    exact Or.inr h

/-- A workflow has a result exactly when it has ended. -/
theorem result_isSome : r.result?.isSome = r.isTerminal := by
  rw [result?, isTerminal]
  cases r.status <;> rfl

end Run

namespace Machine

variable {machine : Machine} {r : Run} {v' : Visit}

/-- After a step a workflow does nothing, has not changed, or is in the stay that was advanced. -/
theorem step_visit (h : (machine.step e m r s).2.1.visit = some v') :
    v'.progress = .idle ∨ r.visit = some v' ∨
      ∃ v st, (r.start machine m.now).visit = some v ∧ machine.state? v.state = some st ∧
        v'.state = v.state ∧
        st.Shifts e m (r.start machine m.now).execution s v.progress v'.progress := by
  revert h
  refine Run.step_rule (Q := fun q => q.2.1.visit = some v' → _) ?_ ?_ ?_ ?_ ?_
  · intro _ h
    exact Or.inr (Or.inl h)
  · intro hr _ h
    exact Or.inl (Run.abort_visit (Run.isTerminal_of_running (Run.start_status hr _)) h)
  · intro hr _ h
    exact Or.inl (Run.abort_visit (Run.isTerminal_of_running (Run.begun_status hr _)) h)
  · intro v hr _ _ h
    exact Or.inl (Run.abort_visit (Run.isTerminal_of_running (Run.begun_status hr _)) h)
  · intro v st res v₁ s' hr _ hv hst hadv h
    obtain ⟨hstate, hshifts⟩ := State.advance_shifts hadv
    rcases Run.settle_visit h with rfl | hidle
    · exact Or.inr (Or.inr ⟨v, st, hv, hst, hstate, hshifts⟩)
    · exact Or.inl hidle

theorem step_not_pending : (machine.step e m r s).2.1.status ≠ .pending := by
  refine Run.step_rule (Q := fun q => q.2.1.status ≠ .pending) ?_ ?_ ?_ ?_ ?_
  · intro h (hpending : r.status = .pending)
    simp [Run.isTerminal, hpending, Status.isTerminal] at h
  · intro hr _
    simp [Run.stop, Run.abort, Run.isTerminal_of_running (Run.start_status hr _)]
  · intro hr _
    simp [Run.stop, Run.abort, Run.isTerminal_of_running (Run.begun_status hr _)]
  · intro v hr _ _
    simp [Run.stop, Run.abort, Run.isTerminal_of_running (Run.begun_status hr _)]
  · intro v st res v' s' hr _ _ _ _
    have hrunning : (r.begun machine m.now).status = .running := Run.begun_status hr _
    rcases res with err | _ | _ | ⟨output, _ | next⟩ <;>
      simp [Run.settle, Run.leave, Run.enter, hrunning]

theorem State.child_start {st : State} {i : Nat} {sub : Machine} (h : st.machineAt? i = some sub)
    (r : Run) : (st.child e m).start i r = r.start sub m.now := by
  simp [State.child, Run.child, h]

theorem State.child_step {st : State} {i : Nat} {sub : Machine} (h : st.machineAt? i = some sub)
    (r : Run) (s : σ) : (st.child e m).step i r s = sub.step e (m.child i) r s := by
  simp [State.child, Run.child, h]

theorem State.child_result {st : State} : (st.child e m).result? = Run.result? := rfl

theorem State.child_abort {st : State} : (st.child e m).abort = Run.abort e.runner := rfl

theorem State.Opens.fresh {st : State} {execution : Execution} {b : Branches Run}
    (h : st.Opens execution b) :
    (∀ x ∈ b.pending, (st.machineAt? x.1).isSome ∧ ∃ input, x.2 = .ofInput execution input) ∧
      b.inFlight = [] := by
  obtain ⟨-, inputs, limit, tolerance, rfl, hmachine⟩ := h
  refine ⟨fun x hx => ?_, rfl⟩
  obtain ⟨i, hi, rfl⟩ := List.mem_mapIdx.mp hx
  have hi : i < inputs.length := by simpa using hi
  exact ⟨hmachine i hi, inputs[i], by simp⟩

end Machine

section

variable {P : Machine → Run → Prop}

/-- What one call keeps of a workflow by itself it keeps of all that are nested in it. -/
structure Run.Invariant (e : Engine σ) (P : Machine → Run → Prop) : Prop where
  fresh : ∀ machine execution input, P machine (.ofInput execution input)
  start : ∀ {machine r now}, P machine r → P machine (r.start machine now)
  step : ∀ {machine r m s}, P machine r → P machine (machine.step e m r s).2.1
  abort : ∀ {machine r cause} {s : σ}, P machine r → P machine (r.abort e.runner cause s).1

namespace Run.Invariant

variable {machine : Machine} {r : Run}

theorem everywhere_fresh (h : Invariant e P) (execution : Execution) (input : Value) :
    Everywhere P machine (.ofInput execution input) :=
  .of_unvisited (h.fresh machine execution input) rfl

theorem everywhere_start (h : Invariant e P) {now : Instant} (hr : Everywhere P machine r) :
    Everywhere P machine (r.start machine now) := by
  refine .of_nested (h.start hr.here) ?_
  intro v b st i child sub hv hb hst hchild hsub
  rcases start_visit hv with hidle | hv
  · simp [hidle] at hb
  · exact hr.nested hv hb hst hchild hsub

theorem everywhere_abort (h : Invariant e P) {cause : String} (hr : Everywhere P machine r) :
    Everywhere P machine (r.abort e.runner cause s).1 := by
  refine .of_nested (h.abort hr.here) ?_
  intro v b st i child sub hv hb hst hchild hsub
  cases hterminal : r.isTerminal with
  | true =>
    simp only [Run.abort, hterminal, if_true] at hv
    exact hr.nested hv hb hst hchild hsub
  | false => simp [abort_visit hterminal hv] at hb

theorem everywhere_step (h : Invariant e P) (machine : Machine) :
    ∀ {m : Moment} {r : Run} {s : σ}, Everywhere P machine r →
      Everywhere P machine (machine.step e m r s).2.1 := by
  induction machine using Machine.induction with
  | h machine ih =>
    intro m r s hr
    refine .of_nested (h.step hr.here) ?_
    intro v' b' st i child sub hv' hb' hst hchild hsub
    rcases Machine.step_visit hv' with hidle | hv | ⟨v, st', hv, hst', hstate, hshifts⟩
    · simp [hidle] at hb'
    · exact hr.nested hv hb' hst hchild hsub
    rw [hstate, hst', Option.some.injEq] at hst
    subst st'
    rw [hb'] at hshifts
    have hstart : Everywhere P machine (r.start machine m.now) := h.everywhere_start hr
    -- each child of an advance is stepped by a machine inside this one
    have hwhole : ∀ {b}, v.progress = .branches b ∨ st.Makes (r.start machine m.now).execution b →
        ∀ x ∈ b.pending ++ b.inFlight, ∀ sub, st.machineAt? x.1 = some sub →
          Everywhere P sub x.2 := by
      rintro b (hb | hmakes) x hx sub hsub
      · exact hstart.nested hv hb hst' hx hsub
      · obtain ⟨hfresh, hempty⟩ := hmakes.opens.fresh
        rw [hempty, List.append_nil] at hx
        obtain ⟨-, input, hinput⟩ := hfresh x hx
        rw [hinput]
        exact h.everywhere_fresh _ _
    generalize hp : Progress.branches b' = p' at hshifts
    cases hshifts with
    | same => exact hstart.nested hv hp.symm hst' hchild hsub
    | idle | waiting | job => cases hp
    | branches hb hadv =>
      cases hp
      have hkept := Branches.advance_invariant (c := st.child e m) (s := s)
        (W := fun i child => ∀ sub, st.machineAt? i = some sub → Everywhere P sub child)
        (K := fun i child => ∀ sub, st.machineAt? i = some sub → Everywhere P sub child)
        ?_ ?_ (fun x hx => hwhole hb x (List.mem_append_left _ hx))
        (fun x hx => hwhole hb x (List.mem_append_right _ hx))
      · rw [hadv] at hkept
        rcases List.mem_append.mp hchild with hx | hx
        · exact hkept.1 _ hx sub hsub
        · exact hkept.2 _ hx sub hsub
      · intro i child hchild sub hsub
        rw [Machine.State.child_start hsub]
        exact h.everywhere_start (hchild sub hsub)
      · intro i child s o child' s' hchild hstep _ sub hsub
        rw [Machine.State.child_step hsub] at hstep
        have hsub' : Everywhere P sub (sub.step e (m.child i) child s).2.1 :=
          ih _ (Machine.mem_states hst') sub (Machine.State.mem_machines hsub) (hchild sub hsub)
        rwa [hstep] at hsub'

end Run.Invariant

end

end StatesLanguage
