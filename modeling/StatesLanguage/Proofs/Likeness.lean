import Mathlib.Data.Multiset.OrderedMonoid
import StatesLanguage.Proofs.Custody
import StatesLanguage.Proofs.Pairs
import StatesLanguage.Proofs.Sessions

/-! Two engines that cannot be told apart by what a machine does with them. Whatever is asked of
their runners is answered alike, and they keep histories each in its own way. Runs of the machine
that are alike but for the histories stay so, and each step has the same outcome for both. -/
namespace StatesLanguage

variable {σ : Type}

/-- A Task state of a machine or of one nested in it. -/
inductive Machine.HasTask : Machine → Machine.Task → Prop where
  | own {machine : Machine} {name : String} {t : Machine.Task} :
    (name, .task t) ∈ machine.states → HasTask machine t
  | nested {machine sub : Machine} {x : String × Machine.State} {t : Machine.Task} :
    x ∈ machine.states → sub ∈ x.2.machines → HasTask sub t → HasTask machine t

/-- The history of a workflow that leaves a state. -/
def Config.recorded (config : Config) (history : List Entry) (entry : Entry) : List Entry :=
  if config.recordHistory then history ++ [entry] else history

/-- Engines whose runners give the same answers about the resources in `Q`, and whose histories
stay in `H`. The handle of a job for a resource in `Q` carries one in `Q`. -/
structure Engine.Agree (e e' : Engine σ) (H : List Entry → List Entry → Prop) (Q : String → Prop) :
    Prop where
  limit : e.config.maxSteps = e'.config.maxSteps
  unrecorded : H [] []
  recorded : ∀ {history history'} x, H history history' →
    H (e.config.recorded history x) (e'.config.recorded history' x)
  launch : ∀ {resource}, Q resource → ∀ input credentials s,
    e.runner.launch resource input credentials s = e'.runner.launch resource input credentials s
  poll : ∀ {handle}, Q handle.resource → ∀ s, e.runner.poll handle s = e'.runner.poll handle s
  cleanup : ∀ {handle}, Q handle.resource → ∀ s,
    e.runner.cleanup handle s = e'.runner.cleanup handle s
  carried : ∀ {resource input credentials s handle s'}, Q resource →
    e.runner.launch resource input credentials s = (.ok handle, s') → Q handle.resource

mutual

/-- Runs that are the same but for the histories, at every depth, which are in `H`, with the jobs
that both of them hold. -/
inductive Run.Like (H : List Entry → List Entry → Prop) : Run → Run → Multiset JobHandle → Prop where
  | unvisited {execution : Execution} {status : Status} {data : Value} {output : Option Value}
    {error : Option ExecutionError} {abortCause next : Option String}
    {history history' : List Entry} {steps : Nat} : H history history' →
    Run.Like H ⟨execution, status, data, output, error, abortCause, none, next, history, steps⟩
      ⟨execution, status, data, output, error, abortCause, none, next, history', steps⟩ 0
  | visited {execution : Execution} {status : Status} {data : Value} {output : Option Value}
    {error : Option ExecutionError} {abortCause next : Option String} {v v' : Visit}
    {history history' : List Entry} {steps : Nat} {T : Multiset JobHandle} :
    status ≠ .pending → Visit.Like H v v' T → H history history' →
    Run.Like H ⟨execution, status, data, output, error, abortCause, some v, next, history, steps⟩
      ⟨execution, status, data, output, error, abortCause, some v', next, history', steps⟩ T

inductive Visit.Like (H : List Entry → List Entry → Prop) :
    Visit → Visit → Multiset JobHandle → Prop where
  | intro {state : String} {enteredAt : Instant} {p p' : Progress} {attempts : List Nat}
    {retries : Nat} {notBefore : Option Instant} {T : Multiset JobHandle} : Progress.Like H p p' T →
    Visit.Like H ⟨state, enteredAt, p, attempts, retries, notBefore⟩
      ⟨state, enteredAt, p', attempts, retries, notBefore⟩ T

inductive Progress.Like (H : List Entry → List Entry → Prop) :
    Progress → Progress → Multiset JobHandle → Prop where
  | idle : Progress.Like H .idle .idle 0
  | job {handle : JobHandle} {launchedAt : Instant} :
    Progress.Like H (.job handle launchedAt) (.job handle launchedAt) {handle}
  | waiting {deadline : Instant} : Progress.Like H (.waiting deadline) (.waiting deadline) 0
  | branches {b b' : Branches Run} {T : Multiset JobHandle} :
    Branches.Alike (Run.Like H) b b' T → Progress.Like H (.branches b) (.branches b') T

end

variable {H : List Entry → List Entry → Prop} {Q : String → Prop}

mutual

/-- Runs that are alike hold the same jobs. -/
theorem Run.Like.jobs {r r' : Run} {T : Multiset JobHandle} : Run.Like H r r' T →
    r.jobs = r'.jobs ∧ ∀ handle ∈ r.jobs, handle ∈ T
  | .unvisited _ => by simp [Run.jobs, Run.visitJobs?]
  | .visited _ hv _ => by
    simp only [Run.jobs, Run.visitJobs?]
    split
    · exact ⟨rfl, by simp⟩
    · exact hv.jobs

theorem Visit.Like.jobs {v v' : Visit} {T : Multiset JobHandle} : Visit.Like H v v' T →
    Run.visitJobs v = Run.visitJobs v' ∧ ∀ handle ∈ Run.visitJobs v, handle ∈ T
  | .intro hp => hp.jobs

theorem Progress.Like.jobs {p p' : Progress} {T : Multiset JobHandle} : Progress.Like H p p' T →
    Run.progressJobs p = Run.progressJobs p' ∧ ∀ handle ∈ Run.progressJobs p, handle ∈ T
  | .idle | .waiting => ⟨rfl, by simp [Run.progressJobs]⟩
  | .job => ⟨rfl, by simp [Run.progressJobs]⟩
  | .branches hb => like_branches_jobs hb

theorem like_branches_jobs {b b' : Branches Run} {T : Multiset JobHandle} :
    Branches.Alike (Run.Like H) b b' T →
    Run.branchJobs b = Run.branchJobs b' ∧ ∀ handle ∈ Run.branchJobs b, handle ∈ T
  | .intro _ hflying => by
    simpa only [Run.branchJobs_eq, Run.childJobs_eq] using like_children_jobs hflying

theorem like_children_jobs {xs xs' : List (Nat × Run)} {T : Multiset JobHandle} :
    Paired (Run.Like H) xs xs' T →
    Run.childJobs xs = Run.childJobs xs' ∧ ∀ handle ∈ Run.childJobs xs, handle ∈ T
  | .nil => ⟨rfl, by simp [Run.childJobs]⟩
  | .cons hr hrest => by
    obtain ⟨heq, hmem⟩ := hr.jobs
    obtain ⟨heqs, hmems⟩ := like_children_jobs hrest
    refine ⟨by simp [Run.childJobs, heq, heqs], fun handle hin => ?_⟩
    rcases List.mem_append.mp hin with hin | hin
    · exact Multiset.mem_add.mpr (.inl (hmem handle hin))
    · exact Multiset.mem_add.mpr (.inr (hmems handle hin))

end

/-- Runners of agreeing engines in the same state, when all that is held is for resources in `Q`. -/
def Agreed (Q : String → Prop) (s s' : σ) (T : Multiset JobHandle) : Prop :=
  s = s' ∧ ∀ handle ∈ T, Q handle.resource

theorem Agreed.forget {s s' : σ} {T F : Multiset JobHandle} (h : Agreed Q s s' (T + F)) :
    Agreed Q s s' F :=
  ⟨h.1, fun handle hin => h.2 handle (Multiset.mem_add.mpr (.inr hin))⟩

theorem Agreed.idle {s s' : σ} {F : Multiset JobHandle} (h : Agreed Q s s' F) :
    Agreed Q s s' (0 + F) := by
  rwa [zero_add]

theorem Engine.Agree.stepLimit_eq {e e' : Engine σ} (he : e.Agree e' H Q) :
    Run.stepLimit e.config = Run.stepLimit e'.config := by
  unfold Run.stepLimit
  rw [he.limit]

theorem Engine.Agree.releases {e e' : Engine σ} (he : e.Agree e' H Q) {handles : List JobHandle}
    (h : ∀ handle ∈ handles, Q handle.resource) (s : σ) :
    handles.foldl (fun s handle => e.runner.cleanup handle s) s =
      handles.foldl (fun s handle => e'.runner.cleanup handle s) s := by
  induction handles generalizing s with
  | nil => rfl
  | cons handle rest ih =>
    rw [List.foldl_cons, List.foldl_cons, he.cleanup (h handle List.mem_cons_self)]
    exact ih (fun x hx => h x (List.mem_cons_of_mem _ hx)) _

namespace Run.Like

variable {r r' : Run} {T F : Multiset JobHandle} {e e' : Engine σ} {s s' : σ}

/-- What a step sees of a run, apart from its stay. -/
theorem same (h : Like H r r' T) : r.execution = r'.execution ∧ r.status = r'.status ∧
    r.data = r'.data ∧ r.steps = r'.steps := by
  cases h <;> exact ⟨rfl, rfl, rfl, rfl⟩

theorem ends (h : Like H r r' T) : r.EndsAs r' := by
  cases h <;> exact ⟨rfl, rfl, rfl, rfl⟩

theorem isTerminal_eq (h : Like H r r' T) : r.isTerminal = r'.isTerminal :=
  h.ends.isTerminal

theorem result_eq (h : Like H r r' T) : r.result? = r'.result? :=
  h.ends.result

theorem ofInput (hempty : H [] []) (execution : Execution) (input : Value) :
    Like H (.ofInput execution input) (.ofInput execution input) 0 :=
  .unvisited hempty

theorem start (h : Like H r r' T) (machine : Machine) (now : Instant) :
    Like H (r.start machine now) (r'.start machine now) T := by
  cases h with
  | @unvisited execution status _ _ _ _ _ _ _ _ hh =>
    cases status with
    | pending => exact .visited (by simp) (.intro .idle) hh
    | _ => exact .unvisited hh
  | @visited execution status _ _ _ _ _ v v' _ _ _ _ hstatus hv hh =>
    cases status with
    | pending => exact (hstatus rfl).elim
    | _ => exact .visited hstatus hv hh

theorem counted (h : Like H r r' T) :
    Like H { r with steps := r.steps + 1 } { r' with steps := r'.steps + 1 } T := by
  cases h with
  | unvisited hh => exact .unvisited hh
  | visited hstatus hv hh => exact .visited hstatus hv hh

/-- Runs that are alike are in the same state, or both in none. -/
theorem visit_cases (h : Like H r r' T) : (r.visit = none ∧ r'.visit = none) ∨
    ∃ v v', r.visit = some v ∧ r'.visit = some v' ∧ Visit.Like H v v' T := by
  cases h with
  | unvisited _ => exact .inl ⟨rfl, rfl⟩
  | visited _ hv _ => exact .inr ⟨_, _, rfl, rfl, hv⟩

theorem abort (he : e.Agree e' H Q) (h : Like H r r' T) (hs : Agreed Q s s' (T + F))
    (cause : String) : ∃ U, Like H (r.abort e.runner cause s).1 (r'.abort e'.runner cause s').1 U ∧
      Agreed Q (r.abort e.runner cause s).2 (r'.abort e'.runner cause s').2 (U + F) := by
  obtain ⟨hjobs, hmem⟩ := h.jobs
  cases hr : r.isTerminal with
  | true =>
    have hr' : r'.isTerminal = true := by rw [← h.isTerminal_eq, hr]
    simp only [Run.abort, hr, hr', if_true]
    exact ⟨T, h, hs⟩
  | false =>
    have hr' : r'.isTerminal = false := by rw [← h.isTerminal_eq, hr]
    simp only [Run.abort, hr, hr', Bool.false_eq_true, if_false]
    refine ⟨0, ?_, ?_⟩
    · cases h with
      | unvisited hh => exact .unvisited hh
      | visited _ hv hh =>
        cases hv
        exact .visited (by simp) (.intro .idle) hh
    · have hgood : ∀ handle ∈ r.jobs, Q handle.resource :=
        fun handle hin => hs.2 handle (Multiset.mem_add.mpr (.inl (hmem handle hin)))
      obtain ⟨rfl, -⟩ := hs.forget
      rw [← hjobs, he.releases hgood]
      exact ⟨rfl, hs.forget.idle.2⟩

end Run.Like

section

variable {e e' : Engine σ} {m : Moment} {s s' : σ} {v v' : Visit} {T F : Multiset JobHandle}
  {data context : Value}

theorem Visit.Like.idle (h : Visit.Like H v v' T) :
    Visit.Like H { v with progress := .idle } { v' with progress := .idle } 0 := by
  cases h
  exact .intro .idle

/-- An error leads to the same for runs that are alike. -/
theorem ErrorHandling.handle_like (h : ErrorHandling) (m : Moment) (data : Value)
    (err : ExecutionError) (hv : Visit.Like H v v' T) (hs : Agreed Q s s' (T + F)) :
    InStep (Visit.Like H) (Agreed Q) F
      ((h.handle m data err v).1, (h.handle m data err v).2, s)
      ((h.handle m data err v').1, (h.handle m data err v').2, s') := by
  have hattempts : v.attempts = v'.attempts := by cases hv; rfl
  unfold handle
  rw [← hattempts]
  cases h.retrierFor? err.name? with
  | none => exact ⟨rfl, T, hv, hs⟩
  | some x =>
    dsimp only
    split
    · cases hv
      exact ⟨rfl, 0, .intro .idle, hs.forget.idle⟩
    · exact ⟨rfl, T, hv, hs⟩

theorem ErrorHandling.guard_like (h : ErrorHandling)
    {work work' : Visit → σ → Except ExecutionError Advance × Visit × σ}
    (hwork : ∀ {v v' : Visit}, Visit.Like H v v' T →
      InStep (Visit.Like H) (Agreed Q) F (work v s) (work' v' s'))
    (hv : Visit.Like H v v' T) (hs : Agreed Q s s' (T + F)) :
    InStep (Visit.Like H) (Agreed Q) F (h.guard m data work v s) (h.guard m data work' v' s') := by
  cases hv with
  | @intro state enteredAt p p' attempts retries notBefore _ hp =>
    unfold guard
    dsimp only
    split
    · exact ⟨rfl, T, .intro hp, hs⟩
    · have hready : Visit.Like H ⟨state, enteredAt, p, attempts, retries, none⟩
          ⟨state, enteredAt, p', attempts, retries, none⟩ T := .intro hp
      have hdone := hwork hready
      obtain ⟨res, w, w', s₁, s₁', U, hleft, hright, hw, hs⟩ := hdone.split
      rw [hleft, hright]
      cases res with
      | ok a => exact ⟨rfl, U, hw, hs⟩
      | error err => exact h.handle_like m data err hw hs

namespace Machine

theorem Wait.advance_like (p : Wait) (hv : Visit.Like H v v' T) (hs : Agreed Q s s' (T + F)) :
    InStep (Visit.Like H) (Agreed Q) F
      ((p.advance m data context v).1, (p.advance m data context v).2, s)
      ((p.advance m data context v').1, (p.advance m data context v').2, s') := by
  have hdeadline : p.deadline v data context = p.deadline v' data context := by
    cases hv with
    | intro hp => cases hp <;> rfl
  unfold Wait.advance
  rw [← hdeadline]
  cases p.deadline v data context with
  | error err => exact ⟨rfl, T, hv, hs⟩
  | ok deadline =>
    cases hv
    exact ⟨rfl, 0, .intro .waiting, hs.forget.idle⟩

theorem Task.poll_like (he : e.Agree e' H Q) (p : Task) {handle : JobHandle}
    {launchedAt : Instant} (hv : Visit.Like H v v' 0) (hs : Agreed Q s s' ({handle} + F)) :
    InStep (Visit.Like H) (Agreed Q) F (p.poll e m data context handle launchedAt v s)
      (p.poll e' m data context handle launchedAt v' s') := by
  obtain ⟨rfl, hgood⟩ := hs
  have hq : Q handle.resource :=
    hgood handle (Multiset.mem_add.mpr (.inl (Multiset.mem_singleton_self handle)))
  have hidle (s : σ) : Agreed Q (e.runner.cleanup handle s) (e'.runner.cleanup handle s) (0 + F) :=
    Agreed.idle ⟨he.cleanup hq s, fun x hx => hgood x (Multiset.mem_add.mpr (.inr hx))⟩
  have hstate : v.state = v'.state := by cases hv; rfl
  unfold poll
  rw [← he.poll hq, ← hstate]
  rcases e.runner.poll handle s with ⟨_ | output | ⟨error, cause⟩, s₁⟩
  · dsimp only
    split
    · exact ⟨rfl, 0, hv, hidle s₁⟩
    · cases hv
      exact ⟨rfl, {handle}, .intro .job, rfl, hgood⟩
  · exact ⟨rfl, 0, hv, hidle s₁⟩
  · exact ⟨rfl, 0, hv, hidle s₁⟩

theorem Task.launch_like (he : e.Agree e' H Q) {p : Task} (hp : Q p.resource) (m : Moment)
    (data context : Value) (s : σ) :
    p.launch e m data context s = p.launch e' m data context s ∧
      ∀ handle s', p.launch e m data context s = (.ok handle, s') → Q handle.resource := by
  constructor
  · unfold launch
    simp only [he.launch hp]
  · intro handle s'
    refine launch_rule (Q := fun x => x = (.ok handle, s') → _) ?_ ?_
    · intro err h
      cases h
    · intro input credentials _ _ h
      rcases hlaunch : e.runner.launch p.resource input credentials s with ⟨err | handle', s₁⟩
      · rw [hlaunch] at h
        cases h
      · rw [hlaunch] at h
        cases h
        exact he.carried hp hlaunch

theorem Task.advance_like (he : e.Agree e' H Q) {p : Task} (hp : Q p.resource)
    (hv : Visit.Like H v v' T) (hs : Agreed Q s s' (T + F)) :
    InStep (Visit.Like H) (Agreed Q) F (p.advance e m data context v s)
      (p.advance e' m data context v' s') := by
  cases hv with
  | intro hprogress =>
    cases hprogress with
    | job => exact poll_like he p (.intro .idle) hs
    | idle | waiting | branches =>
      obtain ⟨rfl, hgood⟩ := hs.forget
      obtain ⟨hlaunch, hcarried⟩ := launch_like he hp m data context s
      unfold advance
      rw [← hlaunch]
      rcases hlaunched : p.launch e m data context s with ⟨err | handle, s₁⟩
      · exact ⟨rfl, 0, .intro .idle, Agreed.idle ⟨rfl, hgood⟩⟩
      · refine poll_like he p (.intro .idle) ⟨rfl, fun x hx => ?_⟩
        rcases Multiset.mem_add.mp hx with hx | hx
        · rw [Multiset.mem_singleton.mp hx]
          exact hcarried handle s₁ hlaunched
        · exact hgood x hx

theorem visit_like : Visit.Pairs (Visit.Like H) (Run.Like H) where
  nested hv := by
    cases hv with
    | intro hp =>
      cases hp with
      | branches hb => exact .inl ⟨_, _, rfl, rfl, hb⟩
      | idle | job | waiting => exact .inr ⟨by simp, by simp⟩
  branches hv hb := by
    cases hv
    exact .intro (.branches hb)
  idle hv := hv.idle

theorem branches_like {start : Except ExecutionError (Branches Run)} {c c' : Child Run σ}
    {complete : Value → Except ExecutionError Advance}
    (hstart : ∀ b, start = .ok b → Branches.Alike (Run.Like H) b b 0)
    (hc : c.Pairs c' (Run.Like H) (Agreed Q)) (hv : Visit.Like H v v' T)
    (hs : Agreed Q s s' (T + F)) :
    InStep (Visit.Like H) (Agreed Q) F (Branches.work start c complete v s)
      (Branches.work start c' complete v' s') := by
  refine Branches.work_pairs visit_like hc ?_ hv hs
  cases start with
  | error err => exact .inl ⟨err, rfl, rfl⟩
  | ok b => exact .inr ⟨b, b, rfl, rfl, hstart b rfl⟩

/-- What a step of a machine does about runs that are alike. -/
def KeepsLike (e e' : Engine σ) (H : List Entry → List Entry → Prop) (Q : String → Prop)
    (machine : Machine) : Prop :=
  ∀ {m : Moment} {r r' : Run} {s s' : σ} {T F : Multiset JobHandle}, Run.Like H r r' T →
    Agreed Q s s' (T + F) →
    InStep (Run.Like H) (Agreed Q) F (machine.step e m r s) (machine.step e' m r' s')

theorem State.child_like (he : e.Agree e' H Q) {st : State}
    (h : ∀ sub ∈ st.machines, sub.KeepsLike e e' H Q) :
    (st.child e m).Pairs (st.child e' m) (Run.Like H) (Agreed Q) := by
  refine State.child_in_step (fun hr => hr.start _ _) (fun sub hsub => h sub hsub)
    (fun hr => hr.result_eq) (fun hr hs => ?_) (fun hs => hs.forget)
  obtain ⟨U, -, hs⟩ := hr.abort he hs _
  exact hs.forget

theorem State.Opens.like (hempty : H [] []) {st : State} {execution : Execution} {b : Branches Run}
    (h : st.Opens execution b) : Branches.Alike (Run.Like H) b b 0 := by
  obtain ⟨-, inputs, limit, tolerance, rfl, -⟩ := h
  exact Branches.alike_ofList (Run.Like.ofInput hempty execution) inputs limit tolerance

/-- Runs that are alike do the same work in a state. -/
theorem State.work_like (he : e.Agree e' H Q) {st : State}
    (hst : ∀ t, st = .task t → Q t.resource) (h : ∀ sub ∈ st.machines, sub.KeepsLike e e' H Q)
    {r r' : Run} {stay stay' : Visit} (hdata : r.data = r'.data)
    (hexecution : r.execution = r'.execution)
    (hcontext : r.contextAt stay = r'.contextAt stay') (hstate : stay.state = stay'.state)
    (hv : Visit.Like H v v' T) (hs : Agreed Q s s' (T + F)) :
    InStep (Visit.Like H) (Agreed Q) F (st.work e m r stay v s) (st.work e' m r' stay' v' s') := by
  cases st with
  | pass p | succeed p | fail p | choice p =>
    refine ⟨?_, T, hv, hs⟩
    simp only [State.work, hdata, hcontext, hstate]
  | wait p =>
    simp only [State.work, hdata, hcontext]
    exact p.advance_like hv hs
  | task p =>
    simp only [State.work, hdata, hcontext]
    exact Task.advance_like he (hst p rfl) hv hs
  | parallel p branches =>
    simp only [State.work, hdata, hcontext, hexecution]
    exact branches_like (fun b hb => (Parallel.opens hb).like he.unrecorded) (State.child_like he h)
      hv hs
  | map p processor =>
    simp only [State.work, hdata, hcontext, hexecution]
    have hopens {b : Branches Run}
        (hb : p.start m r'.execution r'.data (r'.contextAt stay') = .ok b) :
        (State.map p processor).Opens r'.execution b := Map.opens hb
    exact branches_like (fun b hb => (hopens hb).like he.unrecorded) (State.child_like he h) hv hs

theorem State.advance_like (he : e.Agree e' H Q) {st : State}
    (hst : ∀ t, st = .task t → Q t.resource) (h : ∀ sub ∈ st.machines, sub.KeepsLike e e' H Q)
    {r r' : Run} (hdata : r.data = r'.data) (hexecution : r.execution = r'.execution)
    (hv : Visit.Like H v v' T) (hs : Agreed Q s s' (T + F)) :
    InStep (Visit.Like H) (Agreed Q) F (State.advance e m st r v s)
      (State.advance e' m st r' v' s') := by
  have hcontext : r.contextAt v = r'.contextAt v' := by
    cases hv
    simp only [Run.contextAt, hexecution]
  have hstate : v.state = v'.state := by cases hv; rfl
  have hwork : ∀ {w w' : Visit}, Visit.Like H w w' T → InStep (Visit.Like H) (Agreed Q) F
      (st.work e m r v w s) (st.work e' m r' v' w' s') := fun hw =>
    State.work_like he hst h hdata hexecution hcontext hstate hw hs
  rw [State.advance_eq, State.advance_eq, hdata]
  cases st.handling? with
  | none => exact hwork hv
  | some handling => exact handling.guard_like hwork hv hs

theorem settle_like (he : e.Agree e' H Q) {machine : Machine} {now : Instant} {r r' : Run}
    {U : Multiset JobHandle} {res : Except ExecutionError Advance} (hr : Run.Like H r r' U)
    (hrunning : r.status = .running) (hv : Visit.Like H v v' T) (hs : Agreed Q s s' (T + F)) :
    InStep (Run.Like H) (Agreed Q) F
      ((r.settle e.config machine now v res).1, (r.settle e.config machine now v res).2, s)
      ((r'.settle e'.config machine now v' res).1, (r'.settle e'.config machine now v' res).2,
        s') := by
  have hstate : v.state = v'.state := by cases hv; rfl
  have hstarted : r.status ≠ .pending := by simp [hrunning]
  have hstay : Run.Like H { r with visit := some v } { r' with visit := some v' } T := by
    cases hr with
    | unvisited hh | visited _ _ hh => exact .visited hstarted hv hh
  have hrecorded : ∀ {history history'} (outcome : Except Value Value), H history history' →
      H (e.config.recorded history ⟨v.state, outcome⟩)
        (e'.config.recorded history' ⟨v'.state, outcome⟩) := by
    rw [← hstate]
    exact fun outcome => he.recorded _
  rcases res with err | _ | _ | ⟨output, _ | next⟩
  · refine ⟨rfl, 0, ?_, hs.forget.idle⟩
    cases hr with
    | unvisited hh | visited _ _ hh =>
      exact .visited (by simp) hv.idle (hrecorded (.error err.payload) hh)
  · exact ⟨rfl, T, hstay, hs⟩
  · exact ⟨rfl, T, hstay, hs⟩
  · refine ⟨rfl, 0, ?_, hs.forget.idle⟩
    cases hr with
    | unvisited hh | visited _ _ hh =>
      exact .visited (by simp) hv.idle (hrecorded (.ok output) hh)
  · refine ⟨rfl, 0, ?_, hs.forget.idle⟩
    cases hr with
    | unvisited hh | visited _ _ hh =>
      exact .visited hstarted (.intro .idle) (hrecorded (.ok output) hh)

/-- Runs of a machine that are alike stay so, and each step has the same outcome for both. -/
theorem step_like (he : e.Agree e' H Q) (machine : Machine)
    (htasks : ∀ t, machine.HasTask t → Q t.resource) : machine.KeepsLike e e' H Q := by
  induction machine using Machine.induction with
  | h machine ih =>
    intro m r r' s s' T F hr hs
    rw [step_eq, step_eq, Run.stepWith_eq, Run.stepWith_eq, ← hr.isTerminal_eq]
    by_cases hterminal : r.isTerminal = true
    · rw [if_pos hterminal, if_pos hterminal]
      exact ⟨rfl, T, hr, hs⟩
    rw [if_neg hterminal, if_neg hterminal]
    have hstarted := hr.start machine m.now
    have hbegun : Run.Like H (r.begun machine m.now) (r'.begun machine m.now) T := hstarted.counted
    have hrunning : (r.begun machine m.now).status = .running :=
      Run.begun_status (by simpa using hterminal) m.now
    have hstop : ∀ {r r' : Run} (cause : String), Run.Like H r r' T →
        InStep (Run.Like H) (Agreed Q) F (r.stop e cause s) (r'.stop e' cause s') := by
      intro r r' cause hr
      obtain ⟨U, hr, hs⟩ := hr.abort he hs cause
      exact ⟨rfl, U, hr, hs⟩
    have hexhausted : (r.start machine m.now).isExhausted e.config =
        (r'.start machine m.now).isExhausted e'.config := by
      rw [Run.isExhausted, Run.isExhausted, hstarted.same.2.2.2, he.limit]
    rw [← hexhausted]
    by_cases hlimit : (r.start machine m.now).isExhausted e.config = true
    · rw [if_pos hlimit, if_pos hlimit, ← he.stepLimit_eq]
      exact hstop _ hstarted
    rw [if_neg hlimit, if_neg hlimit]
    rcases hbegun.visit_cases with ⟨hvisit, hvisit'⟩ | ⟨v, v', hvisit, hvisit', hv⟩
    · simp only [hvisit, hvisit']
      exact hstop _ hbegun
    have hstate : v.state = v'.state := by cases hv; rfl
    simp only [hvisit, hvisit', ← hstate]
    cases hst : machine.state? v.state with
    | none => exact hstop _ hbegun
    | some st =>
      have hmem := mem_states hst
      obtain ⟨hexecution, -, hdata, -⟩ := hbegun.same
      have hadvance : InStep (Visit.Like H) (Agreed Q) F
          (State.advance e m st (r.begun machine m.now) v s)
          (State.advance e' m st (r'.begun machine m.now) v' s') := by
        refine State.advance_like he ?_ ?_ hdata hexecution hv hs
        · rintro t rfl
          exact htasks t (.own hmem)
        · intro sub hsub
          exact ih _ hmem sub hsub fun t ht => htasks t (.nested hmem hsub ht)
      obtain ⟨res, v₁, v₁', s₁, s₁', U, hleft, hright, hv, hs⟩ := hadvance.split
      simp only [Option.map_some, hleft, hright]
      exact settle_like he hbegun hrunning hv hs

end Machine

end

namespace Workflow

/-- Workflows that run one machine with different settings and are alike but for their histories. -/
structure Likewise (machine : Machine) (config config' : Config)
    (H : List Entry → List Entry → Prop) (Q : String → Prop) (w : Workflow) (s : σ) (w' : Workflow)
    (s' : σ) : Prop where
  machines : w.machine = machine ∧ w'.machine = machine
  configs : w.config = config ∧ w'.config = config'
  runs : ∃ T, Run.Like H w.run w'.run T ∧ Agreed Q s s' T

variable {machine : Machine} {config config' : Config} {runner runner' : JobRunner σ}

theorem Likewise.step_like (he : Engine.Agree ⟨runner, config⟩ ⟨runner', config'⟩ H Q)
    (htasks : ∀ t, machine.HasTask t → Q t.resource) {w w' : Workflow} {s s' : σ}
    (h : Likewise machine config config' H Q w s w' s') (m : Moment) :
    (w.step runner m s).1 = (w'.step runner' m s').1 ∧
      Likewise machine config config' H Q (w.step runner m s).2.1 (w.step runner m s).2.2
        (w'.step runner' m s').2.1 (w'.step runner' m s').2.2 := by
  obtain ⟨T, hr, hs⟩ := h.runs
  have hsteps : w.run.steps = w'.run.steps := hr.same.2.2.2
  have hs : Agreed Q s s' (T + 0) := by rwa [add_zero]
  obtain ⟨houtcome, U, hr, hs⟩ :=
    Machine.step_like he machine htasks (m := m.part w.run.steps) hr hs
  rw [add_zero] at hs
  simp only [Workflow.step, h.machines.1, h.machines.2, h.configs.1, h.configs.2, ← hsteps]
  exact ⟨houtcome, ⟨rfl, rfl⟩, ⟨rfl, rfl⟩, U, hr, hs⟩

theorem Likewise.abort_like (he : Engine.Agree ⟨runner, config⟩ ⟨runner', config'⟩ H Q)
    {w w' : Workflow} {s s' : σ} (h : Likewise machine config config' H Q w s w' s')
    (cause : String) :
    Likewise machine config config' H Q (w.abort runner cause s).1 (w.abort runner cause s).2
      (w'.abort runner' cause s').1 (w'.abort runner' cause s').2 := by
  obtain ⟨T, hr, hs⟩ := h.runs
  have hs : Agreed Q s s' (T + 0) := by rwa [add_zero]
  obtain ⟨U, hr, hs⟩ := hr.abort he hs cause
  rw [add_zero] at hs
  exact ⟨h.machines, h.configs, U, hr, hs⟩

theorem alongside_like (he : Engine.Agree ⟨runner, config⟩ ⟨runner', config'⟩ H Q)
    (htasks : ∀ t, machine.HasTask t → Q t.resource) :
    Alongside runner runner' (Likewise machine config config' H Q) where
  status h := by
    obtain ⟨T, hr, -⟩ := h.runs
    exact hr.same.2.1
  start {w s w' s'} now h := by
    obtain ⟨T, hr, hs⟩ := h.runs
    refine ⟨h.machines, h.configs, T, ?_, hs⟩
    simp only [enterStart, h.machines.1, h.machines.2]
    exact hr.start machine now
  outcome m h := (h.step_like he htasks m).1
  step m h := (h.step_like he htasks m).2
  abort cause h := h.abort_like he cause

/-- Workflows for the same input are alike after each of the same calls, when the engines cannot be
told apart by any Task state of the machine. -/
theorem session_like (he : Engine.Agree ⟨runner, config⟩ ⟨runner', config'⟩ H Q)
    (htasks : ∀ t, machine.HasTask t → Q t.resource) (execution : Execution) (input : Value)
    (ops : List Operation) (s : σ) :
    List.Forall₂ (fun x x' => Likewise machine config config' H Q x.1 x.2 x'.1 x'.2)
      (session runner ops ⟨machine, config, .ofInput execution input⟩ s)
      (session runner' ops ⟨machine, config', .ofInput execution input⟩ s) :=
  (alongside_like he htasks).session ops
    ⟨⟨rfl, rfl⟩, ⟨rfl, rfl⟩, 0, .ofInput he.unrecorded execution input, rfl, by simp⟩

end Workflow

end StatesLanguage
