import Mathlib.Algebra.Order.Group.Multiset
import StatesLanguage.Proofs.Coherence

/-! A step accounts for every job: what a workflow holds is launched by it, and what it lets go of is
released. -/
namespace StatesLanguage

variable {σ : Type}

/-- What is known of a runner together with the jobs that are held. The calls that keep the account
are a launch, a poll of a job that is held, and the release of one. -/
structure JobRunner.Custody (runner : JobRunner σ) (A : σ → Multiset JobHandle → Prop) : Prop where
  launched : ∀ {resource input credentials handle s s' T}, A s T →
    runner.launch resource input credentials s = (.ok handle, s') → A s' ({handle} + T)
  refused : ∀ {resource input credentials err s s' T}, A s T →
    runner.launch resource input credentials s = (.error err, s') → A s' T
  polled : ∀ {handle status s s' T}, A s ({handle} + T) →
    runner.poll handle s = (status, s') → A s' ({handle} + T)
  released : ∀ {handle s T}, A s ({handle} + T) → A (runner.cleanup handle s) T

namespace Run

variable {machine : Machine} {r : Run} {v : Visit}

theorem jobs_of_terminal (h : r.isTerminal = true) : r.jobs = [] := by
  obtain ⟨execution, status, data, output, error, abortCause, visit, next, history, steps⟩ := r
  have h : status.isTerminal = true := h
  simp [jobs, h]

theorem jobs_of_unvisited (h : r.visit = none) : r.jobs = [] := by
  obtain ⟨execution, status, data, output, error, abortCause, visit, next, history, steps⟩ := r
  have h : visit = none := h
  simp [jobs, h, visitJobs?]

theorem jobs_of_visit (hr : r.isTerminal = false) (h : r.visit = some v) :
    r.jobs = progressJobs v.progress := by
  obtain ⟨execution, status, data, output, error, abortCause, visit, next, history, steps⟩ := r
  obtain ⟨state, enteredAt, progress, attempts, retries, notBefore⟩ := v
  have hr : status.isTerminal = false := hr
  have h : visit = _ := h
  simp [jobs, hr, h, visitJobs?, visitJobs]

theorem jobs_start (h : Coherent machine r) (now : Instant) :
    (r.start machine now).jobs = r.jobs := by
  by_cases hr : r.status = .pending
  · rw [jobs_of_unvisited (h.unvisited hr), start_of_pending hr,
      jobs_of_visit (v := arrive machine machine.start now) rfl rfl]
    simp [arrive, progressJobs]
  · rw [start_of_not_pending hr]

theorem childJobs_eq (xs : List (Nat × Run)) : childJobs xs = xs.flatMap fun x => x.2.jobs := by
  induction xs with
  | nil => rfl
  | cons x rest ih =>
    obtain ⟨i, r⟩ := x
    rw [childJobs, ih]
    rfl

theorem branchJobs_eq (b : Branches Run) :
    branchJobs b = b.inFlight.flatMap fun x => x.2.jobs := by
  cases b
  exact childJobs_eq _

end Run

section

variable {runner : JobRunner σ} {A : σ → Multiset JobHandle → Prop} {s : σ} {F : Multiset JobHandle}

theorem JobRunner.Custody.releases (hc : runner.Custody A) {handles : List JobHandle}
    (h : A s (handles + F)) : A (handles.foldl (fun s handle => runner.cleanup handle s) s) F := by
  induction handles generalizing s with
  | nil => simpa using h
  | cons handle rest ih =>
    refine ih (hc.released ?_)
    rwa [← add_assoc, Multiset.singleton_add, Multiset.cons_coe]

/-- A workflow that is aborted hands back all that it holds. -/
theorem Run.abort_custody (hc : runner.Custody A) {r : Run} {cause : String}
    (h : A s (r.jobs + F)) : A (r.abort runner cause s).2 F := by
  cases hr : r.isTerminal with
  | true =>
    rw [jobs_of_terminal hr] at h
    simpa [abort, hr] using h
  | false =>
    simp only [abort, hr, Bool.false_eq_true, if_false]
    exact hc.releases h

end

namespace Machine

variable {e : Engine σ} {m : Moment} {A : σ → Multiset JobHandle → Prop} {s : σ}
  {F : Multiset JobHandle} {st : State} {v : Visit} {r : Run}

/-- The jobs that are held after an advance. A state that is left holds none. -/
def heldAfter : Except ExecutionError Advance → Visit → List JobHandle
  | .ok .blocked, v | .ok .progressed, v => Run.progressJobs v.progress
  | _, _ => []

/-- The account after an advance. -/
def Settled (A : σ → Multiset JobHandle → Prop) (F : Multiset JobHandle)
    (q : Except ExecutionError Advance × Visit × σ) : Prop :=
  A q.2.2 (heldAfter q.1 q.2.1 + F)

theorem settled_of_free {res : Except ExecutionError Advance}
    (hfree : Run.progressJobs v.progress = []) (h : A s F) : Settled A F (res, v, s) := by
  rcases res with err | _ | _ | _ <;> simpa [Settled, heldAfter, hfree] using h

theorem State.Fits.free {p : Progress} (h : st.Fits p) (hst : st.handling? = none) :
    Run.progressJobs p = [] := by
  cases h with
  | idle => rfl
  | job hst' => simp [hst', handling?] at hst
  | waiting => rfl
  | branches hkind => cases st <;> simp [handling?, kind] at hst hkind

theorem Task.poll_custody (hc : e.runner.Custody A) {t : Task} {data context : Value}
    {handle : JobHandle} {launchedAt : Instant} (h : A s ({handle} + F)) :
    Settled A F (t.poll e m data context handle launchedAt { v with progress := .idle } s) := by
  refine Task.poll_rule ?_ ?_ ?_ ?_
  · intro output s' hpoll
    exact settled_of_free rfl (hc.released (hc.polled h hpoll))
  · intro error cause s' hpoll
    exact settled_of_free rfl (hc.released (hc.polled h hpoll))
  · intro s' hpoll _
    exact settled_of_free rfl (hc.released (hc.polled h hpoll))
  · intro s' hpoll _
    exact hc.polled h hpoll

theorem Task.launch_refused (hc : e.runner.Custody A) {t : Task} {data context : Value}
    {err : ExecutionError} {s' : σ} (h : A s F)
    (hlaunch : t.launch e m data context s = (.error err, s')) : A s' F := by
  revert hlaunch
  refine Task.launch_rule (Q := fun q => q = (.error err, s') → A s' F) ?_ ?_
  · rintro err ⟨⟩
    exact h
  · intro input credentials _ _ heq
    rcases hasked : e.runner.launch t.resource input credentials s with ⟨err | handle, s₁⟩
    · rw [hasked] at heq
      cases heq
      exact hc.refused h hasked
    · rw [hasked] at heq
      cases heq

theorem Task.launch_launched (hc : e.runner.Custody A) {t : Task} {data context : Value}
    {handle : JobHandle} {s' : σ} (h : A s F)
    (hlaunch : t.launch e m data context s = (.ok handle, s')) : A s' ({handle} + F) := by
  revert hlaunch
  refine Task.launch_rule (Q := fun q => q = (.ok handle, s') → A s' ({handle} + F)) ?_ ?_
  · intro err heq
    cases heq
  · intro input credentials _ _ heq
    rcases hasked : e.runner.launch t.resource input credentials s with ⟨err | handle, s₁⟩
    · rw [hasked] at heq
      cases heq
    · rw [hasked] at heq
      cases heq
      exact hc.launched h hasked

theorem Task.advance_custody (hc : e.runner.Custody A) {t : Task} {data context : Value}
    (hfits : (State.task t).Fits v.progress) (h : A s (Run.progressJobs v.progress + F)) :
    Settled A F (t.advance e m data context v s) := by
  have hfree : (∀ handle launchedAt, v.progress ≠ .job handle launchedAt) → A s F := by
    intro hnone
    generalize hp : v.progress = p at hfits h hnone
    cases hfits with
    | idle | waiting => simpa [Run.progressJobs] using h
    | job => exact (hnone _ _ rfl).elim
    | branches hkind => simp [State.kind] at hkind
  refine Task.advance_rule ?_ ?_ ?_
  · intro handle launchedAt hp
    rw [hp] at h
    exact Task.poll_custody hc h
  · intro err s' hnone hlaunch
    exact settled_of_free rfl (Task.launch_refused hc (hfree hnone) hlaunch)
  · intro handle s' hnone hlaunch
    exact Task.poll_custody hc (Task.launch_launched hc (hfree hnone) hlaunch)

theorem State.Fits.free_unopened {p : Progress} (h : st.Fits p)
    (hkind : st.kind = .parallel ∨ st.kind = .map) (hnone : ∀ b, p ≠ .branches b) :
    Run.progressJobs p = [] := by
  cases h with
  | idle | waiting => rfl
  | job hst => simp [hst, State.kind] at hkind
  | branches => exact (hnone _ rfl).elim

/-- What a step of a machine does about jobs: it accounts for all that its workflow holds. -/
def Accounts (e : Engine σ) (A : σ → Multiset JobHandle → Prop) (machine : Machine) : Prop :=
  ∀ {m r s F}, Run.Everywhere Run.Coherent machine r → A s (r.jobs + F) →
    A (machine.step e m r s).2.2 ((machine.step e m r s).2.1.jobs + F)

/-- A nested workflow that has yet to start. -/
def State.Awaits (st : State) (i : Nat) (child : Run) : Prop :=
  ∃ sub, st.machineAt? i = some sub ∧ Run.Everywhere Run.Coherent sub child ∧
    child.status = .pending

/-- A nested workflow with the jobs that it holds. -/
def State.Holds (st : State) (i : Nat) (child : Run) (T : Multiset JobHandle) : Prop :=
  ∃ sub, st.machineAt? i = some sub ∧ Run.Everywhere Run.Coherent sub child ∧ T = child.jobs

theorem State.child_keeps (hc : e.runner.Custody A) (h : ∀ sub ∈ st.machines, sub.Accounts e A) :
    (st.child e m).Keeps st.Awaits st.Holds A where
  start := by
    rintro i child ⟨sub, hsub, hcoherent, hpending⟩
    refine ⟨sub, hsub, ?_, ?_⟩
    · rw [child_start hsub]
      exact (Run.coherent_invariant (e := e)).everywhere_start hcoherent
    · rw [child_start hsub, Run.jobs_start hcoherent.here,
        Run.jobs_of_unvisited (hcoherent.here.unvisited hpending)]
      rfl
  stay := by
    rintro i child s o child' s' T F ⟨sub, hsub, hcoherent, rfl⟩ hs hstep _
    rw [child_step hsub] at hstep
    have hs' := h sub (mem_machines hsub) (m := m.child i) hcoherent hs
    have hcoherent' := Run.coherent_invariant.everywhere_step sub (e := e) (m := m.child i)
      (s := s) hcoherent
    rw [hstep] at hs' hcoherent'
    exact ⟨child'.jobs, ⟨sub, hsub, hcoherent', rfl⟩, hs'⟩
  ended := by
    rintro i child s o child' s' result T F ⟨sub, hsub, hcoherent, rfl⟩ hs hstep hresult
    rw [child_step hsub] at hstep
    have hs' := h sub (mem_machines hsub) (m := m.child i) hcoherent hs
    rw [hstep] at hs'
    have hterminal : child'.isTerminal = true := by
      rw [child_result] at hresult
      rw [← Run.result_isSome, hresult]
      rfl
    simpa [Run.jobs_of_terminal hterminal] using hs'
  abort := by
    rintro i child s cause T F ⟨sub, _, _, rfl⟩ hs
    rw [child_abort]
    exact Run.abort_custody hc hs

theorem State.holdings_jobs {xs : List (Nat × Run)} {T : Multiset JobHandle}
    (h : Holdings st.Holds xs T) : T = Run.childJobs xs := by
  induction h with
  | nil => rfl
  | cons hk _ ih =>
    obtain ⟨sub, _, _, rfl⟩ := hk
    rw [ih, Run.childJobs]
    exact Multiset.coe_add _ _

theorem State.holdings_of {xs : List (Nat × Run)}
    (h : ∀ x ∈ xs, ∃ sub, st.machineAt? x.1 = some sub ∧
      Run.Everywhere Run.Coherent sub x.2) : Holdings st.Holds xs (Run.childJobs xs) := by
  induction xs with
  | nil => exact .nil
  | cons x rest ih =>
    obtain ⟨sub, hsub, hcoherent⟩ := h x List.mem_cons_self
    have hrest := ih fun y hy => h y (List.mem_cons_of_mem _ hy)
    exact .cons ⟨sub, hsub, hcoherent, rfl⟩ hrest

/-- Nested workflows that are staffed, and coherent at every depth. -/
structure State.Sound (st : State) (b : Branches Run) : Prop where
  staffed : st.Staffed b
  coherent : ∀ x ∈ b.pending ++ b.inFlight, ∀ sub, st.machineAt? x.1 = some sub →
    Run.Everywhere Run.Coherent sub x.2

theorem State.Opens.sound {execution : Execution} {b : Branches Run}
    (h : st.Opens execution b) : st.Sound b := by
  refine ⟨h.staffed, fun x hx sub _ => ?_⟩
  obtain ⟨hfresh, hempty⟩ := h.fresh
  rw [hempty, List.append_nil] at hx
  obtain ⟨_, input, hinput⟩ := hfresh x hx
  rw [hinput]
  exact .of_unvisited (Run.coherent_ofInput execution input) rfl

theorem State.Sound.kept {b : Branches Run} (h : st.Sound b) :
    Branches.Kept st.Awaits st.Holds b (Run.branchJobs b : Multiset JobHandle) := by
  refine ⟨fun x hx => ?_, ?_⟩
  · obtain ⟨hsome, hpending⟩ := h.staffed.waiting x hx
    obtain ⟨sub, hsub⟩ := Option.isSome_iff_exists.mp hsome
    exact ⟨sub, hsub, h.coherent x (List.mem_append_left _ hx) sub hsub, hpending⟩
  · rw [Run.branchJobs_eq, ← Run.childJobs_eq]
    refine holdings_of fun x hx => ?_
    obtain ⟨sub, hsub⟩ := Option.isSome_iff_exists.mp (h.staffed.flying x hx).1
    exact ⟨sub, hsub, h.coherent x (List.mem_append_right _ hx) sub hsub⟩

theorem State.branches_custody (hc : e.runner.Custody A)
    (h : ∀ sub ∈ st.machines, sub.Accounts e A) {b b' : Branches Run} {o : BranchOutcome} {s' : σ}
    (hb : st.Sound b) (hs : A s (Run.branchJobs b + F))
    (hadv : b.advance (st.child e m) s = (o, b', s')) : A s' (Run.branchJobs b' + F) := by
  obtain ⟨T, hkept, hs'⟩ := Branches.advance_keeps (State.child_keeps (m := m) hc h) hb.kept hs
  rw [hadv] at hkept hs'
  rw [Run.branchJobs_eq, ← Run.childJobs_eq]
  rwa [holdings_jobs hkept.flying] at hs'

theorem State.work_custody (hc : e.runner.Custody A) (h : ∀ sub ∈ st.machines, sub.Accounts e A)
    {stay : Visit} (hfits : st.Fits v.progress)
    (hsound : ∀ b, v.progress = .branches b → st.Sound b)
    (hs : A s (Run.progressJobs v.progress + F)) : Settled A F (st.work e m r stay v s) := by
  refine State.work_rule ?_ ?_ ?_ ?_
  · intro res hst _ _
    have hfree := hfits.free hst
    exact settled_of_free hfree (by simpa [hfree] using hs)
  · intro w hst
    have hfree := hfits.free (by rw [hst]; rfl)
    have hs : A s F := by simpa [hfree] using hs
    unfold Wait.advance
    split
    · exact settled_of_free hfree hs
    · exact settled_of_free rfl hs
  · rintro t rfl
    exact Task.advance_custody hc hfits hs
  · intro start flow hkind hmakes
    have hstart : ∀ {b}, v.progress = .branches b ∨ (∀ b, v.progress ≠ .branches b) ∧
        start = .ok b → st.Sound b ∧ A s (Run.branchJobs b + F) := by
      rintro b (hb | ⟨hnone, hb⟩)
      · rw [hb] at hs
        exact ⟨hsound b hb, hs⟩
      · have hopen := (hmakes b hb).opens
        rw [Run.branchJobs_eq, hopen.fresh.2]
        exact ⟨hopen.sound, by simpa [hfits.free_unopened hkind hnone] using hs⟩
    have hended : ∀ {b b' : Branches Run} {o : BranchOutcome} {s' : σ},
        v.progress = .branches b ∨ (∀ b, v.progress ≠ .branches b) ∧ start = .ok b →
        b.advance (st.child e m) s = (o, b', s') → (∀ p, o ≠ .running p) → A s' F := by
      intro b b' o s' hb hadv ho
      obtain ⟨hsound, hs⟩ := hstart hb
      have hs' := State.branches_custody hc h hsound hs hadv
      obtain ⟨_, hempty⟩ := Branches.advance_ended hadv ho
      simpa [Run.branchJobs_eq, hempty] using hs'
    refine Branches.work_rule ?_ ?_ ?_ ?_
    · intro err hnone _
      exact settled_of_free rfl (by simpa [hfits.free_unopened hkind hnone] using hs)
    · intro b p b' s' hb hadv
      obtain ⟨hsound, hs⟩ := hstart hb
      have hs' := State.branches_custody hc h hsound hs hadv
      cases p <;> exact hs'
    · intro b rs b' s' hb hadv
      exact settled_of_free rfl (hended hb hadv (by simp))
    · intro b err b' s' hb hadv
      exact settled_of_free rfl (hended hb hadv (by simp))

theorem State.advance_custody (hc : e.runner.Custody A) (h : ∀ sub ∈ st.machines, sub.Accounts e A)
    (hfits : st.Fits v.progress) (hsound : ∀ b, v.progress = .branches b → st.Sound b)
    (hs : A s (Run.progressJobs v.progress + F)) : Settled A F (State.advance e m st r v s) := by
  refine State.advance_rule ?_ ?_ ?_
  · intro _
    exact hs
  · rintro w res v' s' hw hwork _
    have hsettled : Settled A F (st.work e m r v w s) := by
      rcases hw with rfl | rfl
      · exact State.work_custody hc h hfits hsound hs
      · exact State.work_custody hc h hfits hsound hs
    rwa [hwork] at hsettled
  · intro handling err v' s' _ hwork
    have hsettled : Settled A F (st.work e m r v { v with notBefore := none } s) :=
      State.work_custody hc h hfits hsound hs
    rw [hwork] at hsettled
    have hs' : A s' F := by simpa [Settled, heldAfter] using hsettled
    refine ErrorHandling.handle_rule (Q := fun q => Settled A F (q.1, q.2, s')) ?_ ?_ ?_ ?_
    · intro i retrier _ _
      exact settled_of_free rfl hs'
    all_goals
      intros
      simpa [Settled, heldAfter] using hs'

theorem jobs_settle {machine : Machine} {now : Instant} {res : Except ExecutionError Advance}
    (hr : r.status = .running) :
    (r.settle e.config machine now v res).2.jobs = heldAfter res v := by
  have hterminal : r.isTerminal = false := Run.isTerminal_of_running hr
  rcases res with err | _ | _ | ⟨output, _ | next⟩
  · exact Run.jobs_of_terminal rfl
  · exact Run.jobs_of_visit hterminal rfl
  · exact Run.jobs_of_visit hterminal rfl
  · exact Run.jobs_of_terminal rfl
  · exact Run.jobs_of_visit (v := Run.arrive machine next now) hterminal rfl

/-- A step accounts for every job that the workflow holds, at every depth. -/
theorem step_custody (hc : e.runner.Custody A) (machine : Machine) : machine.Accounts e A := by
  induction machine using Machine.induction with
  | h machine ih =>
    intro m r s F hcoherent hs
    have hstart : Run.Everywhere Run.Coherent machine (r.start machine m.now) :=
      (Run.coherent_invariant (e := e)).everywhere_start hcoherent
    rw [← Run.jobs_start hcoherent.here m.now] at hs
    have hstop : ∀ {r' : Run} {cause}, r'.jobs = (r.start machine m.now).jobs →
        A (r'.stop e cause s).2.2 ((r'.stop e cause s).2.1.jobs + F) := by
      intro r' cause hjobs
      have hfree : (r'.stop e cause s).2.1.jobs = [] := Run.jobs_of_terminal Run.abort_terminal
      rw [hfree]
      simpa [Run.stop] using Run.abort_custody hc (hjobs ▸ hs)
    have hbegun : r.isTerminal = false →
        (r.begun machine m.now).jobs = (r.start machine m.now).jobs := by
      intro hr
      have hlive : (r.start machine m.now).isTerminal = false :=
        Run.isTerminal_of_running (Run.start_status hr _)
      have hvisit := hstart.here.visited (Run.start_status hr _)
      obtain ⟨v, hv⟩ := Option.isSome_iff_exists.mp hvisit
      rw [Run.jobs_of_visit hlive hv, Run.jobs_of_visit (r := r.begun machine m.now) hlive hv]
    refine Run.step_rule (Q := fun q => A q.2.2 (q.2.1.jobs + F)) ?_ ?_ ?_ ?_ ?_
    · intro hr
      rw [Run.jobs_start hcoherent.here] at hs
      exact hs
    · intro hr _
      exact hstop rfl
    · intro hr _
      exact hstop (hbegun hr)
    · intro v hr _ _
      exact hstop (hbegun hr)
    · intro v st res v' s' hr _ hv hst hadv
      have hrunning : (r.begun machine m.now).status = .running := Run.begun_status hr _
      have hsubs : ∀ sub ∈ st.machines, sub.Accounts e A := ih _ (mem_states hst)
      have hv' : (r.start machine m.now).visit = some v := hv
      have hsound : ∀ b, v.progress = .branches b → st.Sound b := by
        intro b hb
        have hfits := hstart.here.fits v st hv' hst
        rw [hb] at hfits
        cases hfits with
        | branches _ hstaffed =>
          exact ⟨hstaffed, fun x hx sub hsub => hstart.nested hv' hb hst hx hsub⟩
      rw [← hbegun hr, Run.jobs_of_visit (Run.isTerminal_of_running hrunning) hv] at hs
      have hsettled : Settled A F (State.advance e m st (r.begun machine m.now) v s) :=
        State.advance_custody hc hsubs (hstart.here.fits v st hv' hst) hsound hs
      rw [hadv] at hsettled
      change A s' (((r.begun machine m.now).settle e.config machine m.now v' res).2.jobs + F)
      rwa [jobs_settle hrunning]

end Machine

end StatesLanguage
