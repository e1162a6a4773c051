import StatesLanguage.Proofs.Calls
import StatesLanguage.Proofs.Custody

/-! The calls on a runner are written down, to tell that every job that was launched is either held
by a workflow or has been released once. -/
namespace StatesLanguage

variable {σ : Type}

/-- A call on a runner. -/
inductive JobCall where
  | launched (handle : JobHandle)
  | refused
  | polled (handle : JobHandle)
  | released (handle : JobHandle)
  deriving DecidableEq

/-- The runner that writes down the calls on it. -/
def JobRunner.logged (runner : JobRunner σ) : JobRunner (σ × List JobCall) where
  launch resource input credentials s :=
    match runner.launch resource input credentials s.1 with
    | (.ok handle, s') => (.ok handle, s', s.2 ++ [.launched handle])
    | (.error err, s') => (.error err, s', s.2 ++ [.refused])
  poll handle s :=
    let (status, s') := runner.poll handle s.1
    (status, s', s.2 ++ [.polled handle])
  cleanup handle s := (runner.cleanup handle s.1, s.2 ++ [.released handle])

namespace JobCall

/-- The jobs that were launched, in order. -/
def launches (log : List JobCall) : List JobHandle :=
  log.filterMap fun
    | .launched handle => some handle
    | _ => none

/-- The jobs that were released, in order. -/
def releases (log : List JobCall) : List JobHandle :=
  log.filterMap fun
    | .released handle => some handle
    | _ => none

/-- The calls of one who polls and releases only what is held, and what is held after them. -/
inductive Owes : List JobCall → Multiset JobHandle → Prop where
  | nothing : Owes [] 0
  | launched {log : List JobCall} {handle : JobHandle} {T : Multiset JobHandle} :
    Owes log T → Owes (log ++ [.launched handle]) ({handle} + T)
  | refused {log : List JobCall} {T : Multiset JobHandle} :
    Owes log T → Owes (log ++ [.refused]) T
  | polled {log : List JobCall} {handle : JobHandle} {T : Multiset JobHandle} :
    Owes log ({handle} + T) → Owes (log ++ [.polled handle]) ({handle} + T)
  | released {log : List JobCall} {handle : JobHandle} {T : Multiset JobHandle} :
    Owes log ({handle} + T) → Owes (log ++ [.released handle]) T

variable {log : List JobCall} {T : Multiset JobHandle}

/-- What was launched is held or has been released. -/
theorem Owes.balance (h : Owes log T) :
    T + (releases log : Multiset JobHandle) = (launches log : Multiset JobHandle) := by
  induction h with
  | nothing => rfl
  | @launched log handle T _ ih =>
    rw [add_assoc]
    simp only [launches, releases, List.filterMap_append] at ih ⊢
    simp [ih, ← Multiset.coe_add, add_comm]
  | refused _ ih => simpa [launches, releases] using ih
  | polled _ ih => simpa [launches, releases] using ih
  | @released log handle T _ ih =>
    rw [add_comm {handle} T, add_assoc] at ih
    simp only [launches, releases, List.filterMap_append] at ih ⊢
    simp [← ih, ← Multiset.coe_add, add_comm]

/-- A job that is polled is held at that time. -/
theorem Owes.polled_held (h : Owes log T) {before after : List JobCall} {handle : JobHandle}
    (hlog : log = before ++ .polled handle :: after) : ∃ U, Owes before ({handle} + U) := by
  induction h generalizing after with
  | nothing => simp at hlog
  | @polled log handle' T h ih =>
    rcases List.eq_nil_or_concat after with rfl | ⟨after, call, rfl⟩
    · obtain ⟨rfl, hcall⟩ := List.append_inj' hlog rfl
      cases hcall
      exact ⟨T, h⟩
    · rw [List.concat_eq_append, ← List.cons_append, ← List.append_assoc] at hlog
      exact ih (List.append_inj' hlog rfl).1
  | launched _ ih | refused _ ih | released _ ih =>
    rcases List.eq_nil_or_concat after with rfl | ⟨after, call, rfl⟩
    · obtain ⟨rfl, hcall⟩ := List.append_inj' hlog rfl
      cases hcall
    · rw [List.concat_eq_append, ← List.cons_append, ← List.append_assoc] at hlog
      exact ih (List.append_inj' hlog rfl).1

end JobCall

/-- A runner that writes down its calls is in the custody of what is owed by them. -/
theorem JobRunner.logged_custody (runner : JobRunner σ) :
    runner.logged.Custody fun s T => JobCall.Owes s.2 T where
  launched := by
    intro resource input credentials handle s s' T h hlaunch
    simp only [logged] at hlaunch
    split at hlaunch
    · cases hlaunch
      exact h.launched
    · cases hlaunch
  refused := by
    intro resource input credentials err s s' T h hlaunch
    simp only [logged] at hlaunch
    split at hlaunch
    · cases hlaunch
    · cases hlaunch
      exact h.refused
  polled := by
    intro handle status s s' T h hpoll
    cases hpoll
    exact h.polled
  released h := h.released

namespace Run

mutual

/-- The jobs that stand in the progress of a workflow and of those in flight inside it. -/
def held : Run → List JobHandle
  | ⟨_, _, _, _, _, _, visit, _, _, _⟩ => heldByVisit? visit

def heldByVisit? : Option Visit → List JobHandle
  | none => []
  | some v => heldByVisit v

def heldByVisit : Visit → List JobHandle
  | ⟨_, _, progress, _, _, _⟩ => heldByProgress progress

def heldByProgress : Progress → List JobHandle
  | .idle | .waiting _ => []
  | .job handle _ => [handle]
  | .branches b => heldByBranches b

def heldByBranches : Branches Run → List JobHandle
  | ⟨_, inFlight, _, _, _, _, _⟩ => heldByChildren inFlight

def heldByChildren : List (Nat × Run) → List JobHandle
  | [] => []
  | (_, r) :: rest => held r ++ heldByChildren rest

end

variable {r : Run} {v : Visit}

theorem held_of_unvisited (h : r.visit = none) : r.held = [] := by
  cases r
  simp_all [held, heldByVisit?]

theorem held_of_visit (h : r.visit = some v) : r.held = heldByProgress v.progress := by
  cases r
  cases v
  simp_all [held, heldByVisit?, heldByVisit]

theorem heldByChildren_congr {xs : List (Nat × Run)} (h : ∀ x ∈ xs, x.2.held = x.2.jobs) :
    heldByChildren xs = childJobs xs := by
  induction xs with
  | nil => rfl
  | cons x rest ih =>
    rw [heldByChildren, childJobs, h x List.mem_cons_self,
      ih fun y hy => h y (List.mem_cons_of_mem _ hy)]

/-- What stands in the progress of workflows that are coherent are their jobs: one that has ended
does nothing. -/
theorem held_eq_jobs (machine : Machine) :
    ∀ {r : Run}, Everywhere Coherent machine r → r.held = r.jobs := by
  induction machine using Machine.induction with
  | h machine ih =>
    intro r hr
    cases hv : r.visit with
    | none => rw [held_of_unvisited hv, jobs_of_unvisited hv]
    | some v =>
      rw [held_of_visit hv]
      cases hterminal : r.isTerminal with
      | true =>
        rw [hr.here.stopped hterminal v hv, jobs_of_terminal hterminal]
        rfl
      | false =>
        rw [jobs_of_visit hterminal hv]
        cases hp : v.progress with
        | idle | waiting | job => rfl
        | branches b =>
          cases hst : machine.state? v.state with
          | none =>
            rw [hr.here.undefined v hv hst] at hp
            cases hp
          | some st =>
            have hfits := hr.here.fits v st hv hst
            rw [hp] at hfits
            cases hfits with
            | branches _ hstaffed =>
              obtain ⟨pending, inFlight, _⟩ := b
              refine heldByChildren_congr fun x hx => ?_
              obtain ⟨sub, hsub⟩ := Option.isSome_iff_exists.mp (hstaffed.flying x hx).1
              exact ih _ (Machine.mem_states hst) sub (Machine.State.mem_machines hsub)
                (hr.nested hv hp hst (List.mem_append_right _ hx) hsub)

end Run

namespace Workflow

open JobCall

variable {runner : JobRunner σ} {machine : Machine} {config : Config} {execution : Execution}
  {input : Value} {w : Workflow} {s₀ s : σ} {log : List JobCall}

/-- The calls on the runner owe exactly what is held. -/
theorem owes_held
    (h : Reaches runner.logged ⟨machine, config, .ofInput execution input⟩ (s₀, []) w (s, log)) :
    Owes log w.run.held ∧ Run.Everywhere Run.Coherent machine w.run := by
  -- A step accounts for `jobs`, which leaves out what ended workflows have in their records; that
  -- there is nothing in these follows from coherence.
  have howes := h.rule (I := fun w s => (w.machine = machine ∧ w.config = config ∧
    Run.Everywhere Run.Coherent machine w.run) ∧ Owes s.2 w.run.jobs) ?_ ?_ ?_ ?_
  · obtain ⟨⟨-, -, hcoherent⟩, howes⟩ := howes
    rw [Run.held_eq_jobs machine hcoherent]
    exact ⟨howes, hcoherent⟩
  · refine ⟨⟨rfl, rfl, .of_unvisited (Run.coherent_ofInput execution input) rfl⟩, ?_⟩
    rw [Run.jobs_of_unvisited rfl]
    exact .nothing
  · rintro w s now ⟨⟨rfl, rfl, hcoherent⟩, howes⟩
    have hinvariant : Run.Invariant ⟨runner.logged, w.config⟩ Run.Coherent :=
      Run.coherent_invariant
    refine ⟨⟨rfl, rfl, hinvariant.everywhere_start hcoherent⟩, ?_⟩
    simpa only [enterStart, Run.jobs_start hcoherent.here] using howes
  · rintro w s m ⟨⟨rfl, rfl, hcoherent⟩, howes⟩
    refine ⟨⟨rfl, rfl, Run.coherent_invariant.everywhere_step w.machine hcoherent⟩, ?_⟩
    have hstep := Machine.step_custody (e := ⟨runner.logged, w.config⟩) runner.logged_custody
      w.machine (m := m.part w.run.steps) (F := 0) hcoherent (by simpa using howes)
    simpa [step] using hstep
  · rintro w s cause ⟨⟨rfl, rfl, hcoherent⟩, howes⟩
    have hinvariant : Run.Invariant ⟨runner.logged, w.config⟩ Run.Coherent :=
      Run.coherent_invariant
    refine ⟨⟨rfl, rfl, hinvariant.everywhere_abort hcoherent⟩, ?_⟩
    have habort : Owes (w.run.abort runner.logged cause s).2.2 0 :=
      Run.abort_custody runner.logged_custody (by simpa using howes)
    have hfree : (w.run.abort runner.logged cause s).1.jobs = [] :=
      Run.jobs_of_terminal Run.abort_terminal
    simpa [abort, hfree] using habort

/-- Every job is accounted for, whatever the runner answers and however the workflow is called: a
job that was launched is held at one place or has been released once, it is polled only while it is
held, and a workflow that has ended has released all its jobs. The runner gives each job a handle of
its own. -/
theorem jobs_accounted
    (h : Reaches runner.logged ⟨machine, config, .ofInput execution input⟩ (s₀, []) w (s, log))
    (hfresh : (launches log).Nodup) :
    (∀ handle, handle ∈ w.run.held ↔ handle ∈ launches log ∧ handle ∉ releases log) ∧
    w.run.held.Nodup ∧ (releases log).Nodup ∧ releases log ⊆ launches log ∧
    (∀ before handle after, log = before ++ .polled handle :: after →
      handle ∈ launches before ∧ handle ∉ releases before) ∧
    (w.isTerminal = true → (releases log).Perm (launches log)) := by
  obtain ⟨howes, hcoherent⟩ := owes_held h
  have hperm : (w.run.held ++ releases log).Perm (launches log) := by
    rw [← Multiset.coe_eq_coe, ← Multiset.coe_add]
    exact howes.balance
  have hnodup : (w.run.held ++ releases log).Nodup := hperm.nodup_iff.mpr hfresh
  obtain ⟨hheld, hreleases, hdisjoint⟩ := List.nodup_append.mp hnodup
  refine ⟨fun handle => ?_, hheld, hreleases, fun handle hmem => ?_,
    fun before handle after hlog => ?_, fun hterminal => ?_⟩
  · rw [← hperm.mem_iff, List.mem_append]
    constructor
    · intro hmem
      exact ⟨Or.inl hmem, fun hreleased => hdisjoint handle hmem handle hreleased rfl⟩
    · rintro ⟨hmem | hmem, hreleased⟩
      · exact hmem
      · exact (hreleased hmem).elim
  · exact hperm.mem_iff.mp (List.mem_append_right _ hmem)
  · obtain ⟨U, hbefore⟩ := howes.polled_held hlog
    have hbalance := hbefore.balance
    have hfresh : (launches before).Nodup := by
      rw [hlog, launches, List.filterMap_append] at hfresh
      exact (List.nodup_append.mp hfresh).1
    rw [← Multiset.coe_nodup, ← hbalance, add_assoc, Multiset.singleton_add] at hfresh
    have hmem : handle ∈ (launches before : Multiset JobHandle) := by
      rw [← hbalance]
      simp
    refine ⟨hmem, fun hreleased => ?_⟩
    exact (Multiset.nodup_cons.mp hfresh).1 (Multiset.mem_add.mpr (Or.inr hreleased))
  · have hempty : w.run.held = [] := by
      rw [Run.held_eq_jobs machine hcoherent, Run.jobs_of_terminal hterminal]
    rwa [hempty, List.nil_append] at hperm

section

/-- A job at the side of a workflow that fails in its second step. -/
def failingMachine : Machine := ⟨"Both", [("Both", .parallel ⟨none, {}, {}⟩
  [⟨"Work", [("Work", .task ⟨none, "local", none, none, {}, {}⟩)]⟩,
   ⟨"First", [("First", .pass ⟨some "Last", {}, none⟩), ("Last", .fail ⟨.absent, .absent⟩)]⟩])]⟩

/-- The job that is held after one step is released in the next one, in which its sibling fails. -/
theorem failing_jobs_accounted : ∃ w log,
    Reaches hangingRunner.logged ⟨failingMachine, {}, .ofInput default .null⟩ ((), []) w ((), log) ∧
    (launches log).Nodup ∧ w.isTerminal = true ∧
    log = [.launched ⟨"job", "local"⟩, .polled ⟨"job", "local"⟩, .polled ⟨"job", "local"⟩,
      .released ⟨"job", "local"⟩] ∧ (releases log).Perm (launches log) := by
  have hreach : Reaches hangingRunner.logged ⟨failingMachine, {}, .ofInput default .null⟩ ((), [])
      _ _ := (Reaches.new.stepped .zero).stepped .zero
  generalize hsteps : Workflow.step _ _ _ _ = x at hreach
  refine ⟨_, _, hreach, ?fresh, ?ended, ?log,
    (jobs_accounted hreach ?fresh).2.2.2.2.2 ?ended⟩
  all_goals
    rw [← hsteps]
    decide +kernel

end

end Workflow

end StatesLanguage
