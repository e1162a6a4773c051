import StatesLanguage.Proofs.Custody
import StatesLanguage.Proofs.Waiting

/-! Until the instant that a blocked workflow waits for there is nothing to be gained by a step: as
long as no job ends and none is overdue the workflow stays as it is, at every depth. -/
namespace StatesLanguage

variable {σ : Type}

namespace Instant

variable {a b c : Instant} {l : List Instant}

theorem before_iff : a.before b = true ↔
    a.seconds < b.seconds ∨ a.seconds = b.seconds ∧ a.nanos < b.nanos := by
  unfold before order
  split_ifs <;> simp <;> omega

theorem before_of_earlier (h : a.before (b.earlier c) = true) :
    a.before b = true ∧ a.before c = true := by
  unfold earlier at h
  split_ifs at h with hbc
  · refine ⟨?_, h⟩
    rw [before_iff] at h hbc ⊢
    omega
  · refine ⟨h, ?_⟩
    rw [before_iff] at h hbc ⊢
    omega

/-- What comes before the earliest of some instants comes before each of them. -/
theorem before_of_earliest (h : ∀ t, earliest? l = some t → a.before t = true) :
    ∀ d ∈ l, a.before d = true := by
  induction l with
  | nil => simp
  | cons b rest ih =>
    have hfirst := h _ rfl
    cases hrest : earliest? rest with
    | none =>
      rw [hrest] at hfirst
      exact List.forall_mem_cons.mpr ⟨hfirst, ih (by simp [hrest])⟩
    | some c =>
      rw [hrest] at hfirst
      obtain ⟨hb, hc⟩ := before_of_earlier hfirst
      refine List.forall_mem_cons.mpr ⟨hb, ih fun t ht => ?_⟩
      rwa [← Option.some.inj (hrest.symm.trans ht)]

end Instant

namespace Run

mutual

/-- A workflow without the numbers of its steps and of those of the workflows in flight inside it.
Nothing else is left out. -/
def uncounted : Run → Run
  | ⟨execution, status, data, output, error, abortCause, visit, next, history, _⟩ =>
    ⟨execution, status, data, output, error, abortCause, uncountedVisit? visit, next, history, 0⟩

def uncountedVisit? : Option Visit → Option Visit
  | none => none
  | some v => some (uncountedVisit v)

def uncountedVisit : Visit → Visit
  | ⟨state, enteredAt, progress, attempts, retries, notBefore⟩ =>
    ⟨state, enteredAt, uncountedProgress progress, attempts, retries, notBefore⟩

def uncountedProgress : Progress → Progress
  | .idle => .idle
  | .job handle launchedAt => .job handle launchedAt
  | .waiting deadline => .waiting deadline
  | .branches b => .branches (uncountedBranches b)

def uncountedBranches : Branches Run → Branches Run
  | ⟨pending, inFlight, results, limit, tolerance, recorded, failed⟩ =>
    ⟨pending, uncountedChildren inFlight, results, limit, tolerance, recorded, failed⟩

def uncountedChildren : List (Nat × Run) → List (Nat × Run)
  | [] => []
  | (i, r) :: rest => (i, uncounted r) :: uncountedChildren rest

end

mutual

theorem deadlines_uncounted : ∀ r : Run, r.uncounted.deadlines = r.deadlines
  | ⟨execution, status, data, output, error, abortCause, visit, next, history, steps⟩ => by
    rw [uncounted, deadlines, deadlines, visitDeadlines?_uncounted visit]

theorem visitDeadlines?_uncounted : ∀ visit : Option Visit,
    visitDeadlines? (uncountedVisit? visit) = visitDeadlines? visit
  | none => rfl
  | some v => visitDeadlines_uncounted v

theorem visitDeadlines_uncounted : ∀ v : Visit,
    visitDeadlines (uncountedVisit v) = visitDeadlines v
  | ⟨state, enteredAt, progress, attempts, retries, notBefore⟩ => by
    rw [uncountedVisit, visitDeadlines, visitDeadlines, progressDeadlines_uncounted progress]

theorem progressDeadlines_uncounted : ∀ p : Progress,
    progressDeadlines (uncountedProgress p) = progressDeadlines p
  | .idle | .job _ _ | .waiting _ => rfl
  | .branches b => branchDeadlines_uncounted b

theorem branchDeadlines_uncounted : ∀ b : Branches Run,
    branchDeadlines (uncountedBranches b) = branchDeadlines b
  | ⟨_, inFlight, _, _, _, _, _⟩ => childDeadlines_uncounted inFlight

theorem childDeadlines_uncounted : ∀ xs : List (Nat × Run),
    childDeadlines (uncountedChildren xs) = childDeadlines xs
  | [] => rfl
  | (i, r) :: rest => by
    rw [uncountedChildren, childDeadlines, childDeadlines, deadlines_uncounted r,
      childDeadlines_uncounted rest]

end

variable {r : Run} {v v' : Visit}

theorem waitUntil_congr {r' : Run} (h : r'.uncounted = r.uncounted) :
    r'.waitUntil? = r.waitUntil? := by
  rw [waitUntil?, waitUntil?, ← deadlines_uncounted r', h, deadlines_uncounted]

theorem uncountedChildren_eq (xs : List (Nat × Run)) :
    uncountedChildren xs = xs.map fun x => (x.1, x.2.uncounted) := by
  induction xs with
  | nil => rfl
  | cons x rest ih => rw [uncountedChildren, ih, List.map_cons]

theorem length_of_uncounted {xs ys : List (Nat × Run)}
    (h : uncountedChildren xs = uncountedChildren ys) : xs.length = ys.length := by
  simpa [uncountedChildren_eq] using congrArg List.length h

/-- A workflow that has only counted a step is the same without its numbers. -/
theorem uncounted_stayed {n : Nat} (hv : r.visit = some v)
    (hv' : uncountedVisit v' = uncountedVisit v) :
    uncounted { r with steps := n, visit := some v' } = r.uncounted := by
  cases r
  cases hv
  simp only [uncounted, uncountedVisit?, hv']

theorem uncounted_branches {b : Branches Run} {xs : List (Nat × Run)}
    (hp : v.progress = .branches b) (hxs : uncountedChildren xs = uncountedChildren b.inFlight) :
    uncountedVisit { v with progress := .branches { b with inFlight := xs } } = uncountedVisit v := by
  cases v
  cases hp
  cases b
  simp only [uncountedVisit, uncountedProgress, uncountedBranches, hxs]

theorem deadlines_of_visit (hr : r.isTerminal = false) (hv : r.visit = some v) :
    r.deadlines = v.notBefore.toList ++ progressDeadlines v.progress := by
  cases r
  cases v
  cases hv
  have hr : Status.isTerminal _ = false := hr
  simp [deadlines, hr, visitDeadlines?, visitDeadlines]

theorem childDeadlines_eq (xs : List (Nat × Run)) :
    childDeadlines xs = xs.flatMap fun x => x.2.deadlines := by
  induction xs with
  | nil => rfl
  | cons x rest ih => rw [childDeadlines, ih, List.flatMap_cons]

theorem mem_branchDeadlines {b : Branches Run} {x : Nat × Run} {d : Instant} (hx : x ∈ b.inFlight)
    (hd : d ∈ x.2.deadlines) : d ∈ branchDeadlines b := by
  cases b
  rw [branchDeadlines, childDeadlines_eq]
  exact List.mem_flatMap.mpr ⟨x, hx, hd⟩

/-- The jobs of a workflow by itself are not overdue at an instant. -/
def OnTime (now : Instant) (machine : Machine) (r : Run) : Prop :=
  ∀ v t handle launchedAt, r.visit = some v → machine.state? v.state = some (.task t) →
    v.progress = .job handle launchedAt → t.isOverdue now launchedAt = false

end Run

/-- A workflow that waits and cannot move at an instant unless a job has ended: all that it waits for
is ahead, and no job is overdue. -/
structure Run.Idles (now : Instant) (machine : Machine) (r : Run) : Prop where
  coherent : Everywhere Coherent machine r
  waiting : ∃ past polls, Waiting past polls machine r
  onTime : Everywhere (OnTime now) machine r
  early : ∀ d ∈ r.deadlines, now.before d = true

/-- Where every slot is in use or no child waits there is nothing to start. -/
theorem Branches.startNext_of_full {α τ : Type} {c : Child α τ} {b : Branches α}
    (h : b.pending = [] ∨ b.limit ≠ 0 ∧ b.inFlight.length = b.limit) :
    b.nextUp = [] ∧ b.startNext c = b := by
  have hnone : b.pending.take b.freeSlots = [] ∧ b.pending.drop b.freeSlots = b.pending := by
    rcases h with h | ⟨hlimit, hlength⟩
    · simp [h]
    · simp [freeSlots, hlimit, hlength]
  refine ⟨hnone.1, ?_⟩
  simp only [startNext, nextUp, hnone, List.map_nil, List.append_nil]

/-- Whether all polls found jobs that have not ended. -/
def Polls.Unfinished (polls : Polls) : Prop := ∀ x ∈ polls, x.2 = .running

theorem Polls.Unfinished.of_prefix {polls polls' : Polls} (h : polls'.Unfinished)
    (hp : polls <+: polls') : polls.Unfinished :=
  fun x hx => h x (hp.subset hx)

/-- A runner that writes down its polls only adds to them. -/
theorem JobRunner.observed_custody (runner : JobRunner σ) (log : Polls) :
    runner.observed.Custody fun s _ => log <+: s.2 where
  launched := by
    intro resource input credentials handle s s' T h hlaunch
    obtain rfl := congrArg Prod.snd hlaunch
    exact h
  refused := by
    intro resource input credentials err s s' T h hlaunch
    obtain rfl := congrArg Prod.snd hlaunch
    exact h
  polled := by
    intro handle status s s' T h hpoll
    obtain rfl := congrArg Prod.snd hpoll
    exact h.trans (List.prefix_append _ _)
  released h := h

variable {runner : JobRunner σ} {config : Config} {s : σ × Polls}

theorem Machine.step_polls (machine : Machine) {m : Moment} {r : Run}
    (h : Run.Everywhere Run.Coherent machine r) :
    s.2 <+: (machine.step ⟨runner.observed, config⟩ m r s).2.2.2 :=
  Machine.step_custody (e := ⟨runner.observed, config⟩) (runner.observed_custody s.2) machine
    (F := 0) h List.prefix_rfl

/-- To release jobs is not to poll any. -/
theorem Run.abort_polls {cause : String} {r : Run} :
    (r.abort runner.observed cause s).2.2 = s.2 := by
  have hreleased : ∀ (handles : List JobHandle) (s : σ × Polls),
      (handles.foldl (fun s handle => runner.observed.cleanup handle s) s).2 = s.2 := by
    intro handles
    induction handles with
    | nil => exact fun _ => rfl
    | cons handle rest ih => exact fun s => ih _
  unfold abort
  split
  · rfl
  · exact hreleased _ _

namespace Machine

variable {m : Moment} {st : State} {r : Run} {v : Visit} {machine : Machine}

theorem State.abortAll_polls {cause : String} {xs : List (Nat × Run)} :
    (Branches.abortAll (st.child ⟨runner.observed, config⟩ m) cause xs s).2 = s.2 := by
  induction xs generalizing s with
  | nil => rfl
  | cons x rest ih =>
    rw [Branches.abortAll, ih, child_abort]
    exact Run.abort_polls

/-- A step that finds a workflow idle and no job at its end is blocked, and only counts itself. -/
def Rests (runner : JobRunner σ) (config : Config) (machine : Machine) : Prop :=
  ∀ {m r s}, Run.Idles m.now machine r →
    Polls.Unfinished (machine.step ⟨runner.observed, config⟩ m r s).2.2.2 →
    (machine.step ⟨runner.observed, config⟩ m r s).1 = .blocked ∧
      (machine.step ⟨runner.observed, config⟩ m r s).2.1.uncounted = r.uncounted

/-- A nested workflow that is idle. -/
def State.Dozes (st : State) (now : Instant) (i : Nat) (child : Run) : Prop :=
  ∃ sub, st.machineAt? i = some sub ∧ Run.Idles now sub child

theorem State.child_rests (h : ∀ sub ∈ st.machines, sub.Rests runner config) {i : Nat}
    {child child' : Run} {o : StepOutcome} {s' : σ × Polls} (hchild : st.Dozes m.now i child)
    (hstep : (st.child ⟨runner.observed, config⟩ m).step i child s = (o, child', s'))
    (hpolls : Polls.Unfinished s'.2) :
    Polls.Unfinished s.2 ∧ o = .blocked ∧ child'.uncounted = child.uncounted ∧
      child'.result? = none := by
  obtain ⟨sub, hsub, hidles⟩ := hchild
  rw [child_step hsub] at hstep
  have hprefix : s.2 <+: (sub.step ⟨runner.observed, config⟩ (m.child i) child s).2.2.2 :=
    step_polls sub hidles.coherent
  have hrests := h sub (mem_machines hsub) (m := m.child i) (s := s) hidles
  rw [hstep] at hprefix hrests
  obtain ⟨ho, hsame⟩ := hrests hpolls
  obtain ⟨past, polls, hwaiting⟩ := hidles.waiting
  have hrunning : child'.status = .running := by
    have hstatus := congrArg Run.status hsame
    cases child
    cases child'
    exact hstatus.trans hwaiting.running
  refine ⟨hpolls.of_prefix hprefix, ho, hsame, ?_⟩
  rw [Run.result?, hrunning]

/-- A round of children that are idle leaves each of them as it is. -/
theorem State.round_rests (h : ∀ sub ∈ st.machines, sub.Rests runner config) {b : Branches Run}
    (hidles : ∀ x ∈ b.inFlight, st.Dozes m.now x.1 x.2)
    (hpolls : Polls.Unfinished (Branches.round (st.child ⟨runner.observed, config⟩ m) b.inFlight
      false { b with inFlight := [] } s).2.2.2) :
    ∃ xs s', Branches.round (st.child ⟨runner.observed, config⟩ m) b.inFlight false
        { b with inFlight := [] } s = (.ok false, { b with inFlight := xs }, s') ∧
      Run.uncountedChildren xs = Run.uncountedChildren b.inFlight := by
  revert hpolls
  refine Branches.round_rule
    (I := fun todo p b₁ (s₁ : σ × Polls) => (∀ x ∈ todo, st.Dozes m.now x.1 x.2) ∧
      (Polls.Unfinished s₁.2 → p = false ∧ ∃ xs, b₁ = { b with inFlight := xs } ∧
        Run.uncountedChildren (xs ++ todo) = Run.uncountedChildren b.inFlight))
    (Q := fun (q : _ × _ × σ × Polls) => Polls.Unfinished q.2.2.2 →
      ∃ xs s', q = (.ok false, { b with inFlight := xs }, s') ∧
        Run.uncountedChildren xs = Run.uncountedChildren b.inFlight)
    ?_ ?_ ?_ ?_ ⟨hidles, fun _ => ⟨rfl, [], rfl, rfl⟩⟩
  · rintro i a rest p b₁ s₁ o a' s₂ ⟨htodo, hb₁⟩ hstep _
    refine ⟨fun x hx => htodo x (List.mem_cons_of_mem _ hx), fun hpolls => ?_⟩
    obtain ⟨hpolls, rfl, hsame, -⟩ := State.child_rests h (htodo _ List.mem_cons_self) hstep hpolls
    obtain ⟨rfl, xs, rfl, hxs⟩ := hb₁ hpolls
    refine ⟨rfl, xs ++ [(i, a')], rfl, ?_⟩
    rw [← hxs]
    simp [Run.uncountedChildren_eq, hsame]
  · rintro i a rest p b₁ s₁ o a' s₂ result b₂ ⟨htodo, hb₁⟩ hstep hresult _
    refine ⟨fun x hx => htodo x (List.mem_cons_of_mem _ hx), fun hpolls => ?_⟩
    obtain ⟨-, -, -, hnone⟩ := State.child_rests h (htodo _ List.mem_cons_self) hstep hpolls
    cases hresult.symm.trans hnone
  · rintro i a rest p b₁ s₁ o a' s₂ result b₂ err ⟨htodo, -⟩ hstep hresult _ hpolls
    have hpolls : Polls.Unfinished s₂.2 := by rwa [Branches.abandon, State.abortAll_polls] at hpolls
    obtain ⟨-, -, -, hnone⟩ := State.child_rests h (htodo _ List.mem_cons_self) hstep hpolls
    cases hresult.symm.trans hnone
  · rintro p b₁ s₁ ⟨-, hb₁⟩ hpolls
    obtain ⟨rfl, xs, rfl, hxs⟩ := hb₁ hpolls
    rw [List.append_nil] at hxs
    exact ⟨xs, s₁, rfl, hxs⟩

/-- Branches that have nothing to start stay as they are while their children are idle. -/
theorem State.branches_rest (h : ∀ sub ∈ st.machines, sub.Rests runner config) {b : Branches Run}
    (hidles : ∀ x ∈ b.inFlight, st.Dozes m.now x.1 x.2) (hne : b.inFlight ≠ [])
    (hfull : b.pending = [] ∨ b.limit ≠ 0 ∧ b.inFlight.length = b.limit)
    (hpolls : Polls.Unfinished (b.advance (st.child ⟨runner.observed, config⟩ m) s).2.2.2) :
    ∃ xs s', b.advance (st.child ⟨runner.observed, config⟩ m) s =
        (.running false, { b with inFlight := xs }, s') ∧
      Run.uncountedChildren xs = Run.uncountedChildren b.inFlight := by
  have hfirst := Branches.startNext_of_full (c := st.child ⟨runner.observed, config⟩ m) hfull
  have hround := State.round_rests (m := m) (s := s) h hidles
  revert hpolls
  refine Branches.advance_rule (Q := fun (q : _ × _ × σ × Polls) => Polls.Unfinished q.2.2.2 →
    ∃ xs s', q = (.running false, { b with inFlight := xs }, s') ∧
      Run.uncountedChildren xs = Run.uncountedChildren b.inFlight) ?_ ?_ ?_
  all_goals rw [hfirst.1, hfirst.2]
  · intro err b₁ s₁ heq hpolls
    obtain ⟨xs, s', hround, -⟩ := hround (heq ▸ hpolls)
    cases heq.symm.trans hround
  · intro p b₁ s₁ heq _ hempty hpolls
    obtain ⟨xs, s', hround, hxs⟩ := hround (heq ▸ hpolls)
    cases heq.symm.trans hround
    have hlength := Run.length_of_uncounted hxs
    rw [show xs = [] from hempty] at hlength
    exact (hne (List.length_eq_zero_iff.mp hlength.symm)).elim
  · intro p b₁ s₁ heq _ hpolls
    obtain ⟨xs, s', hround, hxs⟩ := hround (heq ▸ hpolls)
    cases heq.symm.trans hround
    have hlast := Branches.startNext_of_full (c := st.child ⟨runner.observed, config⟩ m)
      (b := { b with inFlight := xs }) (by simpa [Run.length_of_uncounted hxs] using hfull)
    exact ⟨xs, _, by rw [hlast.1, hlast.2]; rfl, hxs⟩

theorem State.nested_rests (h : ∀ sub ∈ st.machines, sub.Rests runner config) {b : Branches Run}
    {start : Except ExecutionError (Branches Run)}
    {complete : Value → Except ExecutionError Advance} (hp : v.progress = .branches b)
    (hidles : ∀ x ∈ b.inFlight, st.Dozes m.now x.1 x.2) (hne : b.inFlight ≠ [])
    (hfull : b.pending = [] ∨ b.limit ≠ 0 ∧ b.inFlight.length = b.limit)
    (hpolls : Polls.Unfinished
      (Branches.work start (st.child ⟨runner.observed, config⟩ m) complete v s).2.2.2) :
    ∃ v' s', Branches.work start (st.child ⟨runner.observed, config⟩ m) complete v s =
      (.ok .blocked, v', s') ∧ Run.uncountedVisit v' = Run.uncountedVisit v := by
  have hrests := State.branches_rest (m := m) (s := s) h hidles hne hfull
  revert hpolls
  refine Branches.work_rule (Q := fun (q : _ × _ × σ × Polls) => Polls.Unfinished q.2.2.2 →
    ∃ v' s', q = (.ok .blocked, v', s') ∧ Run.uncountedVisit v' = Run.uncountedVisit v)
    ?_ ?_ ?_ ?_
  · intro err hnone
    exact (hnone b hp).elim
  · rintro b₁ p b' s' (hb | ⟨hnone, -⟩) hadv hpolls
    · cases hb.symm.trans hp
      obtain ⟨xs, s₁, hrun, hxs⟩ := hrests (hadv ▸ hpolls)
      cases hadv.symm.trans hrun
      exact ⟨_, _, rfl, Run.uncounted_branches hp hxs⟩
    · exact (hnone b hp).elim
  all_goals
    rintro b₁ _ b' s' (hb | ⟨hnone, -⟩) hadv hpolls
    · cases hb.symm.trans hp
      obtain ⟨xs, s₁, hrun, -⟩ := hrests (hadv ▸ hpolls)
      cases hadv.symm.trans hrun
    · exact (hnone b hp).elim

/-- A Wait state keeps the deadline that it has, and is blocked before it. -/
theorem Wait.advance_early {p : Wait} {data context : Value} {deadline : Instant}
    (hp : v.progress = .waiting deadline) (hnow : m.now.before deadline = true) :
    p.advance m data context v = (.ok .blocked, v) := by
  cases v
  cases hp
  simp only [Wait.advance, Wait.deadline, hnow, if_true]

/-- A Task state keeps a job that has not ended and is not overdue. -/
theorem Task.advance_unfinished {t : Task} {data context : Value} {handle : JobHandle}
    {launchedAt : Instant} (hp : v.progress = .job handle launchedAt)
    (hdue : t.isOverdue m.now launchedAt = false)
    (hpolls : Polls.Unfinished (t.advance ⟨runner.observed, config⟩ m data context v s).2.2.2) :
    ∃ s', t.advance ⟨runner.observed, config⟩ m data context v s = (.ok .blocked, v, s') := by
  have hpoll : t.advance ⟨runner.observed, config⟩ m data context v s =
      t.poll ⟨runner.observed, config⟩ m data context handle launchedAt
        { v with progress := .idle } s := by
    simp only [Task.advance, hp]
  have hkept : { v with progress := .job handle launchedAt } = v := by
    cases v
    cases hp
    rfl
  rw [hpoll] at hpolls ⊢
  have hfound : ∀ {status : JobStatus} {s₁ : σ × Polls},
      runner.observed.poll handle s = (status, s₁) → Polls.Unfinished s₁.2 →
      status = .running := by
    intro status s₁ heq hpolls
    obtain ⟨rfl, rfl⟩ := Prod.mk.inj heq
    exact hpolls _ (List.mem_append_right _ List.mem_cons_self)
  revert hpolls
  refine Task.poll_rule (Q := fun (q : _ × _ × σ × Polls) => Polls.Unfinished q.2.2.2 →
    ∃ s', q = (.ok .blocked, v, s')) ?_ ?_ ?_ ?_
  · intro output s₁ heq hpolls
    cases hfound heq hpolls
  · intro error cause s₁ heq hpolls
    cases hfound heq hpolls
  · intro s₁ _ hover
    cases hdue.symm.trans hover
  · intro s₁ _ _ _
    exact ⟨s₁, by rw [← hkept]⟩

/-- Where there is no delay the work of a state is done, and an advance does nothing else unless
there is an error. -/
theorem State.advance_work {e : Engine σ} {s : σ}
    (hnone : st.handling? = none ∨ v.notBefore = none) :
    (State.advance e m st r v s).2.2 = (st.work e m r v v s).2.2 ∧
      ∀ a, (st.work e m r v v s).1 = .ok a → State.advance e m st r v s = st.work e m r v v s := by
  rw [State.advance_eq]
  cases hst : st.handling? with
  | none => exact ⟨rfl, fun _ _ => rfl⟩
  | some h =>
    have hnb : v.notBefore = none := by simpa [hst] using hnone
    have hkept : { v with notBefore := none } = v := by
      cases v
      cases hnb
      rfl
    simp only [ErrorHandling.guard, hnb, Option.any_none, Bool.false_eq_true, if_false, hkept]
    rcases st.work e m r v v s with ⟨err | a, v', s'⟩
    · exact ⟨rfl, fun _ ha => by cases ha⟩
    · exact ⟨rfl, fun _ _ => rfl⟩

theorem early_of_idles (hidles : Run.Idles m.now machine r) (hv : r.visit = some v) :
    (∀ t, v.notBefore = some t → m.now.before t = true) ∧
      ∀ d ∈ Run.progressDeadlines v.progress, m.now.before d = true := by
  obtain ⟨past, polls, hwaiting⟩ := hidles.waiting
  have hearly := hidles.early
  rw [Run.deadlines_of_visit (Run.isTerminal_of_running hwaiting.running) hv] at hearly
  refine ⟨fun t ht => hearly t ?_, fun d hd => hearly d (List.mem_append_right _ hd)⟩
  simp [ht]

/-- The workflows nested in one that is idle are idle. -/
theorem State.dozes_of_idles {b : Branches Run} {past : Instant} {polls : Polls}
    (hidles : Run.Idles m.now machine r) (hv : r.visit = some v)
    (hst : machine.state? v.state = some st) (hp : v.progress = .branches b)
    (hwaits : st.Waits past polls b.inFlight) : ∀ x ∈ b.inFlight, st.Dozes m.now x.1 x.2 := by
  intro x hx
  obtain ⟨hsome, hwaiting⟩ := hwaits x hx
  obtain ⟨sub, hsub⟩ := Option.isSome_iff_exists.mp hsome
  refine ⟨sub, hsub, hidles.coherent.nested hv hp hst (List.mem_append_right _ hx) hsub,
    ⟨past, polls, hwaiting sub hsub⟩,
    hidles.onTime.nested hv hp hst (List.mem_append_right _ hx) hsub, fun d hd => ?_⟩
  refine (early_of_idles hidles hv).2 d ?_
  rw [hp]
  exact Run.mem_branchDeadlines hx hd

/-- The work of a state leaves a workflow idle that is. -/
theorem State.work_rests (h : ∀ sub ∈ st.machines, sub.Rests runner config)
    (hidles : Run.Idles m.now machine r) (hv : r.visit = some v)
    (hst : machine.state? v.state = some st) (hnone : st.handling? = none ∨ v.notBefore = none)
    (hpolls : Polls.Unfinished (st.work ⟨runner.observed, config⟩ m r v v s).2.2.2) :
    ∃ v' s', st.work ⟨runner.observed, config⟩ m r v v s = (.ok .blocked, v', s') ∧
      Run.uncountedVisit v' = Run.uncountedVisit v := by
  obtain ⟨past, polls, hwaiting⟩ := hidles.waiting
  cases hwaiting with
  | delayed _ hv' hst' hh hnb _ =>
    cases hv.symm.trans hv'
    cases hst.symm.trans hst'
    rcases hnone with hnone | hnone
    · simp [hnone] at hh
    · simp [hnone] at hnb
  | @timed _ _ _ w deadline _ hv' hst' hp _ =>
    cases hv.symm.trans hv'
    cases hst.symm.trans hst'
    have hnow : m.now.before deadline = true :=
      (early_of_idles hidles hv).2 deadline (hp ▸ List.mem_cons_self)
    exact ⟨v, s, by simp only [State.work, Wait.advance_early hp hnow], rfl⟩
  | working _ hv' hst' hp _ _ =>
    cases hv.symm.trans hv'
    cases hst.symm.trans hst'
    obtain ⟨s', hadv⟩ := Task.advance_unfinished hp
      (hidles.onTime.here v _ _ _ hv hst hp) hpolls
    exact ⟨v, s', hadv, rfl⟩
  | @nesting _ _ _ _ b _ hv' hst' hkind hp hne hsome hwait hfull =>
    cases hv.symm.trans hv'
    cases hst.symm.trans hst'
    have hdozes := State.dozes_of_idles hidles hv hst hp fun x hx => ⟨hsome x hx, hwait x hx⟩
    cases st with
    | parallel | map => exact State.nested_rests h hp hdozes hne hfull hpolls
    | _ => simp [State.kind] at hkind

/-- An advance leaves a workflow idle that is: it waits out a delay, or does no more than its
work. -/
theorem State.advance_rests (h : ∀ sub ∈ st.machines, sub.Rests runner config)
    (hidles : Run.Idles m.now machine r) (hv : r.visit = some v)
    (hst : machine.state? v.state = some st)
    (hpolls : Polls.Unfinished (State.advance ⟨runner.observed, config⟩ m st r v s).2.2.2) :
    ∃ v' s', State.advance ⟨runner.observed, config⟩ m st r v s = (.ok .blocked, v', s') ∧
      Run.uncountedVisit v' = Run.uncountedVisit v := by
  have hdone (hnone : st.handling? = none ∨ v.notBefore = none) :
      ∃ v' s', State.advance ⟨runner.observed, config⟩ m st r v s = (.ok .blocked, v', s') ∧
        Run.uncountedVisit v' = Run.uncountedVisit v := by
    obtain ⟨hstate, hadv⟩ := State.advance_work (e := ⟨runner.observed, config⟩) (m := m) (r := r)
      (s := s) hnone
    rw [hstate] at hpolls
    obtain ⟨v', s', hwork, hsame⟩ := State.work_rests h hidles hv hst hnone hpolls
    exact ⟨v', s', (hadv _ (by rw [hwork])).trans hwork, hsame⟩
  cases hh : st.handling? with
  | none => exact hdone (Or.inl hh)
  | some handling =>
    cases hnb : v.notBefore with
    | none => exact hdone (Or.inr hnb)
    | some t =>
      have hnow : m.now.before t = true := (early_of_idles hidles hv).1 t hnb
      exact ⟨v, s, State.advance_delayed hh (by simpa [hnb] using hnow), rfl⟩

/-- A step before the instant that a workflow waits for leaves it idle. -/
theorem step_rests (hlimit : config.maxSteps = none) (machine : Machine) :
    machine.Rests runner config := by
  induction machine using Machine.induction with
  | h machine ih =>
    intro m r s hidles hpolls
    obtain ⟨past, polls, hwaiting⟩ := hidles.waiting
    obtain ⟨v, st, hv, hst⟩ : ∃ v st, r.visit = some v ∧ machine.state? v.state = some st := by
      cases hwaiting <;> exact ⟨_, _, ‹_›, ‹_›⟩
    have hstep := Run.step_running (e := ⟨runner.observed, config⟩) (m := m) (s := s)
      hwaiting.running (by simp [Run.isExhausted, hlimit]) hv hst
    rw [hstep] at hpolls ⊢
    obtain ⟨v', s', hadv, hsame⟩ := State.advance_rests (ih _ (mem_states hst)) hidles hv hst hpolls
    rw [hadv]
    exact ⟨rfl, Run.uncounted_stayed hv hsame⟩

end Machine

namespace Workflow

variable {runner : JobRunner σ} {w w₀ w₁ : Workflow} {m : Moment} {s : σ}

/-- A step that finds nothing new: it comes before the instant that the workflow waits for, no job is
overdue, and no job that it polls has ended. -/
structure Quiet (runner : JobRunner σ) (w : Workflow) (m : Moment) (s : σ) : Prop where
  early : ∀ t, w.waitUntil? = some t → m.now.before t = true
  onTime : Run.Everywhere (Run.OnTime m.now) w.machine w.run
  unfinished : Polls.Unfinished (w.step runner.observed m (s, [])).2.2.2

/-- A workflow after some quiet steps. In between the state of the runner may change in any way. -/
inductive Lull (runner : JobRunner σ) (w : Workflow) : Workflow → Prop where
  | refl : Lull runner w w
  | step {w₁ : Workflow} {m : Moment} {s : σ} : Lull runner w w₁ → w₁.Quiet runner m s →
    Lull runner w (w₁.step runner.observed m (s, [])).2.1

/-- A workflow that waits and is the same as another one but for the numbers of steps. -/
structure Stands (w w₁ : Workflow) : Prop where
  machine : w₁.machine = w.machine
  config : w₁.config = w.config
  orderly : Run.Everywhere Run.Orderly w₁.machine w₁.run
  waiting : ∃ past polls, Run.Waiting past polls w₁.machine w₁.run
  same : w₁.run.uncounted = w.run.uncounted

/-- A quiet step of a workflow that stands is blocked and leaves it standing. -/
theorem stands_step (h : Stands w w₁) (hlimit : w.config.maxSteps = none)
    (hquiet : w₁.Quiet runner m s) : (w₁.step runner.observed m (s, [])).1 = .blocked ∧
      Stands w (w₁.step runner.observed m (s, [])).2.1 := by
  have hidles : Run.Idles m.now w₁.machine w₁.run :=
    ⟨h.orderly.coherent, h.waiting, hquiet.onTime, Instant.before_of_earliest hquiet.early⟩
  obtain ⟨hblocked, hsame⟩ := Machine.step_rests (h.config ▸ hlimit) w₁.machine
    (m := m.part w₁.run.steps) (s := (s, [])) hidles hquiet.unfinished
  obtain ⟨polls, -, hwaiting⟩ := Machine.step_pauses w₁.machine (m := m.part w₁.run.steps)
    h.orderly (Prod.ext hblocked rfl)
  have horderly : Run.Everywhere Run.Orderly w₁.machine
      (w₁.step runner.observed m (s, [])).2.1.run :=
    (Run.orderly_invariant (e := ⟨runner.observed, w₁.config⟩)).everywhere_step w₁.machine h.orderly
  exact ⟨hblocked, h.machine, h.config, horderly, ⟨_, polls, hwaiting⟩, hsame.trans h.same⟩

theorem stands_lull (h : Stands w w) (hlimit : w.config.maxSteps = none) (hlull : Lull runner w w₁) :
    Stands w w₁ := by
  induction hlull with
  | refl => exact h
  | step _ hquiet ih => exact (stands_step ih hlimit hquiet).2

/-- The instant that a workflow waits for is a sound hint. When a step is blocked, and no number of
steps is the limit, every later step that comes before that instant is blocked as well and changes
nothing but the numbers of steps, as long as no job has ended and none is overdue. -/
theorem wait_sound {machine : Machine} {config : Config} {execution : Execution} {input : Value}
    {s₀ s' s₁ : σ} {log log' : Polls} {m' : Moment}
    (h : Reaches runner.observed ⟨machine, config, .ofInput execution input⟩ (s₀, []) w₀ (s, log))
    (hlimit : config.maxSteps = none)
    (hblocked : w₀.step runner.observed m (s, log) = (.blocked, w, s', log'))
    (hlull : Lull runner w w₁) (hquiet : w₁.Quiet runner m' s₁) :
    ∃ w₂ s₂ polls, w₁.step runner.observed m' (s₁, []) = (.blocked, w₂, s₂, polls) ∧
      w₂.machine = w.machine ∧ w₂.config = w.config ∧ w₂.run.uncounted = w.run.uncounted ∧
      w₂.waitUntil? = w.waitUntil? := by
  obtain ⟨polls, -, hwaiting⟩ := step_waiting h hblocked
  obtain ⟨hmachine, hconfig, horderly⟩ := (h.step hblocked).everywhere Run.orderly_invariant
  have hstands : Stands w w := ⟨rfl, rfl, hmachine ▸ horderly, ⟨_, polls, hwaiting⟩, rfl⟩
  have hlimit : w.config.maxSteps = none := hconfig ▸ hlimit
  obtain ⟨hblocked, hstands⟩ := stands_step (stands_lull hstands hlimit hlull) hlimit hquiet
  exact ⟨_, _, _, Prod.ext hblocked rfl, hstands.machine, hstands.config, hstands.same,
    Run.waitUntil_congr hstands.same⟩

section

/-- The record of a workflow that stays in a state, after two steps at the start of 1970. -/
def stayingRun (name : String) (p : Progress) : Run where
  execution := ⟨default, default, some default⟩
  status := .running
  data := .null
  output := none
  error := none
  abortCause := none
  visit := some ⟨name, default, p, [], 0, none⟩
  next := none
  history := []
  steps := 2

/-- A job at the side of a pause, when neither is at its end. -/
def pausedWorkflow : Workflow := ⟨pausingMachine, {}, stayingRun "Both" (.branches {
  pending := []
  inFlight := [(0, stayingRun "Work" (.job ⟨"job", "local"⟩ default)),
    (1, stayingRun "Pause" (.waiting ⟨5, 0⟩))]
  results := [none, none] })⟩

theorem paused_quiet : pausedWorkflow.Quiet hangingRunner .zero () := by
  refine ⟨?_, ?_, ?_⟩
  · rintro t ⟨⟩
    rfl
  · refine .of_nested ?_ ?_
    · rintro v t handle launchedAt ⟨⟩ ⟨⟩
    · rintro v b st i child sub ⟨⟩ ⟨⟩ ⟨⟩ hmem hsub
      rcases List.mem_cons.mp hmem with heq | hmem
      · cases heq
        cases hsub
        refine .of_nested ?_ ?_
        · rintro v t handle launchedAt ⟨⟩ ⟨⟩ ⟨⟩
          rfl
        · rintro v b st i child sub ⟨⟩ ⟨⟩
      · cases List.mem_singleton.mp hmem
        cases hsub
        refine .of_nested ?_ ?_
        · rintro v t handle launchedAt ⟨⟩ ⟨⟩
        · rintro v b st i child sub ⟨⟩ ⟨⟩
  · intro x hx
    have hpolls : (pausedWorkflow.step hangingRunner.observed .zero ((), [])).2.2.2 =
        [(⟨"job", "local"⟩, .running)] := rfl
    rw [hpolls] at hx
    rw [List.mem_singleton.mp hx]

/-- The workflow waits until the pause is over, and a step before that changes nothing. -/
theorem paused_wait_sound : ∃ w₀ log log',
    Reaches hangingRunner.observed ⟨pausingMachine, {}, .ofInput default .null⟩ ((), []) w₀
      ((), log) ∧
    w₀.step hangingRunner.observed .zero ((), log) = (.blocked, pausedWorkflow, (), log') ∧
    pausedWorkflow.waitUntil? = some ⟨5, 0⟩ ∧ pausedWorkflow.Quiet hangingRunner .zero () ∧
    ∃ w₂ s₂ polls,
      pausedWorkflow.step hangingRunner.observed .zero ((), []) = (.blocked, w₂, s₂, polls) ∧
      w₂.machine = pausingMachine ∧ w₂.config = {} ∧
      w₂.run.uncounted = pausedWorkflow.run.uncounted ∧
      w₂.waitUntil? = pausedWorkflow.waitUntil? := by
  have hreach : Reaches hangingRunner.observed ⟨pausingMachine, {}, .ofInput default .null⟩
      ((), []) _ ((), _) := .step (m := .zero) .new rfl
  exact ⟨_, _, _, hreach, rfl, rfl, paused_quiet,
    wait_sound hreach rfl (m := .zero) rfl .refl paused_quiet⟩

end

end Workflow

end StatesLanguage
