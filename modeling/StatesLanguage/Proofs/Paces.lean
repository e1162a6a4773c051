import StatesLanguage.Proofs.Trails

/-! A limit on the steps of a workflow. No nested workflow gets ahead of the one around it, so that
the limit is met by the outermost workflow first. -/
namespace StatesLanguage

variable {σ : Type} {e : Engine σ} {m : Moment} {s : σ}

namespace Branches

variable {α : Type} {c : Child α σ} {b : Branches α} {W K L : Nat → α → Prop}

/-- An advance steps each child once at most. -/
theorem advance_once (start : ∀ {i a}, W i a → K i (c.start i a)) (kept : ∀ {i a}, K i a → L i a)
    (stay : ∀ {i a s o a' s'}, K i a → c.step i a s = (o, a', s') → c.result? a' = none → L i a')
    (hw : ∀ x ∈ b.pending, W x.1 x.2) (hk : ∀ x ∈ b.inFlight, K x.1 x.2) :
    (∀ x ∈ (b.advance c s).2.1.pending, W x.1 x.2) ∧
      ∀ x ∈ (b.advance c s).2.1.inFlight, L x.1 x.2 := by
  have hstarted : ∀ {b : Branches α}, (∀ x ∈ b.pending, W x.1 x.2) →
      ∀ x ∈ (b.startNext c).inFlight, x ∈ b.inFlight ∨ K x.1 x.2 := by
    intro b hw x hx
    rcases List.mem_append.mp hx with hx | hx
    · exact .inl hx
    · obtain ⟨⟨i, a⟩, hup, rfl⟩ := List.mem_map.mp hx
      exact .inr (start (hw _ (List.mem_of_mem_take hup)))
  have hround : (∀ x ∈ (round c (b.startNext c).inFlight (!b.nextUp.isEmpty)
        { b.startNext c with inFlight := [] } s).2.1.pending, W x.1 x.2) ∧
      ∀ x ∈ (round c (b.startNext c).inFlight (!b.nextUp.isEmpty)
        { b.startNext c with inFlight := [] } s).2.1.inFlight, L x.1 x.2 := by
    refine round_rule
      (I := fun todo _ b _ => (∀ x ∈ todo, K x.1 x.2) ∧ (∀ x ∈ b.pending, W x.1 x.2) ∧
        ∀ x ∈ b.inFlight, L x.1 x.2)
      (Q := fun q => (∀ x ∈ q.2.1.pending, W x.1 x.2) ∧ ∀ x ∈ q.2.1.inFlight, L x.1 x.2)
      ?_ ?_ ?_ ?_ ⟨?_, fun x hx => hw x (List.mem_of_mem_drop hx), by simp⟩
    · rintro i a rest p b s o a' s' ⟨htodo, hw, hl⟩ hstep hr
      refine ⟨fun x hx => htodo x (List.mem_cons_of_mem _ hx), hw, fun x hx => ?_⟩
      rcases List.mem_append.mp hx with hx | hx
      · exact hl x hx
      · rw [List.mem_singleton.mp hx]
        have hi : K i a := htodo (i, a) List.mem_cons_self
        exact stay hi hstep hr
    · rintro i a rest p b s o a' s' r b' ⟨htodo, hw, hl⟩ _ _ hrec
      have hb' : b' = (b.record i r).1 := by rw [hrec]
      refine ⟨fun x hx => htodo x (List.mem_cons_of_mem _ hx), ?_, ?_⟩
      · simpa [hb'] using hw
      · simpa [hb'] using hl
    · intro i a rest p b s o a' s' r b' err _ _ _ _
      simp [abandon]
    · rintro p b s ⟨-, hb⟩
      exact hb
    · exact fun x hx => (hstarted hw x hx).elim (hk x) id
  refine advance_rule (Q := fun q => (∀ x ∈ q.2.1.pending, W x.1 x.2) ∧
    ∀ x ∈ q.2.1.inFlight, L x.1 x.2) ?_ ?_ ?_
  · intro err b' s' h
    rwa [h] at hround
  · intro p b' s' h _ _
    rwa [h] at hround
  · intro p b' s' h _
    rw [h] at hround
    exact ⟨fun x hx => hround.1 x (List.mem_of_mem_drop hx),
      fun x hx => (hstarted hround.1 x hx).elim (hround.2 x) kept⟩

end Branches

namespace Run

variable {machine : Machine} {r : Run} {v v' : Visit}

/-- A workflow that is in step with those it nests: the ones that wait have taken no step, and the
ones in flight no more than itself. -/
structure Paced (r : Run) : Prop where
  waiting : ∀ v b, r.visit = some v → v.progress = .branches b → ∀ x ∈ b.pending, x.2.steps = 0
  flying : ∀ v b, r.visit = some v → v.progress = .branches b →
    ∀ x ∈ b.inFlight, x.2.steps ≤ r.steps

/-- A workflow that has not taken more steps than are allowed. -/
def Limited (config : Config) (r : Run) : Prop := ∀ n, config.maxSteps = some n → r.steps ≤ n

@[simp] theorem start_steps (now : Instant) : (r.start machine now).steps = r.steps := by
  by_cases hr : r.status = .pending
  · rw [start_of_pending hr]
  · rw [start_of_not_pending hr]

@[simp] theorem abort_steps (runner : JobRunner σ) (cause : String) :
    (r.abort runner cause s).1.steps = r.steps := by
  unfold abort
  split <;> rfl

@[simp] theorem settle_steps (config : Config) (now : Instant)
    (res : Except ExecutionError Advance) :
    (r.settle config machine now v res).2.steps = r.steps := by
  rcases res with err | _ | _ | ⟨output, _ | next⟩ <;> rfl

@[simp] theorem begun_steps (now : Instant) : (r.begun machine now).steps = r.steps + 1 := by
  simp [begun]

theorem step_steps : (machine.step e m r s).2.1.steps ≤ r.steps + 1 := by
  refine step_rule (Q := fun q => q.2.1.steps ≤ r.steps + 1) ?_ ?_ ?_ ?_ ?_
  · intro _
    exact Nat.le_succ _
  · intro _ _
    simp [stop]
  · intro _ _
    simp [stop]
  · intro v _ _ _
    simp [stop]
  · intro v st res v' s' _ _ _ _ _
    simp

/-- A workflow that has no steps left is stopped where it is. -/
theorem step_exhausted (hr : r.status = .running) (hlimit : r.isExhausted e.config = true) :
    machine.step e m r s = (.terminal, r.abort e.runner (stepLimit e.config) s) := by
  have hstarted : r.start machine m.now = r := start_of_not_pending (by simp [hr]) m.now
  rw [Machine.step_eq, stepWith_eq, isTerminal_of_running hr, hstarted, if_neg (by simp),
    if_pos hlimit, stop]

theorem limited_step (h : Limited e.config r) : Limited e.config (machine.step e m r s).2.1 := by
  intro n hn
  cases hlimit : (r.start machine m.now).isExhausted e.config with
  | false =>
    have hlt : r.steps < n := by simpa [isExhausted, hn] using hlimit
    exact Nat.le_trans step_steps hlt
  | true =>
    rw [Machine.step_eq, stepWith_eq]
    split
    · exact h n hn
    · simpa [hlimit, stop] using h n hn

theorem limited_invariant : Invariant e fun _ r => Limited e.config r where
  fresh _ _ _ _ _ := Nat.zero_le _
  start h n hn := by simpa using h n hn
  step h := limited_step h
  abort h n hn := by simpa using h n hn

theorem paced_of_idle (h : ∀ v, r.visit = some v → v.progress = .idle) : Paced r := by
  refine ⟨fun v b hv hb => ?_, fun v b hv hb => ?_⟩
  all_goals
    rw [h v hv] at hb
    cases hb

theorem paced_start (h : Paced r) (now : Instant) : Paced (r.start machine now) := by
  by_cases hr : r.status = .pending
  · rw [start_of_pending hr]
    refine paced_of_idle fun v hv => ?_
    cases hv
    rfl
  · rw [start_of_not_pending hr]
    exact h

theorem paced_abort (h : Paced r) (runner : JobRunner σ) (cause : String) :
    Paced (r.abort runner cause s).1 := by
  cases hr : r.isTerminal with
  | true => simpa [abort, hr] using h
  | false => exact paced_of_idle fun v hv => abort_visit hr hv

/-- Branches whose children have taken so many steps at most, or none where they wait, have taken one
more at most after an advance. -/
theorem steps_advance {st : Machine.State} {b b' : Branches Run} {o : BranchOutcome} {s' : σ}
    {n : Nat} (hstaffed : st.Staffed b) (hw : ∀ x ∈ b.pending, x.2.steps = 0)
    (hk : ∀ x ∈ b.inFlight, x.2.steps ≤ n) (hadv : b.advance (st.child e m) s = (o, b', s')) :
    (∀ x ∈ b'.pending, x.2.steps = 0) ∧ ∀ x ∈ b'.inFlight, x.2.steps ≤ n + 1 := by
  have honce := Branches.advance_once (c := st.child e m) (b := b) (s := s)
    (W := fun i child => (st.machineAt? i).isSome ∧ child.steps = 0)
    (K := fun i child => (st.machineAt? i).isSome ∧ child.steps ≤ n)
    (L := fun i child => child.steps ≤ n + 1) ?_ ?_ ?_
    (fun x hx => ⟨(hstaffed.waiting x hx).1, hw x hx⟩)
    (fun x hx => ⟨(hstaffed.flying x hx).1, hk x hx⟩)
  · rw [hadv] at honce
    exact ⟨fun x hx => (honce.1 x hx).2, honce.2⟩
  · rintro i child ⟨hsome, hzero⟩
    obtain ⟨sub, hsub⟩ := Option.isSome_iff_exists.mp hsome
    refine ⟨hsome, ?_⟩
    rw [Machine.State.child_start hsub, start_steps]
    omega
  · rintro i child ⟨-, hle⟩
    omega
  · rintro i child s o child' s' ⟨hsome, hle⟩ hstep -
    obtain ⟨sub, hsub⟩ := Option.isSome_iff_exists.mp hsome
    rw [Machine.State.child_step hsub] at hstep
    have hsteps : (sub.step e (m.child i) child s).2.1.steps ≤ child.steps + 1 := step_steps
    rw [hstep] at hsteps
    exact Nat.le_trans hsteps (Nat.succ_le_succ hle)

theorem paced_step (hc : Coherent machine r) (h : Paced r) :
    Paced (machine.step e m r s).2.1 := by
  have hstart : Paced (r.start machine m.now) := paced_start h m.now
  have hcstart := coherent_start hc m.now
  have hstopped {r' : Run} {cause : String} (hr : r'.status = .running) :
      Paced (r'.stop e cause s).2.1 :=
    paced_of_idle fun v hv => abort_visit (isTerminal_of_running hr) hv
  refine step_rule (Q := fun q => Paced q.2.1) ?_ ?_ ?_ ?_ ?_
  · intro _
    exact h
  · intro hr _
    exact hstopped (start_status hr _)
  · intro hr _
    exact hstopped (begun_status hr _)
  · intro v hr _ _
    exact hstopped (begun_status hr _)
  · intro v st res v' s' _ _ hv hst hadv
    have hv : (r.start machine m.now).visit = some v := hv
    obtain ⟨-, hshifts⟩ := Machine.State.advance_shifts hadv
    suffices hpaced : ∀ b, v'.progress = .branches b →
        (∀ x ∈ b.pending, x.2.steps = 0) ∧ ∀ x ∈ b.inFlight, x.2.steps ≤ r.steps + 1 by
      have hsettled : ∀ w b, ((r.begun machine m.now).settle e.config machine m.now v' res).2.visit
          = some w → w.progress = .branches b → v'.progress = .branches b := by
        intro w b hw hb
        rcases settle_visit hw with rfl | hidle
        · exact hb
        · rw [hidle] at hb
          cases hb
      refine ⟨fun w b hw hb => (hpaced b (hsettled w b hw hb)).1, fun w b hw hb => ?_⟩
      rw [settle_steps, begun_steps]
      exact (hpaced b (hsettled w b hw hb)).2
    intro b' hb'
    rw [hb'] at hshifts
    generalize hp : Progress.branches b' = p' at hshifts
    cases hshifts with
    | same =>
      have hle := hstart.flying v b' hv hp.symm
      rw [start_steps] at hle
      exact ⟨hstart.waiting v b' hv hp.symm, fun x hx => Nat.le_succ_of_le (hle x hx)⟩
    | idle | waiting | job => cases hp
    | @branches b _ _ _ hb hadv =>
      cases hp
      rcases hb with hb | hmakes
      · have hfits := hcstart.fits v st hv hst
        rw [hb] at hfits
        cases hfits with
        | branches _ hstaffed =>
          have hle := hstart.flying v b hv hb
          rw [start_steps] at hle
          exact steps_advance hstaffed (hstart.waiting v b hv hb) hle hadv
      · have hopens := hmakes.opens
        refine steps_advance hopens.staffed (fun x hx => ?_) (by simp [hopens.fresh.2]) hadv
        obtain ⟨-, input, hinput⟩ := hopens.fresh.1 x hx
        rw [hinput]
        rfl

theorem paced_invariant : Invariant e fun machine r => Coherent machine r ∧ Paced r where
  fresh _ execution input :=
    ⟨coherent_ofInput execution input, paced_of_idle fun v hv => by cases hv⟩
  start h := ⟨coherent_start h.1 _, paced_start h.2 _⟩
  step h := ⟨coherent_invariant.step h.1, paced_step h.1 h.2⟩
  abort h := ⟨coherent_abort h.1 _ _ _, paced_abort h.2 _ _⟩

/-- The steps of nested workflows that a step of a workflow takes in, at the moment each of them has
for its own: its state is advanced, and with it each child in flight after those that can be started
have been, and so on in each child. -/
inductive Includes (e : Engine σ) : Moment → Machine → Run → Moment → Machine → Run → Prop
  | child {m : Moment} {machine sub : Machine} {r child : Run} {v : Visit} {st : Machine.State}
      {b : Branches Run} {i : Nat} :
      r.isTerminal = false → (r.start machine m.now).isExhausted e.config = false →
      (r.start machine m.now).visit = some v → machine.state? v.state = some st →
      v.progress = .branches b ∨ st.Opens (r.start machine m.now).execution b →
      (i, child) ∈ (b.startNext (st.child e m)).inFlight → st.machineAt? i = some sub →
      Includes e m machine r (m.child i) sub child
  | deeper {m m₁ m₂ : Moment} {machine machine₁ machine₂ : Machine} {r r₁ r₂ : Run} :
      Includes e m machine r m₁ machine₁ r₁ → Includes e m₁ machine₁ r₁ m₂ machine₂ r₂ →
      Includes e m machine r m₂ machine₂ r₂

/-- A workflow of a closed machine that has not ended and has a step left, with all that is nested in
it. -/
structure Unspent (e : Engine σ) (machine : Machine) (r : Run) : Prop where
  closed : machine.Closed
  live : r.isTerminal = false
  left : r.isExhausted e.config = false
  paced : Everywhere (fun machine r => Coherent machine r ∧ Paced r) machine r
  follows : Everywhere (fun machine r => Coherent machine r ∧
    ∃ trail, Follows e.config machine trail r) machine r

/-- What one call keeps holds of the children that an advance has in flight. -/
theorem Invariant.everywhere_flying {P : Machine → Run → Prop} (h : Invariant e P)
    {st : Machine.State} {b : Branches Run} {i : Nat} {child : Run} {sub : Machine}
    (hr : Everywhere P machine r) (hv : r.visit = some v) (hst : machine.state? v.state = some st)
    (hb : v.progress = .branches b ∨ st.Opens r.execution b)
    (hchild : (i, child) ∈ (b.startNext (st.child e m)).inFlight)
    (hsub : st.machineAt? i = some sub) : Everywhere P sub child := by
  have hwhole : ∀ x ∈ b.pending ++ b.inFlight, ∀ sub, st.machineAt? x.1 = some sub →
      Everywhere P sub x.2 := by
    intro x hx sub hsub
    rcases hb with hb | hopens
    · exact hr.nested hv hb hst hx hsub
    · obtain ⟨hfresh, hempty⟩ := hopens.fresh
      rw [hempty, List.append_nil] at hx
      obtain ⟨-, input, hinput⟩ := hfresh x hx
      rw [hinput]
      exact h.everywhere_fresh _ _
  rcases List.mem_append.mp hchild with hx | hx
  · exact hwhole _ (List.mem_append_right _ hx) sub hsub
  · obtain ⟨⟨j, waiting⟩, hup, heq⟩ := List.mem_map.mp hx
    cases heq
    rw [Machine.State.child_start hsub]
    exact h.everywhere_start
      (hwhole _ (List.mem_append_left _ (List.mem_of_mem_take hup)) sub hsub)

/-- The children that an advance has in flight have taken no more steps than the workflow. -/
theorem Paced.flying_steps {st : Machine.State} {b : Branches Run} {i : Nat} {child : Run}
    {sub : Machine} (h : Paced r) (hv : r.visit = some v)
    (hb : v.progress = .branches b ∨ st.Opens r.execution b)
    (hchild : (i, child) ∈ (b.startNext (st.child e m)).inFlight)
    (hsub : st.machineAt? i = some sub) : child.steps ≤ r.steps := by
  rcases List.mem_append.mp hchild with hx | hx
  · rcases hb with hb | hopens
    · exact h.flying v b hv hb _ hx
    · simp [hopens.fresh.2] at hx
  · obtain ⟨⟨j, waiting⟩, hup, heq⟩ := List.mem_map.mp hx
    cases heq
    have hwaiting : (i, waiting) ∈ b.pending := List.mem_of_mem_take hup
    have hzero : waiting.steps = 0 := by
      rcases hb with hb | hopens
      · exact h.waiting v b hv hb _ hwaiting
      · obtain ⟨-, input, hinput⟩ := hopens.fresh.1 _ hwaiting
        rw [show waiting = _ from hinput]
        rfl
    rw [Machine.State.child_start hsub, start_steps, hzero]
    exact Nat.zero_le _

/-- The children that an advance has in flight are running. -/
theorem Coherent.flying_running {st : Machine.State} {b : Branches Run} {i : Nat} {child : Run}
    {sub : Machine} (h : Coherent machine r) (hv : r.visit = some v)
    (hst : machine.state? v.state = some st)
    (hb : v.progress = .branches b ∨ st.Opens r.execution b)
    (hchild : (i, child) ∈ (b.startNext (st.child e m)).inFlight)
    (hsub : st.machineAt? i = some sub) : child.status = .running := by
  have hstaffed : st.Staffed b := by
    rcases hb with hb | hopens
    · have hfits := h.fits v st hv hst
      rw [hb] at hfits
      cases hfits with
      | branches _ hstaffed => exact hstaffed
    · exact hopens.staffed
  rcases List.mem_append.mp hchild with hx | hx
  · exact (hstaffed.flying _ hx).2
  · obtain ⟨⟨j, waiting⟩, hup, heq⟩ := List.mem_map.mp hx
    cases heq
    have hpending := (hstaffed.waiting _ (List.mem_of_mem_take hup)).2
    rw [Machine.State.child_start hsub, start_of_pending hpending]

theorem isExhausted_of_le {config : Config} {r' : Run} (h : r.isExhausted config = false)
    (hle : r'.steps ≤ r.steps) : r'.isExhausted config = false := by
  unfold isExhausted at h ⊢
  cases hn : config.maxSteps with
  | none => rfl
  | some n =>
    simp only [hn, Option.any_some, decide_eq_false_iff_not, Nat.not_le] at h ⊢
    omega

/-- Whoever is stepped inside a workflow with a step left has a step left. -/
theorem Includes.unspent {m' : Moment} {machine' : Machine} {r' : Run}
    (h : Includes e m machine r m' machine' r') (hr : Unspent e machine r) :
    Unspent e machine' r' := by
  induction h with
  | @child m machine sub r child v st b i _ hlimit hv hst hb hchild hsub =>
    have hpaced : Everywhere _ machine (r.start machine m.now) :=
      paced_invariant.everywhere_start (e := e) hr.paced
    have hfollows : Everywhere _ machine (r.start machine m.now) :=
      follows_invariant.everywhere_start hr.follows
    refine ⟨hr.closed.nested hst (Machine.State.mem_machines hsub), ?_, ?_, ?_, ?_⟩
    · exact isTerminal_of_running (hpaced.here.1.flying_running hv hst hb hchild hsub)
    · exact isExhausted_of_le hlimit (hpaced.here.2.flying_steps hv hb hchild hsub)
    · exact (paced_invariant (e := e)).everywhere_flying hpaced hv hst hb hchild hsub
    · exact follows_invariant.everywhere_flying hfollows hv hst hb hchild hsub
  | deeper _ _ ih₁ ih₂ => exact ih₂ (ih₁ hr)

/-- A step takes in others only while the workflow goes on and has a step left. -/
theorem Includes.left {m' : Moment} {machine' : Machine} {r' : Run}
    (h : Includes e m machine r m' machine' r') :
    r.isTerminal = false ∧ r.isExhausted e.config = false := by
  induction h with
  | child hr hlimit =>
    exact ⟨hr, isExhausted_of_le hlimit (Nat.le_of_eq (start_steps _).symm)⟩
  | deeper _ _ ih _ => exact ih

/-- A workflow with a step left is not aborted by its step. -/
theorem Unspent.not_aborted (h : Unspent e machine r) :
    (machine.step e m r s).2.1.status ≠ .aborted := by
  intro haborted
  obtain ⟨hc, trail, hfollows⟩ := h.follows.here
  obtain ⟨hlimit, -⟩ := step_aborted h.closed hc hfollows h.live haborted
  have hleft : (r.start machine m.now).isExhausted e.config = false :=
    isExhausted_of_le h.left (Nat.le_of_eq (start_steps _))
  rw [hleft] at hlimit
  cases hlimit

theorem step_progressed (h : (machine.step e m r s).1 = .progressed) :
    (machine.step e m r s).2.1.steps = r.steps + 1 := by
  revert h
  refine step_rule (Q := fun q => q.1 = .progressed → q.2.1.steps = r.steps + 1) ?_ ?_ ?_ ?_ ?_
  · rintro _ ⟨⟩
  · rintro _ _ ⟨⟩
  · rintro _ _ ⟨⟩
  · rintro v _ _ _ ⟨⟩
  · intro v st res v' s' _ _ _ _ _ _
    simp

end Run

namespace Workflow

variable {runner : JobRunner σ} {g : Document.Graph} {input : Value} {id : String}
  {config : Config} {w₀ w : Workflow} {s₀ : σ} {n : Nat}

/-- Each step of a run counts, so that there are no more of them than are left, and the one that
finds none left. -/
theorem runFrom_limited (moment : Nat → Moment) {fuel : Nat} (hn : w.config.maxSteps = some n)
    (hlimited : w.run.Limited w.config) (hfuel : n < w.run.steps + fuel) (k : Nat) :
    ∃ out, w.runFrom runner moment fuel k s = some out := by
  induction fuel generalizing w s k with
  | zero =>
    have hle := hlimited n hn
    omega
  | succ fuel ih =>
    rw [runFrom]
    rcases hstep : w.step runner (moment k) s with ⟨o, w', s'⟩
    cases o with
    | blocked | terminal => exact ⟨_, rfl⟩
    | progressed =>
      simp only [step, Prod.mk.injEq] at hstep
      obtain ⟨ho, rfl, -⟩ := hstep
      have hlimited' : Run.Limited w.config (w.machine.step ⟨runner, w.config⟩
          ((moment k).part w.run.steps) w.run s).2.1 :=
        Run.limited_step (e := ⟨runner, w.config⟩) hlimited
      have hsteps := Run.step_progressed ho
      refine ih (w := { w with run := (w.machine.step ⟨runner, w.config⟩
        ((moment k).part w.run.steps) w.run s).2.1 }) hn hlimited' ?_ (k + 1)
      simp only [hsteps]
      omega

/-- Where no step is left, the workflow is stopped in its state and its jobs are handed back. -/
theorem step_at_limit (hn : w.config.maxSteps = some n) (hr : w.run.status = .running)
    (hsteps : w.run.steps = n) (m : Moment) (s : σ) : w.step runner m s =
      (.terminal, { w with run := { w.run with
          status := .aborted
          abortCause := some s!"Exceeded the limit of {n} steps"
          next := none
          visit := w.run.visit.map fun v => { v with progress := .idle } } },
        w.run.jobs.foldl (fun s handle => runner.cleanup handle s) s) := by
  have hlimit : w.run.isExhausted w.config = true := by simp [Run.isExhausted, hn, hsteps]
  have hcause : Run.stepLimit w.config = s!"Exceeded the limit of {n} steps" := by
    have hlast : w.config.maxSteps.getD 0 = n := by rw [hn, Option.getD_some]
    unfold Run.stepLimit
    rw [hlast]
  have hstep : w.machine.step ⟨runner, w.config⟩ (m.part w.run.steps) w.run s =
      (.terminal, w.run.abort runner (Run.stepLimit w.config) s) :=
    Run.step_exhausted (e := ⟨runner, w.config⟩) hr hlimit
  have habort : w.run.abort runner (Run.stepLimit w.config) s =
      ({ w.run with
          status := .aborted
          abortCause := some s!"Exceeded the limit of {n} steps"
          next := none
          visit := w.run.visit.map fun v => { v with progress := .idle } },
        w.run.jobs.foldl (fun s handle => runner.cleanup handle s) s) := by
    rw [Run.abort, if_neg (by simp [Run.isTerminal_of_running hr]), hcause]
  simp only [step, hstep, habort]

/-- With a limit on the steps no workflow takes more, at whatever depth, and none gets ahead of the
one around it. So it is the outermost workflow that meets the limit: no step of a nested workflow
ends in its abort, which is what would fail the branches around it. Once the limit is met a step
stops the workflow in its state and hands back all jobs, and a run makes no more steps than are
left, and one. -/
theorem within_limit (hw : ofDocument g input id config = .ok w₀) (hn : config.maxSteps = some n)
    (h : Reaches runner w₀ s₀ w s) :
    (∀ machine r, Run.Within w.machine w.run machine r → r.steps ≤ n ∧
      ∀ v b x, r.visit = some v → v.progress = .branches b → x ∈ b.inFlight →
        x.2.steps ≤ r.steps) ∧
    (∀ m m' machine r s', Run.Includes ⟨runner, config⟩ m w.machine w.run m' machine r →
      (machine.step ⟨runner, config⟩ m' r s').2.1.status ≠ .aborted) ∧
    (∀ m s', w.run.status = .running → w.run.steps = n → w.step runner m s' =
      (.terminal, { w with run := { w.run with
          status := .aborted
          abortCause := some s!"Exceeded the limit of {n} steps"
          next := none
          visit := w.run.visit.map fun v => { v with progress := .idle } } },
        w.run.jobs.foldl (fun s handle => runner.cleanup handle s) s')) ∧
    ∀ moment k s', ∃ out, w.runFrom runner moment (n - w.run.steps + 1) k s' = some out := by
  obtain ⟨hclosed, hnew⟩ := ofDocument_closed hw
  rw [hnew] at h
  obtain ⟨hmachine, hconfig, hlimited⟩ := h.everywhere Run.limited_invariant
  obtain ⟨-, -, hpaced⟩ := h.everywhere Run.paced_invariant
  obtain ⟨-, -, hfollows⟩ := h.everywhere Run.follows_invariant
  subst hconfig
  rw [← hmachine] at hclosed
  rw [← hmachine] at hlimited hpaced hfollows
  refine ⟨fun machine r hin => ⟨hlimited machine r hin n hn, ?_⟩, ?_, ?_, ?_⟩
  · exact fun v b x hv hb hx => (hpaced machine r hin).2.flying v b hv hb x hx
  · intro m m' machine r s' hin
    have hunspent : Run.Unspent ⟨runner, w.config⟩ w.machine w.run :=
      ⟨hclosed, hin.left.1, hin.left.2, hpaced, hfollows⟩
    exact (hin.unspent hunspent).not_aborted
  · intro m s' hr hsteps
    exact step_at_limit hn hr hsteps m s'
  · intro moment k s'
    have hle := hlimited.here n hn
    exact runFrom_limited moment hn hlimited.here (by omega) k

section

/-- A document that never ends, with a branch that does not either. -/
def loopingGraph : Document.Graph where
  startAt := some "Both"
  states := some [
    ("Both", .parallel { transition := { next := some "Both" } }
      (some [{
        startAt := some "Turn"
        states := some [("Turn", .pass { transition := { next := some "Turn" } })] }]))]

def loopingWorkflow (limit : Nat) : Workflow :=
  (ofDocument loopingGraph .null "id" { maxSteps := some limit }).toOption.getD default

/-- The workflow after a step. -/
def loopingStepped (limit : Nat) : Workflow :=
  ((loopingWorkflow limit).step hangingRunner .zero ()).2.1

/-- After a step the branch goes on. Where a second one is allowed that step takes the branch in
without its abort, and where it is not the workflow is stopped by it. -/
theorem looping_within_limit :
    (∀ limit, ofDocument loopingGraph .null "id" { maxSteps := some limit } =
        .ok (loopingWorkflow limit) ∧
      Reaches hangingRunner (loopingWorkflow limit) () (loopingStepped limit) ()) ∧
    (∃ m machine r, Run.Includes ⟨hangingRunner, { maxSteps := some 2 }⟩ .zero
      (loopingStepped 2).machine (loopingStepped 2).run m machine r ∧
      r.current? = some "Turn" ∧ r.steps = 1 ∧
        (machine.step ⟨hangingRunner, { maxSteps := some 2 }⟩ m r ()).2.1.status ≠ .aborted) ∧
    (loopingStepped 1).run.status = .running ∧ (loopingStepped 1).run.steps = 1 ∧
    ((loopingStepped 1).step hangingRunner .zero ()).1 = .terminal ∧
    ∃ out, (loopingStepped 1).runFrom hangingRunner (fun _ => .zero) 1 0 () = some out := by
  have hw (limit : Nat) : ofDocument loopingGraph .null "id" { maxSteps := some limit } =
      .ok (loopingWorkflow limit) := rfl
  have hreach (limit : Nat) :
      Reaches hangingRunner (loopingWorkflow limit) () (loopingStepped limit) () :=
    .step (m := .zero) .new rfl
  have hin : ∃ m machine r, Run.Includes ⟨hangingRunner, { maxSteps := some 2 }⟩ .zero
      (loopingStepped 2).machine (loopingStepped 2).run m machine r ∧
      r.current? = some "Turn" ∧ r.steps = 1 :=
    ⟨_, _, _, .child rfl rfl rfl rfl (.inl rfl) (List.mem_singleton.mpr rfl) rfl, rfl, rfl⟩
  obtain ⟨m, machine, r, hin, hcurrent, hsteps⟩ := hin
  obtain ⟨-, hnested, -, -⟩ := within_limit (hw 2) rfl (hreach 2)
  obtain ⟨-, -, hlast, hruns⟩ := within_limit (hw 1) rfl (hreach 1)
  have hrunning : (loopingStepped 1).run.status = .running := rfl
  have htaken : (loopingStepped 1).run.steps = 1 := rfl
  refine ⟨fun limit => ⟨hw limit, hreach limit⟩, ⟨m, machine, r, hin, hcurrent, hsteps,
    hnested _ _ _ _ () hin⟩, hrunning, htaken, ?_, ?_⟩
  · rw [hlast .zero () hrunning htaken]
  · have hrun := hruns (fun _ => .zero) 0 ()
    rwa [htaken] at hrun

end

end Workflow

end StatesLanguage
