import StatesLanguage.Proofs.Results

/-! A workflow that is blocked waits for something outside: for an instant that is yet to come, or
for a job that was polled in the step and has not ended. What has moved is never taken for waiting. -/
namespace StatesLanguage

variable {σ : Type}

/-- The polls of jobs with their answers, in order. -/
abbrev Polls := List (JobHandle × JobStatus)

/-- The runner that writes down the polls and what it answers. -/
def JobRunner.observed (runner : JobRunner σ) : JobRunner (σ × Polls) where
  launch resource input credentials s :=
    ((runner.launch resource input credentials s.1).1,
      (runner.launch resource input credentials s.1).2, s.2)
  poll handle s :=
    ((runner.poll handle s.1).1, (runner.poll handle s.1).2,
      s.2 ++ [(handle, (runner.poll handle s.1).1)])
  cleanup handle s := (runner.cleanup handle s.1, s.2)

namespace Run

/-- A workflow that waits for something outside, at an instant and after some polls. Its state has a
delay before a retry ahead of it; or it is a Wait with its deadline ahead; or a Task with a job that
was polled, has not ended, and is not overdue; or nested workflows are in flight that all wait in
turn, and no other one can be started. -/
inductive Waiting (now : Instant) (polls : Polls) : Machine → Run → Prop where
  | delayed {machine : Machine} {r : Run} {v : Visit} {st : Machine.State} {t : Instant} :
    r.status = .running → r.visit = some v → machine.state? v.state = some st →
    st.handling?.isSome → v.notBefore = some t → now.before t = true → Waiting now polls machine r
  | timed {machine : Machine} {r : Run} {v : Visit} {w : Machine.Wait} {deadline : Instant} :
    r.status = .running → r.visit = some v → machine.state? v.state = some (.wait w) →
    v.progress = .waiting deadline → now.before deadline = true → Waiting now polls machine r
  | working {machine : Machine} {r : Run} {v : Visit} {t : Machine.Task} {handle : JobHandle}
    {launchedAt : Instant} :
    r.status = .running → r.visit = some v → machine.state? v.state = some (.task t) →
    v.progress = .job handle launchedAt → (handle, .running) ∈ polls →
    t.isOverdue now launchedAt = false → Waiting now polls machine r
  | nesting {machine : Machine} {r : Run} {v : Visit} {st : Machine.State} {b : Branches Run} :
    r.status = .running → r.visit = some v → machine.state? v.state = some st →
    st.kind = .parallel ∨ st.kind = .map → v.progress = .branches b → b.inFlight ≠ [] →
    (∀ x ∈ b.inFlight, (st.machineAt? x.1).isSome) →
    (∀ x ∈ b.inFlight, ∀ sub, st.machineAt? x.1 = some sub → Waiting now polls sub x.2) →
    b.pending = [] ∨ b.limit ≠ 0 ∧ b.inFlight.length = b.limit → Waiting now polls machine r

variable {machine : Machine} {r : Run} {now : Instant} {polls polls' : Polls}

/-- More polls do not end the waiting. -/
theorem Waiting.mono (h : Waiting now polls machine r) (hsub : polls ⊆ polls') :
    Waiting now polls' machine r := by
  induction h with
  | delayed hr hv hst hh hnb hnow => exact .delayed hr hv hst hh hnb hnow
  | timed hr hv hst hp hnow => exact .timed hr hv hst hp hnow
  | working hr hv hst hp hpoll hdue => exact .working hr hv hst hp (hsub hpoll) hdue
  | nesting hr hv hst hkind hp hne hsome _ hfull ih =>
    exact .nesting hr hv hst hkind hp hne hsome ih hfull

theorem Waiting.running (h : Waiting now polls machine r) : r.status = .running := by
  cases h <;> assumption

/-- A record that fits its machine, with no more children in flight than there are slots. -/
structure Orderly (machine : Machine) (r : Run) : Prop where
  coherent : Coherent machine r
  inLimit : ∀ v b, r.visit = some v → v.progress = .branches b → b.InLimit

variable {e : Engine σ} {m : Moment} {s : σ}

theorem Everywhere.coherent (h : Everywhere Orderly machine r) : Everywhere Coherent machine r :=
  fun machine' r' hw => (h machine' r' hw).coherent

theorem orderly_start (h : Orderly machine r) (now : Instant) :
    Orderly machine (r.start machine now) := by
  refine ⟨coherent_start h.coherent now, ?_⟩
  intro v b hv hb
  rcases start_visit hv with hidle | hv
  · rw [hidle] at hb
    cases hb
  · exact h.inLimit v b hv hb

theorem orderly_step (h : Orderly machine r) : Orderly machine (machine.step e m r s).2.1 := by
  refine ⟨coherent_invariant.step h.coherent, ?_⟩
  intro v' b' hv' hb'
  rcases Machine.step_visit hv' with hidle | hv | ⟨v, st, hv, _, _, hshifts⟩
  · rw [hidle] at hb'
    cases hb'
  · exact h.inLimit v' b' hv hb'
  · have hstart := (orderly_start h m.now).inLimit v
    rw [hb'] at hshifts
    generalize hp : Progress.branches b' = p' at hshifts
    cases hshifts with
    | same => exact hstart b' hv hp.symm
    | idle | waiting | job => cases hp
    | @branches b _ _ _ hb hadv =>
      cases hp
      have hlimit : b.InLimit := by
        rcases hb with hb | hmakes
        · exact hstart b hv hb
        · intro _
          simp [hmakes.opens.fresh.2]
      exact (Branches.busy_advance hlimit hadv).2.2.inLimit

theorem orderly_invariant : Invariant e Orderly where
  fresh _ execution input := ⟨coherent_ofInput execution input, fun _ _ hv => by cases hv⟩
  start h := orderly_start h _
  step h := orderly_step h
  abort := by
    intro machine r cause s h
    refine ⟨coherent_abort h.coherent _ cause s, ?_⟩
    intro v b hv hb
    cases hr : r.isTerminal with
    | true =>
      simp only [abort, hr, if_true] at hv
      exact h.inLimit v b hv hb
    | false =>
      rw [abort_visit hr hv] at hb
      cases hb

end Run

section

variable {e : Engine σ} {m : Moment} {s s' : σ}

/-- To complete a state is not to wait. -/
theorem DataFlow.complete_ne_blocked {f : DataFlow} {next : Option String}
    {data context raw : Value} : f.complete m next data context raw ≠ .ok .blocked := by
  intro h
  obtain ⟨output, next, heq⟩ := Machine.DataFlow.complete_leaves h
  cases heq

/-- To handle an error is not to wait. -/
theorem ErrorHandling.handle_ne_blocked {h : ErrorHandling} {data : Value} {err : ExecutionError}
    {v : Visit} : (h.handle m data err v).1 ≠ .ok .blocked := by
  refine ErrorHandling.handle_rule (Q := fun q => q.1 ≠ .ok .blocked) ?_ ?_ ?_ ?_
  all_goals
    intros
    simp

end

/-- Where nobody is in flight there is a slot for a child that waits. -/
theorem Branches.nextUp_ne_nil {α : Type} {b : Branches α} (hpending : b.pending ≠ [])
    (hempty : b.inFlight = []) : b.nextUp ≠ [] := by
  intro hnone
  rcases List.take_eq_nil_iff.mp hnone with hfree | hnil
  · by_cases hl : b.limit = 0
    · exact hpending (List.length_eq_zero_iff.mp (by simpa [freeSlots, hl] using hfree))
    · simp [freeSlots, hl, hempty] at hfree
  · exact hpending hnil

namespace Machine

/-- A state that neither waits nor nests nor has a job does not block. -/
theorem State.plain_ne_blocked {st : State} {e : Engine σ} {m : Moment} {r : Run}
    {stay v : Visit} {s : σ} (hst : st.handling? = none) (hwait : ∀ p, st ≠ .wait p) :
    (st.work e m r stay v s).1 ≠ .ok .blocked := by
  intro h
  obtain ⟨output, next, heq⟩ := State.plain_leaves hst hwait h
  cases heq

/-- A Wait state is blocked before its deadline, which it then keeps. -/
theorem Wait.advance_blocked {p : Wait} {m : Moment} {data context : Value} {v v' : Visit}
    (h : p.advance m data context v = (.ok .blocked, v')) :
    ∃ deadline, v'.progress = .waiting deadline ∧ m.now.before deadline = true := by
  unfold Wait.advance at h
  split at h
  · cases h
  · rename_i deadline _
    simp only [Prod.mk.injEq] at h
    obtain ⟨hres, rfl⟩ := h
    refine ⟨deadline, rfl, ?_⟩
    split_ifs at hres with hnow
    · exact hnow
    · obtain ⟨input, -, hflow⟩ := bind_ok hres
      exact (DataFlow.complete_ne_blocked hflow).elim

variable {runner : JobRunner σ} {config : Config} {m : Moment} {st : State} {r : Run}
  {v v' : Visit} {s s' : σ × Polls} {machine : Machine}

/-- What a step must show of a workflow that it has left blocked. -/
def Pauses (runner : JobRunner σ) (config : Config) (machine : Machine) : Prop :=
  ∀ {m r r' s s'}, Run.Everywhere Run.Orderly machine r →
    machine.step ⟨runner.observed, config⟩ m r s = (.blocked, r', s') →
    ∃ polls, s'.2 = s.2 ++ polls ∧ Run.Waiting m.now polls machine r'

/-- A Task state is blocked while its job has not ended, which is asked in the advance. -/
theorem Task.advance_blocked {t : Task} {data context : Value}
    (h : t.advance ⟨runner.observed, config⟩ m data context v s = (.ok .blocked, v', s')) :
    ∃ handle launchedAt, v'.progress = .job handle launchedAt ∧
      t.isOverdue m.now launchedAt = false ∧ s'.2 = s.2 ++ [(handle, .running)] := by
  have hpoll : ∀ {handle launchedAt w s₁}, s₁.2 = s.2 →
      t.poll ⟨runner.observed, config⟩ m data context handle launchedAt w s₁ =
        (.ok .blocked, v', s') →
      ∃ handle launchedAt, v'.progress = .job handle launchedAt ∧
        t.isOverdue m.now launchedAt = false ∧ s'.2 = s.2 ++ [(handle, .running)] := by
    intro handle launchedAt w s₁ hs
    refine Task.poll_rule (Q := fun q => q = (.ok .blocked, v', s') → _) ?_ ?_ ?_ ?_
    · intro output s₂ _ heq
      exact (DataFlow.complete_ne_blocked (congrArg Prod.fst heq)).elim
    · rintro error cause s₂ _ ⟨⟩
    · rintro s₂ _ _ ⟨⟩
    · rintro s₂ hasked hdue ⟨⟩
      refine ⟨handle, launchedAt, rfl, hdue, ?_⟩
      simp only [JobRunner.observed, Prod.mk.injEq] at hasked
      rw [← hasked.2, hasked.1, hs]
  revert h
  refine Task.advance_rule (Q := fun q => q = (.ok .blocked, v', s') → _) ?_ ?_ ?_
  · intro handle launchedAt _ heq
    exact hpoll rfl heq
  · rintro err s₁ _ _ ⟨⟩
  · intro handle s₁ _ hlaunch heq
    refine hpoll ?_ heq
    revert hlaunch
    refine Task.launch_rule (Q := fun q => q = (.ok handle, s₁) → s₁.2 = s.2) ?_ ?_
    · rintro err ⟨⟩
    · intro input credentials _ _ hasked
      rw [← (Prod.mk.inj hasked).2]
      rfl

/-- A nested workflow that goes on as its machine lets it. -/
def State.Seats (st : State) (i : Nat) (child : Run) : Prop :=
  ∃ sub, st.machineAt? i = some sub ∧ Run.Everywhere Run.Orderly sub child

/-- Nested workflows that all wait, each with its machine. -/
def State.Waits (st : State) (now : Instant) (polls : Polls) (xs : List (Nat × Run)) : Prop :=
  ∀ x ∈ xs, (st.machineAt? x.1).isSome ∧
    ∀ sub, st.machineAt? x.1 = some sub → Run.Waiting now polls sub x.2

theorem State.Waits.concat {xs : List (Nat × Run)} {now : Instant} {polls polls' : Polls} {i : Nat}
    {child : Run} {sub : Machine} (h : st.Waits now polls xs) (hsub : st.machineAt? i = some sub)
    (hchild : Run.Waiting now polls' sub child) :
    st.Waits now (polls ++ polls') (xs ++ [(i, child)]) := by
  intro x hx
  rcases List.mem_append.mp hx with hx | hx
  · obtain ⟨hsome, hx⟩ := h x hx
    exact ⟨hsome, fun sub hsub => (hx sub hsub).mono (List.subset_append_left _ _)⟩
  · rw [List.mem_singleton.mp hx]
    refine ⟨by simp [hsub], fun sub' hsub' => ?_⟩
    rw [hsub, Option.some.injEq] at hsub'
    exact hsub' ▸ hchild.mono (List.subset_append_right _ _)

/-- A round in which nothing has moved leaves children that wait, each as it has just been stepped. -/
theorem State.round_pauses (h : ∀ sub ∈ st.machines, sub.Pauses runner config)
    {todo : List (Nat × Run)} {p : Bool} {b b' : Branches Run}
    (htodo : ∀ x ∈ todo, st.Seats x.1 x.2) (hempty : b.inFlight = [])
    (hround : Branches.round (st.child ⟨runner.observed, config⟩ m) todo p b s =
      (.ok false, b', s')) :
    ∃ polls, s'.2 = s.2 ++ polls ∧ st.Waits m.now polls b'.inFlight := by
  revert hround
  refine Branches.round_rule
    (I := fun todo p b s₁ => (∀ x ∈ todo, st.Seats x.1 x.2) ∧ (p = false →
      ∃ polls, s₁.2 = s.2 ++ polls ∧ st.Waits m.now polls b.inFlight))
    (Q := fun q => q = (.ok false, b', s') → _) ?_ ?_ ?_ ?_
    ⟨htodo, fun _ => ⟨[], by simp, by simp [State.Waits, hempty]⟩⟩
  · rintro i a rest p b s₁ o a' s₂ ⟨htodo, hb⟩ hstep _
    refine ⟨fun x hx => htodo x (List.mem_cons_of_mem _ hx), fun hp => ?_⟩
    obtain ⟨rfl, ho⟩ : p = false ∧ o = .blocked := by simpa using hp
    obtain ⟨polls, hs₁, hwait⟩ := hb rfl
    obtain ⟨sub, hsub, ha⟩ := htodo _ List.mem_cons_self
    rw [child_step hsub, ho] at hstep
    obtain ⟨polls', hs₂, ha'⟩ := h sub (mem_machines hsub) ha hstep
    exact ⟨polls ++ polls', by rw [hs₂, hs₁, List.append_assoc], hwait.concat hsub ha'⟩
  · rintro i a rest p b s₁ o a' s₂ result b₂ ⟨htodo, _⟩ hstep hresult _
    refine ⟨fun x hx => htodo x (List.mem_cons_of_mem _ hx), fun hp => ?_⟩
    -- a child that has ended has moved
    obtain ⟨rfl, ho⟩ : p = false ∧ o = .blocked := by simpa using hp
    obtain ⟨sub, hsub, ha⟩ := htodo _ List.mem_cons_self
    rw [child_step hsub, ho] at hstep
    obtain ⟨polls', -, ha'⟩ := h sub (mem_machines hsub) ha hstep
    simp [child_result, Run.result?, ha'.running] at hresult
  · rintro i a rest p b s₁ o a' s₂ result b₂ err _ _ _ _ ⟨⟩
  · rintro p b s₁ ⟨-, hb⟩ ⟨⟩
    exact hb rfl

/-- Nested workflows that keep to their slots, each with a machine. -/
structure State.Seated (st : State) (b : Branches Run) : Prop where
  inLimit : b.InLimit
  seats : ∀ x ∈ b.pending ++ b.inFlight, st.Seats x.1 x.2

theorem State.Opens.seated {execution : Execution} {b : Branches Run} (h : st.Opens execution b) :
    st.Seated b := by
  obtain ⟨hfresh, hempty⟩ := h.fresh
  refine ⟨fun _ => by simp [hempty], fun x hx => ?_⟩
  rw [hempty, List.append_nil] at hx
  obtain ⟨hsome, input, hinput⟩ := hfresh x hx
  obtain ⟨sub, hsub⟩ := Option.isSome_iff_exists.mp hsome
  rw [hinput]
  exact ⟨sub, hsub, (Run.orderly_invariant (e := ⟨hangingRunner, {}⟩)).everywhere_fresh _ _⟩

/-- Branches that have not moved have children in flight that wait, and no other one to start. -/
theorem State.branches_pause (h : ∀ sub ∈ st.machines, sub.Pauses runner config)
    {b b' : Branches Run} (hb : st.Seated b)
    (hadv : b.advance (st.child ⟨runner.observed, config⟩ m) s = (.running false, b', s')) :
    ∃ polls, s'.2 = s.2 ++ polls ∧ b'.inFlight ≠ [] ∧ st.Waits m.now polls b'.inFlight ∧
      (b'.pending = [] ∨ b'.limit ≠ 0 ∧ b'.inFlight.length = b'.limit) := by
  have hbusy : b'.Busy := (Branches.busy_advance hb.inLimit hadv).2.2
  obtain ⟨q, b₁, hround, hend, hmoved, rfl⟩ := Branches.advance_running hadv
  obtain ⟨rfl, hnone⟩ : q = false ∧ b₁.nextUp = [] := by simpa using hmoved.symm
  have htodo : ∀ x ∈ (b.startNext (st.child ⟨runner.observed, config⟩ m)).inFlight,
      st.Seats x.1 x.2 := by
    intro x hx
    rcases List.mem_append.mp hx with hx | hx
    · exact hb.seats x (List.mem_append_right _ hx)
    · obtain ⟨⟨i, child⟩, hup, rfl⟩ := List.mem_map.mp hx
      obtain ⟨sub, hsub, hchild⟩ :=
        hb.seats _ (List.mem_append_left _ (List.mem_of_mem_take hup))
      refine ⟨sub, hsub, ?_⟩
      have hstart : Run.Everywhere Run.Orderly sub (child.start sub m.now) :=
        (Run.orderly_invariant (e := ⟨runner.observed, config⟩)).everywhere_start hchild
      rwa [← child_start (e := ⟨runner.observed, config⟩) hsub] at hstart
  obtain ⟨polls, hs', hwait⟩ := State.round_pauses h htodo rfl hround
  have hflying : (b₁.startNext (st.child ⟨runner.observed, config⟩ m)).inFlight = b₁.inFlight := by
    simp [Branches.startNext, hnone]
  refine ⟨polls, hs', ?_, hflying ▸ hwait, ?_⟩
  · rw [hflying]
    intro hempty
    exact Branches.nextUp_ne_nil (fun hp => hend ⟨hp, hempty⟩) hempty hnone
  · by_cases hl : (b₁.startNext (st.child ⟨runner.observed, config⟩ m)).limit = 0
    · exact Or.inl (hbusy.uncounted hl)
    · exact (hbusy.counted hl).imp_right fun hlength => ⟨hl, hlength⟩

/-- Work that is blocked leaves a workflow that waits. -/
theorem State.work_waiting (h : ∀ sub ∈ st.machines, sub.Pauses runner config) {stay : Visit}
    {r' : Run} (hseated : ∀ b, v.progress = .branches b → st.Seated b)
    (hwork : st.work ⟨runner.observed, config⟩ m r stay v s = (.ok .blocked, v', s'))
    (hr' : r'.status = .running) (hv' : r'.visit = some v')
    (hst : machine.state? v'.state = some st) :
    ∃ polls, s'.2 = s.2 ++ polls ∧ Run.Waiting m.now polls machine r' := by
  revert hwork
  refine State.work_rule (Q := fun q => q = (.ok .blocked, v', s') → _) ?_ ?_ ?_ ?_
  · intro res hhandling hwait hwork heq
    have hne : (st.work ⟨runner.observed, config⟩ m r stay v s).1 ≠ .ok .blocked :=
      State.plain_ne_blocked hhandling hwait
    rw [hwork] at hne
    exact (hne (congrArg Prod.fst heq)).elim
  · rintro p rfl heq
    simp only [Prod.mk.injEq] at heq
    obtain ⟨hres, hv, rfl⟩ := heq
    obtain ⟨deadline, hp, hnow⟩ := Wait.advance_blocked (Prod.ext hres hv)
    exact ⟨[], by simp, .timed hr' hv' hst hp hnow⟩
  · rintro t rfl heq
    obtain ⟨handle, launchedAt, hp, hdue, hs'⟩ := Task.advance_blocked heq
    exact ⟨_, hs', .working hr' hv' hst hp (by simp) hdue⟩
  · intro start flow hkind hmakes
    refine Branches.work_rule (Q := fun q => q = (.ok .blocked, v', s') → _) ?_ ?_ ?_ ?_
    · rintro err _ _ ⟨⟩
    · intro b p b' s₁ hb hadv heq
      simp only [Prod.mk.injEq] at heq
      obtain ⟨hp, rfl, rfl⟩ := heq
      have hp : p = false := by cases p <;> simp_all
      have hseated : st.Seated b := by
        rcases hb with hb | ⟨_, hb⟩
        · exact hseated b hb
        · exact (hmakes b hb).opens.seated
      obtain ⟨polls, hs', hne, hwait, hfull⟩ := State.branches_pause h hseated (hp ▸ hadv)
      exact ⟨polls, hs', .nesting hr' hv' hst hkind rfl hne (fun x hx => (hwait x hx).1)
        (fun x hx => (hwait x hx).2) hfull⟩
    · intro b rs b' s₁ _ _ heq
      exact (DataFlow.complete_ne_blocked (congrArg Prod.fst heq)).elim
    · rintro b err b' s₁ _ _ ⟨⟩

/-- An advance that is blocked leaves a workflow that waits. -/
theorem State.advance_waiting (h : ∀ sub ∈ st.machines, sub.Pauses runner config) {r' : Run}
    (hseated : ∀ b, v.progress = .branches b → st.Seated b)
    (hadv : State.advance ⟨runner.observed, config⟩ m st r v s = (.ok .blocked, v', s'))
    (hr' : r'.status = .running) (hv' : r'.visit = some v')
    (hst : machine.state? v'.state = some st) :
    ∃ polls, s'.2 = s.2 ++ polls ∧ Run.Waiting m.now polls machine r' := by
  rw [State.advance_eq] at hadv
  cases hh : st.handling? with
  | none =>
    rw [hh] at hadv
    exact State.work_waiting h hseated hadv hr' hv' hst
  | some handling =>
    rw [hh] at hadv
    revert hadv
    refine ErrorHandling.guard_rule (Q := fun q => q = (.ok .blocked, v', s') → _) ?_ ?_ ?_
    · rintro hwait ⟨⟩
      obtain ⟨t, hnb, hnow⟩ := (Option.any_eq_true _ _).mp hwait
      exact ⟨[], by simp, .delayed hr' hv' hst (by simp [hh]) hnb hnow⟩
    · rintro a w s₁ _ hwork ⟨⟩
      exact State.work_waiting h (v := { v with notBefore := none }) hseated hwork hr' hv' hst
    · intro err w s₁ _ _ heq
      exact (ErrorHandling.handle_ne_blocked (congrArg Prod.fst heq)).elim

/-- A step that is blocked leaves a workflow that waits. -/
theorem step_pauses (machine : Machine) : machine.Pauses runner config := by
  induction machine using Machine.induction with
  | h machine ih =>
    intro m r r' s s' hr
    have hstart : Run.Everywhere Run.Orderly machine (r.start machine m.now) :=
      (Run.orderly_invariant (e := ⟨runner.observed, config⟩)).everywhere_start hr
    refine Run.step_rule (Q := fun q => q = (.blocked, r', s') → _) ?_ ?_ ?_ ?_ ?_
    · rintro _ ⟨⟩
    · rintro _ _ ⟨⟩
    · rintro _ _ ⟨⟩
    · rintro v _ _ _ ⟨⟩
    · intro v st res v' s₁ hterminal _ hv hst hadv heq
      have hseated : ∀ b, v.progress = .branches b → st.Seated b := by
        intro b hb
        have hfits := hstart.here.coherent.fits v st hv hst
        rw [hb] at hfits
        cases hfits with
        | branches _ hstaffed =>
          refine ⟨hstart.here.inLimit v b hv hb, fun x hx => ?_⟩
          have hsome : (st.machineAt? x.1).isSome := by
            rcases List.mem_append.mp hx with hx | hx
            · exact (hstaffed.waiting x hx).1
            · exact (hstaffed.flying x hx).1
          obtain ⟨sub, hsub⟩ := Option.isSome_iff_exists.mp hsome
          exact ⟨sub, hsub, hstart.nested hv hb hst hx hsub⟩
      have hstate : v'.state = v.state := (State.advance_shifts hadv).1
      rcases res with err | _ | _ | ⟨output, _ | next⟩
      case ok.blocked =>
        simp only [Run.settle, Prod.mk.injEq] at heq
        obtain ⟨-, rfl, rfl⟩ := heq
        exact State.advance_waiting (ih _ (mem_states hst)) hseated hadv
          (Run.begun_status hterminal _) rfl (hstate ▸ hst)
      all_goals cases heq

/-- A step that tells of an end has come to it. -/
theorem step_terminal {e : Engine σ} {s : σ} (h : (machine.step e m r s).1 = .terminal) :
    (machine.step e m r s).2.1.isTerminal = true := by
  revert h
  refine Run.step_rule (Q := fun q => q.1 = .terminal → q.2.1.isTerminal = true) ?_ ?_ ?_ ?_ ?_
  · intro hr _
    exact hr
  · intro _ _ _
    exact Run.abort_terminal
  · intro _ _ _
    exact Run.abort_terminal
  · intro v _ _ _ _
    exact Run.abort_terminal
  · rintro v st (err | _ | _ | ⟨output, _ | next⟩) v' s' _ _ _ _ _ ho
    case error => rfl
    case ok.completed.none => rfl
    all_goals cases ho

end Machine

namespace Workflow

variable {runner : JobRunner σ} {machine : Machine} {config : Config} {execution : Execution}
  {input : Value} {w w' w₀ : Workflow} {s₀ s s' : σ} {log : Polls}

/-- The last step of a run is the one that does not progress. -/
theorem runFrom_last {moment : Nat → Moment} {fuel k n : Nat} (h : Reaches runner w₀ s₀ w s)
    (hrun : w.runFrom runner moment fuel k s = some (n, w', s')) :
    ∃ j w₁ s₁ o, n = j + 1 ∧ Reaches runner w₀ s₀ w₁ s₁ ∧
      w₁.step runner (moment j) s₁ = (o, w', s') ∧ o ≠ .progressed := by
  induction fuel generalizing k w s with
  | zero => simp [runFrom] at hrun
  | succ fuel ih =>
    rcases hstep : w.step runner (moment k) s with ⟨o, w₁, s₁⟩
    rw [runFrom, hstep] at hrun
    cases o with
    | progressed => exact ih (h.step hstep) hrun
    | blocked | terminal =>
      cases hrun
      exact ⟨k, w, s, _, rfl, h, hstep, by simp⟩

theorem step_waiting
    (h : Reaches runner.observed ⟨machine, config, .ofInput execution input⟩ (s₀, []) w (s, log))
    {m : Moment} {log' : Polls}
    (hstep : w.step runner.observed m (s, log) = (.blocked, w', s', log')) :
    ∃ polls, log' = log ++ polls ∧ Run.Waiting m.now polls w'.machine w'.run := by
  obtain ⟨rfl, rfl, horderly⟩ := h.everywhere Run.orderly_invariant
  rcases hrun : w.machine.step ⟨runner.observed, w.config⟩ (m.part w.run.steps) w.run (s, log)
    with ⟨o, r', s₁⟩
  simp only [step, hrun, Prod.mk.injEq] at hstep
  obtain ⟨rfl, rfl, rfl⟩ := hstep
  exact Machine.step_pauses w.machine horderly hrun

/-- No workflow stops early. When a step is blocked the workflow waits for something outside at the
clock reading of the step, and the polls that this refers to are those of the step; and so it is when
a run comes to its end before the workflow does. -/
theorem blocked_waiting
    (h : Reaches runner.observed ⟨machine, config, .ofInput execution input⟩ (s₀, []) w (s, log)) :
    (∀ m w' s' log', w.step runner.observed m (s, log) = (.blocked, w', s', log') →
      ∃ polls, log' = log ++ polls ∧ Run.Waiting m.now polls w'.machine w'.run) ∧
    ∀ moment fuel k n w' s' log',
      w.runFrom runner.observed moment fuel k (s, log) = some (n, w', s', log') →
      w'.run.status = .running →
      ∃ (j : Nat) (w₁ : Workflow) (s₁ : σ) (log₁ polls : Polls), n = j + 1 ∧
        w₁.step runner.observed (moment j) (s₁, log₁) = (.blocked, w', s', log') ∧
        log' = log₁ ++ polls ∧ Run.Waiting (moment j).now polls w'.machine w'.run := by
  refine ⟨fun m w' s' log' => step_waiting h, ?_⟩
  intro moment fuel k n w' s' log' hrun hrunning
  obtain ⟨j, w₁, ⟨s₁, log₁⟩, o, hn, hreach, hstep, ho⟩ := runFrom_last h hrun
  cases o with
  | progressed => exact (ho rfl).elim
  | terminal =>
    simp only [step, Prod.mk.injEq] at hstep
    obtain ⟨ho, rfl, -⟩ := hstep
    have hterminal := Machine.step_terminal ho
    rw [Run.isTerminal_of_running hrunning] at hterminal
    cases hterminal
  | blocked =>
    obtain ⟨polls, hlog, hwaiting⟩ := step_waiting hreach hstep
    exact ⟨j, w₁, s₁, log₁, polls, hn, hstep, hlog, hwaiting⟩

section

/-- A job at the side of a pause. -/
def pausingMachine : Machine := ⟨"Both", [("Both", .parallel ⟨none, {}, {}⟩
  [⟨"Work", [("Work", .task ⟨none, "local", none, none, {}, {}⟩)]⟩,
   ⟨"Pause", [("Pause", .wait ⟨none, {}, .seconds 5⟩)]⟩])]⟩

/-- The second step is blocked: the job was polled and has not ended, and the pause is not over. -/
theorem pausing_blocked_waiting : ∃ w w' log log' polls,
    Reaches hangingRunner.observed ⟨pausingMachine, {}, .ofInput default .null⟩ ((), []) w
      ((), log) ∧
    w.step hangingRunner.observed .zero ((), log) = (.blocked, w', (), log') ∧
    log' = log ++ polls ∧ polls = [(⟨"job", "local"⟩, .running)] ∧
    Run.Waiting Moment.zero.now polls w'.machine w'.run := by
  have hreach : Reaches hangingRunner.observed ⟨pausingMachine, {}, .ofInput default .null⟩
      ((), []) _ ((), _) := .step (m := .zero) .new rfl
  obtain ⟨polls, hlog, hwaiting⟩ := (blocked_waiting hreach).1 .zero _ _ _ rfl
  exact ⟨_, _, _, _, polls, hreach, rfl, hlog, (List.append_cancel_left hlog).symm, hwaiting⟩

end

end Workflow

end StatesLanguage
