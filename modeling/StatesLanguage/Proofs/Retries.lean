import StatesLanguage.Proofs.Calls

/-! The errors of a state as long as a workflow stays in it: how they are counted, and which of them
makes the workflow leave the state. -/
namespace StatesLanguage

variable {σ : Type} {e : Engine σ} {m : Moment} {s : σ}

namespace ErrorHandling

variable {h : ErrorHandling} {errors : List ExecutionError} {err : ExecutionError} {v w : Visit}
  {i : Nat} {rt : Retrier}

/-- The retrier for an error is the first one in the list that handles it. -/
theorem retrierFor_eq_some {name : Option String} : h.retrierFor? name = some (i, rt) ↔
    h.retriers[i]? = some rt ∧ rt.handles name = true ∧
      ∀ j < i, ∀ rt', h.retriers[j]? = some rt' → rt'.handles name = false := by
  rw [retrierFor?, List.find?_eq_some_iff_getElem]
  simp only [List.getElem_mapIdx, List.length_mapIdx, Prod.mk.injEq, Bool.not_eq_true']
  constructor
  · rintro ⟨hhandles, k, hk, ⟨rfl, rfl⟩, hbefore⟩
    refine ⟨List.getElem?_eq_getElem hk, hhandles, fun j hj rt' hrt' => ?_⟩
    obtain ⟨_, rfl⟩ := List.getElem?_eq_some_iff.mp hrt'
    exact hbefore j hj
  · rintro ⟨hrt, hhandles, hbefore⟩
    obtain ⟨hi, rfl⟩ := List.getElem?_eq_some_iff.mp hrt
    exact ⟨hhandles, i, hi, ⟨rfl, rfl⟩, fun j hj =>
      hbefore j hj _ (List.getElem?_eq_getElem (Nat.lt_trans hj hi))⟩

/-- Whether the retrier of that number is the one for an error. -/
def goesTo (h : ErrorHandling) (i : Nat) (err : ExecutionError) : Bool :=
  (h.retrierFor? err.name?).any fun x => x.1 == i

/-- How many of some errors have gone to the retrier of that number. -/
def used (h : ErrorHandling) (errors : List ExecutionError) (i : Nat) : Nat :=
  errors.countP (h.goesTo i)

/-- What is counted in a stay are the errors that were raised: each of them for its own retrier, and
all of them together. -/
structure Counts (h : ErrorHandling) (errors : List ExecutionError) (v : Visit) : Prop where
  length : v.attempts.length = h.retriers.length
  attempts : ∀ i < h.retriers.length, v.attempts[i]? = some (h.used errors i)
  bounded : ∀ i rt, h.retriers[i]? = some rt → h.used errors i ≤ rt.maxAttempts
  retries : v.retries = errors.length

/-- An error that is not retried: there is no retrier for it, or the first one for it has no attempts
left. -/
def GivesUp (h : ErrorHandling) (errors : List ExecutionError) (err : ExecutionError) : Prop :=
  ∀ i rt, h.retrierFor? err.name? = some (i, rt) → h.used errors i = rt.maxAttempts

theorem counts_arrive {machine : Machine} {name : String} {st : Machine.State}
    (hst : machine.state? name = some st) (hh : st.handling? = some h) (now : Instant) :
    h.Counts [] (Run.arrive machine name now) := by
  have hattempts : (Run.arrive machine name now).attempts = List.replicate h.retriers.length 0 := by
    simp [Run.arrive, hst, Machine.State.retrierCount, hh]
  refine ⟨by simp [hattempts], fun i hi => ?_, fun i rt _ => ?_, rfl⟩
  · simp [hattempts, used, hi]
  · simp [used]

theorem Counts.getD_attempts (hv : h.Counts errors v)
    (hrt : h.retrierFor? err.name? = some (i, rt)) : v.attempts.getD i 0 = h.used errors i := by
  have hi : i < h.retriers.length :=
    (List.getElem?_eq_some_iff.mp (retrierFor_eq_some.mp hrt).1).1
  rw [List.getD_eq_getElem?_getD, hv.attempts i hi, Option.getD_some]

theorem counts_congr (hv : h.Counts errors v) (hattempts : w.attempts = v.attempts)
    (hretries : w.retries = v.retries) : h.Counts errors w :=
  ⟨hattempts ▸ hv.length, hattempts ▸ hv.attempts, hv.bounded, hretries ▸ hv.retries⟩

theorem used_append (j : Nat) (hrt : h.retrierFor? err.name? = some (i, rt)) :
    h.used (errors ++ [err]) j = h.used errors j + if i = j then 1 else 0 := by
  simp [used, List.countP_append, goesTo, hrt, List.countP_singleton]

/-- An error that is retried is counted once, for its own retrier. -/
theorem counts_retried (hv : h.Counts errors v)
    (hrt : h.retrierFor? err.name? = some (i, rt)) (hleft : v.attempts.getD i 0 < rt.maxAttempts)
    (hattempts : w.attempts = v.attempts.set i (v.attempts.getD i 0 + 1))
    (hretries : w.retries = v.retries + 1) : h.Counts (errors ++ [err]) w := by
  rw [hv.getD_attempts hrt] at hleft hattempts
  refine ⟨?_, fun j hj => ?_, fun j rt' hrt' => ?_, ?_⟩
  · rw [hattempts, List.length_set, hv.length]
  · rw [hattempts, used_append j hrt, List.getElem?_set]
    split_ifs with hij hlt
    · rw [hij]
    · exact (hlt (hij ▸ hv.length ▸ hj)).elim
    · rw [hv.attempts j hj, Nat.add_zero]
  · have hbounded := hv.bounded j rt' hrt'
    rw [used_append j hrt]
    split_ifs with hij
    · rw [← hij, (retrierFor_eq_some.mp hrt).1, Option.some.injEq] at hrt'
      rw [← hij, ← hrt']
      omega
    · omega
  · rw [hretries, hv.retries, List.length_append]
    rfl

theorem handle_retried {data : Value} (hrt : h.retrierFor? err.name? = some (i, rt))
    (hleft : v.attempts.getD i 0 < rt.maxAttempts) :
    h.handle m data err v = (.ok .progressed, { v with
      progress := .idle
      attempts := v.attempts.set i (v.attempts.getD i 0 + 1)
      retries := v.retries + 1
      notBefore := some (m.now.after (rt.delay (m.share []) (v.attempts.getD i 0 + 1))) }) := by
  simp only [handle, hrt, if_pos hleft]

/-- An error that is not retried goes to the first catcher for it, if there is one. -/
theorem handle_given_up {data : Value}
    (hused : ∀ i rt, h.retrierFor? err.name? = some (i, rt) →
      v.attempts.getD i 0 = rt.maxAttempts) :
    h.handle m data err v = (h.caught data err, v) := by
  unfold handle
  cases hrt : h.retrierFor? err.name? with
  | none => rfl
  | some x =>
    obtain ⟨i, rt⟩ := x
    have hnot : ¬ v.attempts.getD i 0 < rt.maxAttempts := by
      rw [hused i rt hrt]
      exact Nat.lt_irrefl _
    exact if_neg hnot

end ErrorHandling

/-- A result that cannot be put into its place gives an error of its own. -/
theorem ResultPath.apply_error {p : ResultPath} {data result : Value} {err : ExecutionError}
    (h : p.apply data result = .error err) : ∃ cause, err = .path .resultPath cause := by
  cases p with
  | replace | discard => cases h
  | merge p =>
    cases hset : p.set data result with
    | ok v => simp [apply, hset, Except.mapError] at h
    | error fault =>
      simp only [apply, hset, Except.mapError, Except.error.injEq] at h
      exact ⟨_, h.symm⟩

namespace Machine

variable {st : State} {r : Run} {v v' : Visit} {h : ErrorHandling} {errors : List ExecutionError}

/-- The error that the work of a state raises in an advance, before it is retried or caught. There is
none before a delay is over. -/
def State.raised? (e : Engine σ) (m : Moment) (st : State) (r : Run) (v : Visit) (s : σ) :
    Option ExecutionError :=
  if v.notBefore.any fun t => m.now.before t then none
  else match (st.work e m r v { v with notBefore := none } s).1 with
    | .error err => some err
    | .ok _ => none

theorem frame_refl (v : Visit) : ∃ p, v = { v with progress := p } := by
  cases v
  exact ⟨_, rfl⟩

theorem Task.poll_frame {t : Task} {data context : Value} {handle : JobHandle}
    {launchedAt : Instant} : ∃ p,
      (t.poll e m data context handle launchedAt v s).2.1 = { v with progress := p } := by
  refine Task.poll_rule (Q := fun q => ∃ p, q.2.1 = { v with progress := p }) ?_ ?_ ?_ ?_
  · intro output s' _
    exact frame_refl v
  · intro error cause s' _
    exact frame_refl v
  · intro s' _ _
    exact frame_refl v
  · intro s' _ _
    exact ⟨_, rfl⟩

theorem Task.advance_frame {t : Task} {data context : Value} : ∃ p,
    (t.advance e m data context v s).2.1 = { v with progress := p } := by
  refine Task.advance_rule (Q := fun q => ∃ p, q.2.1 = { v with progress := p }) ?_ ?_ ?_
  · intro handle launchedAt _
    exact Task.poll_frame
  · intro err s' _ _
    exact ⟨.idle, rfl⟩
  · intro handle s' _ _
    exact Task.poll_frame

/-- The work of a state changes nothing of the stay but what is being done. -/
theorem State.work_frame (st : State) (r : Run) (stay : Visit) : ∃ p,
    (st.work e m r stay v s).2.1 = { v with progress := p } := by
  refine State.work_rule (Q := fun q => ∃ p, q.2.1 = { v with progress := p }) ?_ ?_ ?_ ?_
  · intro res _ _ _
    exact frame_refl v
  · intro p _
    unfold Wait.advance
    split
    · exact frame_refl v
    · exact ⟨_, rfl⟩
  · intro p _
    exact Task.advance_frame
  · intro start flow _ _
    refine Branches.work_rule (Q := fun q => ∃ p, q.2.1 = { v with progress := p }) ?_ ?_ ?_ ?_
    · intro err _ _
      exact ⟨.idle, rfl⟩
    · intro b p b' s' _ _
      exact ⟨_, rfl⟩
    · intro b rs b' s' _ _
      exact ⟨.idle, rfl⟩
    · intro b err b' s' _ _
      exact ⟨.idle, rfl⟩

/-- An advance that does not leave the state keeps the account of its errors. -/
theorem State.advance_counts {a : Advance} {s' : σ} (hst : st.handling? = some h)
    (hadv : State.advance e m st r v s = (.ok a, v', s'))
    (hstays : ∀ output next, a ≠ .completed output next) (hv : h.Counts errors v) :
    h.Counts (errors ++ (st.raised? e m r v s).toList) v' := by
  revert hadv
  rw [State.advance_eq, hst]
  obtain ⟨p, hframe⟩ := State.work_frame (e := e) (m := m) (s := s)
    (v := { v with notBefore := none }) st r v
  refine ErrorHandling.guard_rule (Q := fun q => q = (.ok a, v', s') → _) ?_ ?_ ?_
  · rintro hwait ⟨⟩
    simpa [raised?, hwait] using hv
  · rintro a w s₁ hover hwork ⟨⟩
    have hframe : v' = { v with notBefore := none, progress := p } := by rwa [hwork] at hframe
    have hraised : st.raised? e m r v s = none := by simp [raised?, hover, hwork]
    rw [hraised, Option.toList_none, List.append_nil]
    exact ErrorHandling.counts_congr hv (by rw [hframe]) (by rw [hframe])
  · intro err w s₁ hover hwork
    have hframe : w = { v with notBefore := none, progress := p } := by rwa [hwork] at hframe
    have hraised : st.raised? e m r v s = some err := by simp [raised?, hover, hwork]
    rw [hraised, Option.toList_some]
    refine ErrorHandling.handle_rule (Q := fun q => (q.1, q.2, s₁) = (.ok a, v', s') → _)
      ?_ ?_ ?_ ?_
    · rintro i rt hrt hleft ⟨⟩
      have hw : h.Counts errors w :=
        ErrorHandling.counts_congr hv (by rw [hframe]) (by rw [hframe])
      exact ErrorHandling.counts_retried hw hrt hleft rfl rfl
    · rintro c output _ _ ⟨⟩
      exact (hstays _ _ rfl).elim
    · rintro c err' _ _ ⟨⟩
    · rintro _ ⟨⟩

/-- An error that is raised is handled, in the stay as the work has left it. -/
theorem State.advance_raised {err : ExecutionError} (hst : st.handling? = some h)
    (hraised : st.raised? e m r v s = some err) :
    ∃ p s', State.advance e m st r v s =
      ((h.handle m r.data err { v with notBefore := none, progress := p }).1,
        (h.handle m r.data err { v with notBefore := none, progress := p }).2, s') := by
  obtain ⟨p, hframe⟩ := State.work_frame (e := e) (m := m) (s := s)
    (v := { v with notBefore := none }) st r v
  unfold raised? at hraised
  split_ifs at hraised with hwait
  rw [State.advance_eq, hst]
  simp only [ErrorHandling.guard, if_neg hwait]
  rcases hwork : st.work e m r v { v with notBefore := none } s with ⟨err' | a, w, s'⟩
  · rw [hwork] at hraised hframe
    cases hraised
    have hframe : w = { v with notBefore := none, progress := p } := hframe
    subst hframe
    exact ⟨p, s', rfl⟩
  · rw [hwork] at hraised
    cases hraised

end Machine

namespace Run

variable {machine : Machine} {r : Run} {v : Visit} {st : Machine.State}

/-- The error that the work of the current state raises in a step, before it is retried or caught. -/
def raised? (e : Engine σ) (m : Moment) (machine : Machine) (r : Run) (s : σ) :
    Option ExecutionError :=
  r.visit.bind fun v => (machine.state? v.state).bind fun st => st.raised? e m r v s

/-- A workflow that has entered a state with some data and has not left it since, with the errors
that were raised there. -/
inductive Stay (e : Engine σ) (machine : Machine) (name : String) (data : Value) :
    List ExecutionError → Run → Prop where
  | entered {r : Run} {now : Instant} : r.status = .running → r.data = data →
    r.visit = some (arrive machine name now) → Stay e machine name data [] r
  | stepped {errors : List ExecutionError} {r : Run} {m : Moment} {v : Visit} {st : Machine.State}
    {a : Advance} {s : σ} : Stay e machine name data errors r → r.isExhausted e.config = false →
    r.visit = some v → machine.state? name = some st → (st.advance e m r v s).1 = .ok a →
    (∀ output next, a ≠ .completed output next) →
    Stay e machine name data (errors ++ (r.raised? e m machine s).toList) (machine.step e m r s).2.1

variable {name : String} {data : Value} {errors : List ExecutionError} {a : Advance}
  {handling : ErrorHandling}

/-- To settle an advance that does not leave the state is to keep the stay. -/
theorem settle_stays {config : Config} {now : Instant}
    (hstays : ∀ output next, a ≠ .completed output next) :
    (r.settle config machine now v (.ok a)).2 = { r with visit := some v } := by
  cases a with
  | blocked | progressed => rfl
  | completed output next => exact (hstays output next rfl).elim

theorem Stay.here (h : Stay e machine name data errors r) :
    r.status = .running ∧ r.data = data ∧ ∃ v, r.visit = some v ∧ v.state = name := by
  induction h with
  | entered hr hdata hv => exact ⟨hr, hdata, _, hv, rfl⟩
  | @stepped errors r m v st a s _ hlimit hv hst hadv hstays ih =>
    obtain ⟨hr, hdata, v', hv', hname⟩ := ih
    rw [hv, Option.some.injEq] at hv'
    subst v'
    rw [step_running hr hlimit hv (hname ▸ hst), hadv, settle_stays hstays]
    rcases hres : st.advance e m r v s with ⟨res, v', s'⟩
    exact ⟨hr, hdata, v', rfl, (Machine.State.advance_shifts hres).1.trans hname⟩

theorem raised_of_visit (hv : r.visit = some v) (hst : machine.state? v.state = some st) :
    r.raised? e m machine s = st.raised? e m r v s := by
  simp [raised?, hv, hst]

/-- In a stay the errors are counted as they were raised. -/
theorem Stay.counts (h : Stay e machine name data errors r) (hst : machine.state? name = some st)
    (hh : st.handling? = some handling) :
    ∃ v, r.visit = some v ∧ v.state = name ∧ handling.Counts errors v := by
  induction h with
  | entered _ _ hv => exact ⟨_, hv, rfl, ErrorHandling.counts_arrive hst hh _⟩
  | @stepped errors r m v st' a s hstay hlimit hv hst' hadv hstays ih =>
    rw [hst, Option.some.injEq] at hst'
    subst st'
    obtain ⟨v', hv', hname, hcounts⟩ := ih
    rw [hv, Option.some.injEq] at hv'
    subst v'
    have hst : machine.state? v.state = some st := hname ▸ hst
    rw [step_running hstay.here.1 hlimit hv hst, hadv, settle_stays hstays, raised_of_visit hv hst]
    rcases hres : st.advance e m r v s with ⟨res, v', s'⟩
    have hres : st.advance e m r v s = (.ok a, v', s') := by
      rw [hres] at hadv ⊢
      rw [← hadv]
    exact ⟨v', rfl, (Machine.State.advance_shifts hres).1.trans hname,
      Machine.State.advance_counts hh hres hstays hcounts⟩

/-- How a workflow goes on from a stay after one more error: the first retrier for it sends the state
back as long as it has attempts left; then the first catcher for it leads on, unless the error cannot be
put where it belongs; and where there is none the workflow fails. -/
inductive Answers (e : Engine σ) (m : Moment) (machine : Machine) (handling : ErrorHandling)
    (name : String) (data : Value) (errors : List ExecutionError) (err : ExecutionError) :
    StepOutcome → Run → Prop where
  | retried {i : Nat} {rt : Retrier} {r : Run} {v : Visit} :
    handling.retrierFor? err.name? = some (i, rt) → handling.used errors i < rt.maxAttempts →
    Stay e machine name data (errors ++ [err]) r → r.visit = some v → v.progress = .idle →
    v.notBefore = some (m.now.after (rt.delay (m.share []) (handling.used errors i + 1))) →
    Answers e m machine handling name data errors err .progressed r
  | caught {c : Catcher} {output : Value} {r : Run} : handling.GivesUp errors err →
    handling.catcherFor? err.name? = some c → c.resultPath.apply data err.payload = .ok output →
    r.status = .running → r.data = output → r.visit = some (arrive machine c.next m.now) →
    Answers e m machine handling name data errors err .progressed r
  | misplaced {c : Catcher} {cause : String} {r : Run} : handling.GivesUp errors err →
    handling.catcherFor? err.name? = some c →
    c.resultPath.apply data err.payload = .error (.path .resultPath cause) →
    r.Failed (.path .resultPath cause) →
    Answers e m machine handling name data errors err .terminal r
  | failed {r : Run} : handling.GivesUp errors err → handling.catcherFor? err.name? = none →
    r.Failed err → Answers e m machine handling name data errors err .terminal r

/-- Each error that is raised in a stay is answered. -/
theorem Stay.answers {err : ExecutionError} (h : Stay e machine name data errors r)
    (hst : machine.state? name = some st) (hh : st.handling? = some handling)
    (hlimit : r.isExhausted e.config = false) (hraised : r.raised? e m machine s = some err) :
    Answers e m machine handling name data errors err (machine.step e m r s).1
      (machine.step e m r s).2.1 := by
  obtain ⟨v, hv, hname, hcounts⟩ := h.counts hst hh
  obtain ⟨hr, rfl, -⟩ := h.here
  have hst' : machine.state? v.state = some st := hname ▸ hst
  have hraised' : st.raised? e m r v s = some err := by rw [← raised_of_visit hv hst', hraised]
  obtain ⟨p, s', hadv⟩ := Machine.State.advance_raised hh hraised'
  have hstep := step_running (m := m) (s := s) hr hlimit hv hst'
  by_cases hretry : ∃ i rt, handling.retrierFor? err.name? = some (i, rt) ∧
      handling.used errors i < rt.maxAttempts
  · obtain ⟨i, rt, hrt, hleft⟩ := hretry
    have hused : v.attempts.getD i 0 = handling.used errors i := hcounts.getD_attempts hrt
    rw [ErrorHandling.handle_retried hrt (hused ▸ hleft)] at hadv
    have hstay := Stay.stepped (m := m) (s := s) h hlimit hv hst (by rw [hadv]) (by simp)
    rw [hraised, Option.toList_some] at hstay
    rw [hadv] at hstep
    rw [hstep] at hstay ⊢
    exact .retried hrt hleft hstay rfl rfl (by rw [← hused])
  · have hgives : handling.GivesUp errors err := by
      intro i rt hrt
      have hbounded := hcounts.bounded i rt (ErrorHandling.retrierFor_eq_some.mp hrt).1
      by_contra hne
      exact hretry ⟨i, rt, hrt, by omega⟩
    rw [ErrorHandling.handle_given_up (v := { v with notBefore := none, progress := p })
      fun i rt hrt => (hcounts.getD_attempts hrt).trans (hgives i rt hrt)] at hadv
    rw [hstep, hadv, ErrorHandling.caught]
    cases hc : handling.catcherFor? err.name? with
    | none => exact .failed hgives hc (failed_fail err)
    | some c =>
      cases hp : c.resultPath.apply r.data err.payload with
      | ok output =>
        simp only [hp, Except.map]
        exact .caught hgives hc hp hr rfl rfl
      | error err' =>
        obtain ⟨cause, rfl⟩ := ResultPath.apply_error hp
        simp only [hp, Except.map]
        exact .misplaced hgives hc hp (failed_fail _)

/-- Nothing is done before a delay is over. -/
theorem Stay.delayed (h : Stay e machine name data errors r) (hst : machine.state? name = some st)
    (hh : st.handling? = some handling) (hlimit : r.isExhausted e.config = false)
    (hv : r.visit = some v) (hwait : v.notBefore.any (fun t => m.now.before t) = true) :
    machine.step e m r s = (.blocked, { r with steps := r.steps + 1 }, s) := by
  obtain ⟨hr, -, v', hv', hname⟩ := h.here
  rw [hv, Option.some.injEq] at hv'
  subst v'
  rw [step_running hr hlimit hv (hname ▸ hst), Machine.State.advance_delayed hh hwait]
  simp only [settle, hv]

/-- A workflow that is in some stay whenever it is running. -/
def Stays (e : Engine σ) (machine : Machine) (r : Run) : Prop :=
  r.status = .running → ∃ name data errors, Stay e machine name data errors r

theorem stays_start (h : Stays e machine r) (now : Instant) :
    Stays e machine (r.start machine now) := by
  intro hr
  by_cases hpending : r.status = .pending
  · rw [start_of_pending hpending]
    exact ⟨machine.start, r.data, [], .entered rfl rfl rfl⟩
  · rw [start_of_not_pending hpending] at hr ⊢
    exact h hr

/-- To settle what came of an advance is to go on with the stay, to begin another one, or to end. -/
theorem stays_settle {v' : Visit} {res : Except ExecutionError Advance} {s' : σ}
    (h : Stay e machine name data errors r) (hlimit : r.isExhausted e.config = false)
    (hv : r.visit = some v) (hst : machine.state? v.state = some st)
    (hadv : st.advance e m r v s = (res, v', s')) :
    Stays e machine ({ r with steps := r.steps + 1 }.settle e.config machine m.now v' res).2 := by
  obtain ⟨hr, -, w, hw, hname⟩ := h.here
  cases hv.symm.trans hw
  have hstep := step_running (m := m) (s := s) hr hlimit hv hst
  rw [hadv] at hstep
  have hstayed {a : Advance} (hres : res = .ok a)
      (hstays : ∀ output next, a ≠ .completed output next) :
      Stays e machine ({ r with steps := r.steps + 1 }.settle e.config machine m.now v' res).2 := by
    intro _
    have hstay := Stay.stepped (m := m) (s := s) h hlimit hv (hname ▸ hst) (by rw [hadv, hres])
      hstays
    rw [hstep] at hstay
    exact ⟨name, data, _, hstay⟩
  rcases res with err | _ | _ | ⟨output, _ | next⟩
  · rintro ⟨⟩
  · exact hstayed rfl (by simp)
  · exact hstayed rfl (by simp)
  · rintro ⟨⟩
  · intro hrunning
    exact ⟨next, output, [], .entered hrunning rfl rfl⟩

theorem stays_invariant : Invariant e (Stays e) where
  fresh _ _ _ := by
    rintro ⟨⟩
  start h := stays_start h _
  step := by
    intro machine r m s h
    have hstart : Stays e machine (r.start machine m.now) := stays_start h m.now
    have hstopped {r' : Run} {cause : String} : Stays e machine (r'.stop e cause s).2.1 := by
      intro hr
      have hterminal : (r'.stop e cause s).2.1.isTerminal = true := abort_terminal
      rw [isTerminal_of_running hr] at hterminal
      cases hterminal
    refine step_rule (Q := fun q => Stays e machine q.2.1) ?_ ?_ ?_ ?_ ?_
    · intro _
      exact h
    · intro _ _
      exact hstopped
    · intro _ _
      exact hstopped
    · intro v _ _ _
      exact hstopped
    · intro v st res v' s' hr hlimit hv hst hadv
      obtain ⟨name, data, errors, hstay⟩ := hstart (start_status hr m.now)
      rw [begun, Machine.State.advance_counted] at hadv
      exact stays_settle hstay hlimit hv hst hadv
  abort := by
    intro machine r cause s ih hr
    have hterminal : (r.abort e.runner cause s).1.isTerminal = true := abort_terminal
    rw [isTerminal_of_running hr] at hterminal
    cases hterminal

end Run

/-- A runner whose jobs all fail. -/
def failingRunner : JobRunner Unit := ⟨fun resource _ _ s => (.ok ⟨"job", resource⟩, s),
  fun _ s => (.failed (some "Boom") none, s), fun _ s => s⟩

namespace Workflow

variable {runner : JobRunner σ} {w : Workflow} {s₀ : σ} {machine₀ machine : Machine}
  {config : Config} {execution : Execution} {input : Value} {r : Run}

/-- Every workflow that is running, at whatever depth, is in a stay. There the errors that the state
has raised are counted as they were raised; nothing is done before a delay is over; and each further
error is answered by the first retrier for it, by the first catcher for it, or by the end of the
workflow. -/
theorem retries_accounted
    (h : Reaches runner ⟨machine₀, config, .ofInput execution input⟩ s₀ w s)
    (hin : Run.Within w.machine w.run machine r) (hr : r.status = .running) :
    (∃ name data errors, Run.Stay ⟨runner, config⟩ machine name data errors r) ∧
    ∀ name data errors st handling, Run.Stay ⟨runner, config⟩ machine name data errors r →
      machine.state? name = some st → st.handling? = some handling →
      ∃ v, r.visit = some v ∧ v.state = name ∧ r.data = data ∧ handling.Counts errors v ∧
        ∀ m s, r.isExhausted config = false →
          (v.notBefore.any (fun t => m.now.before t) = true →
            machine.step ⟨runner, config⟩ m r s = (.blocked, { r with steps := r.steps + 1 }, s)) ∧
          ∀ err, r.raised? ⟨runner, config⟩ m machine s = some err →
            Run.Answers ⟨runner, config⟩ m machine handling name data errors err
              (machine.step ⟨runner, config⟩ m r s).1 (machine.step ⟨runner, config⟩ m r s).2.1 := by
  obtain ⟨hmachine, -, hstays⟩ := h.everywhere Run.stays_invariant
  rw [hmachine] at hin
  refine ⟨hstays machine r hin hr, ?_⟩
  intro name data errors st handling hstay hst hh
  obtain ⟨v, hv, hname, hcounts⟩ := hstay.counts hst hh
  refine ⟨v, hv, hname, hstay.here.2.1, hcounts, fun m s hlimit => ⟨fun hwait => ?_, ?_⟩⟩
  · exact hstay.delayed (e := ⟨runner, config⟩) hst hh hlimit hv hwait
  · intro err hraised
    exact hstay.answers (e := ⟨runner, config⟩) hst hh hlimit hraised

section

/-- A state that is retried once for its failure, although a later retrier would do it more often. -/
def stubbornMachine : Machine := ⟨"Work", [("Work", .task ⟨none, "local", none, none, {},
  { retriers := [⟨["Other"], 1, 3, 2, none, .none⟩, ⟨["Boom"], 1, 1, 2, none, .none⟩,
      ⟨["States.ALL"], 1, 3, 2, none, .none⟩] }⟩)]⟩

/-- After the first failure it is the second retrier that has been used. -/
theorem stubborn_retries_accounted : ∃ w v,
    Reaches failingRunner ⟨stubbornMachine, {}, .ofInput default .null⟩ () w () ∧
    Run.Stay ⟨failingRunner, {}⟩ stubbornMachine "Work" .null [.job "Boom" none] w.run ∧
    w.run.visit = some v ∧ v.attempts = [0, 1, 0] ∧ v.retries = 1 ∧
    ErrorHandling.Counts { retriers := [⟨["Other"], 1, 3, 2, none, .none⟩,
      ⟨["Boom"], 1, 1, 2, none, .none⟩, ⟨["States.ALL"], 1, 3, 2, none, .none⟩] }
      [.job "Boom" none] v := by
  have hreach : Reaches failingRunner ⟨stubbornMachine, {}, .ofInput default .null⟩ () _ () :=
    .step (m := .zero) (.start .new (rfl : start? Moment.zero.now _ = _)) rfl
  have hentered : Run.Stay ⟨failingRunner, {}⟩ stubbornMachine "Work" .null []
      ((Run.ofInput default .null).start stubbornMachine Moment.zero.now) := .entered rfl rfl rfl
  have hstay := hentered.stepped (m := .zero) (s := ()) (a := .progressed) rfl rfl rfl rfl (by simp)
  have hat := (retries_accounted hreach .self rfl).2 "Work" .null _ _ _ hstay rfl rfl
  obtain ⟨v, hv, -, -, hcounts, -⟩ := hat
  exact ⟨_, v, hreach, hstay, hv, by cases hv; rfl, by cases hv; rfl, hcounts⟩

/-- What a state does that puts an error it has caught below its data. -/
def misplacing : ErrorHandling := { catchers := [⟨["States.ALL"], "Recover",
  .merge ⟨"$.error", false, [.select (.key (.field "error"))], .reference [.field "error"]⟩⟩] }

def misplacingMachine : Machine := ⟨"Work",
  [("Work", .task ⟨none, "local", none, none, {}, misplacing⟩),
    ("Recover", .pass ⟨none, {}, none⟩)]⟩

/-- An error with a catcher does not lead on when there is no place for it: below data that is no
object there is none, and the workflow fails in the state that it should have left. -/
theorem caught_misplaced : ∃ w w' outcome,
    Reaches failingRunner ⟨misplacingMachine, {}, .ofInput default (.str "text")⟩ () w () ∧
    Run.Stay ⟨failingRunner, {}⟩ misplacingMachine "Work" (.str "text") [] w.run ∧
    w.run.raised? ⟨failingRunner, {}⟩ .zero misplacingMachine () = some (.job "Boom" none) ∧
    (misplacing.retrierFor? (some "Boom")).isNone = true ∧
    (misplacing.catcherFor? (some "Boom")).map Catcher.next = some "Recover" ∧
    w.step failingRunner .zero () = (outcome, w', ()) ∧
    w'.run.current? = some "Work" ∧ w'.run.Failed
      (.path .resultPath (Path.PathError.insideNonObject "$.error" "error").message) := by
  have hreach : Reaches failingRunner
      ⟨misplacingMachine, {}, .ofInput default (.str "text")⟩ () _ () :=
    .start .new (rfl : start? Moment.zero.now _ = _)
  exact ⟨_, _, _, hreach, .entered rfl rfl rfl, rfl, rfl, rfl, rfl, rfl, rfl, rfl, rfl⟩

end

end Workflow

end StatesLanguage
