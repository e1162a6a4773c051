import StatesLanguage.Proofs.Ledger
import StatesLanguage.Proofs.Verdicts

/-! How nested workflows are given up when one of them fails for good. It is the last one that is
stepped, all others in flight are aborted with the jobs that they hold, those that wait are dropped,
and a state that is tried again makes all of them anew. -/
namespace StatesLanguage

variable {α σ : Type}

/-- A child as a step found it. -/
def ChildStep.found (x : ChildStep α) : Nat × α := (x.index, x.before)

namespace Branches

variable {c : Child α σ} {C : Child α σ → Prop} {ends : α → Option (Except ExecutionError Value)}
  {children : List α} {log log' steps : List (ChildStep α)} {b b' : Branches α} {i : Nat}
  {todo rest : List (Nat × α)} {last : ChildStep α} {s s' : σ} {err : ExecutionError}

/-- The children that go on after some steps, as the steps have left them. -/
def goingOn (ends : α → Option (Except ExecutionError Value)) (steps : List (ChildStep α)) :
    List (Nat × α) :=
  steps.filterMap fun x => if (ends x.after).isNone then some (x.index, x.after) else none

/-- Children that are stepped one after another, with the state of the runner before the first step
and after the last. -/
inductive StepsTaken (c : Child α σ) : σ → List (ChildStep α) → σ → Prop where
  | nil {s : σ} : StepsTaken c s [] s
  | cons {i : Nat} {o : StepOutcome} {a a' : α} {s s₁ s' : σ} {steps : List (ChildStep α)} :
    c.step i a s = (o, a', s₁) → StepsTaken c s₁ steps s' → StepsTaken c s (⟨i, a, a'⟩ :: steps) s'

theorem StepsTaken.mem (h : StepsTaken c s steps s') {x : ChildStep α} (hx : x ∈ steps) :
    ∃ s, (c.step x.index x.before s).2.1 = x.after := by
  induction h with
  | nil => cases hx
  | @cons _ _ _ _ s _ _ _ hstep _ ih =>
    rcases List.mem_cons.mp hx with rfl | hx
    · exact ⟨s, by rw [hstep]⟩
    · exact ih hx

/-- How branches are given up in the middle of a round. The last child that was stepped has failed,
and one child too many has failed with it; those behind it are as they were. -/
structure GivenUp (c : Child α σ) (todo : List (Nat × α)) (b b' : Branches α) (err : ExecutionError)
    (steps : List (ChildStep α)) (last : ChildStep α) (rest : List (Nat × α)) : Prop where
  flight : todo = steps.map ChildStep.found ++ last.found :: rest
  fault : ∃ fault, c.result? last.after = some (.error fault) ∧
    err = if b.tolerance.isConfigured then excessFailure b'.failed b.total else childFailure fault
  failed : b'.failed = b.failed + (steps ++ [last]).countP fun x => fails c.result? x.after
  excess : b.tolerance.allows b'.failed b.total = false
  emptied : b'.pending = [] ∧ b'.inFlight = []

/-- A failure that is recorded as an error is not tolerated. -/
theorem record_some {r : Except ExecutionError Value} (h : b.record i r = (b', some err)) :
    ∃ fault, r = .error fault ∧ b' = { b with failed := b.failed + 1 } ∧
      b.tolerance.allows (b.failed + 1) b.total = false ∧
      err = if b.tolerance.isConfigured then excessFailure (b.failed + 1) b.total
        else childFailure fault := by
  cases r with
  | ok v => cases h
  | error fault =>
    simp only [record] at h
    split at h
    · cases h
    · rename_i hallows
      have hallows : b.tolerance.allows (b.failed + 1) b.total = false :=
        Bool.not_eq_true _ ▸ hallows
      split at h <;> rename_i hconfigured
      · cases h
        exact ⟨fault, rfl, rfl, hallows, by rw [if_pos hconfigured]; rfl⟩
      · cases h
        exact ⟨fault, rfl, rfl, hallows, by rw [if_neg hconfigured]⟩

/-- What comes before a child that goes on or ends well comes before the failure. -/
theorem GivenUp.cons {b₁ : Branches α} {a a' : α} (hgiven : GivenUp c todo b₁ b' err steps last rest)
    (htolerance : b₁.tolerance = b.tolerance) (htotal : b₁.total = b.total)
    (hfailed : b₁.failed = b.failed + (fails c.result? a').toNat) :
    GivenUp c ((i, a) :: todo) b b' err (⟨i, a, a'⟩ :: steps) last rest where
  flight := by rw [hgiven.flight]; rfl
  fault := by
    rw [← htolerance, ← htotal]
    exact hgiven.fault
  failed := by
    have hcount : (⟨i, a, a'⟩ :: steps ++ [last]).countP (fun x => fails c.result? x.after) =
        (steps ++ [last]).countP (fun x => fails c.result? x.after) +
          (fails c.result? a').toNat := by
      rw [List.cons_append, List.countP_cons]
      cases fails c.result? a' <;> rfl
    rw [hgiven.failed, hfailed, hcount]
    omega
  excess := by
    rw [← htolerance, ← htotal]
    exact hgiven.excess
  emptied := hgiven.emptied

/-- A round that fails steps the children up to the one that has failed, and aborts the ones that go
on and the ones behind it. -/
theorem round_failed {p : Bool}
    (h : round c.logged todo p b (s, log) = (.error err, b', s', log')) :
    ∃ steps last rest s₁, log' = log ++ steps ++ [last] ∧ StepsTaken c s (steps ++ [last]) s₁ ∧
      GivenUp c todo b b' err steps last rest ∧
      s' = abortAll c siblingFailed (b.inFlight ++ goingOn c.result? steps ++ rest) s₁ := by
  induction todo generalizing p b s log with
  | nil => cases h
  | cons x todo ih =>
    obtain ⟨i, a⟩ := x
    rcases hstep : c.step i a s with ⟨o, a', s₁⟩
    have hlogged : c.logged.step i a (s, log) = (o, a', s₁, log ++ [⟨i, a, a'⟩]) := by
      simp only [Child.logged, hstep]
    rw [round, hlogged] at h
    simp only [logged_result] at h
    -- the first child goes on, ends well enough, or is the one that fails
    cases hr : c.result? a' with
    | none =>
      simp only [hr] at h
      obtain ⟨steps, last, rest, s₂, rfl, htaken, hgiven, rfl⟩ := ih h
      refine ⟨⟨i, a, a'⟩ :: steps, last, rest, s₂, by simp, .cons hstep htaken, ?_,
        by simp [goingOn, hr]⟩
      exact hgiven.cons rfl rfl (by simp [fails, hr])
    | some r =>
      simp only [hr] at h
      rcases hrec : b.record i r with ⟨b₁, fault⟩
      rw [hrec] at h
      cases fault with
      | none =>
        obtain ⟨steps, last, rest, s₂, rfl, htaken, hgiven, rfl⟩ := ih h
        obtain ⟨rfl, -⟩ := record_none hrec
        refine ⟨⟨i, a, a'⟩ :: steps, last, rest, s₂, by simp, .cons hstep htaken, ?_,
          by simp [goingOn, hr]⟩
        exact hgiven.cons rfl (by simp [total]) (by simp [fails, hr])
      | some err' =>
        obtain ⟨fault, rfl, rfl, hallows, rfl⟩ := record_some hrec
        simp only [abandon, abortAll_logged] at h
        cases h
        refine ⟨[], ⟨i, a, a'⟩, todo, s₁, by simp, .cons hstep .nil, ?_, by simp [goingOn]⟩
        refine ⟨rfl, ⟨fault, hr, rfl⟩, ?_, hallows, rfl, rfl⟩
        simp [fails, hr, isFailure]

theorem advance_unlogged {o : BranchOutcome}
    (h : b.advance c.logged (s, log) = (o, b', s', log')) : b.advance c s = (o, b', s') := by
  obtain ⟨log'', hlogged⟩ := advance_logged (c := c) b s
  rw [hlogged] at h
  cases h
  rfl

/-- An advance that fails has failed in its round. -/
theorem advance_failed (h : b.advance c.logged (s, log) = (.failed err, b', s', log')) :
    ∃ steps last rest s₁, log' = log ++ steps ++ [last] ∧ StepsTaken c s (steps ++ [last]) s₁ ∧
      GivenUp c (b.startNext c).inFlight b b' err steps last rest ∧
      s' = abortAll c siblingFailed (goingOn c.result? steps ++ rest) s₁ := by
  revert h
  refine advance_rule (Q := fun x => x = (.failed err, b', s', log') → _) ?_ ?_ ?_
  · rintro err' b₁ s₁ hround ⟨⟩
    obtain ⟨steps, last, rest, s₂, hlog, htaken, hgiven, hs⟩ := round_failed hround
    exact ⟨steps, last, rest, s₂, hlog, htaken,
      ⟨hgiven.flight, hgiven.fault, hgiven.failed, hgiven.excess, hgiven.emptied⟩, hs⟩
  · rintro p b₁ s₁ _ _ _ ⟨⟩
  · rintro p b₁ s₁ _ _ ⟨⟩

theorem round_pending {p q : Bool} (h : round c todo p b s = (.ok q, b', s')) :
    b'.pending = b.pending :=
  round_frame record_pending (fun _ _ => rfl) h

/-- In an advance that fails no slot is filled again: the children that wait after the first
admission wait until they are dropped. -/
theorem stage_failed {b₁ : Branches α} (h : b.advance c s = (.failed err, b', s'))
    (hstage : Stage c b s b₁) : b₁.pending = (b.startNext c).pending := by
  cases hstage with
  | admitted => rfl
  | facing _ hround =>
    have hkept := round_pending hround
    exact hkept
  | refilled hround =>
    revert h
    refine advance_rule (Q := fun x => x = (.failed err, b', s') → _) ?_ ?_ ?_
    · intro err' b₂ s₂ hfailed _
      cases hround.symm.trans hfailed
    · rintro p b₂ s₂ _ _ _ ⟨⟩
    · rintro p b₂ s₂ _ _ ⟨⟩

/-- Advances lose no child, whatever happens to the runner between them. -/
theorem turns_tidy (hC : ∀ c, C c → c.result? = ends) {limit : Nat} {tolerance : Tolerance}
    (h : Turns C (.ofList children limit tolerance) b log) :
    ∃ outcomes, Tidy C ends children log outcomes b := by
  induction h with
  | start => exact ⟨_, tidy_ofList children limit tolerance⟩
  | next _ hc hadv ih =>
    obtain ⟨outcomes, htidy⟩ := ih
    exact advance_tidy (hC _ hc) hc htidy hadv

/-- A child that waits has another number than those in flight. -/
theorem waiting_number {n : Nat} (h : Layout n b) {x y : Nat × α} (hx : x ∈ b.pending)
    (hy : y ∈ b.inFlight) : y.1 ≠ x.1 := by
  have hnodup : b.line.Nodup := h.ordered.imp fun hlt => Nat.ne_of_lt hlt
  exact (List.nodup_append.mp hnodup).2.2 y.1 (List.mem_map_of_mem hy) x.1 (List.mem_map_of_mem hx)

theorem GivenUp.numbers (hgiven : GivenUp c todo b b' err steps last rest) :
    ∀ x ∈ steps ++ [last], x.found ∈ todo := by
  intro x hx
  rw [hgiven.flight]
  rcases List.mem_append.mp hx with hx | hx
  · exact List.mem_append_left _ (List.mem_map_of_mem hx)
  · rw [List.mem_singleton.mp hx]
    exact List.mem_append_right _ List.mem_cons_self

end Branches

namespace Machine

variable {e : Engine σ} {m : Moment} {st : State} {b b' : Branches Run} {s s' : σ}

/-- Nested workflows of a state that has made them and has only advanced them since. -/
def State.Turned (e : Engine σ) (st : State) (b : Branches Run) : Prop :=
  ∃ execution b₀ log, st.Opens execution b₀ ∧
    Branches.Turns (fun c => ∃ m, c = st.child e m) b₀ b log

theorem State.Opens.turned {execution : Execution} (h : st.Opens execution b) : st.Turned e b :=
  ⟨execution, b, [], h, .start⟩

theorem State.Keeps.turned (h : st.Keeps e b) : st.Turned e b := by
  obtain ⟨execution, b₀, log, hmakes, hturns⟩ := h
  exact ⟨execution, b₀, log, hmakes.opens, hturns⟩

theorem State.Turned.opens (h : st.Turned e b) : st.kind = .parallel ∨ st.kind = .map := by
  obtain ⟨execution, b₀, log, hopens, -⟩ := h
  exact hopens.1

theorem State.Turned.staffed (h : st.Turned e b) : st.Staffed b := by
  obtain ⟨execution, b₀, log, hopens, hturns⟩ := h
  induction hturns with
  | start => exact hopens.staffed
  | next _ hc hadv ih =>
    obtain ⟨m, rfl⟩ := hc
    exact State.staffed_advance ih (Branches.advance_unlogged hadv)

theorem State.Turned.layout (h : st.Turned e b) : ∃ n, Branches.Layout n b := by
  obtain ⟨execution, b₀, log, hopens, hturns⟩ := h
  obtain ⟨-, inputs, limit, tolerance, rfl, -⟩ := hopens
  have hC : ∀ c : Child Run σ, (∃ m, c = st.child e m) → c.result? = Run.result? := by
    rintro _ ⟨m, rfl⟩
    rfl
  obtain ⟨outcomes, htidy⟩ := Branches.turns_tidy hC hturns
  exact ⟨_, htidy.layout⟩

theorem State.staffed_startNext (h : st.Staffed b) : st.Staffed (b.startNext (st.child e m)) := by
  refine ⟨fun x hx => h.waiting x (List.mem_of_mem_drop hx), fun x hx => ?_⟩
  rcases List.mem_append.mp hx with hx | hx
  · exact h.flying x hx
  · obtain ⟨⟨i, child⟩, hchild, rfl⟩ := List.mem_map.mp hx
    obtain ⟨hsome, hpending⟩ := h.waiting (i, child) (List.mem_of_mem_take hchild)
    obtain ⟨sub, hsub⟩ := Option.isSome_iff_exists.mp hsome
    have hsub : st.machineAt? i = some sub := hsub
    have hpending : child.status = .pending := hpending
    simp only [State.child_start hsub, Run.start_of_pending hpending]
    exact ⟨hsome, trivial⟩

/-- The siblings of a child that has failed are all running, those that were stepped before it and
those behind it. -/
theorem State.siblings_running {todo rest : List (Nat × Run)} {err : ExecutionError}
    {b b' : Branches Run} {steps : List (ChildStep Run)} {last : ChildStep Run}
    (hflying : ∀ x ∈ todo, (st.machineAt? x.1).isSome ∧ x.2.status = .running)
    (htaken : Branches.StepsTaken (st.child e m) s (steps ++ [last]) s')
    (hgiven : Branches.GivenUp (st.child e m) todo b b' err steps last rest) :
    ∀ x ∈ Branches.goingOn Run.result? steps ++ rest, x.2.status = .running := by
  intro x hx
  rcases List.mem_append.mp hx with hx | hx
  · obtain ⟨y, hy, hgoes⟩ := List.mem_filterMap.mp hx
    have hin : y ∈ steps ++ [last] := List.mem_append_left _ hy
    obtain ⟨s, hafter⟩ := htaken.mem hin
    obtain ⟨sub, hsub⟩ := Option.isSome_iff_exists.mp
      (hflying y.found (hgiven.numbers y hin)).1
    have hsub : st.machineAt? y.index = some sub := hsub
    rw [State.child_step hsub] at hafter
    split at hgoes
    · rename_i hnone
      cases hgoes
      refine running_of_result ?_ (Option.isNone_iff_eq_none.mp hnone)
      rw [← hafter]
      exact step_not_pending
    · cases hgoes
  · refine (hflying x ?_).2
    rw [hgiven.flight]
    exact List.mem_append_right _ (List.mem_cons_of_mem _ hx)

end Machine

/-- A running workflow that is aborted ends as such and holds no job any more. -/
theorem Run.abort_running {runner : JobRunner σ} {r : Run} (hr : r.status = .running)
    (cause : String) (s : σ) : (r.abort runner cause s).1.Aborted cause ∧
      (r.abort runner cause s).1.jobs = [] :=
  ⟨aborted_abort (isTerminal_of_running hr) runner cause s,
    Run.jobs_of_terminal Run.abort_terminal⟩

theorem JobRunner.logged_releases (runner : JobRunner σ) (handles : List JobHandle) (s : σ)
    (log : List JobCall) :
    (handles.foldl (fun s handle => runner.logged.cleanup handle s) (s, log)).2 =
      log ++ handles.map .released := by
  induction handles generalizing s log with
  | nil => simp
  | cons handle rest ih =>
    rw [List.foldl_cons, List.map_cons]
    exact (ih _ _).trans (List.append_assoc _ [JobCall.released handle] _)

/-- To abort a workflow is to release the jobs that it holds, at every depth, and nothing else. -/
theorem Run.abort_releases (runner : JobRunner σ) (cause : String) (r : Run) (s : σ)
    (log : List JobCall) :
    (r.abort runner.logged cause (s, log)).2.2 = log ++ r.jobs.map .released := by
  cases hr : r.isTerminal with
  | true => simp [abort, hr, Run.jobs_of_terminal hr]
  | false =>
    simp only [abort, hr, Bool.false_eq_true, if_false]
    exact runner.logged_releases r.jobs s log

namespace Machine

theorem State.abortAll_releases {runner : JobRunner σ} {config : Config} {m : Moment} {st : State}
    (cause : String) (xs : List (Nat × Run)) (s : σ) (log : List JobCall) :
    (Branches.abortAll (st.child ⟨runner.logged, config⟩ m) cause xs (s, log)).2 =
      log ++ (xs.flatMap fun x => x.2.jobs).map .released := by
  induction xs generalizing s log with
  | nil => simp [Branches.abortAll]
  | cons x rest ih =>
    obtain ⟨i, r⟩ := x
    have hfirst := r.abort_releases runner cause s log
    rw [Branches.abortAll, State.child_abort]
    rcases habort : r.abort runner.logged cause (s, log) with ⟨r', s', log'⟩
    rw [habort] at hfirst
    have hfirst : log' = log ++ r.jobs.map .released := hfirst
    rw [ih s' log', hfirst, List.flatMap_cons, List.map_append, List.append_assoc]

section

variable {e : Engine σ} {m : Moment} {st : State} {b b' : Branches Run} {r : Run} {v stay : Visit}
  {s s' : σ}

/-- How many nested workflows a state is to make: one for each branch, or one for each item. -/
def State.width? (data context : Value) : State → Option Nat
  | .parallel _ branches => some branches.length
  | .map p _ => (p.items (p.flow.filteredInput data context) context).toOption.map List.length
  | _ => none

/-- None of the nested workflows is left out, and all of them wait. -/
theorem State.opening_width (h : st.opening? m r stay = some (.ok b)) :
    st.width? r.data (r.contextAt stay) = some b.pending.length := by
  cases st with
  | parallel p branches =>
    obtain ⟨input, -, hb⟩ := bind_ok (Option.some.inj h)
    cases hb
    simp [State.width?, Branches.ofList]
  | map p processor =>
    obtain ⟨items, children, hitems, hlength, rfl⟩ := Map.start_children (Option.some.inj h)
    simp [State.width?, hitems, Except.toOption, Branches.ofList, hlength]
  | _ => cases h

/-- A state that nests advances the nested workflows that it has, or those that it makes. -/
theorem State.work_takes (hkind : st.kind = .parallel ∨ st.kind = .map)
    (hb : v.progress = .branches b ∨
      (∀ b, v.progress ≠ .branches b) ∧ st.opening? m r stay = some (.ok b)) :
    ∃ complete, ∀ s : σ, st.work e m r stay v s =
      takeAdvance complete v (b.advance (st.child e m) s) := by
  cases st with
  | parallel p branches =>
    exact ⟨_, fun s => Branches.work_branches (hb.imp_right fun h => ⟨h.1, Option.some.inj h.2⟩)⟩
  | map p processor =>
    exact ⟨_, fun s => Branches.work_branches (hb.imp_right fun h => ⟨h.1, Option.some.inj h.2⟩)⟩
  | _ => simp [State.kind] at hkind

/-- A state that is doing nothing, whatever it did before. At any moment the nested workflows that it
advances next are made anew for the data of the workflow, none is left out, and each has yet to
start. -/
structure State.StartsOver (e : Engine σ) (st : State) (r : Run) (v : Visit) : Prop where
  idle : v.progress = .idle
  fresh : ∀ m b, st.opening? m r v = some (.ok b) →
    st.Opens r.execution b ∧ st.width? r.data (r.contextAt v) = some b.pending.length
  advanced : ∀ m b, st.opening? m r v = some (.ok b) → ∃ complete, ∀ s : σ,
    st.work e m r v { v with notBefore := none } s =
      takeAdvance complete { v with notBefore := none } (b.advance (st.child e m) s)

theorem State.startsOver_of_idle (hkind : st.kind = .parallel ∨ st.kind = .map)
    (hidle : v.progress = .idle) : st.StartsOver e r v where
  idle := hidle
  fresh _ _ hopening := ⟨opening_opens hopening, opening_width hopening⟩
  advanced _ _ hopening := work_takes hkind (.inr ⟨by simp [hidle], hopening⟩)

/-- A workflow that is about to advance these nested workflows of its current state, and that has an
attempt left for that error. -/
structure State.CanRetry (e : Engine σ) (m : Moment) (machine : Machine) (st : State)
    (b : Branches Run) (err : ExecutionError) (r : Run) (v : Visit) : Prop where
  running : r.status = .running
  allowed : r.isExhausted e.config = false
  visit : r.visit = some v
  state : machine.state? v.state = some st
  ready : v.notBefore.any (fun t => m.now.before t) = false
  branches : v.progress = .branches b ∨
    (∀ b, v.progress ≠ .branches b) ∧ st.opening? m r v = some (.ok b)
  left : ∃ handling i rt, st.handling? = some handling ∧
    handling.retrierFor? err.name? = some (i, rt) ∧ v.attempts.getD i 0 < rt.maxAttempts

/-- A state that is retried after its nested workflows have failed starts over with the same data. -/
theorem State.retry_startsOver {machine : Machine} {err : ExecutionError}
    (hkind : st.kind = .parallel ∨ st.kind = .map) (h : st.CanRetry e m machine b err r v)
    (hfail : b.advance (st.child e m) s = (.failed err, b', s')) :
    ∃ v', machine.step e m r s =
        (.progressed, { r with steps := r.steps + 1, visit := some v' }, s') ∧
      v'.state = v.state ∧ v'.retries = v.retries + 1 ∧
      st.StartsOver e { r with steps := r.steps + 1, visit := some v' } v' := by
  obtain ⟨handling, i, rt, hh, hrt, hleft⟩ := h.left
  obtain ⟨complete, hwork⟩ :=
    work_takes (e := e) (v := { v with notBefore := none }) hkind h.branches
  have hwork := hwork s
  rw [hfail] at hwork
  obtain ⟨v', hadvance, hstate, hretries, hidle⟩ : ∃ v', st.advance e m r v s =
      (.ok .progressed, v', s') ∧ v'.state = v.state ∧ v'.retries = v.retries + 1 ∧
        v'.progress = .idle := by
    have hhandled : handling.handle m r.data err { v with progress := .idle, notBefore := none } =
        _ := ErrorHandling.handle_retried hrt hleft
    rw [State.advance_eq, hh]
    simp only [ErrorHandling.guard, h.ready, Bool.false_eq_true, if_false, hwork, takeAdvance,
      hhandled]
    exact ⟨_, rfl, rfl, rfl, rfl⟩
  refine ⟨v', ?_, hstate, hretries, startsOver_of_idle hkind hidle⟩
  rw [Run.step_running h.running h.allowed h.visit h.state, hadvance]
  rfl

/-- What the failure of one nested workflow makes of the others, in every advance of branches that a
state has made. The one that fails is the last that is stepped, and those behind it in flight are
not; no slot is filled after the first admission, so that those that wait then are never started nor
stepped; nothing stays in line or in flight. After the last step all siblings, which are running, are
aborted, which releases every job that they hold at any depth, and nothing else is asked of the
runner. A state that is retried for that error starts over with all its nested workflows, for the
data it had. -/
theorem State.failure_abandons {runner : JobRunner σ} {config : Config} {st : State}
    {b b' : Branches Run} {m : Moment} {s s' : σ} {calls calls' : List JobCall}
    {err : ExecutionError} {log : List (ChildStep Run)}
    (hb : st.Turned ⟨runner.logged, config⟩ b)
    (hfail : b.advance (st.child ⟨runner.logged, config⟩ m).logged ((s, calls), []) =
      (.failed err, b', (s', calls'), log)) :
    (∃ steps last rest s₁ calls₁, log = steps ++ [last] ∧
      Branches.StepsTaken (st.child ⟨runner.logged, config⟩ m) (s, calls) log (s₁, calls₁) ∧
      Branches.GivenUp (st.child ⟨runner.logged, config⟩ m)
        (b.startNext (st.child ⟨runner.logged, config⟩ m)).inFlight b b' err steps last rest ∧
      (∀ b₁, Branches.Stage (st.child ⟨runner.logged, config⟩ m) b (s, calls) b₁ →
        b₁.pending = (b.startNext (st.child ⟨runner.logged, config⟩ m)).pending) ∧
      (∀ x ∈ (b.startNext (st.child ⟨runner.logged, config⟩ m)).pending,
        x.2.status = .pending ∧ stepsOf x.1 log = []) ∧
      (∀ x ∈ Branches.goingOn Run.result? steps ++ rest, x.2.status = .running ∧ ∀ s,
        (x.2.abort runner.logged Branches.siblingFailed s).1.Aborted Branches.siblingFailed ∧
        (x.2.abort runner.logged Branches.siblingFailed s).1.jobs = []) ∧
      (s', calls') = Branches.abortAll (st.child ⟨runner.logged, config⟩ m)
        Branches.siblingFailed (Branches.goingOn Run.result? steps ++ rest) (s₁, calls₁) ∧
      calls' = calls₁ ++
        ((Branches.goingOn Run.result? steps ++ rest).flatMap fun x => x.2.jobs).map .released) ∧
    ∀ (machine : Machine) (r : Run) (v : Visit),
      st.CanRetry ⟨runner.logged, config⟩ m machine b err r v →
      ∃ v', machine.step ⟨runner.logged, config⟩ m r (s, calls) =
          (.progressed, { r with steps := r.steps + 1, visit := some v' }, (s', calls')) ∧
        v'.state = v.state ∧ v'.retries = v.retries + 1 ∧
        st.StartsOver ⟨runner.logged, config⟩
          { r with steps := r.steps + 1, visit := some v' } v' := by
  have hplain := Branches.advance_unlogged hfail
  constructor
  · obtain ⟨steps, last, rest, ⟨s₁, calls₁⟩, hlog, htaken, hgiven, hs⟩ :=
      Branches.advance_failed hfail
    rw [List.nil_append] at hlog
    have hstaffed := State.staffed_startNext (e := ⟨runner.logged, config⟩) (m := m) hb.staffed
    refine ⟨steps, last, rest, s₁, calls₁, hlog, hlog ▸ htaken, hgiven,
      fun b₁ => Branches.stage_failed hplain, fun x hx => ⟨(hstaffed.waiting x hx).2, ?_⟩,
      fun x hx => ?_, hs, ?_⟩
    · -- a child that was stepped is in flight, and no two children have one number
      obtain ⟨n, hlayout⟩ := hb.layout
      rw [stepsOf, List.filter_eq_nil_iff]
      intro y hy heq
      have hflying := hgiven.numbers y (hlog ▸ hy)
      exact Branches.waiting_number (Branches.layout_startNext hlayout) hx hflying
        (beq_iff_eq.mp heq)
    · have hrunning := State.siblings_running hstaffed.flying htaken hgiven x hx
      exact ⟨hrunning, Run.abort_running hrunning Branches.siblingFailed⟩
    · have hreleases := congrArg Prod.snd hs
      rw [State.abortAll_releases] at hreleases
      exact hreleases
  · intro machine r v hretry
    exact State.retry_startsOver hb.opens hretry hplain

/-- A runner that fails the jobs without an input and never ends the others. -/
def pickyRunner : JobRunner Unit := ⟨fun resource input _ s =>
    (.ok ⟨if input.isNull then "bad" else "good", resource⟩, s),
  fun handle s => (if handle.id == "bad" then .failed (some "Boom") none else .running, s),
  fun _ s => s⟩

/-- A Map state that runs three items at a time, each with a job in a branch of its own, and that is
retried once. -/
def packedState : State := .map { lenient with
    maxConcurrency := 3
    tolerance := {}
    handling := { retriers := [⟨["States.ALL"], 1, 1, 2, none, .none⟩] } }
  ⟨"Group", [("Group", .parallel ⟨none, {}, {}⟩ [hastyMachine])]⟩

def packedMachine : Machine := ⟨"Pack", [("Pack", packedState)]⟩

/-- A workflow with four items for the state, the second of which has a job that fails. -/
def packedRun : Run := (Run.ofInput default (.arr [.int 1, .null, .int 2, .int 3])).start
  packedMachine Moment.zero.now

/-- The items as the state makes them, three of which fit in flight. -/
def packedBranches : Branches Run :=
  .ofList ([.int 1, .null, .int 2, .int 3].map (Run.ofInput packedRun.execution)) 3 {}

/-- The failure of the second item in the first advance releases the job of the first one. The third
is not stepped although it is in flight, the fourth has to wait until it is dropped, and the state is
tried again with all of them. -/
theorem packed_failure_abandons : ∃ b' log err v' calls,
    packedState.Turned ⟨pickyRunner.logged, {}⟩ packedBranches ∧
    packedBranches.advance (packedState.child ⟨pickyRunner.logged, {}⟩ .zero).logged (((), []), []) =
      (.failed err, b', ((), calls), log) ∧
    log.map ChildStep.index = [0, 1] ∧ b'.inFlight.length = 0 ∧
    calls = [.launched ⟨"good", "local"⟩, .polled ⟨"good", "local"⟩, .launched ⟨"bad", "local"⟩,
      .polled ⟨"bad", "local"⟩, .released ⟨"bad", "local"⟩, .released ⟨"good", "local"⟩] ∧
    packedMachine.step ⟨pickyRunner.logged, {}⟩ .zero packedRun ((), []) =
      (.progressed, { packedRun with steps := 1, visit := some v' }, ((), calls)) ∧
    packedState.StartsOver ⟨pickyRunner.logged, {}⟩
      { packedRun with steps := 1, visit := some v' } v' := by
  have hopening : packedState.opening? .zero packedRun
      (Run.arrive packedMachine "Pack" Moment.zero.now) = some (.ok packedBranches) := rfl
  have hturned := (State.opening_opens hopening).turned (e := ⟨pickyRunner.logged, {}⟩)
  have hfail : packedBranches.advance (packedState.child ⟨pickyRunner.logged, {}⟩ .zero).logged
      (((), []), []) = (.failed _, _, ((), _), _) := rfl
  obtain ⟨-, hretry⟩ := State.failure_abandons hturned hfail
  obtain ⟨v', hstep, -, -, hover⟩ := hretry packedMachine packedRun _
    ⟨rfl, rfl, rfl, rfl, rfl, .inr ⟨by rintro b ⟨⟩, hopening⟩, _, _, _, rfl, rfl, by decide⟩
  exact ⟨_, _, _, v', _, hturned, hfail, rfl, rfl, rfl, hstep, hover⟩

end

end Machine

/-- In every workflow that is reached by any calls, at whatever depth, the nested workflows of a state
have only been advanced since they were made. -/
theorem Workflow.nested_turned {runner : JobRunner σ} {w : Workflow} {s₀ s : σ}
    {machine₀ machine : Machine} {config : Config} {execution : Execution} {input : Value} {r : Run}
    {v : Visit} {st : Machine.State} {b : Branches Run}
    (h : Reaches runner ⟨machine₀, config, .ofInput execution input⟩ s₀ w s)
    (hin : Run.Within w.machine w.run machine r) (hv : r.visit = some v)
    (hst : machine.state? v.state = some st) (hb : v.progress = .branches b) :
    st.Turned ⟨runner, config⟩ b :=
  (nested_kept h hin hv hst hb).turned

end StatesLanguage
