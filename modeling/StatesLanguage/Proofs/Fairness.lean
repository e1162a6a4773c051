import StatesLanguage.Proofs.Abandonment

/-! Every child in flight gets its step. Children are taken out of the list while it is gone
through, and yet an advance steps each of them once, in the order of their numbers. -/
namespace StatesLanguage

variable {α σ : Type}

namespace Branches

variable {c : Child α σ} {ends : α → Option (Except ExecutionError Value)} {b b' : Branches α}
  {steps log log' : List (ChildStep α)} {todo xs : List (Nat × α)} {i j position : Nat} {p q : Bool}
  {r : Except ExecutionError Value} {s s' : σ} {x : ChildStep α}

/-- A record concerns the results only, not the children in flight. -/
theorem record_flying (b : Branches α) (xs : List (Nat × α)) (i : Nat)
    (r : Except ExecutionError Value) : { b with inFlight := xs }.record i r =
      ({ (b.record i r).1 with inFlight := xs }, (b.record i r).2) := by
  cases r with
  | ok v => rfl
  | error e =>
    by_cases hallows : b.tolerance.allows (b.failed + 1) b.results.length = true
    · simp [record, fill, total, hallows]
    · by_cases hconfigured : b.tolerance.isConfigured = true <;>
        simp [record, total, hallows, hconfigured]

/-- A round as a loop over positions of the list of children in flight. A child that goes on stays
where it is, and the next position is looked at. A child that has ended is taken out, and the same
position is looked at again, where the child behind it has moved. -/
def sweep (c : Child α σ) (position : Nat) (progressed : Bool) (b : Branches α) (s : σ) :
    Except ExecutionError Bool × Branches α × σ :=
  if h : position < b.inFlight.length then
    let (i, child) := b.inFlight[position]
    let (outcome, child, s) := c.step i child s
    let progressed := progressed || outcome != .blocked
    match c.result? child with
    | none =>
      sweep c (position + 1) progressed
        { b with inFlight := b.inFlight.set position (i, child) } s
    | some result =>
      let recorded := { b with inFlight := b.inFlight.eraseIdx position }.record i result
      match recorded.2 with
      | none => sweep c position progressed recorded.1 s
      | some e =>
        let (b, s) := recorded.1.abandon c siblingFailed s
        (.error e, b, s)
  else (.ok progressed, b, s)
termination_by b.inFlight.length - position
decreasing_by
  · simp only [List.length_set]
    omega
  · simp only [record_inFlight, List.length_eraseIdx_of_lt h]
    omega

/-- The loop comes to an end, and to the same one as a round: the children in front of the position
have been stepped, and those from it on have yet to be. -/
theorem sweep_eq_round (done todo : List (Nat × α)) (p : Bool) (b : Branches α) (s : σ) :
    sweep c done.length p { b with inFlight := done ++ todo } s =
      round c todo p { b with inFlight := done } s := by
  induction todo generalizing done p b s with
  | nil =>
    rw [sweep, dif_neg (by simp)]
    simp [round]
  | cons x rest ih =>
    obtain ⟨i, a⟩ := x
    have hset (y : Nat × α) : (done ++ (i, a) :: rest).set done.length y = done ++ [y] ++ rest := by
      simp
    have herase : (done ++ (i, a) :: rest).eraseIdx done.length = done ++ rest := by
      rw [List.eraseIdx_append_of_length_le le_rfl, Nat.sub_self, List.eraseIdx_cons_zero]
    have hlt : done.length < (done ++ (i, a) :: rest).length := by simp
    have hfound : (done ++ (i, a) :: rest)[done.length] = (i, a) := by simp
    rcases hstep : c.step i a s with ⟨o, a', s'⟩
    rw [sweep, dif_pos hlt, round, hstep]
    simp only [hfound, hstep]
    cases hr : c.result? a' with
    | none =>
      have hlength : done.length + 1 = (done ++ [(i, a')]).length := by simp
      simp only [hset, hlength, ih]
    | some r =>
      simp only [herase, record_flying b (done ++ rest), record_flying b done]
      rcases b.record i r with ⟨b', _ | e⟩
      · exact ih done _ b' s'
      · rfl

/-- An advance that keeps the children in flight in their list while it goes through it. -/
def advanceInPlace (c : Child α σ) (b : Branches α) (s : σ) : BranchOutcome × Branches α × σ :=
  match sweep c 0 (!b.nextUp.isEmpty) (b.startNext c) s with
  | (.error e, b, s) => (.failed e, b, s)
  | (.ok progressed, b, s) =>
    if b.pending.isEmpty && b.inFlight.isEmpty then
      (.completed (b.results.map Value.ofOption), { b with results := [] }, s)
    else (.running (progressed || !b.nextUp.isEmpty), b.startNext c, s)

theorem advance_in_place (b : Branches α) (s : σ) : b.advance c s = b.advanceInPlace c s := by
  have hsweep := sweep_eq_round (c := c) [] (b.startNext c).inFlight (!b.nextUp.isEmpty)
    (b.startNext c) s
  rw [advance, advanceInPlace]
  exact hsweep ▸ rfl

/-- What the children report that are stepped one after another, from a state of the runner on. -/
def reports (c : Child α σ) : σ → List (ChildStep α) → List StepOutcome
  | _, [] => []
  | s, x :: rest =>
    let (outcome, _, s) := c.step x.index x.before s
    outcome :: reports c s rest

/-- The branches after a step of a child. One that goes on is put behind those stepped before it,
and the result of one that has ended is put at its place. -/
def afterStep (ends : α → Option (Except ExecutionError Value)) (b : Branches α)
    (x : ChildStep α) : Branches α :=
  match ends x.after with
  | none => { b with inFlight := b.inFlight ++ [(x.index, x.after)] }
  | some r =>
    { b with
      results := b.results.set x.index (some (slotOf r))
      recorded := b.recorded + 1
      failed := b.failed + (isFailure r).toNat }

/-- A round that does not fail is one step of every child that it is given, in their order, with
what each step makes of the branches. -/
theorem round_steps (h : round c.logged todo p b (s, log) = (.ok q, b', s', log')) :
    ∃ steps, log' = log ++ steps ∧ StepsTaken c s steps s' ∧ steps.map ChildStep.found = todo ∧
      b' = steps.foldl (afterStep c.result?) b ∧
      (q = false ↔ p = false ∧ ∀ o ∈ reports c s steps, o = .blocked) := by
  induction todo generalizing p b s log with
  | nil =>
    cases h
    exact ⟨[], by simp, .nil, rfl, rfl, by simp [reports]⟩
  | cons x todo ih =>
    obtain ⟨i, a⟩ := x
    rcases hstep : c.step i a s with ⟨o, a', s₁⟩
    have hlogged : c.logged.step i a (s, log) = (o, a', s₁, log ++ [⟨i, a, a'⟩]) := by
      simp only [Child.logged, hstep]
    -- what is left to do is a round that starts from the branches after the step
    have hround : round c.logged todo (p || o != .blocked)
        (afterStep c.result? b ⟨i, a, a'⟩) (s₁, log ++ [⟨i, a, a'⟩]) = (.ok q, b', s', log') := by
      rw [round, hlogged] at h
      simp only [logged_result] at h
      cases hr : c.result? a' with
      | none => simpa only [hr, afterStep] using h
      | some r =>
        rcases hrec : b.record i r with ⟨b₁, _ | e⟩
        · obtain ⟨rfl, -⟩ := record_none hrec
          simpa only [hr, hrec, afterStep] using h
        · simp [hr, hrec] at h
    obtain ⟨steps, rfl, htaken, hfound, rfl, hq⟩ := ih hround
    refine ⟨⟨i, a, a'⟩ :: steps, by simp, .cons hstep htaken, by rw [List.map_cons, hfound]; rfl,
      rfl, ?_⟩
    rw [hq, reports, hstep, List.forall_mem_cons]
    cases p <;> cases o <;> simp

/-- What steps make of the branches apart from the results. The children that go on stay in flight,
the others are counted, and nobody is taken from the line. -/
structure Accounts (ends : α → Option (Except ExecutionError Value)) (steps : List (ChildStep α))
    (b b' : Branches α) : Prop where
  flying : b'.inFlight = b.inFlight ++ goingOn ends steps
  waiting : b'.pending = b.pending
  total : b'.total = b.total
  recorded : b'.recorded = b.recorded + steps.countP fun x => (ends x.after).isSome
  failed : b'.failed = b.failed + steps.countP fun x => fails ends x.after

theorem Accounts.append {b₁ : Branches α} {more : List (ChildStep α)}
    (h : Accounts ends steps b b₁) (h' : Accounts ends more b₁ b') :
    Accounts ends (steps ++ more) b b' where
  flying := by
    have happend : goingOn ends (steps ++ more) = goingOn ends steps ++ goingOn ends more :=
      List.filterMap_append
    rw [h'.flying, h.flying, happend, List.append_assoc]
  waiting := h'.waiting.trans h.waiting
  total := h'.total.trans h.total
  recorded := by
    rw [h'.recorded, h.recorded, List.countP_append]
    omega
  failed := by
    rw [h'.failed, h.failed, List.countP_append]
    omega

theorem accounts_step (b : Branches α) (x : ChildStep α) :
    Accounts ends [x] b (afterStep ends b x) := by
  cases h : ends x.after with
  | none => constructor <;> simp [afterStep, goingOn, fails, Branches.total, h]
  | some r =>
    constructor <;> simp [afterStep, goingOn, fails, Branches.total, h]
    cases isFailure r <;> rfl

theorem accounts_steps (ends : α → Option (Except ExecutionError Value))
    (steps : List (ChildStep α)) (b : Branches α) :
    Accounts ends steps b (steps.foldl (afterStep ends) b) := by
  induction steps generalizing b with
  | nil => constructor <;> simp [goingOn]
  | cons x steps ih => exact (accounts_step b x).append (ih (afterStep ends b x))

theorem afterStep_results (hj : x.index = j → ends x.after = none) :
    (afterStep ends b x).results[j]? = b.results[j]? := by
  rw [afterStep]
  cases h : ends x.after with
  | none => rfl
  | some r =>
    have hne : x.index ≠ j := by
      intro heq
      rw [hj heq] at h
      cases h
    exact List.getElem?_set_ne hne

/-- A place stays as it is when its child does not end. -/
theorem afterSteps_results (hj : ∀ x ∈ steps, x.index = j → ends x.after = none) :
    (steps.foldl (afterStep ends) b).results[j]? = b.results[j]? := by
  induction steps generalizing b with
  | nil => rfl
  | cons x steps ih =>
    obtain ⟨hx, hsteps⟩ := List.forall_mem_cons.mp hj
    rw [List.foldl_cons, ih hsteps, afterStep_results hx]

/-- The result of a child that ends is at its place, when no other child has the same number. -/
theorem afterSteps_placed (hdistinct : (steps.map ChildStep.index).Nodup) (hx : x ∈ steps)
    (hr : ends x.after = some r) (hseated : x.index < b.total) :
    (steps.foldl (afterStep ends) b).results[x.index]? = some (some (slotOf r)) := by
  induction steps generalizing b with
  | nil => cases hx
  | cons y steps ih =>
    rw [List.map_cons, List.nodup_cons] at hdistinct
    rw [List.foldl_cons]
    rcases List.mem_cons.mp hx with rfl | hx
    · have hothers : ∀ y ∈ steps, y.index = x.index → ends y.after = none := by
        intro y hy heq
        exact (hdistinct.1 (heq ▸ List.mem_map_of_mem hy)).elim
      rw [afterSteps_results hothers, afterStep]
      simp only [hr]
      exact List.getElem?_set_self hseated
    · apply ih hdistinct.2 hx
      rw [(accounts_step b y).total]
      exact hseated

/-- How an advance ends whose round has come to these branches and has moved something or not:
nobody is left, or the free slots are filled. -/
inductive Ends (c : Child α σ) (moved : Bool) (b₁ : Branches α) :
    BranchOutcome → Branches α → Prop where
  | completed : b₁.pending = [] → b₁.inFlight = [] →
    Ends c moved b₁ (.completed (b₁.results.map Value.ofOption)) { b₁ with results := [] }
  | running : Ends c moved b₁ (.running (moved || !b₁.nextUp.isEmpty)) (b₁.startNext c)

/-- An advance that does not fail is one step of every child that is in flight after the first
admission. -/
theorem advance_steps {o : BranchOutcome} (h : b.advance c s = (o, b', s'))
    (ho : ∀ e, o ≠ .failed e) (log : List (ChildStep α)) :
    ∃ steps q, b.advance c.logged (s, log) = (o, b', s', log ++ steps) ∧ StepsTaken c s steps s' ∧
      steps.map ChildStep.found = (b.startNext c).inFlight ∧
      (q = false ↔ b.nextUp = [] ∧ ∀ report ∈ reports c s steps, report = .blocked) ∧
      Ends c q (steps.foldl (afterStep c.result?) { b.startNext c with inFlight := [] }) o b' := by
  obtain ⟨log', hlogged⟩ := logged_of_advance h log
  rw [hlogged]
  revert hlogged
  refine advance_rule (Q := fun x => x = (o, b', s', log') → _) ?_ ?_ ?_
  · rintro e b₁ s₁ - heq
    cases heq
    exact (ho e rfl).elim
  · rintro q b₁ s₁ hround hp hf heq
    cases heq
    obtain ⟨steps, rfl, htaken, hfound, rfl, hq⟩ := round_steps hround
    refine ⟨steps, q, rfl, htaken, hfound, ?_, .completed hp hf⟩
    rw [hq]
    simp
  · rintro q b₁ s₁ hround - heq
    cases heq
    obtain ⟨steps, rfl, htaken, hfound, rfl, hq⟩ := round_steps hround
    refine ⟨steps, q, rfl, htaken, hfound, ?_, .running⟩
    rw [hq]
    simp

/-- Branches that were made of a list of children and have been advanced and abandoned since,
however the children behaved each time. -/
inductive Arises : Branches α → Prop where
  | new {children : List α} {limit : Nat} {tolerance : Tolerance} :
    Arises (.ofList children limit tolerance)
  | advanced {σ : Type} {c : Child α σ} {b b' : Branches α} {s s' : σ} {o : BranchOutcome} :
    Arises b → b.advance c s = (o, b', s') → Arises b'
  | abandoned {σ : Type} {c : Child α σ} {b : Branches α} {cause : String} {s : σ} :
    Arises b → Arises (b.abandon c cause s).1

/-- The numbers of the children in flight and in line increase, and each has a place for its
result. -/
structure InOrder (b : Branches α) : Prop where
  ordered : b.line.Pairwise (· < ·)
  seated : ∀ i ∈ b.line, i < b.total

theorem inOrder_of_idle (hp : b.pending = []) (hf : b.inFlight = []) : InOrder b := by
  have hline : b.line = [] := by simp [line, hp, hf]
  constructor <;> simp [hline]

theorem inOrder_startNext (h : InOrder b) : InOrder (b.startNext c) := by
  constructor <;> rw [line_startNext]
  · exact h.ordered
  · exact h.seated

theorem goingOn_numbers (ends : α → Option (Except ExecutionError Value))
    (steps : List (ChildStep α)) :
    ((goingOn ends steps).map Prod.fst).Sublist (steps.map ChildStep.index) := by
  induction steps with
  | nil => exact .slnil
  | cons x steps ih =>
    rw [goingOn, List.filterMap_cons, List.map_cons]
    by_cases hx : (ends x.after).isNone = true
    · rw [if_pos hx]
      exact ih.cons_cons x.index
    · rw [if_neg hx]
      exact ih.cons x.index

theorem found_numbers (steps : List (ChildStep α)) :
    (steps.map ChildStep.found).map Prod.fst = steps.map ChildStep.index := by
  rw [List.map_map]
  rfl

theorem inOrder_steps (h : InOrder b) (hfound : steps.map ChildStep.found = b.inFlight) :
    InOrder (steps.foldl (afterStep ends) { b with inFlight := [] }) := by
  have haccounts := accounts_steps ends steps { b with inFlight := [] }
  have hline : (steps.foldl (afterStep ends) { b with inFlight := [] }).line.Sublist b.line := by
    rw [line, line, haccounts.flying, haccounts.waiting, ← hfound, found_numbers]
    exact (goingOn_numbers ends steps).append (.refl _)
  refine ⟨h.ordered.sublist hline, ?_⟩
  intro i hi
  rw [haccounts.total]
  exact h.seated i (hline.subset hi)

theorem inOrder_advance {o : BranchOutcome} (h : InOrder b) (hadv : b.advance c s = (o, b', s')) :
    InOrder b' := by
  cases o with
  | failed e | completed rs =>
    obtain ⟨hp, hf⟩ := advance_ended hadv (by rintro p ⟨⟩)
    exact inOrder_of_idle hp hf
  | running p =>
    obtain ⟨steps, q, -, -, hfound, -, hends⟩ := advance_steps hadv (by rintro e ⟨⟩) []
    cases hends
    exact inOrder_startNext (inOrder_steps (inOrder_startNext h) hfound)

theorem Arises.inOrder (h : Arises b) : InOrder b := by
  induction h with
  | @new children limit tolerance =>
    have hlayout := layout_ofList children limit tolerance
    refine ⟨hlayout.ordered, ?_⟩
    intro i hi
    rw [line_ofList] at hi
    rw [hlayout.total]
    exact List.mem_range.mp hi
  | advanced _ hadv ih => exact inOrder_advance ih hadv
  | abandoned _ _ => exact inOrder_of_idle rfl rfl

/-- What a pass over the children in flight comes to. Each of them is stepped once, in the order of
the numbers. The ones that go on stay in flight, the result of each of the others is at its place,
and nothing happens to any child besides. -/
structure Passed (ends : α → Option (Except ExecutionError Value)) (steps : List (ChildStep α))
    (b b₁ : Branches α) : Prop where
  once : steps.map ChildStep.found = b.inFlight
  ordered : (steps.map ChildStep.index).Pairwise (· < ·)
  flying : b₁.inFlight = goingOn ends steps
  waiting : b₁.pending = b.pending
  placed : ∀ x ∈ steps, ∀ r, ends x.after = some r →
    b₁.results[x.index]? = some (some (slotOf r))
  untouched : ∀ j, (∀ x ∈ steps, x.index = j → ends x.after = none) →
    b₁.results[j]? = b.results[j]?
  recorded : b₁.recorded = b.recorded + steps.countP fun x => (ends x.after).isSome
  failed : b₁.failed = b.failed + steps.countP fun x => fails ends x.after

theorem InOrder.passed (h : InOrder b) (hfound : steps.map ChildStep.found = b.inFlight)
    (ends : α → Option (Except ExecutionError Value)) :
    Passed ends steps b (steps.foldl (afterStep ends) { b with inFlight := [] }) := by
  have haccounts := accounts_steps ends steps { b with inFlight := [] }
  have hnumbers : steps.map ChildStep.index = b.inFlight.map Prod.fst := by
    rw [← hfound, found_numbers]
  have hordered : (steps.map ChildStep.index).Pairwise (· < ·) := by
    rw [hnumbers]
    exact (List.pairwise_append.mp h.ordered).1
  refine ⟨hfound, hordered, haccounts.flying, haccounts.waiting, ?_, ?_, haccounts.recorded,
    haccounts.failed⟩
  · intro x hx r hr
    have hseated : x.index < b.total := by
      apply h.seated
      apply List.mem_append_left
      rw [← hnumbers]
      exact List.mem_map_of_mem hx
    exact afterSteps_placed (hordered.imp Nat.ne_of_lt) hx hr hseated
  · intro j hj
    exact afterSteps_results hj

/-- An advance that does not fail is fair. Each child that is in flight after the first admission is
stepped once, in the order of the numbers; the results of those that have ended are recorded in the
same pass and the others stay in flight; the children that take the free slots at the end are not
stepped; and no progress is reported exactly when no child was admitted, neither before nor after,
and every step was blocked. The children in flight can be gone through in place: the loop ends, and
nobody is missed when a child is taken out. -/
theorem advance_fair {o : BranchOutcome} (hb : Arises b) (h : b.advance c s = (o, b', s'))
    (ho : ∀ e, o ≠ .failed e) (log : List (ChildStep α)) :
    b.advanceInPlace c s = (o, b', s') ∧
    ∃ steps b₁, b.advance c.logged (s, log) = (o, b', s', log ++ steps) ∧
      StepsTaken c s steps s' ∧ Passed c.result? steps (b.startNext c) b₁ ∧
      (∀ rs, o = .completed rs → rs = b₁.results.map Value.ofOption ∧ b₁.pending = [] ∧
        b₁.inFlight = [] ∧ b' = { b₁ with results := [] }) ∧
      (∀ p, o = .running p → b' = b₁.startNext c ∧
        (∀ x ∈ b₁.nextUp, ∀ y ∈ steps, y.index ≠ x.1) ∧
        (p = false ↔ (b.nextUp = [] ∧ ∀ report ∈ reports c s steps, report = .blocked) ∧
          b₁.nextUp = [])) := by
  refine ⟨(advance_in_place b s).symm.trans h, ?_⟩
  obtain ⟨steps, q, hlog, htaken, hfound, hq, hends⟩ := advance_steps h ho log
  have horder : InOrder (b.startNext c) := inOrder_startNext hb.inOrder
  have hpassed := horder.passed hfound c.result?
  refine ⟨steps, _, hlog, htaken, hpassed, ?_, ?_⟩
  · rintro rs rfl
    cases hends with
    | completed hp hf => exact ⟨rfl, hp, hf, rfl⟩
  · rintro p rfl
    generalize hb₁ : steps.foldl (afterStep c.result?) { b.startNext c with inFlight := [] } = b₁
      at hpassed hends
    cases hends
    refine ⟨rfl, ?_, ?_⟩
    · intro x hx y hy
      have hwaits : x.1 ∈ (b.startNext c).pending.map Prod.fst := by
        rw [← hpassed.waiting]
        exact List.mem_map_of_mem (List.mem_of_mem_take hx)
      have hflies : y.index ∈ (b.startNext c).inFlight.map Prod.fst := by
        rw [← hfound, found_numbers]
        exact List.mem_map_of_mem hy
      have hlt := (List.pairwise_append.mp horder.ordered).2.2 _ hflies _ hwaits
      omega
    · rw [Bool.or_eq_false_iff, hq, Bool.not_eq_false', List.isEmpty_iff]

section

/-- A workflow that waits five seconds. -/
def waitingWorkflow : Workflow where
  machine := ⟨"Pause", [("Pause", .wait ⟨none, {}, .seconds 5⟩)]⟩
  run := .ofInput default .null

/-- Three children for two slots, of which the first ends at once and the second waits. -/
def threeChildren : Branches Workflow :=
  .ofList [echoWorkflow 1, waitingWorkflow, echoWorkflow 2] 2 {}

/-- The first child is taken out as soon as it has ended, the second has its step all the same, and
the third, which takes the free slot, has none. -/
theorem three_children_fair : ∃ b' steps,
    threeChildren.advance echoChild.logged ((), []) = (.running true, b', (), steps) ∧
    steps.map ChildStep.index = [0, 1] ∧ b'.inFlight.map Prod.fst = [1, 2] ∧
    b'.results = [some (.int 1), none, none] ∧
    threeChildren.advanceInPlace echoChild () = (.running true, b', ()) := by
  have hadv : threeChildren.advance echoChild () = (.running true, _, ()) := rfl
  obtain ⟨hplace, steps, b₁, hlog, -, hpassed, -⟩ := advance_fair .new hadv (by rintro e ⟨⟩) []
  refine ⟨_, steps, hlog, ?_, rfl, rfl, hplace⟩
  rw [← found_numbers, hpassed.once]
  rfl

end

end Branches

end StatesLanguage
