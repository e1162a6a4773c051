import StatesLanguage.Proofs.Results
import StatesLanguage.Proofs.Visits

/-! How many children may fail. Where a count of failures is tolerated, the steps of the children
tell how many of them have failed, and that number alone decides what becomes of all. -/
namespace StatesLanguage

variable {α σ : Type}

namespace Branches

variable {c : Child α σ} {C : Child α σ → Prop} {ends : α → Option (Except ExecutionError Value)}
  {children : List α} {log log' : List (ChildStep α)} {b b' : Branches α} {i k n : Nat} {a a' : α}
  {rest : List (Nat × α)} {outcomes : List (Option (Except ExecutionError Value))}
  {r : Except ExecutionError Value} {err : ExecutionError}

/-- Whether the child of that number has been lost in one of the steps. -/
def isLost (lost : α → Bool) (log : List (ChildStep α)) (i : Nat) : Bool :=
  log.any fun x => x.index == i && lost x.after

/-- How many of the first `n` children have been lost. -/
def losses (lost : α → Bool) (n : Nat) (log : List (ChildStep α)) : Nat :=
  (List.range n).countP (isLost lost log)

/-- A child that has ended with an error. -/
def fails (ends : α → Option (Except ExecutionError Value)) (a : α) : Bool :=
  (ends a).any isFailure

/-- The steps tell which children have ended, and how. -/
def Told (ends : α → Option (Except ExecutionError Value))
    (outcomes : List (Option (Except ExecutionError Value))) (log : List (ChildStep α)) : Prop :=
  ∀ i r, outcomes[i]? = some (some r) ↔ ∃ x ∈ log, x.index = i ∧ ends x.after = some r

theorem told_stay (h : Told ends outcomes log) (hr : ends a' = none) :
    Told ends outcomes (log ++ [⟨i, a, a'⟩]) := by
  intro j r
  rw [h j r]
  simp [hr]

theorem told_done (h : Told ends outcomes log) (hfree : outcomes[i]? = some none)
    (hr : ends a' = some r) : Told ends (outcomes.set i (some r)) (log ++ [⟨i, a, a'⟩]) := by
  have hi : i < outcomes.length := (List.getElem?_eq_some_iff.mp hfree).1
  intro j r'
  rw [List.getElem?_set]
  split_ifs with hj
  · subst hj
    have hnot : ¬ ∃ x ∈ log, x.index = i ∧ ends x.after = some r' := by
      rw [← h i r', hfree]
      simp
    simp [or_and_right, exists_or, hnot, hr]
  · rw [h j r']
    simp [hj]

/-- Where the steps tell the outcomes they tell how many of them are failures. -/
theorem told_losses (hlength : outcomes.length = n) (h : Told ends outcomes log) :
    outcomes.countP (Option.any isFailure) = losses (fails ends) n log := by
  have hlist : outcomes = (List.range n).map fun i => outcomes[i]?.join := by
    refine List.ext_getElem (by simp [hlength]) fun i hi _ => ?_
    simp [List.getElem?_eq_getElem hi]
  rw [hlist, List.countP_map, losses]
  refine List.countP_congr fun i _ => ?_
  have hany : (outcomes[i]?.join.any isFailure = true) ↔
      ∃ r, outcomes[i]? = some (some r) ∧ isFailure r = true := by
    simp [Option.any_eq_true, Option.join_eq_some_iff]
  rw [Function.comp_apply, hany, isLost, List.any_eq_true]
  simp only [h i, fails, Bool.and_eq_true, beq_iff_eq, Option.any_eq_true]
  constructor
  · rintro ⟨r, ⟨x, hx, hindex, hend⟩, hr⟩
    exact ⟨x, hx, hindex, r, hend, hr⟩
  · rintro ⟨x, hx, hindex, r, hend, hr⟩
    exact ⟨r, ⟨x, hx, hindex, hend⟩, hr⟩

theorem allows_count (failed total : Nat) :
    (⟨some k, none⟩ : Tolerance).allows failed total = decide (failed ≤ k) := by
  simp [Tolerance.allows, Tolerance.isConfigured]

/-- Tidy branches that put up with `k` failures, with steps that tell the outcomes. -/
def Tallied (C : Child α σ → Prop) (ends : α → Option (Except ExecutionError Value))
    (children : List α) (k : Nat) (log : List (ChildStep α)) (b : Branches α) : Prop :=
  b.tolerance = ⟨some k, none⟩ ∧
    ∃ outcomes, Tidy C ends children log outcomes b ∧ Told ends outcomes log

theorem tallied_ofList (children : List α) (limit : Nat) :
    Tallied C ends children k [] (.ofList children limit ⟨some k, none⟩) := by
  refine ⟨rfl, _, tidy_ofList children limit _, ?_⟩
  simp [Told, List.getElem?_replicate]

/-- The failures that have been counted are the children lost. -/
theorem Tallied.losses_eq (h : Tallied C ends children k log b) :
    losses (fails ends) children.length log = b.failed := by
  obtain ⟨-, outcomes, htidy, htold⟩ := h
  rw [htidy.failed, told_losses (tidy_length htidy) htold]

theorem Tallied.failed_le (h : Tallied C ends children k log b) : b.failed ≤ k := by
  obtain ⟨htolerance, outcomes, htidy, -⟩ := h
  by_cases hne : b.failed = 0
  · omega
  · have hallowed := htidy.tolerated hne
    rw [htolerance, allows_count] at hallowed
    exact of_decide_eq_true hallowed

theorem Tallied.losses_le (h : Tallied C ends children k log b) :
    losses (fails ends) children.length log ≤ k := by
  rw [h.losses_eq]
  exact h.failed_le

theorem tallied_startNext (hc : C c) (h : Tallied C ends children k log b) :
    Tallied C ends children k log (b.startNext c) := by
  obtain ⟨htolerance, outcomes, htidy, htold⟩ := h
  exact ⟨htolerance, outcomes, tidy_startNext hc htidy, htold⟩

theorem tallied_stay (h : Tallied C ends children k log (b.facing ((i, a) :: rest)))
    (hr : ends a' = none) : Tallied C ends children k (log ++ [⟨i, a, a'⟩])
      ({ b with inFlight := b.inFlight ++ [(i, a')] }.facing rest) := by
  obtain ⟨htolerance, outcomes, htidy, htold⟩ := h
  exact ⟨htolerance, outcomes, tidy_stay htidy, told_stay htold hr⟩

theorem tallied_done (h : Tallied C ends children k log (b.facing ((i, a) :: rest)))
    (hr : ends a' = some r) (hrec : b.record i r = (b', none)) :
    Tallied C ends children k (log ++ [⟨i, a, a'⟩]) (b'.facing rest) := by
  obtain ⟨htolerance, outcomes, htidy, htold⟩ := h
  refine ⟨?_, outcomes.set i (some r), tidy_done htidy hr hrec,
    told_done htold (free_place htidy) hr⟩
  have hkept : (b.record i r).1.tolerance = b.tolerance := record_tolerance b i r
  rw [hrec] at hkept
  exact hkept.trans htolerance

/-- The failure that is one too many ends all, and it is one more than are tolerated. -/
theorem tallied_excess (h : Tallied C ends children k log (b.facing ((i, a) :: rest)))
    (hr : ends a' = some r) (hrec : b.record i r = (b', some err)) :
    losses (fails ends) children.length (log ++ [⟨i, a, a'⟩]) = k + 1 ∧
      err = excessFailure (k + 1) children.length := by
  have hle : b.failed ≤ k := h.failed_le
  obtain ⟨htolerance, outcomes, htidy, htold⟩ := h
  have htolerance : b.tolerance = ⟨some k, none⟩ := htolerance
  have htotal : b.total = children.length := htidy.layout.total
  have hfailed : b.failed = outcomes.countP (Option.any isFailure) := htidy.failed
  have hfree := free_place htidy
  cases r with
  | ok v => simp [record] at hrec
  | error e =>
    simp only [record, htolerance, allows_count] at hrec
    split_ifs at hrec with hwithin hconfigured
    · simp at hrec
    · have hk : b.failed = k := by
        simp only [decide_eq_true_eq] at hwithin
        omega
      refine ⟨?_, ?_⟩
      · rw [← told_losses (by simpa using tidy_length htidy) (told_done htold hfree hr),
          countP_set_free (p := Option.any isFailure) rfl hfree, ← hfailed, hk]
        rfl
      · simp only [Prod.mk.injEq, Option.some.injEq] at hrec
        rw [← hrec.2, hk]
        exact congrArg _ htotal
    · simp [Tolerance.isConfigured] at hconfigured

/-- What a round comes to: the failures are tolerated so far, or there is one too many. -/
def Judged (C : Child α σ → Prop) (ends : α → Option (Except ExecutionError Value))
    (children : List α) (k : Nat) :
    Except ExecutionError Bool × Branches α × σ × List (ChildStep α) → Prop
  | (.ok _, b, _, log) => Tallied C ends children k log b
  | (.error err, _, _, log) => losses (fails ends) children.length log = k + 1 ∧
    err = excessFailure (k + 1) children.length

theorem round_judged (hends : c.result? = ends) {todo : List (Nat × α)} {p : Bool} {s : σ}
    (h : Tallied C ends children k log (b.facing todo)) :
    Judged C ends children k (round c.logged todo p b (s, log)) := by
  refine round_rule (I := fun todo _ b s => Tallied C ends children k s.2 (b.facing todo))
    (Q := Judged C ends children k) ?_ ?_ ?_ ?_ h
  · rintro i a rest p b ⟨s, log⟩ o a' ⟨s', log'⟩ h hstep hr
    simp only [Child.logged, Prod.mk.injEq] at hstep
    obtain ⟨-, rfl, -, rfl⟩ := hstep
    exact tallied_stay h (hends ▸ hr)
  · rintro i a rest p b ⟨s, log⟩ o a' ⟨s', log'⟩ r b₁ h hstep hr hrec
    simp only [Child.logged, Prod.mk.injEq] at hstep
    obtain ⟨-, rfl, -, rfl⟩ := hstep
    exact tallied_done h (hends ▸ hr) hrec
  · rintro i a rest p b ⟨s, log⟩ o a' ⟨s', log'⟩ r b₁ err h hstep hr hrec
    simp only [Child.logged, Prod.mk.injEq] at hstep
    obtain ⟨-, rfl, -, rfl⟩ := hstep
    rw [abandon, abortAll_logged]
    exact tallied_excess h (hends ▸ hr) hrec
  · rintro p b ⟨s, log⟩ h
    simpa [Judged, facing] using h

/-- Whether the steps have brought the child of that number to its end. -/
def HasEnded (ends : α → Option (Except ExecutionError Value)) (log : List (ChildStep α))
    (i : Nat) : Prop :=
  ∃ x ∈ log, x.index = i ∧ (ends x.after).isSome

/-- A child that is in flight or waits has not ended. -/
theorem Tallied.going (h : Tallied C ends children k log b)
    (hgoing : ¬ (b.pending = [] ∧ b.inFlight = [])) :
    ∃ i < children.length, ¬ HasEnded ends log i := by
  obtain ⟨-, outcomes, htidy, htold⟩ := h
  have hline : b.line ≠ [] := by
    intro hnil
    simp only [line, List.append_eq_nil_iff, List.map_eq_nil_iff] at hnil
    exact hgoing ⟨hnil.2, hnil.1⟩
  obtain ⟨i, hi⟩ := List.exists_mem_of_ne_nil _ hline
  have hlt : i < children.length :=
    List.mem_range.mp (htidy.layout.partition.mem_iff.mp (List.mem_append_left _ hi))
  refine ⟨i, hlt, ?_⟩
  rintro ⟨x, hx, hindex, hend⟩
  obtain ⟨r, hr⟩ := Option.isSome_iff_exists.mp hend
  have hout : outcomes[i]? = some (some r) := (htold i r).mpr ⟨x, hx, hindex, hr⟩
  rw [tidy_free htidy hi] at hout
  cases hout

/-- Without children in flight or in line every child has ended. -/
theorem Tallied.all_ended (h : Tallied C ends children k log b) (hp : b.pending = [])
    (hf : b.inFlight = []) : ∀ i < children.length, HasEnded ends log i := by
  obtain ⟨-, outcomes, htidy, htold⟩ := h
  intro i hi
  obtain ⟨r, hr⟩ := tidy_outcome htidy hp hf hi
  obtain ⟨x, hx, hindex, hend⟩ := (htold i r).mp hr
  exact ⟨x, hx, hindex, by simp [hend]⟩

/-- The result of a child that has ended is at the place of the child. -/
theorem Tallied.placed (h : Tallied C ends children k log b) {x : ChildStep α} (hx : x ∈ log)
    (hend : ends x.after = some r) :
    (b.results.map Value.ofOption)[x.index]? = some (slotOf r) := by
  obtain ⟨-, outcomes, htidy, htold⟩ := h
  exact tidy_placed htidy ((htold x.index r).mpr ⟨x, hx, rfl, hend⟩)

/-- What the children have come to: some go on, all have ended and each result is at its place, or
there has been one failure too many. -/
inductive Verdict (ends : α → Option (Except ExecutionError Value)) (n k : Nat)
    (log : List (ChildStep α)) : BranchOutcome → Prop where
  | running {p : Bool} {i : Nat} : losses (fails ends) n log ≤ k → i < n →
    ¬ HasEnded ends log i → Verdict ends n k log (.running p)
  | completed {rs : List Value} : losses (fails ends) n log ≤ k → rs.length = n →
    (∀ i < n, HasEnded ends log i) →
    (∀ x ∈ log, ∀ r, ends x.after = some r → rs[x.index]? = some (slotOf r)) →
    Verdict ends n k log (.completed rs)
  | failed : losses (fails ends) n log = k + 1 →
    Verdict ends n k log (.failed (excessFailure (k + 1) n))

/-- The round of an advance, which comes after the first children have been started. -/
theorem admitted_judged (hends : c.result? = ends) (hc : C c)
    (h : Tallied C ends children k log b) {p : Bool} {s : σ}
    {x : Except ExecutionError Bool × Branches α × σ × List (ChildStep α)}
    (hround : round c.logged (b.startNext c.logged).inFlight p
      { b.startNext c.logged with inFlight := [] } (s, log) = x) : Judged C ends children k x := by
  have hstart : Tallied C ends children k log (b.startNext c) := tallied_startNext hc h
  rw [← hround]
  exact round_judged hends hstart

theorem advance_verdict (hends : c.result? = ends) (hc : C c)
    (h : Tallied C ends children k log b) {o : BranchOutcome} {s s' : σ}
    (hadv : b.advance c.logged (s, log) = (o, b', s', log')) :
    Verdict ends children.length k log' o := by
  revert hadv
  refine advance_rule (Q := fun x => x = (o, b', s', log') → Verdict ends children.length k log' o)
    ?_ ?_ ?_
  · rintro err b₁ ⟨s₁, log₁⟩ hround heq
    obtain ⟨hlosses, rfl⟩ := admitted_judged hends hc h hround
    cases heq
    exact .failed hlosses
  · rintro p b₁ ⟨s₁, log₁⟩ hround hp hf heq
    have htallied : Tallied C ends children k log₁ b₁ := admitted_judged hends hc h hround
    cases heq
    refine .completed htallied.losses_le ?_ (htallied.all_ended hp hf) ?_
    · obtain ⟨-, outcomes, htidy, -⟩ := htallied
      rw [List.length_map]
      exact htidy.layout.total
    · intro x hx r hend
      exact htallied.placed hx hend
  · rintro p b₁ ⟨s₁, log₁⟩ hround hgoing heq
    have htallied : Tallied C ends children k log₁ b₁ := admitted_judged hends hc h hround
    cases heq
    obtain ⟨i, hi, hopen⟩ := htallied.going hgoing
    exact .running htallied.losses_le hi hopen

theorem Verdict.failed_iff {o : BranchOutcome} (h : Verdict ends n k log o) :
    (∃ err, o = .failed err) ↔ losses (fails ends) n log = k + 1 := by
  cases h with
  | running hle _ _ | completed hle _ _ _ =>
    refine ⟨?_, fun heq => by omega⟩
    rintro ⟨err, ⟨⟩⟩
  | failed hlosses => exact ⟨fun _ => hlosses, fun _ => ⟨_, rfl⟩⟩

theorem Verdict.completed_iff {o : BranchOutcome} (h : Verdict ends n k log o) :
    (∃ rs, o = .completed rs) ↔
      losses (fails ends) n log ≤ k ∧ ∀ i < n, HasEnded ends log i := by
  cases h with
  | running hle hi hopen =>
    refine ⟨?_, fun hall => (hopen (hall.2 _ hi)).elim⟩
    rintro ⟨rs, ⟨⟩⟩
  | completed hle _ hall _ => exact ⟨fun _ => ⟨hle, hall⟩, fun _ => ⟨_, rfl⟩⟩
  | failed hlosses =>
    refine ⟨?_, fun hle => by omega⟩
    rintro ⟨rs, ⟨⟩⟩

theorem advance_tallied (hends : c.result? = ends) (hc : C c)
    (h : Tallied C ends children k log b) {p : Bool} {s s' : σ}
    (hadv : b.advance c.logged (s, log) = (.running p, b', s', log')) :
    Tallied C ends children k log' b' := by
  obtain ⟨q, b₁, hround, -, -, rfl⟩ := advance_running hadv
  exact tallied_startNext hc (admitted_judged hends hc h hround)

/-- What advances lead to that all leave the branches running, whatever happens to the runner between
them. Each of them is done as one of `C` does it, and the steps of the children are written down. -/
inductive Turns (C : Child α σ → Prop) (b₀ : Branches α) :
    Branches α → List (ChildStep α) → Prop where
  | start : Turns C b₀ b₀ []
  | next {b b' : Branches α} {s s' : σ} {log log' : List (ChildStep α)} {c : Child α σ} {p : Bool} :
    Turns C b₀ b log → C c → b.advance c.logged (s, log) = (.running p, b', s', log') →
    Turns C b₀ b' log'

theorem turns_tallied (hC : ∀ c, C c → c.result? = ends) {limit : Nat}
    (h : Turns C (.ofList children limit ⟨some k, none⟩) b log) :
    Tallied C ends children k log b := by
  induction h with
  | start => exact tallied_ofList children limit
  | next _ hc hadv ih => exact advance_tallied (hC _ hc) hc ih hadv

theorem logged_of_advance {o : BranchOutcome} {s s' : σ} (h : b.advance c s = (o, b', s'))
    (log : List (ChildStep α)) : ∃ log', b.advance c.logged (s, log) = (o, b', s', log') := by
  obtain ⟨log', hlogged⟩ := advance_logged (c := c) b s
  exact ⟨log', by rw [hlogged, h]⟩

theorem round_log {todo : List (Nat × α)} {p : Bool} {s : σ} :
    log <+: (round c.logged todo p b (s, log)).2.2.2 := by
  refine round_rule (I := fun _ _ _ (s : σ × List (ChildStep α)) => log <+: s.2)
    (Q := fun (x : _ × _ × σ × List (ChildStep α)) => log <+: x.2.2.2) ?_ ?_ ?_ ?_ List.prefix_rfl
  · rintro i a rest p b ⟨s, log₁⟩ o a' ⟨s', log₂⟩ h hstep _
    cases hstep
    exact h.trans (List.prefix_append _ _)
  · rintro i a rest p b ⟨s, log₁⟩ o a' ⟨s', log₂⟩ r b₁ h hstep _ _
    cases hstep
    exact h.trans (List.prefix_append _ _)
  · rintro i a rest p b ⟨s, log₁⟩ o a' ⟨s', log₂⟩ r b₁ err h hstep _ _
    cases hstep
    rw [abandon, abortAll_logged]
    exact h.trans (List.prefix_append _ _)
  · intro p b s h
    exact h

/-- The steps of an advance are written behind those before it. -/
theorem advance_log {s : σ} : log <+: (b.advance c.logged (s, log)).2.2.2 := by
  have hround {p : Bool} {b₁ : Branches α} {todo : List (Nat × α)}
      {x : Except ExecutionError Bool × Branches α × σ × List (ChildStep α)}
      (h : round c.logged todo p b₁ (s, log) = x) : log <+: x.2.2.2 := h ▸ round_log
  refine advance_rule (Q := fun (x : _ × _ × σ × List (ChildStep α)) => log <+: x.2.2.2) ?_ ?_ ?_
  · intro err b₁ s₁ hres
    exact hround hres
  · intro p b₁ s₁ hres _ _
    exact hround hres
  · intro p b₁ s₁ hres _
    exact hround hres

end Branches

/-- A workflow that has failed or was aborted. -/
def Run.isLost (r : Run) : Bool :=
  match r.status with
  | .failed | .aborted => true
  | _ => false

/-- To end with an error is to fail or to be aborted. -/
theorem Run.fails_result : Branches.fails Run.result? = Run.isLost := by
  funext r
  unfold Branches.fails Run.result? Run.isLost
  cases r.status <;> rfl

namespace Machine

variable {e : Engine σ} {m₀ m : Moment} {s : σ}

theorem Map.compile_tolerance {d : Document.Map} {p : Map} (h : Map.compile d = .ok p) :
    p.tolerance = ⟨d.toleratedFailureCount, d.toleratedFailurePercentage⟩ := by
  obtain ⟨_, -, h⟩ := bind_ok h
  obtain ⟨_, -, h⟩ := bind_ok h
  obtain ⟨_, -, h⟩ := bind_ok h
  obtain ⟨_, -, h⟩ := bind_ok h
  cases h
  rfl

theorem Map.itemInputs_length {p : Map} {ids : Identifiers} {input context : Value} {n : Nat}
    {items inputs : List Value} (h : p.itemInputs ids input context n items = .ok inputs) :
    inputs.length = items.length := by
  induction items generalizing n context inputs with
  | nil =>
    cases h
    rfl
  | cons item rest ih =>
    obtain ⟨v, -, h⟩ := bind_ok h
    obtain ⟨vs, hvs, h⟩ := bind_ok h
    cases h
    simp [ih hvs]

/-- A Map state has a nested workflow for each of its items. -/
theorem Map.start_children {p : Map} {execution : Execution} {data context : Value}
    {b : Branches Run} (h : p.start m execution data context = .ok b) :
    ∃ items children, p.items (p.flow.filteredInput data context) context = .ok items ∧
      children.length = items.length ∧ b = .ofList children p.maxConcurrency p.tolerance := by
  obtain ⟨items, hitems, h⟩ := bind_ok h
  obtain ⟨inputs, hinputs, h⟩ := bind_ok h
  cases h
  exact ⟨items, _, hitems, by simp [Map.itemInputs_length hinputs], rfl⟩

/-- The children of a Map state in an advance at some moment. -/
def Map.Advances (e : Engine σ) (p : Map) (processor : Machine) (c : Child Run σ) : Prop :=
  ∃ m, c = (State.map p processor).child e m

/-- Where a count of failures is tolerated, it is the number of items that were lost that decides. An
advance of the nested workflows fails when it is the first one after which there is one too many, and
says how many there are; and when all have ended with no more lost than are tolerated, there is for
each item at its place what has come of it. -/
theorem Map.verdict {d : Document.Map} {p : Map} {processor : Machine} {k : Nat}
    {execution : Execution} {data context : Value} {items : List Value} {b₀ b : Branches Run}
    {log : List (ChildStep Run)} (hcompile : Map.compile d = .ok p)
    (hcount : d.toleratedFailureCount = some k) (hpercentage : d.toleratedFailurePercentage = none)
    (hitems : p.items (p.flow.filteredInput data context) context = .ok items)
    (hstart : p.start m₀ execution data context = .ok b₀)
    (hturns : Branches.Turns (Map.Advances e p processor) b₀ b log) {c : Child Run σ}
    (hc : Map.Advances e p processor c) (s : σ) :
    ∃ o b' s' log', b.advance c s = (o, b', s') ∧
      b.advance c.logged (s, log) = (o, b', s', log') ∧
      log <+: log' ∧ Branches.losses Run.isLost items.length log ≤ k ∧
      ((∃ err, o = .failed err) ↔ Branches.losses Run.isLost items.length log' = k + 1) ∧
      (∀ err, o = .failed err → err = .composite "States.ExceedToleratedFailureThreshold"
        s!"{k + 1} of {items.length} items failed") ∧
      ((∃ rs, o = .completed rs) ↔ Branches.losses Run.isLost items.length log' ≤ k ∧
        ∀ i < items.length, ∃ x ∈ log', x.index = i ∧ x.after.isTerminal = true) ∧
      ∀ rs, o = .completed rs → rs.length = items.length ∧ ∀ x ∈ log',
        (∀ v, x.after.Succeeded v → rs[x.index]? = some v) ∧
        (∀ err, x.after.Failed err → rs[x.index]? = some err.payload) ∧
        ∀ cause, x.after.Aborted cause →
          rs[x.index]? = some (ExecutionError.composite "States.BranchAborted" cause).payload := by
  obtain ⟨items', children, hitems', hlength, rfl⟩ := Map.start_children hstart
  rw [hitems, Except.ok.injEq] at hitems'
  subst hitems'
  rw [Map.compile_tolerance hcompile, hcount, hpercentage] at hturns
  have hC : ∀ c, Map.Advances e p processor c → c.result? = Run.result? := by
    rintro _ ⟨m, rfl⟩
    rfl
  have htallied := Branches.turns_tallied hC hturns
  rcases hplain : b.advance c s with ⟨o, b', s'⟩
  obtain ⟨log', hadv⟩ := Branches.logged_of_advance hplain log
  have hlog : log <+: (b.advance c.logged (s, log)).2.2.2 := Branches.advance_log
  rw [hadv] at hlog
  have hbefore := htallied.losses_le
  have hverdict := Branches.advance_verdict (hC c hc) hc htallied hadv
  have hfailed := hverdict.failed_iff
  have hcompleted := hverdict.completed_iff
  rw [hlength, Run.fails_result] at hbefore hfailed hcompleted
  rw [hlength] at hverdict
  refine ⟨o, b', s', log', rfl, hadv, hlog, hbefore, hfailed, ?_, ?_, ?_⟩
  · rintro err rfl
    cases hverdict
    rfl
  · rw [hcompleted]
    simp only [Branches.HasEnded, Run.result_isSome]
  · rintro rs rfl
    cases hverdict with
    | completed _ hrs _ hplaced =>
      refine ⟨hrs, fun x hx => ⟨fun v hv => ?_, fun err herr => ?_, fun cause hcause => ?_⟩⟩
      · exact hplaced x hx (.ok v) hv.result
      · exact hplaced x hx (.error err) herr.result
      · exact hplaced x hx (.error (.composite "States.BranchAborted" cause)) hcause.result

section

/-- A Map state that puts up with one item that is lost. -/
def lenientMap : Document.Map := { toleratedFailureCount := some 1 }

def lenient : Map where
  next := none
  itemsPath := ⟨"$", false, [], .reference []⟩
  itemSelector := none
  maxConcurrency := 0
  tolerance := ⟨some 1, none⟩
  flow := {}
  handling := {}

/-- A state whose job is not tried again when it fails. -/
def hastyMachine : Machine := ⟨"Work", [("Work", .task ⟨none, "local", none, none, {}, {}⟩)]⟩

/-- The nested workflows of the state when they are advanced at the moment zero. -/
def lenientChild : Child Run Unit :=
  (State.map lenient hastyMachine).child ⟨failingRunner, {}⟩ .zero

/-- Of three items whose jobs all fail the second one ends the state. -/
theorem lenient_verdict : ∃ b₀ b' log' err,
    Map.compile lenientMap = .ok lenient ∧
    lenient.start .zero default (.arr [.int 1, .int 2, .int 3]) .null = .ok b₀ ∧
    b₀.advance lenientChild.logged ((), []) = (.failed err, b', (), log') ∧
    Branches.losses Run.isLost 3 log' = 2 ∧
    err = .composite "States.ExceedToleratedFailureThreshold" "2 of 3 items failed" := by
  have hcompile : Map.compile lenientMap = .ok lenient := by cbv
  have hstart : lenient.start .zero default (.arr [.int 1, .int 2, .int 3]) .null = .ok _ := rfl
  have hitems : lenient.items (.arr [.int 1, .int 2, .int 3]) .null =
      .ok [.int 1, .int 2, .int 3] := rfl
  have hchild : Map.Advances ⟨failingRunner, {}⟩ lenient hastyMachine lenientChild := ⟨.zero, rfl⟩
  obtain ⟨o, b', s', log', hplain, hadv, -, -, hfailed, htext, -⟩ :=
    Map.verdict hcompile rfl rfl hitems hstart .start hchild ()
  have ho : ∃ err, o = .failed err := by
    cases hplain
    exact ⟨_, rfl⟩
  obtain ⟨err, rfl⟩ := ho
  exact ⟨_, b', log', err, hcompile, hstart, hadv, hfailed.mp ⟨err, rfl⟩, htext err rfl⟩

end

end Machine

variable {e : Engine σ} {m : Moment} {s s' : σ} {st : Machine.State} {b b' : Branches Run}

namespace Machine

/-- Nested workflows of a state that has made them and has only advanced them since. -/
def State.Keeps (e : Engine σ) (st : State) (b : Branches Run) : Prop :=
  ∃ execution b₀ log, st.Makes execution b₀ ∧
    Branches.Turns (fun c => ∃ m, c = st.child e m) b₀ b log

theorem State.Makes.kept {execution : Execution} (h : st.Makes execution b) : st.Keeps e b :=
  ⟨execution, b, [], h, .start⟩

theorem State.Keeps.advanced {p : Bool} (h : st.Keeps e b)
    (hadv : b.advance (st.child e m) s = (.running p, b', s')) : st.Keeps e b' := by
  obtain ⟨execution, b₀, log, hmakes, hturns⟩ := h
  obtain ⟨log', hlogged⟩ := Branches.logged_of_advance hadv log
  exact ⟨execution, b₀, log', hmakes, hturns.next ⟨m, rfl⟩ hlogged⟩

end Machine

/-- The nested workflows of a stay have only been advanced since the state has made them. -/
theorem Visit.keeps_invariant : Invariant e fun machine v => ∀ st b,
    machine.state? v.state = some st → v.progress = .branches b → st.Keeps e b where
  arrive _ _ _ := by rintro st b _ ⟨⟩
  idle _ := by rintro st b _ ⟨⟩
  advance := by
    intro machine st m r v res v' s s' h hst hadv st' b' hst' hb'
    obtain ⟨hstate, hshifts⟩ := Machine.State.advance_shifts hadv
    rw [hstate, hst, Option.some.injEq] at hst'
    subst hst'
    rw [hb'] at hshifts
    generalize hp : v.progress = p at hshifts
    cases hshifts with
    | same => exact h st b' hst hp
    | branches hb hadv =>
      rcases hb with rfl | hmakes
      · exact (h st _ hst hp).advanced hadv
      · exact hmakes.kept.advanced hadv

namespace Workflow

variable {runner : JobRunner σ} {w : Workflow} {s₀ : σ} {machine₀ machine : Machine}
  {config : Config} {execution : Execution} {input : Value} {r : Run} {v : Visit}

/-- In every workflow that is reached by any calls, at whatever depth, the nested workflows of a state
have only been advanced since they were made. -/
theorem nested_kept (h : Reaches runner ⟨machine₀, config, .ofInput execution input⟩ s₀ w s)
    (hin : Run.Within w.machine w.run machine r) (hv : r.visit = some v)
    (hst : machine.state? v.state = some st) (hb : v.progress = .branches b) :
    st.Keeps ⟨runner, config⟩ b := by
  obtain ⟨hmachine, -, hkept⟩ := h.everywhere Visit.keeps_invariant.run
  rw [hmachine] at hin
  exact hkept machine r hin v hv st b hst hb

/-- The nested workflows of a Map state are such as `Machine.Map.verdict` is about: they were made for
the items, and each advance since then was one of the state. -/
theorem map_kept {p : Machine.Map} {processor : Machine}
    (h : Reaches runner ⟨machine₀, config, .ofInput execution input⟩ s₀ w s)
    (hin : Run.Within w.machine w.run machine r) (hv : r.visit = some v)
    (hst : machine.state? v.state = some (.map p processor)) (hb : v.progress = .branches b) :
    ∃ m execution data context b₀ log, p.start m execution data context = .ok b₀ ∧
      Branches.Turns (Machine.Map.Advances ⟨runner, config⟩ p processor) b₀ b log := by
  obtain ⟨_, b₀, log, ⟨m, r₀, stay, -, hopening⟩, hturns⟩ := nested_kept h hin hv hst hb
  exact ⟨m, _, _, _, b₀, log, Option.some.inj hopening, hturns⟩

end Workflow

end StatesLanguage
