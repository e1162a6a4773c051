import Mathlib.Algebra.BigOperators.Fin
import Mathlib.Algebra.Order.BigOperators.Group.Finset
import StatesLanguage.Proofs.Acyclic
import StatesLanguage.Proofs.Loads
import StatesLanguage.Proofs.Retries
import StatesLanguage.Proofs.Trails

/-! A workflow without cycles comes to rest. Each step that moves it lightens what is left to be done:
a transition leaves less of the graph, a retry leaves fewer retries, and what a state nests is lighter
than the state. -/
namespace StatesLanguage

variable {σ : Type} {e : Engine σ} {m : Moment} {s s' : σ}

namespace ErrorHandling

variable {h : ErrorHandling} {i : Nat} {rt : Retrier} {attempts : List Nat}

/-- How often a stay can still be retried. -/
def left (h : ErrorHandling) (attempts : List Nat) : Nat :=
  ∑ i : Fin h.retriers.length, (h.retriers[i].maxAttempts - attempts.getD i 0)

/-- A retry leaves one retry less. -/
theorem left_retried {name : Option String} (hlength : attempts.length = h.retriers.length)
    (hrt : h.retrierFor? name = some (i, rt)) (hleft : attempts.getD i 0 < rt.maxAttempts) :
    h.left (attempts.set i (attempts.getD i 0 + 1)) < h.left attempts := by
  obtain ⟨hi, hget⟩ := List.getElem?_eq_some_iff.mp (retrierFor_eq_some.mp hrt).1
  have hset : ∀ j, (attempts.set i (attempts.getD i 0 + 1)).getD j 0 =
      if j = i then attempts.getD i 0 + 1 else attempts.getD j 0 := by
    intro j
    simp only [List.getD_eq_getElem?_getD, List.getElem?_set]
    by_cases hij : i = j
    · rw [← hij, if_pos rfl, if_pos (hlength ▸ hi), if_pos rfl]
      rfl
    · rw [if_neg hij, if_neg (Ne.symm hij)]
  refine Finset.sum_lt_sum (fun j _ => ?_) ⟨⟨i, hi⟩, Finset.mem_univ _, ?_⟩
  · rw [hset]
    split_ifs with hj
    · rw [hj]
      omega
    · exact Nat.le_refl _
  · rw [hset, if_pos rfl]
    simp only [Fin.getElem_fin, hget]
    omega

end ErrorHandling

/-- Whether there is no nested workflow: to open them is to go on. -/
def Progress.phase : Progress → Nat
  | .branches _ => 0
  | _ => 1

theorem Progress.phase_plain {p : Progress} (h : ∀ b, p ≠ .branches b) : p.phase = 1 := by
  cases p with
  | branches b => exact (h b rfl).elim
  | idle | waiting | job => rfl

namespace Machine

/-- How often a stay in a state can still be retried. -/
def retriesLeft (machine : Machine) (name : String) (attempts : List Nat) : Nat :=
  ((machine.state? name).bind State.handling?).elim 0 fun h => h.left attempts

/-- The weight of a stay by itself. -/
noncomputable def weight (machine : Machine) (v : Visit) : Weight :=
  toLex (sizeOf machine, toLex (machine.height v.state,
    toLex (machine.retriesLeft v.state v.attempts, v.progress.phase)))

/-- The weight of a workflow that has yet to start. -/
noncomputable def fullWeight (machine : Machine) : Weight :=
  toLex (sizeOf machine, toLex (machine.height machine.start + 1, toLex (0, 0)))

end Machine

namespace Run

mutual

/-- What is left to be done by a workflow that runs a machine, and by all that are nested in it. -/
noncomputable def load : Run → Machine → Load
  | ⟨_, .pending, _, _, _, _, _, _, _, _⟩, machine => .single machine.fullWeight
  | ⟨_, _, _, _, _, _, visit, _, _, _⟩, machine => visitLoad? visit machine

noncomputable def visitLoad? : Option Visit → Machine → Load
  | none, machine => .single machine.fullWeight
  | some v, machine => visitLoad v machine

noncomputable def visitLoad : Visit → Machine → Load
  | ⟨state, enteredAt, progress, attempts, retries, notBefore⟩, machine =>
    .single (machine.weight ⟨state, enteredAt, progress, attempts, retries, notBefore⟩) +
      progressLoad progress (machine.state? state)

noncomputable def progressLoad : Progress → Option Machine.State → Load
  | .branches b, st => branchLoad b st
  | .idle, _ | .waiting _, _ | .job _ _, _ => 0

noncomputable def branchLoad : Branches Run → Option Machine.State → Load
  | ⟨pending, inFlight, _, _, _, _, _⟩, st => childLoads pending st + childLoads inFlight st

noncomputable def childLoads : List (Nat × Run) → Option Machine.State → Load
  | [], _ => 0
  | (i, r) :: rest, st =>
    ((st.bind fun st => st.machineAt? i).elim 0 fun sub => load r sub) + childLoads rest st

end

end Run

/-- What is left to be done by the nested workflow of that number. -/
noncomputable def Machine.State.childLoad (st : Machine.State) (i : Nat) (child : Run) : Load :=
  (st.machineAt? i).elim 0 child.load

namespace Run

variable {machine sub : Machine} {r r' : Run} {v v' : Visit} {st : Machine.State} {t : Weight}

theorem load_of_pending (h : r.status = .pending) :
    r.load machine = .single machine.fullWeight := by
  obtain ⟨execution, status, data, output, error, abortCause, visit, next, history, steps⟩ := r
  cases h
  rw [load]

theorem load_of_visit (hr : r.status ≠ .pending) (hv : r.visit = some v) :
    r.load machine = visitLoad v machine := by
  obtain ⟨execution, status, data, output, error, abortCause, visit, next, history, steps⟩ := r
  cases hv
  cases status with
  | pending => exact (hr rfl).elim
  | _ => simp only [load, visitLoad?]

theorem visitLoad_eq : visitLoad v machine =
    .single (machine.weight v) + progressLoad v.progress (machine.state? v.state) := by
  obtain ⟨state, enteredAt, progress, attempts, retries, notBefore⟩ := v
  rw [visitLoad]

theorem childLoads_eq (xs : List (Nat × Run)) :
    childLoads xs (some st) = Branches.weigh st.childLoad xs := by
  induction xs with
  | nil => simp [childLoads]
  | cons x rest ih =>
    obtain ⟨i, child⟩ := x
    rw [childLoads, ih, Branches.weigh_cons]
    rfl

theorem progressLoad_branches (b : Branches Run) :
    progressLoad (.branches b) (some st) = b.load st.childLoad := by
  obtain ⟨pending, inFlight, results, limit, tolerance, recorded, failed⟩ := b
  simp only [progressLoad, branchLoad, childLoads_eq, Branches.load]

theorem progressLoad_plain {p : Progress} {st : Option Machine.State}
    (h : ∀ b, p ≠ .branches b) : progressLoad p st = 0 := by
  cases p with
  | branches b => exact (h b rfl).elim
  | idle | waiting | job => rw [progressLoad]

theorem progressLoad_undefined (p : Progress) : progressLoad p none = 0 := by
  have hnone : ∀ xs, childLoads xs none = 0 := by
    intro xs
    induction xs with
    | nil => rw [childLoads]
    | cons x rest ih =>
      obtain ⟨i, child⟩ := x
      rw [childLoads, ih]
      rfl
  cases p with
  | branches b =>
    obtain ⟨pending, inFlight, results, limit, tolerance, recorded, failed⟩ := b
    simp only [progressLoad, branchLoad, hnone, add_zero]
  | idle | waiting | job => rw [progressLoad]

theorem load_of_unvisited (hv : r.visit = none) :
    r.load machine = .single machine.fullWeight := by
  obtain ⟨execution, status, data, output, error, abortCause, visit, next, history, steps⟩ := r
  cases hv
  cases status <;> simp only [load, visitLoad?]

theorem single_le_visitLoad : .single (machine.weight v) ≤ visitLoad v machine := by
  rw [visitLoad_eq]
  exact le_add_of_nonneg_right (isBot_zero _)

theorem load_pos : 0 < r.load machine := by
  by_cases hr : r.status = .pending
  · rw [load_of_pending hr]
    exact Load.single_pos
  · cases hv : r.visit with
    | none =>
      rw [load_of_unvisited hv]
      exact Load.single_pos
    | some v =>
      rw [load_of_visit hr hv]
      exact Load.single_pos.trans_le single_le_visitLoad

/-- What a workflow weighs in any number is less than a single one of a larger machine. -/
theorem load_lt_single (machine : Machine) : ∀ (r : Run) {t : Weight}, sizeOf machine < (ofLex t).1 →
    r.load machine < .single t := by
  induction machine using Machine.induction with
  | h machine ih =>
    intro r t ht
    have hfirst : ∀ {u : Weight}, (ofLex u).1 = sizeOf machine → Load.single u < .single t := by
      intro u hu
      exact Load.single_lt_single.mpr (Prod.Lex.lt_iff.mpr (Or.inl (hu ▸ ht)))
    by_cases hr : r.status = .pending
    · rw [load_of_pending hr]
      exact hfirst rfl
    cases hv : r.visit with
    | none =>
      rw [load_of_unvisited hv]
      exact hfirst rfl
    | some v =>
      rw [load_of_visit hr hv, visitLoad_eq]
      refine Load.add_lt_single (hfirst rfl) ?_
      cases hst : machine.state? v.state with
      | none =>
        rw [progressLoad_undefined]
        exact Load.single_pos
      | some st =>
        cases hp : v.progress with
        | branches b =>
          have hchild : ∀ x : Nat × Run, st.childLoad x.1 x.2 < .single t := by
            intro x
            unfold Machine.State.childLoad
            cases hsub : st.machineAt? x.1 with
            | none => exact Load.single_pos
            | some sub =>
              have hsub := Machine.State.mem_machines hsub
              have hsize := Machine.sizeOf_nested hst hsub
              exact ih _ (Machine.mem_states hst) sub hsub x.2 (hsize.trans ht)
          rw [progressLoad_branches]
          exact Load.add_lt_single (Load.weigh_lt_single fun x _ => hchild x)
            (Load.weigh_lt_single fun x _ => hchild x)
        | idle | waiting | job =>
          rw [progressLoad_plain (by simp)]
          exact Load.single_pos

end Run

namespace Run

variable {machine : Machine} {r r' : Run} {v v' : Visit}

/-- A workflow that fits its machine and counts its retries. -/
def Tended (e : Engine σ) (machine : Machine) (r : Run) : Prop :=
  Coherent machine r ∧ Stays e machine r

theorem tended_invariant : Invariant e (Tended e) where
  fresh machine execution input :=
    ⟨coherent_ofInput execution input, stays_invariant.fresh machine execution input⟩
  start h := ⟨coherent_start h.1 _, stays_start h.2 _⟩
  step h := ⟨coherent_invariant.step h.1, stays_invariant.step h.2⟩
  abort h := ⟨coherent_invariant.abort h.1, stays_invariant.abort h.2⟩

theorem visitLoad_idle (h : ∀ b, v.progress ≠ .branches b) :
    visitLoad v machine = .single (machine.weight v) := by
  rw [visitLoad_eq, progressLoad_plain h, add_zero]

theorem start_lightens (hr : r.status = .pending) (now : Instant) :
    (r.start machine now).load machine < r.load machine := by
  rw [load_of_pending hr, start_of_pending hr,
    load_of_visit (v := arrive machine machine.start now) (by simp) rfl,
    visitLoad_idle (by simp [arrive]), Load.single_lt_single]
  exact Prod.Lex.lt_iff.mpr (.inr ⟨rfl, Prod.Lex.lt_iff.mpr (.inl (Nat.lt_succ_self _))⟩)

end Run

namespace Machine

open Run

variable {machine sub : Machine} {st : State} {r : Run} {v v' stay : Visit} {a : Advance}

/-- What a step must show of a workflow that it has not ended. -/
def Descends (e : Engine σ) (machine : Machine) : Prop :=
  ∀ {m r o r'} {s s' : σ}, Everywhere (Tended e) machine r →
    machine.step e m r s = (o, r', s') → r'.isTerminal = false →
    r'.load machine ≤ r.load machine ∧ (o ≠ .blocked → r'.load machine < r.load machine)

/-- A nested workflow with a machine of its own. -/
def State.Tends (e : Engine σ) (st : State) (i : Nat) (child : Run) : Prop :=
  ∃ sub, st.machineAt? i = some sub ∧ Everywhere (Tended e) sub child

theorem State.childLoad_eq {i : Nat} {child : Run} (h : st.machineAt? i = some sub) :
    st.childLoad i child = child.load sub := by
  rw [childLoad, h]
  rfl

theorem State.child_lightens (h : ∀ sub ∈ st.machines, Descends e sub) :
    Branches.Lightens (st.child e m) (fun i child => st.Tends e i child ∧ child.status = .pending)
      (st.Tends e) st.childLoad where
  start := by
    rintro i child ⟨⟨sub, hsub, hchild⟩, hr⟩
    rw [State.child_start hsub, childLoad_eq hsub, childLoad_eq hsub]
    exact ⟨⟨sub, hsub, tended_invariant.everywhere_start hchild⟩, start_lightens hr m.now⟩
  stay := by
    rintro i child s o child' s' ⟨sub, hsub, hchild⟩ hstep hr
    rw [State.child_step hsub] at hstep
    rw [childLoad_eq hsub, childLoad_eq hsub]
    have hlive : child'.isTerminal = false := by
      rw [← result_isSome]
      exact Option.isSome_eq_false_iff.mpr (Option.isNone_iff_eq_none.mpr hr)
    exact h sub (mem_machines hsub) hchild hstep hlive
  pos := by
    rintro i child ⟨sub, hsub, -⟩
    rw [childLoad_eq hsub]
    exact load_pos

/-- Children that wait and children in flight, each with a machine of its own. -/
structure State.Attended (e : Engine σ) (st : State) (b : Branches Run) : Prop where
  waiting : ∀ x ∈ b.pending, st.Tends e x.1 x.2 ∧ x.2.status = .pending
  flying : ∀ x ∈ b.inFlight, st.Tends e x.1 x.2

theorem State.Opens.attended {execution : Execution} {b : Branches Run} (h : st.Opens execution b) :
    st.Attended e b := by
  obtain ⟨hfresh, hempty⟩ := h.fresh
  refine ⟨fun x hx => ?_, by simp [hempty]⟩
  obtain ⟨hsome, input, hinput⟩ := hfresh x hx
  obtain ⟨sub, hsub⟩ := Option.isSome_iff_exists.mp hsome
  rw [hinput]
  exact ⟨⟨sub, hsub, tended_invariant.everywhere_fresh _ _⟩, rfl⟩

/-- All that a state nests is lighter than the state. -/
theorem State.load_lt_weight (hst : machine.state? v.state = some st) (b : Branches Run) :
    b.load st.childLoad < .single (machine.weight v) := by
  have hchild : ∀ x : Nat × Run, st.childLoad x.1 x.2 < .single (machine.weight v) := by
    intro x
    cases hsub : st.machineAt? x.1 with
    | none =>
      rw [childLoad, hsub]
      exact Load.single_pos
    | some sub =>
      rw [childLoad_eq hsub]
      exact load_lt_single sub x.2 (sizeOf_nested hst (mem_machines hsub))
  exact Load.add_lt_single (Load.weigh_lt_single fun x _ => hchild x)
    (Load.weigh_lt_single fun x _ => hchild x)

/-- The weight of a stay goes by its state, its retries, and whether it nests. -/
theorem weight_congr (hname : v'.state = v.state) (hattempts : v'.attempts = v.attempts)
    (hphase : v'.progress.phase = v.progress.phase) : machine.weight v' = machine.weight v := by
  rw [weight, weight, hname, hattempts, hphase]

theorem weight_lt_of_phase (hname : v'.state = v.state) (hattempts : v'.attempts = v.attempts)
    (hphase : v'.progress.phase < v.progress.phase) : machine.weight v' < machine.weight v := by
  rw [weight, weight, hname, hattempts]
  simp only [Prod.Lex.toLex_lt_toLex, lt_self_iff_false, true_and, false_or]
  exact hphase

theorem weight_lt_of_retries (hname : v'.state = v.state)
    (hretries : machine.retriesLeft v.state v'.attempts < machine.retriesLeft v.state v.attempts) :
    machine.weight v' < machine.weight v := by
  rw [weight, weight, hname]
  simp only [Prod.Lex.toLex_lt_toLex, lt_self_iff_false, true_and, false_or]
  exact Or.inl hretries

theorem weight_lt_of_height (h : machine.height v'.state < machine.height v.state) :
    machine.weight v' < machine.weight v := by
  simp only [weight, Prod.Lex.toLex_lt_toLex, lt_self_iff_false, true_and, false_or]
  exact Or.inl h

/-- An advance that does not leave a state makes the stay no heavier, and lighter if it goes on. -/
def Eases (machine : Machine) (v : Visit) (a : Advance) (v' : Visit) : Prop :=
  (∀ output next, a ≠ .completed output next) →
    visitLoad v' machine ≤ visitLoad v machine ∧
      (a = .progressed → visitLoad v' machine < visitLoad v machine)

theorem eases_of_left (h : ∃ output next, a = .completed output next) : machine.Eases v a v' := by
  obtain ⟨output, next, rfl⟩ := h
  exact fun hstays => (hstays output next rfl).elim

/-- To wait for something outside is to keep the weight. -/
theorem eases_of_blocked (hname : v'.state = v.state) (hattempts : v'.attempts = v.attempts)
    (hv : ∀ b, v.progress ≠ .branches b) (hv' : ∀ b, v'.progress ≠ .branches b) :
    machine.Eases v .blocked v' := by
  intro _
  rw [visitLoad_idle hv, visitLoad_idle hv', weight_congr hname hattempts
    ((Progress.phase_plain hv').trans (Progress.phase_plain hv).symm)]
  exact ⟨le_rfl, by rintro ⟨⟩⟩

theorem Wait.eases {p : Wait} {data context : Value} (hv : ∀ b, v.progress ≠ .branches b)
    (h : (p.advance m data context v).1 = .ok a) :
    machine.Eases v a (p.advance m data context v).2 := by
  unfold Wait.advance at h ⊢
  split at h
  · cases h
  · rename_i deadline hdeadline
    simp only at h
    split_ifs at h
    · cases h
      exact eases_of_blocked rfl rfl hv (by simp)
    · obtain ⟨input, -, h⟩ := bind_ok h
      exact eases_of_left (DataFlow.complete_leaves h)

theorem Task.poll_eases {p : Task} {data context : Value} {handle : JobHandle}
    {launchedAt : Instant} (hv : ∀ b, v.progress ≠ .branches b) {w : Visit}
    (hname : w.state = v.state) (hattempts : w.attempts = v.attempts)
    (h : (p.poll e m data context handle launchedAt w s).1 = .ok a) :
    machine.Eases v a (p.poll e m data context handle launchedAt w s).2.1 := by
  revert h
  refine Task.poll_rule (Q := fun q => q.1 = .ok a → machine.Eases v a q.2.1) ?_ ?_ ?_ ?_
  · intro output s' _ h
    exact eases_of_left (DataFlow.complete_leaves h)
  · rintro error cause s' _ ⟨⟩
  · rintro s' _ _ ⟨⟩
  · rintro s' _ _ ⟨⟩
    exact eases_of_blocked hname hattempts hv (by simp)

theorem Task.eases {p : Task} {data context : Value} (hv : ∀ b, v.progress ≠ .branches b)
    (h : (p.advance e m data context v s).1 = .ok a) :
    machine.Eases v a (p.advance e m data context v s).2.1 := by
  revert h
  refine Task.advance_rule (Q := fun q => q.1 = .ok a → machine.Eases v a q.2.1) ?_ ?_ ?_
  · intro handle launchedAt _
    exact Task.poll_eases hv rfl rfl
  · rintro err s' _ _ ⟨⟩
  · intro handle s' _ _
    exact Task.poll_eases hv rfl rfl

/-- Nested workflows are advanced: each of them is lighter by what it does, and those that are opened
are lighter than the state was before. -/
theorem State.branches_ease {b b' : Branches Run} {p : Bool}
    (hst : machine.state? v.state = some st) (ih : ∀ sub ∈ st.machines, Descends e sub)
    (hb : v.progress = .branches b ∨ (∀ b, v.progress ≠ .branches b) ∧ st.Opens r.execution b)
    (hattended : st.Attended e b) (hadv : b.advance (st.child e m) s = (.running p, b', s')) :
    machine.Eases v (if p then .progressed else .blocked) { v with progress := .branches b' } := by
  obtain ⟨hle, hlt⟩ := Branches.advance_lightens (State.child_lightens ih) hattended.waiting
    hattended.flying hadv
  intro _
  have hafter : visitLoad { v with progress := .branches b' } machine =
      .single (machine.weight { v with progress := .branches b' }) + b'.load st.childLoad := by
    rw [visitLoad_eq, ← progressLoad_branches, ← hst]
  rw [hafter]
  rcases hb with hb | ⟨hnone, -⟩
  · have hsame : machine.weight { v with progress := .branches b' } = machine.weight v :=
      weight_congr rfl rfl (by rw [hb]; rfl)
    rw [hsame, visitLoad_eq, hb, hst, progressLoad_branches]
    refine ⟨add_le_add_right hle _, fun hp => add_lt_add_right (hlt ?_) _⟩
    cases p with
    | true => rfl
    | false => cases hp
  · have hopened : machine.weight { v with progress := .branches b' } < machine.weight v :=
      weight_lt_of_phase rfl rfl (by rw [Progress.phase_plain hnone]; exact Nat.zero_lt_one)
    have hlight : .single (machine.weight { v with progress := .branches b' }) +
        b'.load st.childLoad < visitLoad v machine := by
      refine lt_of_lt_of_le ?_ single_le_visitLoad
      exact Load.add_lt_single (Load.single_lt_single.mpr hopened)
        (hle.trans_lt (State.load_lt_weight hst b))
    exact ⟨hlight.le, fun _ => hlight⟩

/-- A stay as an advance of its state finds it: what is being done is something that the state does,
no retry is forgotten, and what is nested has machines of its own. -/
structure State.Ready (e : Engine σ) (st : State) (execution : Execution) (v : Visit) : Prop where
  fits : st.Fits v.progress
  counted : ∀ h, st.handling? = some h → v.attempts.length = h.retriers.length
  attended : ∀ b, v.progress = .branches b → st.Attended e b

theorem State.Ready.plain {execution : Execution} (h : st.Ready e execution v)
    (hkind : ¬ (st.kind = .parallel ∨ st.kind = .map)) : ∀ b, v.progress ≠ .branches b := by
  intro b hb
  have hfits := h.fits
  rw [hb] at hfits
  cases hfits with
  | branches hnests _ => exact hkind hnests

theorem State.work_eases (hst : machine.state? v.state = some st)
    (ih : ∀ sub ∈ st.machines, Descends e sub) (hv : st.Ready e r.execution v)
    (h : (st.work e m r stay v s).1 = .ok a) :
    machine.Eases v a (st.work e m r stay v s).2.1 := by
  revert h
  refine State.work_rule (Q := fun q => q.1 = .ok a → machine.Eases v a q.2.1) ?_ ?_ ?_ ?_
  · intro res hplain hwait hwork h
    have hdone : (st.work e m r stay v s).1 = .ok a := by rwa [hwork]
    exact eases_of_left (State.plain_leaves hplain hwait hdone)
  · rintro p rfl h
    exact Wait.eases (hv.plain (by simp [kind])) h
  · rintro p rfl h
    exact Task.eases (hv.plain (by simp [kind])) h
  · intro start flow _ hmakes
    refine Branches.work_rule (Q := fun q => q.1 = .ok a → machine.Eases v a q.2.1) ?_ ?_ ?_ ?_
    · rintro err _ _ ⟨⟩
    · rintro b p b' s' hb hadv ⟨⟩
      have hattended : st.Attended e b :=
        hb.elim (hv.attended b) fun h => (hmakes b h.2).opens.attended
      exact State.branches_ease hst ih (hb.imp_right fun h => ⟨h.1, (hmakes b h.2).opens⟩)
        hattended hadv
    · intro b rs b' s' _ _ h
      exact eases_of_left (DataFlow.complete_leaves h)
    · rintro b err b' s' _ _ ⟨⟩

/-- A retry drops all that is nested and leaves one retry less. -/
theorem visitLoad_retried {h : ErrorHandling} {w : Visit} {i : Nat} {rt : Retrier}
    {err : ExecutionError} (hst : machine.state? v.state = some st) (hh : st.handling? = some h)
    (hlength : v.attempts.length = h.retriers.length)
    (hrt : h.retrierFor? err.name? = some (i, rt)) (hleft : v.attempts.getD i 0 < rt.maxAttempts)
    (hname : w.state = v.state) (hidle : w.progress = .idle)
    (hattempts : w.attempts = v.attempts.set i (v.attempts.getD i 0 + 1)) :
    visitLoad w machine < visitLoad v machine := by
  have hretries : ∀ attempts, machine.retriesLeft v.state attempts = h.left attempts := by
    intro attempts
    rw [retriesLeft, hst, Option.bind_some, hh]
    rfl
  rw [visitLoad_idle (by simp [hidle])]
  refine lt_of_lt_of_le (Load.single_lt_single.mpr ?_) single_le_visitLoad
  refine weight_lt_of_retries hname ?_
  rw [hretries, hretries, hattempts]
  exact ErrorHandling.left_retried hlength hrt hleft

/-- An advance that does not leave its state makes the stay no heavier, and lighter if it goes on. -/
theorem State.advance_eases (hst : machine.state? v.state = some st)
    (ih : ∀ sub ∈ st.machines, Descends e sub) (hv : st.Ready e r.execution v)
    (h : (State.advance e m st r v s).1 = .ok a) :
    machine.Eases v a (State.advance e m st r v s).2.1 := by
  revert h
  refine State.advance_rule (Q := fun q => q.1 = .ok a → machine.Eases v a q.2.1) ?_ ?_ ?_
  · rintro _ ⟨⟩ _
    exact ⟨le_rfl, by rintro ⟨⟩⟩
  · intro w res v' s' hw hwork _ h
    have hready : st.Ready e r.execution w := by
      rcases hw with rfl | rfl
      · exact hv
      · exact ⟨hv.fits, hv.counted, hv.attended⟩
    have hstate : machine.state? w.state = some st := by
      rcases hw with rfl | rfl
      · exact hst
      · exact hst
    have hload : visitLoad w machine = visitLoad v machine := by
      rcases hw with rfl | rfl
      · rfl
      · rw [visitLoad_eq, visitLoad_eq]
        rfl
    have hdone : (st.work e m r v w s).1 = .ok a := by
      rw [hwork]
      exact h
    have heases := State.work_eases hstate ih hready hdone
    rw [hwork] at heases
    intro hstays
    rw [← hload]
    exact heases hstays
  · intro handling err v' s' hhandling hwork
    obtain ⟨p, hframe⟩ := State.work_frame (e := e) (m := m) (s := s)
      (v := { v with notBefore := none }) st r v
    have hframe : v' = { v with notBefore := none, progress := p } := by rwa [hwork] at hframe
    refine ErrorHandling.handle_rule (Q := fun q => q.1 = .ok a → machine.Eases v a q.2) ?_ ?_ ?_ ?_
    · rintro i rt hrt hleft ⟨⟩ _
      subst hframe
      have hlight := visitLoad_retried (w := { v with
        progress := .idle
        attempts := v.attempts.set i (v.attempts.getD i 0 + 1)
        retries := v.retries + 1
        notBefore := some (m.now.after (rt.delay (m.share []) (v.attempts.getD i 0 + 1))) })
        hst hhandling (hv.counted handling hhandling) hrt hleft rfl rfl rfl
      exact ⟨hlight.le, fun _ => hlight⟩
    · rintro c output _ _ ⟨⟩
      exact eases_of_left ⟨_, _, rfl⟩
    · rintro c err' _ _ ⟨⟩
    · rintro _ ⟨⟩

theorem State.ready_of_running (h : Everywhere (Tended e) machine r) (hr : r.status = .running)
    (hv : r.visit = some v) (hst : machine.state? v.state = some st) :
    st.Ready e r.execution v := by
  have hfits := h.here.1.fits v st hv hst
  refine ⟨hfits, fun handling hhandling => ?_, fun b hb => ?_⟩
  · obtain ⟨name, data, errors, hstay⟩ := h.here.2 hr
    obtain ⟨-, -, w, hw, hname⟩ := hstay.here
    cases hv.symm.trans hw
    obtain ⟨w, hw, -, hcounts⟩ := hstay.counts (hname ▸ hst) hhandling
    cases hv.symm.trans hw
    exact hcounts.length
  · rw [hb] at hfits
    cases hfits with
    | branches _ hstaffed =>
      have hholds : ∀ x ∈ b.pending ++ b.inFlight, (st.machineAt? x.1).isSome →
          st.Tends e x.1 x.2 := by
        intro x hx hsome
        obtain ⟨sub, hsub⟩ := Option.isSome_iff_exists.mp hsome
        exact ⟨sub, hsub, h.nested hv hb hst hx hsub⟩
      refine ⟨fun x hx => ?_, fun x hx => ?_⟩
      · obtain ⟨hsome, hpending⟩ := hstaffed.waiting x hx
        exact ⟨hholds x (List.mem_append_left _ hx) hsome, hpending⟩
      · exact hholds x (List.mem_append_right _ hx) (hstaffed.flying x hx).1

/-- A workflow that is left running by its state has not become heavier, and it is lighter unless it
is blocked. -/
theorem settle_eases {config : Config} {now : Instant} {res : Except ExecutionError Advance}
    (hacyclic : machine.Acyclic) (hr : r.status = .running)
    (hst : machine.state? v.state = some st) (hleads : st.Leads res)
    (heases : ∀ a, res = .ok a → machine.Eases v a v')
    (hlive : (r.settle config machine now v' res).2.isTerminal = false) :
    (r.settle config machine now v' res).2.load machine ≤ visitLoad v machine ∧
      ((r.settle config machine now v' res).1 ≠ .blocked →
        (r.settle config machine now v' res).2.load machine < visitLoad v machine) := by
  have hload : ∀ (r' : Run) {w : Visit}, r'.status = r.status → r'.visit = some w →
      r'.load machine = visitLoad w machine := by
    intro r' w hstatus hw
    exact load_of_visit (by simp [hstatus, hr]) hw
  rcases res with err | _ | _ | ⟨output, _ | next⟩
  · cases hlive
  · rw [hload (r.settle config machine now v' (.ok .blocked)).2 rfl rfl]
    exact ⟨(heases _ rfl (by simp)).1, fun hmoved => (hmoved rfl).elim⟩
  · rw [hload (r.settle config machine now v' (.ok .progressed)).2 rfl rfl]
    obtain ⟨hle, hlt⟩ := heases _ rfl (by simp)
    exact ⟨hle, fun _ => hlt rfl⟩
  · cases hlive
  · have hlight : visitLoad (arrive machine next now) machine < visitLoad v machine := by
      rw [visitLoad_idle (by simp [arrive])]
      refine lt_of_lt_of_le (Load.single_lt_single.mpr ?_) single_le_visitLoad
      exact weight_lt_of_height (hacyclic.height_lt hst (hleads output next rfl))
    rw [hload (r.settle config machine now v' (.ok (.completed output (some next)))).2 rfl rfl]
    exact ⟨hlight.le, fun _ => hlight⟩

/-- A step that does not tell of an end has not come to it. -/
theorem step_live (h : (machine.step e m r s).1 ≠ .terminal) :
    (machine.step e m r s).2.1.isTerminal = false := by
  revert h
  refine step_rule (Q := fun q => q.1 ≠ .terminal → q.2.1.isTerminal = false) ?_ ?_ ?_ ?_ ?_
  · intro _ h
    exact (h rfl).elim
  · intro _ _ h
    exact (h rfl).elim
  · intro _ _ h
    exact (h rfl).elim
  · intro v _ _ _ h
    exact (h rfl).elim
  · rintro v st (err | _ | _ | ⟨output, _ | next⟩) v' s' hr _ _ _ _ h
    case error => exact (h rfl).elim
    case ok.completed.none => exact (h rfl).elim
    all_goals exact isTerminal_of_running (begun_status hr m.now)

/-- A step of an acyclic machine that does not end the workflow makes it no heavier, and lighter unless
the workflow is blocked. -/
theorem step_descends (machine : Machine) : machine.Acyclic → Descends e machine := by
  induction machine using Machine.induction with
  | h machine ih =>
    intro hacyclic m r o r' s s' hr hstep
    have hstart : Everywhere (Tended e) machine (r.start machine m.now) :=
      tended_invariant.everywhere_start hr
    have hstarted : (r.start machine m.now).load machine ≤ r.load machine := by
      by_cases hpending : r.status = .pending
      · exact (start_lightens hpending m.now).le
      · rw [start_of_not_pending hpending]
    have hstopped : ∀ {r₁ : Run} {cause : String}, r₁.stop e cause s = (o, r', s') →
        r'.isTerminal = true := by
      intro r₁ cause heq
      have hterminal : (r₁.stop e cause s).2.1.isTerminal = true := abort_terminal
      rwa [heq] at hterminal
    revert hstep
    refine step_rule (Q := fun q => q = (o, r', s') → r'.isTerminal = false →
      r'.load machine ≤ r.load machine ∧ (o ≠ .blocked → r'.load machine < r.load machine))
      ?_ ?_ ?_ ?_ ?_
    · rintro hterminal ⟨⟩ hlive
      rw [hterminal] at hlive
      cases hlive
    · intro _ _ heq hlive
      rw [hstopped heq] at hlive
      cases hlive
    · intro _ _ heq hlive
      rw [hstopped heq] at hlive
      cases hlive
    · intro v _ _ _ heq hlive
      rw [hstopped heq] at hlive
      cases hlive
    · rintro v st res v' s₁ hr' _ hv hst hadv ⟨⟩ hlive
      have hrunning : (r.start machine m.now).status = .running := start_status hr' _
      have hready := State.ready_of_running hstart hrunning hv hst
      have hleads : st.Leads (State.advance e m st (r.begun machine m.now) v s).1 :=
        State.advance_leads
      have heases : ∀ a, res = .ok a → machine.Eases v a v' := by
        intro a hres
        have heases := State.advance_eases (m := m) (s := s) (a := a)
          (r := r.begun machine m.now) hst
          (fun sub hsub => ih _ (mem_states hst) sub hsub (hacyclic.nested hst hsub)) hready
          (by rw [hadv, hres])
        rwa [hadv] at heases
      rw [hadv] at hleads
      obtain ⟨hle, hlt⟩ := settle_eases hacyclic (begun_status hr' _) hst hleads heases hlive
      have hload : visitLoad v machine ≤ r.load machine := by
        have hv : (r.start machine m.now).visit = some v := hv
        rwa [load_of_visit (by simp [hrunning]) hv] at hstarted
      exact ⟨hle.trans hload, fun hmoved => (hlt hmoved).trans_le hload⟩

end Machine

namespace Workflow

variable {runner : JobRunner σ} {g : Document.Graph} {input : Value} {id : String}
  {config : Config} {w₀ w : Workflow} {s₀ : σ}

/-- The steps of an acyclic machine that make a workflow go on come to an end. -/
theorem runFrom_ends {machine : Machine} {r : Run} (hacyclic : machine.Acyclic)
    (hr : Run.Everywhere (Run.Tended ⟨runner, config⟩) machine r) (moment : Nat → Moment)
    (k : Nat) (s : σ) :
    ∃ fuel out, runFrom runner moment fuel k ⟨machine, config, r⟩ s = some out := by
  -- the induction is on what is left to be done
  induction hload : r.load machine using WellFoundedLT.induction generalizing r k s with
  | ind load ih =>
    rcases hstep : machine.step ⟨runner, config⟩ ((moment k).part r.steps) r s with ⟨o, r', s'⟩
    have hfirst : step runner (moment k) ⟨machine, config, r⟩ s = (o, ⟨machine, config, r'⟩, s') := by
      simp only [step, hstep]
    cases o with
    | blocked | terminal => exact ⟨1, _, by rw [runFrom, hfirst]⟩
    | progressed =>
      have hlive : r'.isTerminal = false := by
        have hlive := Machine.step_live (e := ⟨runner, config⟩) (r := r) (by rw [hstep]; simp)
        rwa [hstep] at hlive
      have hkept : Run.Everywhere (Run.Tended ⟨runner, config⟩) machine r' := by
        have hkept := Run.tended_invariant.everywhere_step machine (s := s)
          (m := (moment k).part r.steps) hr
        rwa [hstep] at hkept
      obtain ⟨-, hlight⟩ := Machine.step_descends machine hacyclic hr hstep hlive
      have hlight : r'.load machine < load := hload ▸ hlight (by simp)
      obtain ⟨fuel, out, hrun⟩ := ih _ hlight hkept (k + 1) s' rfl
      exact ⟨fuel + 1, out, by rwa [runFrom, hfirst]⟩

/-- A workflow of a valid document in which no graph has a cycle can be run from wherever it has got
to: after some steps it has ended or waits for something outside, whatever its runner and the clock
do, and also where the steps are not limited. -/
theorem acyclic_ends (hw : ofDocument g input id config = .ok w₀)
    (hacyclic : ∀ x ∈ g.all, x.2.Acyclic) (h : Reaches runner w₀ s₀ w s) (moment : Nat → Moment)
    (k : Nat) (s' : σ) : ∃ fuel out, w.runFrom runner moment fuel k s' = some out := by
  obtain ⟨hcompile, hsealed, hnew⟩ := ofDocument_sealed hw
  have hmachine : w₀.machine.Acyclic := Machine.compile_acyclic g "StateMachine" hcompile
    fun x hx => ⟨hsealed x hx, hacyclic x hx⟩
  rw [hnew] at h
  obtain ⟨hsame, rfl, htended⟩ := h.everywhere Run.tended_invariant
  rw [← hsame] at hmachine htended
  exact runFrom_ends hmachine htended moment k s'

section

/-- A document whose branches always fail, and are started again and again before they are given up. -/
def stormyGraph : Document.Graph where
  startAt := some "Both"
  states := some [
    ("Both", .parallel
      { transition := { next := some "Done" },
        retry := [{ errorEquals := ["States.ALL"], maxAttempts := some 2 }],
        catchers := [{ errorEquals := ["States.ALL"], next := some "Recover" }] }
      (some [{
        startAt := some "Work"
        states := some [
          ("Work", .task
            { transition := { isEnd := true }, resource := some "local",
              retry := [{ errorEquals := ["States.ALL"], maxAttempts := some 3 }] })] }])),
    ("Recover", .pass { transition := { next := some "Done" } }),
    ("Done", .succeed {})]

def stormyWorkflow : Workflow := (ofDocument stormyGraph .null "id").toOption.getD default

/-- The workflow after its first step, in which the branch has failed once. -/
def stormyStepped : Workflow := (stormyWorkflow.step failingRunner .zero ()).2.1

/-- Although nothing limits its steps the workflow can be run from there to where it waits or ends. -/
theorem stormy_ends : ofDocument stormyGraph .null "id" = .ok stormyWorkflow ∧
    stormyWorkflow.config.maxSteps = none ∧ (∀ x ∈ stormyGraph.all, x.2.Acyclic) ∧
    Reaches failingRunner stormyWorkflow () stormyStepped () ∧
    stormyStepped.run.status = .running ∧ stormyStepped.run.current? = some "Both" ∧
    ∃ fuel out, stormyStepped.runFrom failingRunner (fun _ => .zero) fuel 0 () = some out := by
  have hw : ofDocument stormyGraph .null "id" = .ok stormyWorkflow := rfl
  have hreach : Reaches failingRunner stormyWorkflow () stormyStepped () :=
    .step (m := .zero) .new rfl
  have hacyclic : ∀ x ∈ stormyGraph.all, x.2.Acyclic := by
    have hnumbered : ∀ x ∈ stormyGraph.all, ∀ s ∈ x.2.stateList,
        ∀ t ∈ Validation.targets s.2, (["Done", "Recover", "Both", "Work"].idxOf t.2) <
          ["Done", "Recover", "Both", "Work"].idxOf s.1 := by decide
    exact fun x hx => Document.Graph.acyclic_of_number
      (fun name => ["Done", "Recover", "Both", "Work"].idxOf name) (hnumbered x hx)
  exact ⟨hw, rfl, hacyclic, hreach, rfl, rfl, acyclic_ends hw hacyclic hreach _ 0 ()⟩

end

end Workflow

end StatesLanguage
