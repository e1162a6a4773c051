import StatesLanguage.Execution.Step

/-! Machines nest through the branches of a Parallel and the processor of a Map. What a step does is
put here in terms of the machine that runs each nested workflow. -/
namespace StatesLanguage.Machine

variable {σ : Type} {e : Engine σ} {m : Moment}

/-- The machines that the nested workflows of a state run. -/
def State.machines : State → List Machine
  | .parallel _ branches => branches
  | .map _ processor => [processor]
  | _ => []

/-- The machine of the nested workflow of that number. -/
def State.machineAt? : State → Nat → Option Machine
  | .parallel _ branches, i => branches[i]?
  | .map _ processor, _ => some processor
  | _, _ => none

theorem State.mem_machines {st : State} {i : Nat} {sub : Machine}
    (h : st.machineAt? i = some sub) : sub ∈ st.machines := by
  cases st with
  | parallel p branches => exact List.mem_of_getElem? h
  | map p processor => simp_all [State.machineAt?, State.machines]
  | _ => simp [State.machineAt?] at h

theorem mem_states {machine : Machine} {name : String} {st : State}
    (h : machine.state? name = some st) : (name, st) ∈ machine.states := by
  obtain ⟨start, states⟩ := machine
  change states.lookup name = some st at h
  change (name, st) ∈ states
  induction states with
  | nil => simp at h
  | cons s rest ih =>
    obtain ⟨key, value⟩ := s
    rw [List.lookup_cons] at h
    cases hk : name == key with
    | true => simp_all
    | false => exact List.mem_cons_of_mem _ (ih (by simpa [hk] using h))

section

variable {P : Machine → Prop}

mutual

/-- What holds of a machine whenever it holds of the machines inside it holds of all machines. -/
theorem induction
    (h : ∀ machine : Machine, (∀ s ∈ machine.states, ∀ sub ∈ s.2.machines, P sub) → P machine) :
    ∀ machine : Machine, P machine
  | ⟨start, states⟩ => h ⟨start, states⟩ (induction_states h states)

theorem induction_states
    (h : ∀ machine : Machine, (∀ s ∈ machine.states, ∀ sub ∈ s.2.machines, P sub) → P machine) :
    ∀ states : List (String × State), ∀ s ∈ states, ∀ sub ∈ s.2.machines, P sub
  | [], _, hs => by cases hs
  | (name, st) :: rest, s, hs => by
    rcases List.mem_cons.mp hs with heq | hs
    · rw [heq]
      exact induction_state h st
    · exact induction_states h rest s hs

theorem induction_state
    (h : ∀ machine : Machine, (∀ s ∈ machine.states, ∀ sub ∈ s.2.machines, P sub) → P machine) :
    ∀ st : State, ∀ sub ∈ st.machines, P sub
  | .parallel _ branches, sub, hs => induction_branches h branches sub hs
  | .map _ processor, sub, hs => by
    rw [List.mem_singleton.mp hs]
    exact induction h processor
  | .pass _, _, hs | .task _, _, hs | .wait _, _, hs | .choice _, _, hs | .succeed _, _, hs
  | .fail _, _, hs => by cases hs

theorem induction_branches
    (h : ∀ machine : Machine, (∀ s ∈ machine.states, ∀ sub ∈ s.2.machines, P sub) → P machine) :
    ∀ branches : List Machine, ∀ sub ∈ branches, P sub
  | [], _, hs => by cases hs
  | machine :: rest, sub, hs => by
    rcases List.mem_cons.mp hs with heq | hs
    · rw [heq]
      exact induction h machine
    · exact induction_branches h rest sub hs

end

end

theorem advanceNamed_eq (states : List (String × State)) (r : Run) (v : Visit) (s : σ) :
    advanceNamed e m states r v s =
      (states.lookup v.state).map fun st => State.advance e m st r v s := by
  induction states with
  | nil => rfl
  | cons s rest ih =>
    obtain ⟨name, st⟩ := s
    rw [advanceNamed, List.lookup_cons, ih]
    cases v.state == name <;> rfl

theorem stepBranch_eq (branches : List Machine) (i : Nat) (r : Run) (s : σ) :
    stepBranch e m branches i r s =
      match branches[i]? with
      | some machine => step e m machine r s
      | none => (.blocked, r, s) := by
  induction branches generalizing i with
  | nil => rfl
  | cons machine rest ih =>
    cases i with
    | zero => rfl
    | succ i => rw [stepBranch, ih]; rfl

/-- The nested workflows of a state, each run by its own machine. -/
def State.child (e : Engine σ) (m : Moment) (st : State) : Child Run σ :=
  Run.child e.runner
    (fun i r => (st.machineAt? i).elim r fun sub => r.start sub m.now)
    (fun i r s => match st.machineAt? i with
      | some sub => step e (m.child i) sub r s
      | none => (.blocked, r, s))

/-- A step advances the state of that name in the machine. -/
theorem step_eq (machine : Machine) (r : Run) (s : σ) :
    step e m machine r s = r.stepWith e m.now machine
      (fun r v s => (machine.state? v.state).map fun st => State.advance e m st r v s) s := by
  obtain ⟨start, states⟩ := machine
  rw [step]
  congr 1
  funext r v s
  exact advanceNamed_eq states r v s

theorem advance_parallel (p : Parallel) (branches : List Machine) (r : Run) (v : Visit) (s : σ) :
    State.advance e m (.parallel p branches) r v s =
      p.handling.guard m r.data
        (Branches.work (p.start branches.length m r.execution r.data (r.contextAt v))
          (State.child e m (.parallel p branches))
          (p.flow.complete m p.next r.data (r.contextAt v))) v s := by
  simp only [State.advance, State.child, State.machineAt?, stepBranch_eq]

theorem advance_map (p : Map) (processor : Machine) (r : Run) (v : Visit) (s : σ) :
    State.advance e m (.map p processor) r v s =
      p.handling.guard m r.data
        (Branches.work (p.start m r.execution r.data (r.contextAt v))
          (State.child e m (.map p processor))
          (p.flow.complete m p.next r.data (r.contextAt v))) v s := by
  simp only [State.advance, State.child, State.machineAt?, Option.elim]

end StatesLanguage.Machine
