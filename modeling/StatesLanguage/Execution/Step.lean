import StatesLanguage.Execution.Advance
/-!
One step of a workflow: the current state is advanced once, and the workflow goes on to the next
state when it is done. The workflows nested in a state are stepped by the machine of that state.
-/
namespace StatesLanguage

namespace Run

/-- The stay in a state that has just been entered. -/
def arrive (machine : Machine) (name : String) (now : Instant) : Visit where
  state := name
  enteredAt := now
  progress := .idle
  attempts := List.replicate ((machine.state? name).elim 0 Machine.State.retrierCount) 0
  retries := 0
  notBefore := none

/-- Makes a state the current one, with its input. -/
def enter (machine : Machine) (name : String) (data : Value) (now : Instant) (r : Run) : Run :=
  { r with visit := some (arrive machine name now), data }

/-- Enters the first state of a workflow that has yet to start. -/
def start (machine : Machine) (now : Instant) (r : Run) : Run :=
  match r.status with
  | .pending =>
    let execution := { r.execution with startedAt := r.execution.startedAt.or (some now) }
    { r with status := .running, execution }.enter machine machine.start r.data now
  | _ => r

/-- Leaves the current state. -/
def leave (config : Config) (v : Visit) (next : Option String) (outcome : Except Value Value)
    (r : Run) : Run :=
  { r with
    visit := some { v with progress := .idle }
    next
    history := if config.recordHistory then r.history ++ [⟨v.state, outcome⟩] else r.history }

/-- Ends a workflow with its output. -/
@[simp]
def succeed (output : Value) (r : Run) : Run :=
  { r with status := .succeeded, output := some output }

/-- Ends a workflow with an error, the payload of which is its output. -/
@[simp]
def fail (e : ExecutionError) (r : Run) : Run :=
  { r with status := .failed, output := some e.payload, error := some e }

/-- Takes what came of an advance of the current state. -/
def settle (config : Config) (machine : Machine) (now : Instant) (v : Visit) (r : Run) :
    Except ExecutionError Advance → StepOutcome × Run
  | .ok .blocked => (.blocked, { r with visit := some v })
  | .ok .progressed => (.progressed, { r with visit := some v })
  | .ok (.completed output (some next)) =>
    (.progressed, (r.leave config v (some next) (.ok output)).enter machine next output now)
  | .ok (.completed output none) =>
    (.terminal, (r.leave config v none (.ok output)).succeed output)
  | .error e => (.terminal, (r.leave config v none (.error e.payload)).fail e)

/-- Whether as many steps were taken as are allowed. -/
def isExhausted (config : Config) (r : Run) : Bool := config.maxSteps.any fun n => n ≤ r.steps

/-- The cause of an abort for too many steps. -/
def stepLimit (config : Config) : String :=
  s!"Exceeded the limit of {config.maxSteps.getD 0} steps"

variable {σ : Type}

/-- Stops a workflow in a step. -/
def stop (e : Engine σ) (cause : String) (r : Run) (s : σ) : StepOutcome × Run × σ :=
  (.terminal, r.abort e.runner cause s)

/-- One step, with what advances the state of a stay. -/
def stepWith (e : Engine σ) (now : Instant) (machine : Machine)
    (advance : Run → Visit → σ → Option (Except ExecutionError Advance × Visit × σ))
    (r : Run) (s : σ) : StepOutcome × Run × σ :=
  if r.isTerminal then (.terminal, r, s)
  else
    let r := r.start machine now
    if r.isExhausted e.config then r.stop e (stepLimit e.config) s
    else
      let r := { r with steps := r.steps + 1 }
      match r.visit with
      | none => r.stop e "Workflow has no current state" s
      | some v =>
        match advance r v s with
        | none => r.stop e s!"State {v.state} is not defined" s
        | some (result, v, s) =>
          let (outcome, r) := r.settle e.config machine now v result
          (outcome, r, s)

end Run

/-- What a state does about an error: the first retrier for it sends the state back while it has
attempts left, else the first catcher for it leads on, else the workflow fails. -/
def ErrorHandling.handle (h : ErrorHandling) (m : Moment) (data : Value) (e : ExecutionError)
    (v : Visit) : Except ExecutionError Advance × Visit :=
  let caught : Except ExecutionError Advance :=
    match h.catcherFor? e.name? with
    | some c =>
      (c.resultPath.apply data e.payload).map fun output => .completed output (some c.next)
    | none => .error e
  match h.retrierFor? e.name? with
  | some (i, r) =>
    let used := v.attempts.getD i 0
    if used < r.maxAttempts then
      (.ok .progressed,
        { v with
          progress := .idle
          attempts := v.attempts.set i (used + 1)
          retries := v.retries + 1
          notBefore := some (m.now.after (r.delay (m.share []) (used + 1))) })
    else (caught, v)
  | none => (caught, v)

section

variable {σ : Type}

/-- The work of a state that can be retried. Nothing is done before a delay is over. -/
def ErrorHandling.guard (h : ErrorHandling) (m : Moment) (data : Value)
    (work : Visit → σ → Except ExecutionError Advance × Visit × σ) (v : Visit) (s : σ) :
    Except ExecutionError Advance × Visit × σ :=
  if v.notBefore.any fun t => m.now.before t then (.ok .blocked, v, s)
  else
    match work { v with notBefore := none } s with
    | (.ok a, v, s) => (.ok a, v, s)
    | (.error e, v, s) =>
      let (result, v) := h.handle m data e v
      (result, v, s)

/-- Advances the nested workflows of a state, which are made when there are none. -/
def Branches.work (start : Except ExecutionError (Branches Run)) (c : Child Run σ)
    (complete : Value → Except ExecutionError Advance) (v : Visit) (s : σ) :
    Except ExecutionError Advance × Visit × σ :=
  let idle := { v with progress := .idle }
  let found : Except ExecutionError (Branches Run) := match v.progress with
    | .branches b => .ok b
    | _ => start
  match found with
  | .error e => (.error e, idle, s)
  | .ok b =>
    match b.advance c s with
    | (.running progressed, b, s) =>
      (.ok (if progressed then .progressed else .blocked), { v with progress := .branches b }, s)
    | (.completed results, _, s) => (complete (.arr results), idle, s)
    | (.failed e, _, s) => (.error e, idle, s)

/-- Nested workflows, with what starts and what steps each of them. -/
def Run.child (runner : JobRunner σ) (start : Nat → Run → Run)
    (step : Nat → Run → σ → StepOutcome × Run × σ) : Child Run σ where
  start := start
  step := step
  result? := Run.result?
  abort := Run.abort runner

namespace Machine

mutual

/-- One step of a workflow that runs a machine. -/
def step (e : Engine σ) (m : Moment) : Machine → Run → σ → StepOutcome × Run × σ
  | ⟨start, states⟩, r, s => r.stepWith e m.now ⟨start, states⟩ (advanceNamed e m states) s

/-- Advances the state of a stay, if there is one of that name. -/
def advanceNamed (e : Engine σ) (m : Moment) : List (String × State) → Run → Visit → σ →
    Option (Except ExecutionError Advance × Visit × σ)
  | [], _, _, _ => none
  | (name, state) :: rest, r, v, s =>
    if v.state == name then some (State.advance e m state r v s)
    else advanceNamed e m rest r v s

/-- Advances a state once. -/
def State.advance (e : Engine σ) (m : Moment) : State → Run → Visit → σ →
    Except ExecutionError Advance × Visit × σ
  | .pass p, r, v, s => (p.advance m r.data (r.contextAt v), v, s)
  | .succeed p, r, v, s => (p.advance m r.data (r.contextAt v), v, s)
  | .fail p, r, v, s => (p.advance r.data (r.contextAt v), v, s)
  | .choice p, r, v, s => (p.advance m v.state r.data (r.contextAt v), v, s)
  | .wait p, r, v, s =>
    let (result, v) := p.advance m r.data (r.contextAt v) v
    (result, v, s)
  | .task p, r, v, s =>
    p.handling.guard m r.data (p.advance e m r.data (r.contextAt v)) v s
  | .parallel p branches, r, v, s =>
    let context := r.contextAt v
    p.handling.guard m r.data
      (Branches.work (p.start branches.length m r.execution r.data context)
        (Run.child e.runner
          (fun i child => branches[i]?.elim child fun machine => child.start machine m.now)
          (fun i child s => stepBranch e (m.child i) branches i child s))
        (p.flow.complete m p.next r.data context))
      v s
  | .map p processor, r, v, s =>
    let context := r.contextAt v
    p.handling.guard m r.data
      (Branches.work (p.start m r.execution r.data context)
        (Run.child e.runner
          (fun _ child => child.start processor m.now)
          (fun i child s => step e (m.child i) processor child s))
        (p.flow.complete m p.next r.data context))
      v s

/-- One step of the workflow that runs the branch of that number. -/
def stepBranch (e : Engine σ) (m : Moment) : List Machine → Nat → Run → σ →
    StepOutcome × Run × σ
  | [], _, r, s => (.blocked, r, s)
  | machine :: _, 0, r, s => step e m machine r s
  | _ :: rest, n + 1, r, s => stepBranch e m rest n r s

end

end Machine

end

end StatesLanguage
