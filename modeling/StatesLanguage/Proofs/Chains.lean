import StatesLanguage.Proofs.Retries

/-! How data is handed on. Each state gets what the one before has put out, the history is written at
its end only, and what a workflow hands out is what its last entry says. -/
namespace StatesLanguage

variable {σ : Type} {e : Engine σ} {m : Moment} {s : σ}

namespace Machine

variable {st : State} {r : Run} {v : Visit} {a : Advance}

/-- Work that a state cannot retry does not depend on any delay. -/
theorem State.plain_undelayed (hst : st.handling? = none) :
    (st.work e m r v { v with notBefore := none } s).1 = (st.work e m r v v s).1 := by
  cases st with
  | task | parallel | map => cases hst
  | wait p =>
    simp only [State.work, Wait.advance, Wait.deadline]
    split <;> rfl
  | pass | succeed | fail | choice => rfl

theorem State.unraised_of_plain (hst : st.handling? = none)
    (hadv : (st.advance e m r v s).1 = .ok a) : st.raised? e m r v s = none := by
  rw [State.advance_eq, hst, ← plain_undelayed hst] at hadv
  simp [raised?, hadv]

end Machine

namespace Run

variable {machine : Machine} {r r' : Run} {v : Visit} {st : Machine.State} {input : Value}
  {name : String} {data : Value} {errors : List ExecutionError}

/-- What a history hands on: the outcome of its last entry, or the input of the workflow where it has
none. -/
def handedOn (input : Value) (history : List Entry) : Except Value Value :=
  history.getLast?.elim (.ok input) Entry.outcome

/-- A workflow whose data, while it is running, and whose output, when it has ended, are what its
history hands on. -/
structure Chained (input : Value) (r : Run) : Prop where
  pending : r.status = .pending → r.history = [] ∧ r.data = input
  running : r.status = .running → handedOn input r.history = .ok r.data
  succeeded : r.status = .succeeded → ∃ name output, r.output = some output ∧
    r.current? = some name ∧ r.history.getLast? = some ⟨name, .ok output⟩
  failed : r.status = .failed → ∃ name err, r.error = some err ∧ r.output = some err.payload ∧
    r.current? = some name ∧ r.history.getLast? = some ⟨name, .error err.payload⟩

theorem chained_ofInput (execution : Execution) (input : Value) :
    Chained input (.ofInput execution input) := by
  refine ⟨fun _ => ⟨rfl, rfl⟩, ?_, ?_, ?_⟩ <;> simp [ofInput]

theorem chained_start (h : Chained input r) (now : Instant) :
    Chained input (r.start machine now) := by
  by_cases hr : r.status = .pending
  · obtain ⟨hhistory, hdata⟩ := h.pending hr
    rw [start_of_pending hr]
    refine ⟨by simp, fun _ => ?_, by simp, by simp⟩
    simp [handedOn, hhistory, hdata]
  · rw [start_of_not_pending hr]
    exact h

theorem chained_abort (h : Chained input r) (runner : JobRunner σ) (cause : String) (s : σ) :
    Chained input (r.abort runner cause s).1 := by
  cases hr : r.isTerminal with
  | true => simpa [abort, hr] using h
  | false =>
    have hstatus : (r.abort runner cause s).1.status = .aborted := by simp [abort, hr]
    refine ⟨?_, ?_, ?_, ?_⟩ <;> simp [hstatus]

/-- To settle an advance that leaves the state is to write an entry with what is handed on. -/
theorem chained_settle {config : Config} {now : Instant} {res : Except ExecutionError Advance}
    (hrecord : config.recordHistory = true) (hr : r.status = .running) (h : Chained input r) :
    Chained input (r.settle config machine now v res).2 := by
  rcases res with err | _ | _ | ⟨output, _ | next⟩
  · refine ⟨by rintro ⟨⟩, by rintro ⟨⟩, by rintro ⟨⟩, fun _ => ?_⟩
    exact ⟨v.state, err, rfl, rfl, rfl, by simp [settle, leave, hrecord]⟩
  · exact ⟨by simp [settle, hr], fun _ => h.running hr, by simp [settle, hr], by simp [settle, hr]⟩
  · exact ⟨by simp [settle, hr], fun _ => h.running hr, by simp [settle, hr], by simp [settle, hr]⟩
  · refine ⟨by rintro ⟨⟩, by rintro ⟨⟩, fun _ => ?_, by rintro ⟨⟩⟩
    exact ⟨v.state, output, rfl, rfl, by simp [settle, leave, hrecord]⟩
  · refine ⟨?_, fun _ => ?_, ?_, ?_⟩
    · simp [settle, leave, enter, hr]
    · simp [settle, leave, enter, hrecord, handedOn]
    · simp [settle, leave, enter, hr]
    · simp [settle, leave, enter, hr]

theorem chained_step (hrecord : e.config.recordHistory = true) (h : Chained input r) :
    Chained input (machine.step e m r s).2.1 := by
  have hstart : Chained input (r.start machine m.now) := chained_start h m.now
  have hbegun : Chained input (r.begun machine m.now) :=
    ⟨hstart.pending, hstart.running, hstart.succeeded, hstart.failed⟩
  refine step_rule (Q := fun q => Chained input q.2.1) ?_ ?_ ?_ ?_ ?_
  · intro _
    exact h
  · intro _ _
    exact chained_abort hstart _ _ _
  · intro _ _
    exact chained_abort hbegun _ _ _
  · intro v _ _ _
    exact chained_abort hbegun _ _ _
  · intro v st res v' s' hr _ _ _ _
    exact chained_settle hrecord (begun_status hr _) hbegun

theorem chained_invariant (hrecord : e.config.recordHistory = true) :
    Invariant e fun _ r => ∃ input, Chained input r where
  fresh _ execution input := ⟨input, chained_ofInput execution input⟩
  start := by
    rintro machine r now ⟨input, h⟩
    exact ⟨input, chained_start h now⟩
  step := by
    rintro machine r m s ⟨input, h⟩
    exact ⟨input, chained_step hrecord h⟩
  abort := by
    rintro machine r cause s ⟨input, h⟩
    exact ⟨input, chained_abort h _ cause s⟩

theorem start_history (now : Instant) : (r.start machine now).history = r.history := by
  by_cases hr : r.status = .pending
  · rw [start_of_pending hr]
  · rw [start_of_not_pending hr]

theorem abort_history (runner : JobRunner σ) (cause : String) (s : σ) :
    (r.abort runner cause s).1.history = r.history := by
  unfold abort
  split <;> rfl

/-- A step writes at the end of the history only. -/
theorem step_history : r.history <+: (machine.step e m r s).2.1.history := by
  have hstopped {r' : Run} {cause : String} (hr' : r'.history = r.history) :
      r.history <+: (r'.stop e cause s).2.1.history := by
    have hhistory : (r'.stop e cause s).2.1.history = r.history :=
      (abort_history e.runner cause s).trans hr'
    exact hhistory ▸ List.prefix_rfl
  refine step_rule (Q := fun q => r.history <+: q.2.1.history) ?_ ?_ ?_ ?_ ?_
  · intro _
    exact List.prefix_rfl
  · intro _ _
    exact hstopped (start_history m.now)
  · intro _ _
    exact hstopped (start_history m.now)
  · intro v _ _ _
    exact hstopped (start_history m.now)
  · intro v st res v' s' _ _ _ _ _
    have hbegun : (r.begun machine m.now).history = r.history := start_history m.now
    have hleave (v : Visit) (next : Option String) (outcome : Except Value Value) :
        r.history <+: ((r.begun machine m.now).leave e.config v next outcome).history := by
      simp only [leave, hbegun]
      split_ifs
      · exact List.prefix_append _ _
      · exact List.prefix_rfl
    rcases res with err | _ | _ | ⟨output, _ | next⟩
    · exact hleave v' none (.error err.payload)
    · exact hbegun ▸ List.prefix_rfl
    · exact hbegun ▸ List.prefix_rfl
    · exact hleave v' none (.ok output)
    · exact hleave v' (some next) (.ok output)

/-- What came of the advance of the current state in a step. -/
def advanced? (e : Engine σ) (m : Moment) (machine : Machine) (r : Run) (s : σ) :
    Option (Except ExecutionError Advance) :=
  r.visit.bind fun v => (machine.state? v.state).map fun st => (st.advance e m r v s).1

/-- What is left alone as long as a workflow stays in a state. -/
structure Unmoved (r r' : Run) : Prop where
  current : r'.current? = r.current?
  data : r'.data = r.data
  next : r'.next = r.next
  history : r'.history = r.history

/-- A workflow that has been led on with an output: to the next state, which gets it as its data, or
to its end. -/
structure LedOn (output : Value) (target : Option String) (r' : Run) : Prop where
  next : r'.next = target
  entered : ∀ name, target = some name →
    r'.status = .running ∧ r'.current? = some name ∧ r'.data = output
  ended : target = none → r'.Succeeded output

/-- What one step makes of the record of a workflow that is in a state, which it has entered with some
data. As long as the state goes on nothing is written; otherwise there is one more entry, and its
outcome is handed on. An error that is caught is put into the data with which the state was entered. -/
inductive Link (e : Engine σ) (m : Moment) (machine : Machine) (name : String) (data : Value)
    (s : σ) (r r' : Run) : Prop where
  | stopped {cause : String} : r.isExhausted e.config = true ∨ machine.state? name = none →
    r'.Aborted cause → r'.current? = some name → r'.data = data →
    r'.history = r.history → Link e m machine name data s r r'
  | kept {a : Advance} : r.advanced? e m machine s = some (.ok a) →
    (∀ output next, a ≠ .completed output next) → r'.status = .running → Unmoved r r' →
    Link e m machine name data s r r'
  | completed {output : Value} {next : Option String} :
    r.advanced? e m machine s = some (.ok (.completed output next)) →
    r.raised? e m machine s = none → r'.history = r.history ++ [⟨name, .ok output⟩] →
    LedOn output next r' → Link e m machine name data s r r'
  | caught {st : Machine.State} {handling : ErrorHandling} {err : ExecutionError} {c : Catcher}
    {output : Value} : machine.state? name = some st → st.handling? = some handling →
    r.raised? e m machine s = some err → handling.catcherFor? err.name? = some c →
    c.resultPath.apply data err.payload = .ok output →
    r'.history = r.history ++ [⟨name, .ok output⟩] → LedOn output (some c.next) r' →
    Link e m machine name data s r r'
  | failed {err : ExecutionError} : r.advanced? e m machine s = some (.error err) →
    r'.Failed err → r'.current? = some name →
    r'.history = r.history ++ [⟨name, .error err.payload⟩] → Link e m machine name data s r r'

theorem ledOn_settle {config : Config} {now : Instant} {output : Value} {next : Option String}
    (hr : r.status = .running) :
    LedOn output next (r.settle config machine now v (.ok (.completed output next))).2 := by
  cases next with
  | none => exact ⟨rfl, by rintro _ ⟨⟩, fun _ => succeeded_succeed output⟩
  | some next =>
    refine ⟨rfl, ?_, by rintro ⟨⟩⟩
    rintro _ ⟨⟩
    exact ⟨hr, rfl, rfl⟩

theorem settle_history {config : Config} {now : Instant} {output : Value} {next : Option String}
    (hrecord : config.recordHistory = true) :
    (r.settle config machine now v (.ok (.completed output next))).2.history =
      r.history ++ [⟨v.state, .ok output⟩] := by
  cases next <;> simp [settle, leave, enter, hrecord]

/-- A step that finds no state to advance, or is one too many, stops the workflow. -/
theorem step_halted (hr : r.status = .running) (hv : r.visit = some v)
    (hhalt : r.isExhausted e.config = true ∨ machine.state? v.state = none) :
    ∃ cause, (machine.step e m r s).2.1.Aborted cause ∧
      (machine.step e m r s).2.1.current? = r.current? ∧
      (machine.step e m r s).2.1.data = r.data ∧
      (machine.step e m r s).2.1.history = r.history := by
  have hstarted : r.start machine m.now = r := start_of_not_pending (by simp [hr]) m.now
  have hrunning : r.isTerminal = false := isTerminal_of_running hr
  have hstopped {r₁ : Run} (cause : String) (hr₁ : r₁.isTerminal = false)
      (hcurrent : r₁.current? = r.current?) (hdata : r₁.data = r.data)
      (hhistory : r₁.history = r.history) :
      ∃ cause', (r₁.stop e cause s).2.1.Aborted cause' ∧
        (r₁.stop e cause s).2.1.current? = r.current? ∧ (r₁.stop e cause s).2.1.data = r.data ∧
        (r₁.stop e cause s).2.1.history = r.history := by
    refine ⟨cause, aborted_abort hr₁ e.runner cause s, ?_, ?_, ?_⟩
    · rw [← hcurrent]
      simp [stop, abort, hr₁, current?, Function.comp_def]
    · simp [stop, abort, hr₁, hdata]
    · rw [stop, abort_history, hhistory]
  refine step_rule (Q := fun q => ∃ cause, q.2.1.Aborted cause ∧
    q.2.1.current? = r.current? ∧ q.2.1.data = r.data ∧ q.2.1.history = r.history) ?_ ?_ ?_ ?_ ?_
  · intro hterminal
    rw [hrunning] at hterminal
    cases hterminal
  · intro _ _
    rw [hstarted]
    exact hstopped _ hrunning rfl rfl rfl
  · intro _ _
    rw [begun, hstarted]
    exact hstopped _ hrunning rfl rfl rfl
  · intro v _ _ _
    rw [begun, hstarted]
    exact hstopped _ hrunning rfl rfl rfl
  · intro v' st res w s' _ hlimit hv' hst _
    rw [hstarted] at hlimit
    rw [begun, hstarted] at hv'
    cases hv.symm.trans hv'
    rcases hhalt with hexhausted | hnone
    · rw [hlimit] at hexhausted
      cases hexhausted
    · rw [hst] at hnone
      cases hnone

/-- Where a state is left with an output after an error, a catcher has put the error into the data. -/
theorem caught_of_completed {h : ErrorHandling} {err : ExecutionError} {output : Value}
    {target : Option String} (hst : st.handling? = some h)
    (hraised : st.raised? e m r v s = some err)
    (hadv : (st.advance e m r v s).1 = .ok (.completed output target)) :
    ∃ c, h.catcherFor? err.name? = some c ∧ c.resultPath.apply r.data err.payload = .ok output ∧
      target = some c.next := by
  obtain ⟨p, s', hhandle⟩ := Machine.State.advance_raised hst hraised
  rw [hhandle] at hadv
  revert hadv
  refine ErrorHandling.handle_rule (Q := fun q => q.1 = .ok (.completed output target) → _)
    ?_ ?_ ?_ ?_
  · rintro i rt _ _ ⟨⟩
  · rintro c output' hc hplaced ⟨⟩
    exact ⟨c, hc, hplaced, rfl⟩
  · rintro c err' _ _ ⟨⟩
  · rintro _ ⟨⟩

/-- Each step of a workflow that is in a stay is a link of its chain. -/
theorem Stay.link (h : Stay e machine name data errors r) (hrecord : e.config.recordHistory = true) :
    Link e m machine name data s r (machine.step e m r s).2.1 := by
  obtain ⟨hr, rfl, v, hv, rfl⟩ := h.here
  have hcurrent : r.current? = some v.state := by rw [current?, hv, Option.map_some]
  by_cases hhalt : r.isExhausted e.config = true ∨ machine.state? v.state = none
  · obtain ⟨cause, hstatus, hkept, hdata, hhistory⟩ := step_halted hr hv hhalt
    exact .stopped hhalt hstatus (hkept.trans hcurrent) hdata hhistory
  obtain ⟨hlimit, hdefined⟩ := not_or.mp hhalt
  have hlimit : r.isExhausted e.config = false := by simpa using hlimit
  obtain ⟨st, hst⟩ := Option.ne_none_iff_exists'.mp hdefined
  have hadvanced : r.advanced? e m machine s = some (st.advance e m r v s).1 := by
    simp [advanced?, hv, hst]
  have hraised : r.raised? e m machine s = st.raised? e m r v s := raised_of_visit hv hst
  rw [step_running hr hlimit hv hst]
  rcases hadv : st.advance e m r v s with ⟨res, v', s'⟩
  rw [hadv] at hadvanced
  have hstate : v'.state = v.state := (Machine.State.advance_shifts hadv).1
  rcases res with err | _ | _ | ⟨output, target⟩
  · refine .failed hadvanced (failed_fail err) ?_ ?_
    · simp [settle, leave, current?, hstate]
    · simp [settle, leave, hrecord, hstate]
  · refine .kept hadvanced (by simp) hr ⟨?_, rfl, rfl, rfl⟩
    simp [settle, current?, hv, hstate]
  · refine .kept hadvanced (by simp) hr ⟨?_, rfl, rfl, rfl⟩
    simp [settle, current?, hv, hstate]
  · have hhistory : ({ r with steps := r.steps + 1 }.settle e.config machine m.now v'
        (.ok (.completed output target))).2.history = r.history ++ [⟨v'.state, .ok output⟩] :=
      settle_history hrecord
    have hled : LedOn output target ({ r with steps := r.steps + 1 }.settle e.config machine m.now
        v' (.ok (.completed output target))).2 := ledOn_settle hr
    have hcompleted : (st.advance e m r v s).1 = .ok (.completed output target) := by rw [hadv]
    rw [hstate] at hhistory
    cases hh : st.handling? with
    | none =>
      have hnone := Machine.State.unraised_of_plain hh hcompleted
      exact .completed hadvanced (hraised.trans hnone) hhistory hled
    | some handling =>
      cases herr : st.raised? e m r v s with
      | none => exact .completed hadvanced (hraised.trans herr) hhistory hled
      | some err =>
        obtain ⟨c, hc, hplaced, rfl⟩ := caught_of_completed hh herr hcompleted
        exact .caught hst hh (hraised.trans herr) hc hplaced hhistory hled

end Run

namespace Workflow

variable {runner : JobRunner σ} {w w' : Workflow} {s₀ s' : σ} {machine₀ machine : Machine}
  {config : Config} {execution : Execution} {input : Value} {r : Run}

/-- Whatever is called on a workflow, its chain goes on from the same input. -/
theorem chained_reaches (hrecord : w.config.recordHistory = true) (h : Run.Chained input w.run)
    (hreach : Reaches runner w s w' s') :
    Run.Chained input w'.run ∧ w.run.history <+: w'.run.history := by
  have hall := hreach.rule (I := fun w' _ => w'.config.recordHistory = true ∧
    Run.Chained input w'.run ∧ w.run.history <+: w'.run.history)
    ⟨hrecord, h, List.prefix_rfl⟩ ?_ ?_ ?_
  · exact hall.2
  · rintro w₁ s₁ now ⟨hrecord, hchained, hprefix⟩
    refine ⟨hrecord, Run.chained_start hchained now, ?_⟩
    rwa [enterStart, Run.start_history]
  · rintro w₁ s₁ m ⟨hrecord, hchained, hprefix⟩
    exact ⟨hrecord, Run.chained_step hrecord hchained, hprefix.trans Run.step_history⟩
  · rintro w₁ s₁ cause ⟨hrecord, hchained, hprefix⟩
    refine ⟨hrecord, Run.chained_abort hchained runner cause s₁, ?_⟩
    rwa [abort, Run.abort_history]

/-- Data goes from state to state along the history, in a workflow that is reached by any calls and in
each that is nested in it. The history grows at its end only; the data of a running workflow is the
output of the last entry, or the input where there is none; and what a workflow that has ended hands
out is what its last entry says. A step leaves the record alone as long as the state goes on;
otherwise it adds one entry with the outcome of the state, unless it stops the workflow. -/
theorem data_chained
    (h : Reaches runner ⟨machine₀, config, .ofInput execution input⟩ s₀ w s)
    (hrecord : config.recordHistory = true) (hin : Run.Within w.machine w.run machine r) :
    Run.Chained input w.run ∧
    (∃ given, ∀ s w' s', Reaches runner ⟨machine, config, r⟩ s w' s' →
      Run.Chained given w'.run ∧ r.history <+: w'.run.history) ∧
    (r.status = .running →
      ∃ name data errors, Run.Stay ⟨runner, config⟩ machine name data errors r) ∧
    ∀ name data errors, Run.Stay ⟨runner, config⟩ machine name data errors r → ∀ m s,
      Run.Link ⟨runner, config⟩ m machine name data s r
        (machine.step ⟨runner, config⟩ m r s).2.1 := by
  obtain ⟨hmachine, -, hchained⟩ :=
    h.everywhere (Run.chained_invariant (e := ⟨runner, config⟩) hrecord)
  obtain ⟨-, -, hstays⟩ := h.everywhere Run.stays_invariant
  rw [hmachine] at hin
  refine ⟨(chained_reaches hrecord (Run.chained_ofInput execution input) h).1, ?_,
    hstays machine r hin, ?_⟩
  · obtain ⟨given, hr⟩ := hchained machine r hin
    refine ⟨given, fun s w' s' hlater => chained_reaches ?_ hr hlater⟩
    exact hrecord
  · intro name data errors hstay m s
    exact Run.Stay.link (e := ⟨runner, config⟩) hstay hrecord

section

/-- What a state does that is tried again once and then puts its error below its data. -/
def patient : ErrorHandling where
  retriers := [⟨["Boom"], 0, 1, 2, none, .none⟩]
  catchers := [⟨["States.ALL"], "Recover",
    .merge ⟨"$.error", false, [.select (.key (.field "error"))], .reference [.field "error"]⟩⟩]

def patientMachine : Machine := ⟨"Work",
  [("Work", .task ⟨none, "local", none, none, {}, patient⟩),
    ("Recover", .pass ⟨none, {}, none⟩)]⟩

/-- The second failure is caught, and the error is put into the data with which the state was entered,
as if there had been no failure before. -/
theorem patient_data_chained : ∃ w r',
    Reaches failingRunner ⟨patientMachine, {}, .ofInput default (.obj [("a", .int 1)])⟩ () w () ∧
    Run.Stay ⟨failingRunner, {}⟩ patientMachine "Work" (.obj [("a", .int 1)]) [.job "Boom" none]
      w.run ∧
    (patientMachine.step ⟨failingRunner, {}⟩ .zero w.run ()).2.1 = r' ∧
    Run.Link ⟨failingRunner, {}⟩ .zero patientMachine "Work" (.obj [("a", .int 1)]) () w.run r' ∧
    w.run.history.length = 0 ∧ r'.history.length = 1 ∧ r'.current? = some "Recover" ∧
    r'.data.text = "\x7b\"a\":1,\"error\":\x7b\"Error\":\"Boom\"\x7d\x7d" := by
  have hreach : Reaches failingRunner
      ⟨patientMachine, {}, .ofInput default (.obj [("a", .int 1)])⟩ () _ () :=
    .step (m := .zero) (.start .new (rfl : start? Moment.zero.now _ = _)) rfl
  have hentered : Run.Stay ⟨failingRunner, {}⟩ patientMachine "Work" (.obj [("a", .int 1)]) []
      ((Run.ofInput default (.obj [("a", .int 1)])).start patientMachine Moment.zero.now) :=
    .entered rfl rfl rfl
  have hstay := hentered.stepped (m := .zero) (s := ()) (a := .progressed) rfl rfl rfl rfl (by simp)
  have hlink := (data_chained hreach rfl .self).2.2.2 "Work" _ _ hstay .zero ()
  exact ⟨_, _, hreach, hstay, rfl, hlink, by decide +kernel, by decide +kernel, by decide +kernel,
    by decide +kernel⟩

end

end Workflow

end StatesLanguage
