import Mathlib.Logic.Relation
import StatesLanguage.Proofs.Calls

/-! What a workflow tells of itself, field by field. A start, a step and an abort write some of the
fields and leave the others as they were, and still these never contradict each other. -/
namespace StatesLanguage

/-- The ways in which a workflow gets further. -/
inductive Status.Moves : Status → Status → Prop where
  | start : Moves .pending .running
  | succeed : Moves .running .succeeded
  | fail : Moves .running .failed
  | abort : Moves .running .aborted
  | withdraw : Moves .pending .aborted

/-- Any number of ways, one after the other. -/
abbrev Status.Course : Status → Status → Prop := Relation.ReflTransGen Status.Moves

variable {σ : Type} {e : Engine σ} {m : Moment} {s : σ}

namespace Run

variable {machine : Machine} {r r₁ r₂ : Run}

/-- A workflow without a contradiction: there is an output, an error or a cause exactly when the
status says so, and nothing comes after the end. -/
def Agrees (r : Run) : Prop :=
  match r.status with
  | .pending | .running => r.output = none ∧ r.error = none ∧ r.abortCause = none
  | .succeeded => r.output.isSome ∧ r.error = none ∧ r.abortCause = none ∧ r.next = none
  | .failed => (∃ e, r.error = some e ∧ r.output = some e.payload) ∧ r.abortCause = none ∧
    r.next = none
  | .aborted => r.abortCause.isSome ∧ r.output = none ∧ r.error = none ∧ r.next = none

/-- What a part of a call makes of a workflow: it gets further, and it contradicts itself only if it
did so before. -/
structure Writes (r r' : Run) : Prop where
  further : Status.Course r.status r'.status
  agrees : r.Agrees → r'.Agrees

theorem Writes.refl : Writes r r := ⟨.refl, id⟩

theorem Writes.trans (h : Writes r r₁) (h' : Writes r₁ r₂) : Writes r r₂ :=
  ⟨h.further.trans h'.further, fun hr => h'.agrees (h.agrees hr)⟩

/-- Nothing has been written of the end of a workflow that has yet to end. -/
theorem Agrees.unended (h : r.Agrees) (hr : r.isTerminal = false) :
    r.output = none ∧ r.error = none ∧ r.abortCause = none := by
  unfold Agrees at h
  cases hstatus : r.status with
  | pending | running => simpa [hstatus] using h
  | _ => simp [isTerminal, hstatus, Status.isTerminal] at hr

theorem start_writes (now : Instant) : Writes r (r.start machine now) := by
  by_cases hr : r.status = .pending
  · rw [start_of_pending hr]
    refine ⟨hr ▸ .single .start, fun h => ?_⟩
    exact h.unended (isTerminal_of_pending hr)
  · rw [start_of_not_pending hr]
    exact .refl

/-- An abort sets neither the output nor the error. That there is none is known from before. -/
theorem abort_writes (runner : JobRunner σ) (cause : String) (s : σ) :
    Writes r (r.abort runner cause s).1 := by
  cases hr : r.isTerminal with
  | true =>
    rw [abort, if_pos hr]
    exact .refl
  | false =>
    have haborted : (r.abort runner cause s).1.status = .aborted := by simp [abort, hr]
    refine ⟨?_, fun h => ?_⟩
    · rw [haborted]
      cases hstatus : r.status with
      | pending => exact .single .withdraw
      | running => exact .single .abort
      | _ => simp [isTerminal, hstatus, Status.isTerminal] at hr
    · obtain ⟨houtput, herror, -⟩ := h.unended hr
      simp [Agrees, abort, hr, houtput, herror]

/-- What comes of an advance is written to a workflow that has written none of its end before. -/
theorem settle_writes {config : Config} {now : Instant} {v : Visit}
    {res : Except ExecutionError Advance} (hr : r.status = .running) :
    Writes r (r.settle config machine now v res).2 := by
  have hunended (h : r.Agrees) := h.unended (isTerminal_of_running hr)
  rcases res with err | _ | _ | ⟨output, _ | next⟩
  · refine ⟨hr ▸ .single .fail, fun h => ?_⟩
    exact ⟨⟨err, rfl, rfl⟩, (hunended h).2.2, rfl⟩
  · exact ⟨.refl, id⟩
  · exact ⟨.refl, id⟩
  · refine ⟨hr ▸ .single .succeed, fun h => ?_⟩
    exact ⟨rfl, (hunended h).2.1, (hunended h).2.2, rfl⟩
  · refine ⟨.refl, fun h => ?_⟩
    simpa [Agrees, settle, leave, enter, hr] using hunended h

theorem step_writes : Writes r (machine.step e m r s).2.1 := by
  have hstarted : Writes r (r.start machine m.now) := start_writes m.now
  have hbegun : Writes r (r.begun machine m.now) := ⟨hstarted.further, hstarted.agrees⟩
  refine step_rule (Q := fun q => Writes r q.2.1) ?_ ?_ ?_ ?_ ?_
  · intro _
    exact .refl
  · intro _ _
    exact hstarted.trans (abort_writes e.runner _ s)
  · intro _ _
    exact hbegun.trans (abort_writes e.runner _ s)
  · intro v _ _ _
    exact hbegun.trans (abort_writes e.runner _ s)
  · intro v st res v' s' hr _ _ _ _
    exact hbegun.trans (settle_writes (begun_status hr m.now))

/-- Every workflow is on its course from the start, and does not contradict itself. -/
theorem agrees_invariant : Invariant e fun _ r => Status.Course .pending r.status ∧ r.Agrees where
  fresh _ _ _ := ⟨.refl, rfl, rfl, rfl⟩
  start h := ⟨h.1.trans (start_writes _).further, (start_writes _).agrees h.2⟩
  step h := ⟨h.1.trans step_writes.further, step_writes.agrees h.2⟩
  abort h := ⟨h.1.trans (abort_writes _ _ _).further, (abort_writes _ _ _).agrees h.2⟩

/-- A workflow that has ended is left alone, and so is the runner. -/
theorem step_ended (hr : r.isTerminal = true) : machine.step e m r s = (.terminal, r, s) := by
  refine step_rule (Q := fun q => q = (.terminal, r, s)) (fun _ => rfl) ?_ ?_ ?_ ?_
  all_goals
    intros
    simp_all

end Run

namespace Workflow

variable {runner : JobRunner σ} {w w' : Workflow} {s₀ s' : σ} {machine machine' : Machine}
  {config : Config} {execution : Execution} {input : Value} {r : Run}

/-- Whatever is called, a workflow gets further. -/
theorem reaches_writes (h : Reaches runner w s w' s') : Run.Writes w.run w'.run := by
  refine h.rule (I := fun w' _ => Run.Writes w.run w'.run) .refl ?_ ?_ ?_
  · intro w₁ s₁ now ih
    exact ih.trans (Run.start_writes now)
  · intro w₁ s₁ m ih
    exact ih.trans Run.step_writes
  · intro w₁ s₁ cause ih
    exact ih.trans (Run.abort_writes runner cause s₁)

/-- A workflow that no call changes, and for which none is made on the runner. It is not started
again. -/
structure Inert (runner : JobRunner σ) (w : Workflow) : Prop where
  start : ∀ now, w.start? now = none
  step : ∀ m s, w.step runner m s = (.terminal, w, s)
  run : ∀ moment fuel k s, w.runFrom runner moment (fuel + 1) k s = some (k + 1, w, s)
  abort : ∀ cause s, w.abort runner cause s = (w, s)

theorem inert_of_terminal (runner : JobRunner σ) (h : w.isTerminal = true) : Inert runner w := by
  have hstep (m : Moment) (s : σ) : w.step runner m s = (.terminal, w, s) := by
    rw [step, Run.step_ended h]
  refine ⟨fun now => ?_, hstep, fun moment fuel k s => ?_, fun cause s => ?_⟩
  · unfold start?
    split
    · rename_i hpending
      rw [isTerminal, Run.isTerminal_of_pending hpending] at h
      cases h
    · rfl
  · rw [runFrom, hstep]
  · have hrun : w.run.isTerminal = true := h
    rw [abort, Run.abort, if_pos hrun]

/-- A workflow that is reached by any calls, and each that is nested in it, has come to its status
from that of a new one, and its fields do not contradict each other. Whatever is called later, it
only gets further; and where it has ended nothing is left to do and no call does anything. -/
theorem record_agrees (h : Reaches runner ⟨machine, config, .ofInput execution input⟩ s₀ w s)
    (hin : Run.Within w.machine w.run machine' r) :
    Status.Course .pending r.status ∧ r.Agrees ∧
    (∀ s w' s', Reaches runner ⟨machine', config, r⟩ s w' s' →
      Status.Course r.status w'.run.status ∧ w'.run.Agrees) ∧
    (r.isTerminal = true → r.progress = .idle ∧ Inert runner ⟨machine', config, r⟩) := by
  obtain ⟨hmachine, -, hagrees⟩ := h.everywhere Run.agrees_invariant
  obtain ⟨-, -, hcoherent⟩ := h.everywhere Run.coherent_invariant
  rw [hmachine] at hin
  obtain ⟨hcourse, hr⟩ := hagrees machine' r hin
  refine ⟨hcourse, hr, ?_, fun hended => ⟨?_, inert_of_terminal runner hended⟩⟩
  · intro s w' s' hlater
    have hwrites := reaches_writes hlater
    exact ⟨hwrites.further, hwrites.agrees hr⟩
  · rw [Run.progress]
    cases hv : r.visit with
    | none => rfl
    | some v => exact (hcoherent machine' r hin).stopped hended v hv

section

/-- A workflow that moves on once and then fails. -/
def stumblingMachine : Machine := ⟨"First",
  [("First", .pass ⟨some "Last", {}, none⟩), ("Last", .fail ⟨.literal "Boom", .absent⟩)]⟩

/-- The transition of the first step is forgotten when the workflow has failed in the second. -/
theorem stumbled_record_agrees : ∃ w₁ w₂,
    Reaches hangingRunner ⟨stumblingMachine, {}, .ofInput default .null⟩ () w₁ () ∧
    Reaches hangingRunner ⟨stumblingMachine, {}, .ofInput default .null⟩ () w₂ () ∧
    w₁.run.status = .running ∧ w₁.run.next = some "Last" ∧
    w₂.run.status = .failed ∧ w₂.run.output = some (.obj [("Error", .str "Boom")]) ∧
    w₂.run.error = some (.declared (some "Boom") none) ∧ w₂.run.next = none ∧
    w₁.run.Agrees ∧ w₂.run.Agrees ∧ Inert hangingRunner w₂ := by
  have hfirst : Reaches hangingRunner ⟨stumblingMachine, {}, .ofInput default .null⟩ () _ () :=
    .step (m := .zero) .new rfl
  have hsecond : Reaches hangingRunner ⟨stumblingMachine, {}, .ofInput default .null⟩ () _ () :=
    .step (m := .zero) hfirst rfl
  exact ⟨_, _, hfirst, hsecond, rfl, rfl, rfl, rfl, rfl, rfl, (record_agrees hfirst .self).2.1,
    (record_agrees hsecond .self).2.1, ((record_agrees hsecond .self).2.2.2 rfl).2⟩

end

end Workflow

end StatesLanguage
