import StatesLanguage.Proofs.Retries

/-! What is noted of a stay in a state: what is being done, until when nothing is, and how often each
retrier was used. Between two calls all of it suits the state, so that nothing is dropped unseen. -/
namespace StatesLanguage

variable {σ : Type} {e : Engine σ} {m : Moment} {s : σ}

namespace Branches

variable {α : Type} {c : Child α σ} {b b' : Branches α}

@[simp] theorem record_total (b : Branches α) (i : Nat) (r : Except ExecutionError Value) :
    (b.record i r).1.total = b.total := by
  cases r with
  | ok v => simp [record, fill, total]
  | error e =>
    simp only [record]
    split_ifs <;> simp [fill, total]

theorem round_total {todo : List (Nat × α)} {p q : Bool} {s' : σ}
    (h : round c todo p b s = (.ok q, b', s')) : b'.total = b.total :=
  round_frame record_total (fun _ _ => rfl) h

theorem advance_total {p : Bool} {s' : σ} (h : b.advance c s = (.running p, b', s')) :
    b'.total = b.total := by
  obtain ⟨q, b₁, hround, -, -, rfl⟩ := advance_running h
  have htotal := round_total hround
  exact htotal

end Branches

namespace Machine

variable {machine : Machine} {st : State} {r : Run} {stay v v' : Visit} {s' : σ}
  {res : Except ExecutionError Advance}

theorem Parallel.start_total {p : Parallel} {n : Nat} {execution : Execution}
    {data context : Value} {b : Branches Run} (h : p.start n m execution data context = .ok b) :
    b.total = n := by
  obtain ⟨input, -, h⟩ := bind_ok h
  cases h
  simp [Branches.total, Branches.ofList]

/-- A Parallel state keeps as many places as it has branches. -/
theorem Parallel.work_total {p : Parallel} {branches : List Machine}
    (hv : ∀ b, v.progress = .branches b → b.total = branches.length) {b' : Branches Run}
    (hb' : ((State.parallel p branches).work e m r stay v s).2.1.progress = .branches b') :
    b'.total = branches.length := by
  revert hb'
  simp only [State.work]
  refine Branches.work_rule (Q := fun q => q.2.1.progress = .branches b' →
    b'.total = branches.length) ?_ ?_ ?_ ?_
  · rintro err _ _ ⟨⟩
  · rintro b progressed b₁ s' hb hadv ⟨⟩
    have htotal : b.total = branches.length := hb.elim (hv b) fun h => start_total h.2
    rw [Branches.advance_total hadv, htotal]
  · rintro b rs b₁ s' _ _ ⟨⟩
  · rintro b err b₁ s' _ _ ⟨⟩

/-- Whether an advance takes up what is being done. What it does not take up it drops. -/
def State.resumes : State → Progress → Bool
  | .task _, .job _ _ => true
  | .wait _, .waiting _ => true
  | .parallel _ _, .branches _ => true
  | .map _ _, .branches _ => true
  | _, _ => false

/-- A state that does not take up what is being done begins as if it were doing nothing. -/
theorem State.work_afresh (h : st.resumes v.progress = false) :
    (st.work e m r stay v s).1 = (st.work e m r stay { v with progress := .idle } s).1 ∧
      (st.work e m r stay v s).2.2 = (st.work e m r stay { v with progress := .idle } s).2.2 := by
  obtain ⟨state, enteredAt, progress, attempts, retries, notBefore⟩ := v
  cases st with
  | pass | succeed | fail | choice => exact ⟨rfl, rfl⟩
  | wait p =>
    refine ⟨?_, rfl⟩
    cases progress with
    | waiting => cases h
    | idle => rfl
    | job | branches =>
      simp only [work, Wait.advance, Wait.deadline]
      split <;> rfl
  | task p =>
    cases progress with
    | job => cases h
    | idle | waiting | branches => exact ⟨rfl, rfl⟩
  | parallel | map =>
    cases progress with
    | branches => cases h
    | idle | waiting | job => exact ⟨rfl, rfl⟩

end Machine

/-- What holds of every stay: of one that has just begun, after each advance of its state, and when
nothing is being done in it any more. -/
structure Visit.Invariant (e : Engine σ) (P : Machine → Visit → Prop) : Prop where
  arrive : ∀ machine name now, P machine (Run.arrive machine name now)
  advance : ∀ {machine st m r v res v'} {s s' : σ}, P machine v →
    machine.state? v.state = some st → st.advance e m r v s = (res, v', s') → P machine v'
  idle : ∀ {machine v}, P machine v → P machine { v with progress := .idle }

namespace Visit.Invariant

variable {P : Machine → Visit → Prop} {machine : Machine} {r : Run} {v : Visit}

theorem start (h : Invariant e P) (hr : ∀ v, r.visit = some v → P machine v) (now : Instant) :
    ∀ v, (r.start machine now).visit = some v → P machine v := by
  by_cases hpending : r.status = .pending
  · rw [Run.start_of_pending hpending]
    rintro _ ⟨⟩
    exact h.arrive _ _ _
  · rw [Run.start_of_not_pending hpending]
    exact hr

theorem abort (h : Invariant e P) (hr : ∀ v, r.visit = some v → P machine v) (cause : String) :
    ∀ v, (r.abort e.runner cause s).1.visit = some v → P machine v := by
  cases hterminal : r.isTerminal with
  | true => simpa [Run.abort, hterminal] using hr
  | false =>
    intro v hv
    simp only [Run.abort, hterminal, Bool.false_eq_true, if_false, Option.map_eq_some_iff] at hv
    obtain ⟨v, hv, rfl⟩ := hv
    exact h.idle (hr v hv)

theorem settle (h : Invariant e P) {config : Config} {now : Instant}
    {res : Except ExecutionError Advance} (hv : P machine v) :
    ∀ v', (r.settle config machine now v res).2.visit = some v' → P machine v' := by
  rcases res with err | _ | _ | ⟨output, _ | next⟩
  case ok.completed.some =>
    rintro _ ⟨⟩
    exact h.arrive _ _ _
  case ok.blocked | ok.progressed =>
    rintro _ ⟨⟩
    exact hv
  case error | ok.completed.none =>
    rintro _ ⟨⟩
    exact h.idle hv

theorem step (h : Invariant e P) (hr : ∀ v, r.visit = some v → P machine v) :
    ∀ v, (machine.step e m r s).2.1.visit = some v → P machine v := by
  have hstart : ∀ v, (r.start machine m.now).visit = some v → P machine v := h.start hr m.now
  have hbegun : ∀ v, (r.begun machine m.now).visit = some v → P machine v := hstart
  refine Run.step_rule (Q := fun q => ∀ v, q.2.1.visit = some v → P machine v) ?_ ?_ ?_ ?_ ?_
  · intro _
    exact hr
  · intro _ _
    exact h.abort hstart _
  · intro _ _
    exact h.abort hbegun _
  · intro v _ _ _
    exact h.abort hbegun _
  · intro v st res v' s' _ _ hv hst hadv
    exact h.settle (h.advance (hbegun v hv) hst hadv)

/-- What holds of every stay holds of the stay of every workflow. -/
theorem run (h : Invariant e P) :
    Run.Invariant e fun machine r => ∀ v, r.visit = some v → P machine v where
  fresh _ _ _ := by rintro _ ⟨⟩
  start hr := h.start hr _
  step hr := h.step hr
  abort hr := h.abort hr _

end Visit.Invariant

/-- A stay with as many counts as its state has retriers, with a delay only where the state can be
retried and nothing is being done, and with a place for each branch of a Parallel state. -/
structure Visit.Noted (machine : Machine) (v : Visit) : Prop where
  attempts : v.attempts.length = (machine.state? v.state).elim 0 Machine.State.retrierCount
  delayed : v.notBefore.isSome → v.progress = .idle ∧
    ∃ st, machine.state? v.state = some st ∧ st.handling?.isSome
  total : ∀ p branches b, machine.state? v.state = some (.parallel p branches) →
    v.progress = .branches b → b.total = branches.length

namespace Visit

variable {machine : Machine} {st : Machine.State} {r : Run} {v v' : Visit} {s' : σ}
  {res : Except ExecutionError Advance}

theorem noted_arrive (name : String) (now : Instant) : (Run.arrive machine name now).Noted machine := by
  refine ⟨by simp [Run.arrive], ?_, ?_⟩
  · rintro ⟨⟩
  · rintro p branches b _ ⟨⟩

theorem noted_idle (h : v.Noted machine) : Noted machine { v with progress := .idle } :=
  ⟨h.attempts, fun hdelay => ⟨rfl, (h.delayed hdelay).2⟩, by rintro p branches b _ ⟨⟩⟩

/-- The work of a state that is not delayed changes nothing of the notes but what is being done. -/
theorem noted_work {stay : Visit} (h : v.Noted machine) (hst : machine.state? v.state = some st)
    (hnone : v.notBefore = none) : (st.work e m r stay v s).2.1.Noted machine := by
  obtain ⟨p, hframe⟩ := Machine.State.work_frame (e := e) (m := m) (v := v) (s := s) st r stay
  have hprogress : (st.work e m r stay v s).2.1.progress = p := by rw [hframe]
  refine ⟨?_, ?_, ?_⟩
  · rw [hframe]
    exact h.attempts
  · rw [hframe]
    intro hdelay
    rw [hnone] at hdelay
    cases hdelay
  · intro par branches b hpar hb
    rw [hframe] at hpar
    rw [hst, Option.some.injEq] at hpar
    subst hpar
    exact Machine.Parallel.work_total (fun b hb => h.total par branches b hst hb) hb

theorem noted_advance (h : v.Noted machine) (hst : machine.state? v.state = some st)
    (hadv : st.advance e m r v s = (res, v', s')) : v'.Noted machine := by
  have hv' : (st.advance e m r v s).2.1 = v' := by rw [hadv]
  rw [← hv', Machine.State.advance_eq]
  cases hh : st.handling? with
  | none =>
    refine noted_work h hst (Option.not_isSome_iff_eq_none.mp fun hdelay => ?_)
    obtain ⟨-, st', hst', hsome⟩ := h.delayed hdelay
    rw [hst, Option.some.injEq] at hst'
    rw [← hst', hh] at hsome
    cases hsome
  | some handling =>
    have hcleared : Noted machine { v with notBefore := none } :=
      ⟨h.attempts, by rintro ⟨⟩, h.total⟩
    have hw : Noted machine (st.work e m r v { v with notBefore := none } s).2.1 :=
      noted_work hcleared hst rfl
    refine ErrorHandling.guard_rule (Q := fun q => q.2.1.Noted machine) ?_ ?_ ?_
    · intro _
      exact h
    · intro a w s₁ _ hwork
      rwa [hwork] at hw
    · intro err w s₁ _ hwork
      have hname := (Machine.State.work_shifts (e := e) (m := m) (r := r) (s := s)
        (v := { v with notBefore := none }) st v).1
      rw [hwork] at hw hname
      refine ErrorHandling.handle_rule (Q := fun q => q.2.Noted machine) ?_ ?_ ?_ ?_
      · intro i rt _ _
        refine ⟨?_, fun _ => ⟨rfl, st, ?_, by simp [hh]⟩, ?_⟩
        · rw [List.length_set]
          exact hw.attempts
        · exact (congrArg machine.state? hname).trans hst
        · rintro p branches b _ ⟨⟩
      all_goals
        intros
        exact hw

theorem noted_invariant : Invariant e fun machine v => v.Noted machine where
  arrive _ name now := noted_arrive name now
  advance h hst hadv := noted_advance h hst hadv
  idle h := noted_idle h

end Visit

namespace Visit

variable {machine : Machine} {st : Machine.State} {r : Run} {v : Visit}

/-- A stay whose notes are such as a state of its kind makes, the state being that of its name. -/
structure Suits (machine : Machine) (v : Visit) : Prop where
  job : ∀ handle launchedAt, v.progress = .job handle launchedAt →
    ∃ t, machine.state? v.state = some (.task t)
  waiting : ∀ deadline, v.progress = .waiting deadline →
    ∃ p, machine.state? v.state = some (.wait p)
  branches : ∀ b, v.progress = .branches b →
    (∃ p branches, machine.state? v.state = some (.parallel p branches) ∧
      b.total = branches.length) ∨
    ∃ p processor, machine.state? v.state = some (.map p processor)
  delayed : v.notBefore.isSome → v.progress = .idle ∧
    ∃ st, machine.state? v.state = some st ∧ st.kind ∈ [.task, .parallel, .map]
  attempts : v.attempts.length = (machine.state? v.state).elim 0 Machine.State.retrierCount

theorem suits_of_noted (hcoherent : Run.Coherent machine r) (hv : r.visit = some v)
    (hnoted : v.Noted machine) : v.Suits machine := by
  have hdefined (hbusy : v.progress ≠ .idle) :
      ∃ st, machine.state? v.state = some st ∧ st.Fits v.progress := by
    cases hst : machine.state? v.state with
    | none => exact (hbusy (hcoherent.undefined v hv hst)).elim
    | some st => exact ⟨st, rfl, hcoherent.fits v st hv hst⟩
  refine ⟨?_, ?_, ?_, ?_, hnoted.attempts⟩
  · intro handle launchedAt hp
    obtain ⟨st, hst, hfits⟩ := hdefined (by simp [hp])
    rw [hp] at hfits
    cases hfits with
    | job ht => exact ⟨_, ht ▸ hst⟩
  · intro deadline hp
    obtain ⟨st, hst, hfits⟩ := hdefined (by simp [hp])
    rw [hp] at hfits
    cases hfits with
    | waiting hw => exact ⟨_, hw ▸ hst⟩
  · intro b hp
    obtain ⟨st, hst, hfits⟩ := hdefined (by simp [hp])
    rw [hp] at hfits
    cases hfits with
    | branches hkind _ =>
      cases st with
      | parallel p branches => exact Or.inl ⟨p, branches, hst, hnoted.total p branches b hst hp⟩
      | map p processor => exact Or.inr ⟨p, processor, hst⟩
      | _ => simp [Machine.State.kind] at hkind
  · intro hdelay
    obtain ⟨hidle, st, hst, hsome⟩ := hnoted.delayed hdelay
    refine ⟨hidle, st, hst, ?_⟩
    cases st with
    | task | parallel | map => simp [Machine.State.kind]
    | pass | wait | choice | succeed | fail => cases hsome

/-- A state that does not take up what is being done finds nothing to take up. -/
theorem Suits.taken_up (h : v.Suits machine) (hst : machine.state? v.state = some st) :
    st.resumes v.progress = true ∨ v.progress = .idle := by
  cases hp : v.progress with
  | idle => exact Or.inr rfl
  | job handle launchedAt =>
    obtain ⟨t, ht⟩ := h.job handle launchedAt hp
    cases hst.symm.trans ht
    exact Or.inl rfl
  | waiting deadline =>
    obtain ⟨p, hw⟩ := h.waiting deadline hp
    cases hst.symm.trans hw
    exact Or.inl rfl
  | branches b =>
    rcases h.branches b hp with ⟨p, branches, hpar, -⟩ | ⟨p, processor, hmap⟩
    · cases hst.symm.trans hpar
      exact Or.inl rfl
    · cases hst.symm.trans hmap
      exact Or.inl rfl

/-- Whatever error the work of a state comes to, the retrier for it has its count. -/
theorem Suits.counted {h : ErrorHandling} {err : ExecutionError} {v' : Visit} {s' : σ} {i : Nat}
    {rt : Retrier} (hv : v.Suits machine) (hst : machine.state? v.state = some st)
    (hh : st.handling? = some h)
    (hwork : st.work e m r v { v with notBefore := none } s = (.error err, v', s'))
    (hrt : h.retrierFor? err.name? = some (i, rt)) : i < v'.attempts.length := by
  obtain ⟨p, hframe⟩ := Machine.State.work_frame (e := e) (m := m) (s := s)
    (v := { v with notBefore := none }) st r v
  have hlength : v.attempts.length = h.retriers.length := by
    simp [hv.attempts, hst, Machine.State.retrierCount, hh]
  have hi : i < h.retriers.length :=
    (List.getElem?_eq_some_iff.mp (ErrorHandling.retrierFor_eq_some.mp hrt).1).1
  have hframe : v' = { v with notBefore := none, progress := p } := by rwa [hwork] at hframe
  rw [hframe]
  exact hlength ▸ hi

end Visit

namespace Workflow

variable {runner : JobRunner σ} {w : Workflow} {s₀ : σ} {machine₀ machine : Machine}
  {config : Config} {execution : Execution} {input : Value} {r : Run} {v : Visit}

/-- In a workflow that is reached by any calls, and in each that is nested in it, what is noted of the
stay suits the state. So a state that begins anew drops neither a job nor nested workflows, and no
retrier is looked up for which there is no count. -/
theorem stay_suits (h : Reaches runner ⟨machine₀, config, .ofInput execution input⟩ s₀ w s)
    (hin : Run.Within w.machine w.run machine r) (hv : r.visit = some v) :
    v.Suits machine ∧ ∀ st, machine.state? v.state = some st →
      (st.resumes v.progress = false → v.progress = .idle) ∧
      ∀ (e : Engine σ) m s handling err v' s', st.handling? = some handling →
        st.work e m r v { v with notBefore := none } s = (.error err, v', s') →
        ∀ i rt, handling.retrierFor? err.name? = some (i, rt) → i < v'.attempts.length := by
  obtain ⟨hmachine, -, hcoherent⟩ := h.everywhere Run.coherent_invariant
  obtain ⟨-, -, hnoted⟩ := h.everywhere Visit.noted_invariant.run
  rw [hmachine] at hin
  have hsuits : v.Suits machine :=
    Visit.suits_of_noted (hcoherent machine r hin) hv (hnoted machine r hin v hv)
  refine ⟨hsuits, fun st hst => ⟨fun hafresh => ?_, ?_⟩⟩
  · refine (hsuits.taken_up hst).resolve_left ?_
    simp [hafresh]
  · intro e m s handling err v' s' hh hwork i rt hrt
    exact hsuits.counted hst hh hwork hrt

section

/-- A state that is retried, in the only branch of a Parallel state. -/
def nestingMachine : Machine := ⟨"Both", [("Both", .parallel ⟨none, {}, {}⟩ [stubbornMachine])]⟩

/-- After the first failure in the branch its state waits to be tried again. -/
theorem nesting_stay_suits : ∃ w v b child v',
    Reaches failingRunner ⟨nestingMachine, {}, .ofInput default .null⟩ () w () ∧
    w.run.visit = some v ∧ v.progress = .branches b ∧ b.total = 1 ∧ v.Suits nestingMachine ∧
    b.inFlight = [(0, child)] ∧ child.visit = some v' ∧ v'.notBefore.isSome ∧
    v'.attempts = [0, 1, 0] ∧ v'.Suits stubbornMachine := by
  have hreach : Reaches failingRunner ⟨nestingMachine, {}, .ofInput default .null⟩ () _ () :=
    .step (m := .zero) .new rfl
  have hroot := (stay_suits hreach .self rfl).1
  have hnested := (stay_suits hreach
    (.nested (i := 0) rfl rfl rfl List.mem_cons_self rfl .self) rfl).1
  exact ⟨_, _, _, _, _, hreach, rfl, rfl, rfl, hroot, rfl, rfl, rfl, rfl, hnested⟩

end

end Workflow

end StatesLanguage
