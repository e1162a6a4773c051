import StatesLanguage.Document.Parse
import StatesLanguage.Machine.Compile
import StatesLanguage.Proofs.Graphs
import StatesLanguage.Proofs.Nesting
import StatesLanguage.Proofs.Outcomes

/-! Every transition of a valid document leads to a state of the same graph, and a machine has the
states and transitions of its graph. -/
namespace StatesLanguage

namespace Machine

/-- The states that a Choice leads to. -/
def State.choiceTargets : State → List String
  | .choice p => p.choices.map Prod.snd ++ p.default.toList
  | _ => []

/-- The states that the catchers of a state lead to. -/
def State.catcherTargets (st : State) : List String :=
  st.handling?.elim [] fun h => h.catchers.map Catcher.next

/-- The states that a state may lead to. -/
def State.targets (st : State) : List String :=
  st.next?.toList ++ st.choiceTargets ++ st.catcherTargets

/-- A machine that has its first state and all states that are led to, with the machines inside it,
each by its own names. -/
inductive Closed : Machine → Prop where
  | intro {machine : Machine} : (machine.state? machine.start).isSome →
    (∀ s ∈ machine.states, ∀ target ∈ s.2.targets, (machine.state? target).isSome) →
    (∀ s ∈ machine.states, ∀ sub ∈ s.2.machines, Closed sub) → Closed machine

variable {machine sub : Machine} {st : State} {name : String}

theorem Closed.start (h : machine.Closed) : (machine.state? machine.start).isSome := by
  cases h with
  | intro hstart _ _ => exact hstart

theorem Closed.target {next : String} (h : machine.Closed) (hst : machine.state? name = some st)
    (hnext : next ∈ st.targets) : (machine.state? next).isSome := by
  cases h with
  | intro _ htargets _ => exact htargets _ (mem_states hst) next hnext

theorem Closed.nested (h : machine.Closed) (hst : machine.state? name = some st)
    (hsub : sub ∈ st.machines) : sub.Closed := by
  cases h with
  | intro _ _ hnested => exact hnested _ (mem_states hst) sub hsub

end Machine

namespace Document

/-- The parts of validity that concern where a state leads: each rule and catcher leads somewhere,
and every name is that of a state of the graph. -/
structure Graph.Sealed (g : Graph) : Prop where
  start : ∀ start, g.startAt = some start → g.states.isSome → (g.state? start).isSome
  target : ∀ s ∈ g.stateList, ∀ t ∈ Validation.targets s.2, (g.state? t.2).isSome
  caught : ∀ s ∈ g.stateList, ∀ c ∈ s.2.catchers, c.next.isSome

theorem issueIf_nil {condition : Bool} {issue : Validation.Issue}
    (h : Validation.issueIf condition issue = []) : condition = false := by
  cases condition with
  | false => rfl
  | true => cases h

theorem issues_of_validate {g : Graph} (h : g.validate = .ok ()) : Validation.issues g = [] := by
  unfold Graph.validate at h
  split at h
  · assumption
  · cases h
  · cases h

/-- No graph of a document without issues leads out of itself. -/
theorem sealed_of_valid {g : Graph} (h : Validation.issues g = []) {x : String × Graph}
    (hx : x ∈ g.all) : x.2.Sealed := by
  simp only [Validation.issues, List.append_eq_nil_iff, List.flatMap_eq_nil_iff] at h
  obtain ⟨⟨_, htargets⟩, hfields⟩ := h
  have htargets := htargets x hx
  have hfields := hfields x hx
  simp only [Validation.targetsOf, Validation.fieldsOf, List.append_eq_nil_iff,
    List.flatMap_eq_nil_iff] at htargets hfields
  refine ⟨fun start hstart hstates => ?_, fun s hs t ht => ?_, fun s hs c hc => ?_⟩
  · obtain ⟨states, hstates⟩ := Option.isSome_iff_exists.mp hstates
    have hissues := htargets.1
    simp only [Validation.startIssues, hstart, hstates] at hissues
    simpa using issueIf_nil hissues
  · simpa using issueIf_nil (htargets.2 s hs t ht)
  · have hissues := hfields s hs
    simp only [Validation.fieldIssues, Validation.handlerIssues, List.append_eq_nil_iff,
      List.flatten_eq_nil_iff] at hissues
    obtain ⟨i, hi, rfl⟩ := List.mem_iff_getElem.mp hc
    have hcatcher := hissues.1.2.2 _ (List.mem_mapIdx.mpr ⟨i, hi, rfl⟩)
    simp only [Validation.catcherIssues, List.append_eq_nil_iff] at hcatcher
    simpa using issueIf_nil hcatcher.2

end Document

namespace Machine

open Document

theorem handling_catchers {retry : List Document.Retrier} {catchers : List Document.Catcher}
    {h : ErrorHandling} (hcompile : inFlow (ErrorHandling.compile retry catchers) = .ok h)
    (hnext : ∀ c ∈ catchers, c.next.isSome) {target : String}
    (htarget : target ∈ h.catchers.map Catcher.next) :
    ∃ c ∈ catchers, c.next = some target := by
  obtain ⟨catchers', hcatchers, heq⟩ := bind_ok (mapError_ok hcompile)
  cases heq
  obtain ⟨c', hc', rfl⟩ := List.mem_map.mp htarget
  obtain ⟨c, hc, hof⟩ := mapM_ok hcatchers hc'
  obtain ⟨resultPath, _, heq⟩ := bind_ok hof
  cases heq
  obtain ⟨next, hnext⟩ := Option.isSome_iff_exists.mp (hnext c hc)
  exact ⟨c, hc, by simp [hnext]⟩

theorem compileChoices_targets {position : Nat} {rules : List Document.Rule}
    {choices : List (ChoiceRule × String)} (h : compileChoices position rules = .ok choices)
    {target : String} (htarget : target ∈ choices.map Prod.snd) :
    ∃ r ∈ rules, r.next = some target := by
  induction rules generalizing position choices with
  | nil =>
    cases h
    simp at htarget
  | cons r rest ih =>
    unfold compileChoices at h
    cases hnext : r.next with
    | none => simp [hnext] at h
    | some next =>
      simp only [hnext] at h
      obtain ⟨rule, _, h⟩ := bind_ok h
      obtain ⟨choices', hrest, h⟩ := bind_ok h
      cases h
      rcases List.mem_cons.mp htarget with rfl | htarget
      · exact ⟨r, List.mem_cons_self, hnext⟩
      · obtain ⟨r', hr', hnext'⟩ := ih hrest htarget
        exact ⟨r', List.mem_cons_of_mem _ hr', hnext'⟩

/-- What a state has of the transitions and handlers that were written. -/
theorem compile_state {s : Document.State} {st : State} (h : State.compile s = .ok st) :
    st.next? = s.next? ∧
    (∀ next ∈ st.choiceTargets, ∃ field, (field, next) ∈ Validation.targets.ofChoice s) ∧
    (∀ handling, st.handling? = some handling →
      inFlow (ErrorHandling.compile s.retriers s.catchers) = .ok handling) := by
  cases s with
  | pass s =>
    obtain ⟨p, hp, rfl⟩ := map_ok h
    obtain ⟨flow, _, heq⟩ := bind_ok hp
    cases heq
    exact ⟨rfl, by simp [State.choiceTargets], by simp [State.handling?]⟩
  | task s =>
    obtain ⟨p, hp, rfl⟩ := map_ok h
    unfold Task.compile at hp
    cases hresource : s.resource with
    | none => simp [hresource] at hp
    | some resource =>
      simp only [hresource] at hp
      obtain ⟨credentials, _, hp⟩ := bind_ok hp
      obtain ⟨flow, _, hp⟩ := bind_ok hp
      obtain ⟨handling, hhandling, hp⟩ := bind_ok hp
      cases hp
      refine ⟨rfl, by simp [State.choiceTargets], ?_⟩
      rintro _ ⟨⟩
      exact hhandling
  | wait s =>
    obtain ⟨p, hp, rfl⟩ := map_ok h
    obtain ⟨delay, _, hp⟩ := bind_ok hp
    obtain ⟨flow, _, hp⟩ := bind_ok hp
    cases hp
    exact ⟨rfl, by simp [State.choiceTargets], by simp [State.handling?]⟩
  | choice s =>
    obtain ⟨p, hp, rfl⟩ := map_ok h
    obtain ⟨choices, hchoices, hp⟩ := bind_ok hp
    obtain ⟨flow, _, hp⟩ := bind_ok hp
    cases hp
    refine ⟨rfl, fun next hnext => ?_, by simp [State.handling?]⟩
    rcases List.mem_append.mp hnext with hnext | hnext
    · obtain ⟨r, hr, hrnext⟩ := compileChoices_targets hchoices hnext
      refine ⟨"Next", List.mem_append_left _ (List.mem_flatMap.mpr ⟨r, hr, ?_⟩)⟩
      simp [Validation.targets.named, hrnext]
    · have hdefault : s.default = some next := by simpa using hnext
      refine ⟨"Default", List.mem_append_right _ ?_⟩
      simp [Validation.targets.named, hdefault]
  | succeed s =>
    obtain ⟨p, hp, rfl⟩ := map_ok h
    exact ⟨rfl, by simp [State.choiceTargets], by simp [State.handling?]⟩
  | fail s =>
    obtain ⟨p, hp, rfl⟩ := map_ok h
    exact ⟨rfl, by simp [State.choiceTargets], by simp [State.handling?]⟩
  | parallel s branches =>
    rw [State.compile] at h
    obtain ⟨machines, _, h⟩ := bind_ok h
    obtain ⟨p, hp, h⟩ := bind_ok h
    cases h
    obtain ⟨flow, _, hp⟩ := bind_ok hp
    obtain ⟨handling, hhandling, hp⟩ := bind_ok hp
    cases hp
    refine ⟨rfl, by simp [State.choiceTargets], ?_⟩
    rintro _ ⟨⟩
    exact hhandling
  | map s processor =>
    rw [State.compile] at h
    obtain ⟨machine, _, h⟩ := bind_ok h
    obtain ⟨p, hp, h⟩ := bind_ok h
    cases h
    obtain ⟨itemsPath, _, hp⟩ := bind_ok hp
    obtain ⟨itemSelector, _, hp⟩ := bind_ok hp
    obtain ⟨flow, _, hp⟩ := bind_ok hp
    obtain ⟨handling, hhandling, hp⟩ := bind_ok hp
    cases hp
    refine ⟨rfl, by simp [State.choiceTargets], ?_⟩
    rintro _ ⟨⟩
    exact hhandling

/-- A state leads to nothing but what the document says. -/
theorem compile_targets {s : Document.State} {st : State} (h : State.compile s = .ok st)
    (hcaught : ∀ c ∈ s.catchers, c.next.isSome) {next : String} (hnext : next ∈ st.targets) :
    ∃ field, (field, next) ∈ Validation.targets s := by
  obtain ⟨hdeclared, hchoice, hhandling⟩ := compile_state h
  rw [State.targets, List.mem_append, List.mem_append] at hnext
  rcases hnext with (hnext | hnext) | hnext
  · rw [hdeclared] at hnext
    refine ⟨"Next", List.mem_append_left _ (List.mem_append_left _ ?_)⟩
    exact List.mem_map_of_mem hnext
  · obtain ⟨field, hfield⟩ := hchoice next hnext
    exact ⟨field, List.mem_append_left _ (List.mem_append_right _ hfield)⟩
  · unfold State.catcherTargets at hnext
    cases hst : st.handling? with
    | none => simp [hst] at hnext
    | some handling =>
      rw [hst] at hnext
      obtain ⟨c, hc, hcnext⟩ := handling_catchers (hhandling handling hst) hcaught hnext
      refine ⟨"Next", List.mem_append_right _ (List.mem_flatMap.mpr ⟨c, hc, ?_⟩)⟩
      simp [Validation.targets.named, hcnext]

theorem compileStates_mem {ss : List (String × Document.State)} {states : List (String × State)}
    (h : compileStates ss = .ok states) {s : String × State} (hs : s ∈ states) :
    ∃ d, (s.1, d) ∈ ss ∧ State.compile d = .ok s.2 := by
  induction ss generalizing states with
  | nil =>
    rw [compileStates] at h
    cases h
    simp at hs
  | cons d rest ih =>
    obtain ⟨name, d⟩ := d
    rw [compileStates] at h
    obtain ⟨st, hst, h⟩ := bind_ok h
    obtain ⟨states', hrest, h⟩ := bind_ok h
    cases h
    rcases List.mem_cons.mp hs with rfl | hs
    · exact ⟨d, List.mem_cons_self, mapError_ok hst⟩
    · obtain ⟨d', hd', hcompile⟩ := ih hrest hs
      exact ⟨d', List.mem_cons_of_mem _ hd', hcompile⟩

theorem compileStates_lookup {ss : List (String × Document.State)}
    {states : List (String × State)} (h : compileStates ss = .ok states) (name : String) :
    (states.lookup name).isSome = (ss.lookup name).isSome := by
  induction ss generalizing states with
  | nil =>
    rw [compileStates] at h
    cases h
    rfl
  | cons d rest ih =>
    obtain ⟨key, d⟩ := d
    rw [compileStates] at h
    obtain ⟨st, hst, h⟩ := bind_ok h
    obtain ⟨states', hrest, h⟩ := bind_ok h
    cases h
    rw [List.lookup_cons, List.lookup_cons]
    cases name == key with
    | true => rfl
    | false => exact ih hrest

/-- A machine has the first state and the states of its graph. -/
theorem compile_graph {g : Graph} {machine : Machine} (h : Machine.compile g = .ok machine) :
    g.startAt = some machine.start ∧ ∃ ss, g.states = some ss ∧
      compileStates ss = .ok machine.states := by
  obtain ⟨comment, _ | start, _ | ss, version, timeoutSeconds⟩ := g
  · cases h
  · cases h
  · cases h
  · rw [Machine.compile, compileStates?] at h
    obtain ⟨states, hstates, h⟩ := bind_ok h
    split at h
    · cases h
      exact ⟨rfl, ss, rfl, hstates⟩
    · cases h

/-- Of a sealed graph each transition of the machine leads to a state of the machine. -/
theorem compile_sealed {g : Graph} {machine : Machine} (h : Machine.compile g = .ok machine)
    (hg : g.Sealed) : (machine.state? machine.start).isSome ∧
      ∀ s ∈ machine.states, ∀ next ∈ s.2.targets, (machine.state? next).isSome := by
  obtain ⟨hstart, ss, hss, hstates⟩ := compile_graph h
  have hlist : g.stateList = ss := by rw [Graph.stateList, hss]; rfl
  have hdefined : ∀ name, (machine.state? name).isSome = (g.state? name).isSome := by
    intro name
    rw [Graph.state?, hlist]
    exact compileStates_lookup hstates name
  refine ⟨?_, fun s hs next hnext => ?_⟩
  · rw [hdefined]
    exact hg.start _ hstart (by rw [hss]; rfl)
  · obtain ⟨d, hd, hcompile⟩ := compileStates_mem hstates hs
    have hd : (s.1, d) ∈ g.stateList := by rwa [hlist]
    obtain ⟨field, hfield⟩ := compile_targets hcompile (hg.caught _ hd) hnext
    rw [hdefined]
    exact hg.target _ hd _ hfield

theorem compileBranches_mem {position : Nat} {graphs : List Graph} {machines : List Machine}
    (h : compileBranches position graphs = .ok machines) {sub : Machine} (hsub : sub ∈ machines) :
    ∃ g ∈ graphs, Machine.compile g = .ok sub := by
  induction graphs generalizing position machines with
  | nil =>
    rw [compileBranches] at h
    cases h
    cases hsub
  | cons g rest ih =>
    rw [compileBranches] at h
    obtain ⟨machine, hmachine, h⟩ := bind_ok h
    obtain ⟨machines', hrest, h⟩ := bind_ok h
    cases h
    rcases List.mem_cons.mp hsub with rfl | hsub
    · exact ⟨g, List.mem_cons_self, mapError_ok hmachine⟩
    · obtain ⟨g', hg', hcompile⟩ := ih hrest hsub
      exact ⟨g', List.mem_cons_of_mem _ hg', hcompile⟩

/-- The machines inside a state are those of the graphs inside it. -/
theorem compile_nested {s : Document.State} {st : State} (h : State.compile s = .ok st)
    {sub : Machine} (hsub : sub ∈ st.machines) :
    ∃ x ∈ s.nested, Machine.compile x.2 = .ok sub := by
  cases s with
  | parallel s branches =>
    rw [State.compile] at h
    obtain ⟨machines, hmachines, h⟩ := bind_ok h
    obtain ⟨p, _, h⟩ := bind_ok h
    cases h
    cases branches with
    | none =>
      rw [compileBranches?] at hmachines
      cases hmachines
      cases hsub
    | some graphs =>
      rw [compileBranches?] at hmachines
      obtain ⟨g, hg, hcompile⟩ := compileBranches_mem hmachines hsub
      obtain ⟨i, hi, rfl⟩ := List.mem_iff_getElem.mp hg
      exact ⟨_, List.mem_mapIdx.mpr ⟨i, hi, rfl⟩, hcompile⟩
  | map s processor =>
    rw [State.compile] at h
    obtain ⟨machine, hmachine, h⟩ := bind_ok h
    obtain ⟨p, _, h⟩ := bind_ok h
    cases h
    cases processor with
    | none =>
      rw [compileProcessor?] at hmachine
      cases hmachine
    | some g =>
      rw [compileProcessor?] at hmachine
      rw [List.mem_singleton.mp hsub]
      exact ⟨("ItemProcessor", g), List.mem_cons_self, mapError_ok hmachine⟩
  | pass | task | wait | choice | succeed | fail =>
    rw [State.compile] at h
    obtain ⟨p, _, rfl⟩ := map_ok h
    cases hsub

/-- A machine is closed when all graphs of its document are sealed. -/
theorem compile_closed (g : Graph) : ∀ (label : String) {machine : Machine},
    Machine.compile g = .ok machine → (∀ x ∈ g.labelled label, x.2.Sealed) → machine.Closed := by
  induction g using Graph.induction with
  | h g ih =>
    intro label machine h hsealed
    obtain ⟨hstart, htargets⟩ := compile_sealed h (hsealed _ (mem_labelled label g))
    refine .intro hstart htargets fun s hs sub hsub => ?_
    obtain ⟨_, ss, hss, hstates⟩ := compile_graph h
    obtain ⟨d, hd, hcompile⟩ := compileStates_mem hstates hs
    obtain ⟨x, hx, hnested⟩ := compile_nested hcompile hsub
    have hd : (s.1, d) ∈ g.stateList := by rwa [Graph.stateList, hss]
    obtain ⟨label', hlabel⟩ := graph_labelled label hd hx
    exact ih _ hd x hx label' hnested fun y hy => hsealed y (hlabel hy)

end Machine

end StatesLanguage
