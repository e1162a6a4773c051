import StatesLanguage.Proofs.Readings
import StatesLanguage.Workflow.Basic

/-! A valid document compiles as soon as its paths, its intrinsic calls and its timestamps can be read:
all else that compilation asks for has been checked. -/
namespace StatesLanguage

open Document Machine

theorem FilterPath.compile_succeeds {f : PathField}
    (h : ∀ text, f.text? = some text → Succeeds (Path.parse text)) :
    Succeeds (FilterPath.compile f) := by
  cases f with
  | absent | null => exact .ok _
  | path text =>
    rw [FilterPath.compile]
    split
    · exact .ok _
    · exact (h text rfl).map.mapError

/-- A result path that passes its check is a reference path when it can be read. -/
theorem ResultPath.compile_succeeds {name : String} {f : PathField}
    (hissues : Validation.pathFieldIssues name ("ResultPath", f) = [])
    (h : ∀ text, f.text? = some text → Succeeds (Path.parse text)) :
    Succeeds (ResultPath.compile f) := by
  cases f with
  | absent | null => exact .ok _
  | path text =>
    have hform : Path.isReference text = true := by
      simpa [Validation.pathFieldIssues] using issueIf_nil hissues
    rw [ResultPath.compile]
    split
    · exact .ok _
    · obtain ⟨p, hp⟩ := h text rfl
      obtain ⟨hinside, hreference⟩ := Path.reference_of_form hform hp
      have hmerge : (if p.inContext || !p.isReferencePath then
          .error (.notReference text) else .ok (.merge p) : Except FlowFault ResultPath) =
          .ok (.merge p) := by
        rw [hinside, hreference]
        rfl
      exact ⟨.merge p, by rw [hp]; exact hmerge⟩

/-- A state without issues in what is compiled of it, whose paths, calls and timestamps can be
read. -/
structure Document.State.Sound (name : String) (s : Document.State) : Prop where
  complete : Validation.missingField? s = none
  fields : ∀ f ∈ s.pathFields, Validation.pathFieldIssues name f = []
  caught : ∀ c ∈ s.catchers, Validation.pathFieldIssues name ("ResultPath", c.resultPath) = []
  entries : ∀ t ∈ s.templates, Validation.templateIssues name t.1 t.2 = []
  wait : Validation.waitIssues name s = []
  choice : Validation.choiceIssues name s = []
  paths : ∀ text ∈ s.pathTexts, Succeeds (Path.parse text)
  calls : ∀ text ∈ s.callTexts, Succeeds (Intrinsic.Call.parse text)
  timestamp : ∀ text ∈ s.timestampText?, (Timestamp.parse? text).isSome

namespace Document.State.Sound

variable {name field : String} {s : Document.State} {f : PathField} {v : Value}

theorem field_read (h : s.Sound name) (hf : (field, f) ∈ s.pathFields) {text : String}
    (ht : f.text? = some text) : Succeeds (Path.parse text) := by
  refine h.paths text ?_
  simp only [State.pathTexts, List.mem_append, List.mem_filterMap]
  exact .inl (.inl (.inl ⟨_, hf, ht⟩))

theorem filter (h : s.Sound name) (hf : (field, f) ∈ s.pathFields) :
    Succeeds (FilterPath.compile f) :=
  FilterPath.compile_succeeds fun _ => h.field_read hf

theorem result (h : s.Sound name) (hf : ("ResultPath", f) ∈ s.pathFields) :
    Succeeds (ResultPath.compile f) :=
  ResultPath.compile_succeeds (h.fields _ hf) fun _ => h.field_read hf

theorem template (field : String) {template : Option Value} (h : s.Sound name)
    (hgiven : State.templates.given field template ⊆ s.templates) :
    Succeeds (compileTemplate? template) := by
  cases template with
  | none => exact .ok _
  | some v =>
    have hv : (field, v) ∈ s.templates := hgiven List.mem_cons_self
    refine (Template.compile_succeeds v (h.entries _ hv) fun e he => ?_).map.mapError
    have hmem : e ∈ s.expressions := List.mem_flatMap.mpr ⟨_, hv, he⟩
    refine ⟨fun hpath => h.paths e ?_, fun hcall => h.calls e ?_⟩
    · exact List.mem_append_right _ (List.mem_filter.mpr ⟨hmem, hpath⟩)
    · exact List.mem_filter.mpr ⟨hmem, by rw [hcall]; rfl⟩

theorem path (field : String) {text : String} (h : s.Sound name) (ht : text ∈ s.kindPathTexts) :
    Succeeds (fieldPath field text) := by
  refine (h.paths text ?_).mapError
  simp only [State.pathTexts, List.mem_append]
  exact .inl (.inl (.inr ht))

theorem handling (h : s.Sound name) :
    Succeeds (inFlow (ErrorHandling.compile s.retriers s.catchers)) := by
  refine Succeeds.mapError (.bind (.mapM fun c hc => .bind ?_ fun _ => .ok _) fun _ => .ok _)
  refine ResultPath.compile_succeeds (h.caught c hc) fun text ht => h.paths text ?_
  simp only [State.pathTexts, List.mem_append, List.mem_filterMap]
  exact .inl (.inr ⟨c, hc, ht⟩)

/-- The data flow of a state, over fields and templates that the state has. -/
theorem flow {paths : Paths} {parameters resultSelector : Option Value} {resultPath : PathField}
    (h : s.Sound name) (hpaths : State.pathFields.both paths ⊆ s.pathFields)
    (hparameters : State.templates.given "Parameters" parameters ⊆ s.templates)
    (hselector : State.templates.given "ResultSelector" resultSelector ⊆ s.templates)
    (hresult : resultPath = .absent ∨ ("ResultPath", resultPath) ∈ s.pathFields) :
    Succeeds (inFlow (DataFlow.compile paths parameters resultSelector resultPath)) := by
  have hinput : ("InputPath", paths.input) ∈ s.pathFields := hpaths (by simp [State.pathFields.both])
  have houtput : ("OutputPath", paths.output) ∈ s.pathFields :=
    hpaths (by simp [State.pathFields.both])
  have hmerge : Succeeds (ResultPath.compile resultPath) := by
    rcases hresult with rfl | hresult
    · exact .ok _
    · exact h.result hresult
  exact Succeeds.mapError <| (h.filter hinput).bind fun _ => (h.template _ hparameters).bind fun _ =>
    (h.template _ hselector).bind fun _ => hmerge.bind fun _ => (h.filter houtput).bind fun _ => .ok _

end Document.State.Sound

namespace Machine

variable {name : String}

theorem Pass.compile_succeeds {s : Document.Pass} (h : (Document.State.pass s).Sound name) :
    Succeeds (Pass.compile s) := by
  refine Succeeds.bind (h.flow ?_ ?_ ?_ (.inr ?_)) fun _ => .ok _
  all_goals simp [State.pathFields, State.templates, State.templates.given]

theorem Task.compile_succeeds {s : Document.Task} (h : (Document.State.task s).Sound name) :
    Succeeds (Task.compile s) := by
  have hcomplete := h.complete
  unfold Task.compile
  cases hresource : s.resource with
  | none => simp [Validation.missingField?, hresource] at hcomplete
  | some resource =>
    refine Succeeds.bind (.mapError (h.template "Credentials" ?_)) fun _ =>
      (h.flow ?_ ?_ ?_ (.inr ?_)).bind fun _ => h.handling.bind fun _ => .ok _
    all_goals simp [State.pathFields, State.templates]

theorem Delay.compile_succeeds {s : Document.Wait} (h : (Document.State.wait s).Sound name) :
    Succeeds (Delay.compile s) := by
  have hgiven := issueIf_nil h.wait
  have htime := h.timestamp
  have hpath : ∀ field, ∀ text ∈ (Document.State.wait s).kindPathTexts,
    Succeeds (fieldPath field text) := fun field _ => h.path field
  obtain ⟨comment, transition, paths, seconds, secondsPath, timestamp, timestampPath⟩ := s
  rcases seconds with _ | n <;> rcases secondsPath with _ | text <;>
    rcases timestamp with _ | time <;> rcases timestampPath with _ | text' <;>
    simp at hgiven
  · exact (hpath "TimestampPath" text' (by simp [State.kindPathTexts])).map
  · obtain ⟨instant, hinstant⟩ := Option.isSome_iff_exists.mp (htime time rfl)
    simp only [Delay.compile, hinstant]
    exact .ok _
  · exact (hpath "SecondsPath" text (by simp [State.kindPathTexts])).map
  · exact .ok _

theorem Wait.compile_succeeds {s : Document.Wait} (h : (Document.State.wait s).Sound name) :
    Succeeds (Wait.compile s) := by
  refine (Delay.compile_succeeds h).bind fun _ => (h.flow ?_ ?_ ?_ (.inl rfl)).bind fun _ => .ok _
  all_goals simp [State.pathFields, State.templates.given]

theorem compileChoices_succeeds {position : Nat} {rules : List Document.Rule}
    (hnext : ∀ r ∈ rules, r.next.isSome) (hrule : ∀ r ∈ rules, Succeeds (ChoiceRule.compile r)) :
    Succeeds (compileChoices position rules) := by
  induction rules generalizing position with
  | nil => exact .ok _
  | cons r rest ih =>
    obtain ⟨hr, hrest⟩ := List.forall_mem_cons.mp hnext
    obtain ⟨hcompile, hcompileRest⟩ := List.forall_mem_cons.mp hrule
    obtain ⟨next, hr⟩ := Option.isSome_iff_exists.mp hr
    unfold compileChoices
    simp only [hr]
    exact hcompile.mapError.bind fun _ => (ih hrest hcompileRest).bind fun _ => .ok _

theorem Choice.compile_succeeds {s : Document.Choice} (h : (Document.State.choice s).Sound name) :
    Succeeds (Choice.compile s) := by
  have hissues := h.choice
  simp only [Validation.choiceIssues, List.flatten_eq_nil_iff, List.mem_mapIdx] at hissues
  have hrules : ∀ r ∈ s.choices.getD [], r.next.isSome ∧
      ∃ location, Validation.ruleIssues location r = [] := by
    intro r hr
    obtain ⟨i, hi, rfl⟩ := List.mem_iff_getElem.mp hr
    have hrule := hissues _ ⟨i, hi, rfl⟩
    rw [List.append_eq_nil_iff] at hrule
    exact ⟨by simpa using issueIf_nil hrule.1, _, hrule.2⟩
  refine (compileChoices_succeeds (fun r hr => (hrules r hr).1) fun r hr => ?_).bind fun _ =>
    (h.flow ?_ ?_ ?_ (.inl rfl)).bind fun _ => .ok _
  · obtain ⟨-, location, hrule⟩ := hrules r hr
    refine ChoiceRule.compile_succeeds r hrule fun text ht => h.paths text ?_
    simp only [State.pathTexts, State.kindPathTexts, List.mem_append]
    exact .inl (.inl (.inr (List.mem_flatMap.mpr ⟨r, hr, ht⟩)))
  all_goals simp [State.pathFields, State.templates.given]

theorem Succeed.compile_succeeds {s : Document.Succeed}
    (h : (Document.State.succeed s).Sound name) : Succeeds (Succeed.compile s) := by
  refine (h.flow ?_ ?_ ?_ (.inl rfl)).bind fun _ => .ok _
  all_goals simp [State.pathFields, State.templates.given]

theorem FailText.compile_succeeds {field : String} {literal path : Option String}
    (h : ∀ text ∈ path, Succeeds (fieldPath field text)) :
    Succeeds (FailText.compile field literal path) := by
  cases literal with
  | some text => exact .ok _
  | none =>
    cases path with
    | none => exact .ok _
    | some text => exact (h text rfl).map

theorem Fail.compile_succeeds {s : Document.Fail} (h : (Document.State.fail s).Sound name) :
    Succeeds (Fail.compile s) := by
  refine Succeeds.bind (FailText.compile_succeeds fun text ht => h.path _ ?_) fun _ =>
    .bind (FailText.compile_succeeds fun text ht => h.path _ ?_) fun _ => .ok _
  all_goals simp_all [State.kindPathTexts]

theorem Parallel.compile_succeeds {s : Document.Parallel} {branches : Option (List Graph)}
    (h : (Document.State.parallel s branches).Sound name) : Succeeds (Parallel.compile s) := by
  refine (h.flow ?_ ?_ ?_ (.inr ?_)).bind fun _ => h.handling.bind fun _ => .ok _
  all_goals simp [State.pathFields, State.templates]

theorem Map.compile_succeeds {s : Document.Map} {processor : Option Graph}
    (h : (Document.State.map s processor).Sound name) : Succeeds (Map.compile s) := by
  have hitems : Succeeds (fieldPath "ItemsPath" (s.itemsPath.getD "$")) := by
    cases hpath : s.itemsPath with
    | none =>
      have hroot : Succeeds (Path.parse "$") := by decide +kernel
      exact hroot.mapError
    | some text => exact h.path _ (by simp [State.kindPathTexts, hpath])
  refine hitems.bind fun _ => Succeeds.bind (.mapError (h.template "ItemSelector" ?_))
    fun _ => (h.flow ?_ ?_ ?_ (.inr ?_)).bind fun _ => h.handling.bind fun _ => .ok _
  all_goals simp [State.pathFields, State.templates, State.templates.given]

theorem compileBranches_succeeds {position : Nat} {graphs : List Graph}
    (h : ∀ g ∈ graphs, Succeeds (Machine.compile g)) :
    Succeeds (compileBranches position graphs) := by
  induction graphs generalizing position with
  | nil =>
    rw [compileBranches]
    exact .ok _
  | cons g rest ih =>
    obtain ⟨hg, hrest⟩ := List.forall_mem_cons.mp h
    rw [compileBranches]
    exact hg.mapError.bind fun _ => (ih hrest).bind fun _ => .ok _

/-- A sound state compiles when the graphs inside it do. -/
theorem State.compile_succeeds {s : Document.State} (h : s.Sound name)
    (hnested : ∀ x ∈ s.nested, Succeeds (Machine.compile x.2)) : Succeeds (State.compile s) := by
  cases s with
  | pass s =>
    rw [State.compile]
    exact (Pass.compile_succeeds h).map
  | task s =>
    rw [State.compile]
    exact (Task.compile_succeeds h).map
  | wait s =>
    rw [State.compile]
    exact (Wait.compile_succeeds h).map
  | choice s =>
    rw [State.compile]
    exact (Choice.compile_succeeds h).map
  | succeed s =>
    rw [State.compile]
    exact (Succeed.compile_succeeds h).map
  | fail s =>
    rw [State.compile]
    exact (Fail.compile_succeeds h).map
  | parallel s branches =>
    have hbranches : Succeeds (compileBranches? branches) := by
      cases branches with
      | none =>
        rw [compileBranches?]
        exact .ok _
      | some graphs =>
        rw [compileBranches?]
        refine compileBranches_succeeds fun g hg => ?_
        obtain ⟨i, hi, rfl⟩ := List.mem_iff_getElem.mp hg
        exact hnested _ (List.mem_mapIdx.mpr ⟨i, hi, rfl⟩)
    rw [State.compile]
    exact hbranches.bind fun _ => (Parallel.compile_succeeds h).bind fun _ => .ok _
  | map s processor =>
    have hprocessor : Succeeds (compileProcessor? processor) := by
      cases processor with
      | none => cases h.complete
      | some g =>
        rw [compileProcessor?]
        exact (hnested ("ItemProcessor", g) List.mem_cons_self).mapError
    rw [State.compile]
    exact hprocessor.bind fun _ => (Map.compile_succeeds h).bind fun _ => .ok _

theorem compileStates_succeeds {ss : List (String × Document.State)}
    (h : ∀ s ∈ ss, Succeeds (State.compile s.2)) : Succeeds (compileStates ss) := by
  induction ss with
  | nil =>
    rw [compileStates]
    exact .ok _
  | cons s rest ih =>
    obtain ⟨name, d⟩ := s
    obtain ⟨hd, hrest⟩ := List.forall_mem_cons.mp h
    rw [compileStates]
    exact hd.mapError.bind fun _ => (ih hrest).bind fun _ => .ok _

end Machine

namespace Document

variable {g : Graph}

/-- A graph with a start and with states that are sound. -/
structure Graph.Sound (g : Graph) : Prop where
  start : g.startAt.isSome
  given : g.states.isSome
  states : ∀ s ∈ g.stateList, s.2.Sound s.1

theorem sound_of_valid (h : Validation.issues g = []) {x : String × Graph} (hx : x ∈ g.all)
    (hread : x.2.Legible) : x.2.Sound := by
  simp only [Validation.issues, List.append_eq_nil_iff, List.flatMap_eq_nil_iff] at h
  obtain ⟨⟨hstructure, -⟩, hfields⟩ := h
  have hshape := hstructure x hx
  simp only [Validation.structureOf, Validation.graphIssues, List.append_eq_nil_iff,
    List.flatMap_eq_nil_iff] at hshape
  obtain ⟨⟨hstart, hgiven⟩, hstates⟩ := hshape
  refine ⟨by simpa using issueIf_nil hstart, by simpa using issueIf_nil hgiven, fun s hs => ?_⟩
  have hcomplete := hstates s hs
  have hfield := hfields x hx
  simp only [Validation.fieldsOf, List.flatMap_eq_nil_iff] at hfield
  have hissues := hfield s hs
  simp only [Validation.stateIssues, List.append_eq_nil_iff] at hcomplete
  simp only [Validation.fieldIssues, Validation.pathsOf, List.append_eq_nil_iff,
    List.flatMap_eq_nil_iff] at hissues
  obtain ⟨⟨⟨⟨⟨⟨⟨hpaths, -⟩, hcaught⟩, hentries⟩, hwait⟩, hchoice⟩, -⟩, -⟩ := hissues
  exact {
    complete := by simpa using hcomplete.1.1
    fields := hpaths
    caught := hcaught
    entries := hentries
    wait := hwait
    choice := hchoice
    paths := hread.paths s hs
    calls := hread.calls s hs
    timestamp := hread.timestamps s hs }

/-- A sound graph whose start is one of its states compiles when the graphs inside it do. -/
theorem Graph.Sound.compile_succeeds (h : g.Sound) (hsealed : g.Sealed)
    (hnested : ∀ s ∈ g.stateList, ∀ x ∈ s.2.nested, Succeeds (Machine.compile x.2)) :
    Succeeds (Machine.compile g) := by
  obtain ⟨comment, startAt, states, version, timeoutSeconds⟩ := g
  obtain ⟨start, rfl⟩ := Option.isSome_iff_exists.mp h.start
  obtain ⟨ss, rfl⟩ := Option.isSome_iff_exists.mp h.given
  obtain ⟨states, hstates⟩ : Succeeds (compileStates ss) := compileStates_succeeds fun s hs =>
    State.compile_succeeds (h.states s hs) (hnested s hs)
  have hfound : (states.lookup start).isSome := by
    rw [compileStates_lookup hstates]
    exact hsealed.start start rfl rfl
  obtain ⟨st, hst⟩ := Option.isSome_iff_exists.mp hfound
  obtain ⟨before, after, hsplit, -⟩ := List.lookup_eq_some_iff.mp hst
  have hany : (states.any fun s => s.1 == start) = true := by simp [hsplit]
  rw [Machine.compile, compileStates?]
  exact ⟨⟨start, states⟩, by simp only [hstates, bind, Except.bind, hany, if_true]; rfl⟩

theorem compile_labelled (g : Graph) : ∀ label : String,
    (∀ x ∈ g.labelled label, x.2.Sound ∧ x.2.Sealed) →
    ∀ x ∈ g.labelled label, Succeeds (Machine.compile x.2) := by
  induction g using Graph.induction with
  | h g ih =>
    intro label hsound x hx
    rcases of_graph_labelled hx with rfl | ⟨s, hs, y, hy, label', hx, hlabel⟩
    · obtain ⟨hg, hsealed⟩ := hsound _ hx
      refine hg.compile_succeeds hsealed fun s hs y hy => ?_
      obtain ⟨label', hlabel⟩ := graph_labelled label hs hy
      exact ih s hs y hy label' (fun z hz => hsound z (hlabel hz)) (label', y.2)
        (mem_labelled label' y.2)
    · exact ih s hs y hy label' (fun z hz => hsound z (hlabel hz)) x hx

/-- A valid document whose paths, intrinsic calls and timestamps can be read compiles, and so does
each graph inside it. -/
theorem valid_compiles {g : Graph} (hvalid : g.validate = .ok ())
    (hread : ∀ x ∈ g.all, x.2.Legible) :
    ∀ x ∈ g.all, ∃ machine, Machine.compile x.2 = .ok machine := by
  have hissues := issues_of_validate hvalid
  exact compile_labelled g "StateMachine" fun x hx =>
    ⟨sound_of_valid hissues hx (hread x hx), sealed_of_valid hissues hx⟩

section

/-- A document with texts of every sort: paths, a call, an instant and a rule, at two depths. -/
def lineGraph : Graph where
  startAt := some "Shape"
  states := some [
    ("Shape", .pass {
      transition := { next := some "Check" }
      paths := { input := .path "$.order", output := .null }
      resultPath := .path "$.line[0]"
      parameters := some (.obj [
        ("name.$", .str "$$.State.Name"),
        ("text", .arr [.obj [("line.$", .str "States.Format('{}', $.name)")]])]) }),
    ("Check", .choice {
      choices := some [{
        next := some "Pause"
        conj := some [
          { subject := some "$.kind", comparisons := [("StringMatches", .str "new*")] },
          { subject := some "$.count", comparisons := [("NumericLessThanPath", .str "$.limit")] }] }]
      default := some "Each" }),
    ("Pause", .wait {
      transition := { next := some "Each" }, timestamp := some "2024-01-01T00:00:00Z" }),
    ("Each", .map
      { transition := { isEnd := true }
        itemsPath := some "$.items"
        itemSelector := some (.obj [("item.$", .str "$$.Map.Item.Value")])
        catchers := [
          { errorEquals := ["States.ALL"], next := some "Pause", resultPath := .path "$.error" }] }
      (some {
        startAt := some "Work"
        states := some [
          ("Work", .task { transition := { isEnd := true }, resource := some "local" })] }))]

theorem line_compiles : lineGraph.validate = .ok () ∧ (∀ x ∈ lineGraph.all, x.2.Legible) ∧
    ∃ machine, Machine.compile lineGraph = .ok machine := by
  have hvalid : Succeeds lineGraph.validate := by decide +kernel
  have hread : ∀ x ∈ lineGraph.all, x.2.Legible := by decide +kernel
  obtain ⟨_, hvalid⟩ := hvalid
  exact ⟨hvalid, hread, valid_compiles hvalid hread _ List.mem_cons_self⟩

end

end Document

end StatesLanguage
