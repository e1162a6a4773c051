import StatesLanguage.Document.Nested

/-! Graphs nest through the branches of a Parallel and the processor of a Map. -/
namespace StatesLanguage.Document

section

variable {P : Graph → Prop}

mutual

/-- What holds of a graph whenever it holds of the graphs inside it holds of all graphs. -/
theorem Graph.induction
    (h : ∀ g : Graph, (∀ s ∈ g.stateList, ∀ x ∈ s.2.nested, P x.2) → P g) : ∀ g : Graph, P g
  | ⟨comment, startAt, none, version, timeoutSeconds⟩ =>
    h ⟨comment, startAt, none, version, timeoutSeconds⟩ fun _ hs => by cases hs
  | ⟨comment, startAt, some ss, version, timeoutSeconds⟩ =>
    h ⟨comment, startAt, some ss, version, timeoutSeconds⟩ (Graph.induction_states h ss)

theorem Graph.induction_states
    (h : ∀ g : Graph, (∀ s ∈ g.stateList, ∀ x ∈ s.2.nested, P x.2) → P g) :
    ∀ ss : List (String × State), ∀ s ∈ ss, ∀ x ∈ s.2.nested, P x.2
  | [], _, hs => by cases hs
  | (name, d) :: rest, s, hs => by
    rcases List.mem_cons.mp hs with heq | hs
    · rw [heq]
      exact Graph.induction_state h d
    · exact Graph.induction_states h rest s hs

theorem Graph.induction_state
    (h : ∀ g : Graph, (∀ s ∈ g.stateList, ∀ x ∈ s.2.nested, P x.2) → P g) :
    ∀ d : State, ∀ x ∈ d.nested, P x.2
  | .parallel _ (some graphs), x, hx => by
    obtain ⟨i, hi, rfl⟩ := List.mem_mapIdx.mp hx
    exact Graph.induction_branches h graphs _ (List.getElem_mem hi)
  | .map _ (some g), x, hx => by
    rw [List.mem_singleton.mp hx]
    exact Graph.induction h g
  | .parallel _ none, _, hx | .map _ none, _, hx | .pass _, _, hx | .task _, _, hx
  | .wait _, _, hx | .choice _, _, hx | .succeed _, _, hx | .fail _, _, hx => by cases hx

theorem Graph.induction_branches
    (h : ∀ g : Graph, (∀ s ∈ g.stateList, ∀ x ∈ s.2.nested, P x.2) → P g) :
    ∀ graphs : List Graph, ∀ g ∈ graphs, P g
  | [], _, hg => by cases hg
  | g :: rest, g', hg => by
    rcases List.mem_cons.mp hg with heq | hg
    · rw [heq]
      exact Graph.induction h g
    · exact Graph.induction_branches h rest g' hg

end

end

theorem branches_labelled (name : String) (i : Nat) {graphs : List Graph} {g : Graph}
    (hg : g ∈ graphs) : ∃ label, g.labelled label ⊆ Branches.labelled name i graphs := by
  induction graphs generalizing i with
  | nil => cases hg
  | cons g' rest ih =>
    rw [Branches.labelled]
    rcases List.mem_cons.mp hg with rfl | hg
    · exact ⟨_, List.subset_append_left _ _⟩
    · obtain ⟨label, hlabel⟩ := ih (i + 1) hg
      exact ⟨label, List.Subset.trans hlabel (List.subset_append_right _ _)⟩

theorem state_labelled (name : String) {d : State} {x : String × Graph} (hx : x ∈ d.nested) :
    ∃ label, x.2.labelled label ⊆ State.labelled name d := by
  cases d with
  | parallel s branches =>
    cases branches with
    | none => cases hx
    | some graphs =>
      obtain ⟨i, hi, rfl⟩ := List.mem_mapIdx.mp hx
      rw [State.labelled, Branches.labelled?]
      exact branches_labelled name 0 (List.getElem_mem hi)
  | map s processor =>
    cases processor with
    | none => cases hx
    | some g =>
      rw [List.mem_singleton.mp hx, State.labelled, Processor.labelled?]
      exact ⟨_, fun _ => id⟩
  | _ => cases hx

theorem states_labelled {ss : List (String × State)} {s : String × State} (hs : s ∈ ss) :
    State.labelled s.1 s.2 ⊆ States.labelled ss := by
  induction ss with
  | nil => cases hs
  | cons s' rest ih =>
    obtain ⟨name, d⟩ := s'
    rw [States.labelled]
    rcases List.mem_cons.mp hs with rfl | hs
    · exact List.subset_append_left _ _
    · exact List.Subset.trans (ih hs) (List.subset_append_right _ _)

theorem mem_labelled (label : String) (g : Graph) : (label, g) ∈ g.labelled label := by
  obtain ⟨comment, startAt, states, version, timeoutSeconds⟩ := g
  rw [Graph.labelled]
  exact List.mem_cons_self

/-- The graphs inside a nested graph are among those of the whole. -/
theorem graph_labelled (label : String) {g : Graph} {s : String × State} {x : String × Graph}
    (hs : s ∈ g.stateList) (hx : x ∈ s.2.nested) :
    ∃ label', x.2.labelled label' ⊆ g.labelled label := by
  obtain ⟨comment, startAt, states, version, timeoutSeconds⟩ := g
  cases states with
  | none => cases hs
  | some ss =>
    obtain ⟨label', hlabel⟩ := state_labelled s.1 hx
    refine ⟨label', List.Subset.trans (List.Subset.trans hlabel (states_labelled hs)) ?_⟩
    rw [Graph.labelled, States.labelled?]
    exact List.subset_cons_self _ _

theorem of_branches_labelled {name : String} {i : Nat} {graphs : List Graph} {y : String × Graph}
    (hy : y ∈ Branches.labelled name i graphs) :
    ∃ g ∈ graphs, ∃ label, y ∈ g.labelled label ∧
      g.labelled label ⊆ Branches.labelled name i graphs := by
  induction graphs generalizing i with
  | nil => cases hy
  | cons g rest ih =>
    rw [Branches.labelled] at hy ⊢
    rcases List.mem_append.mp hy with hy | hy
    · exact ⟨g, List.mem_cons_self, _, hy, List.subset_append_left _ _⟩
    · obtain ⟨g', hg', label, hlabel, hsub⟩ := ih hy
      exact ⟨g', List.mem_cons_of_mem _ hg', label, hlabel,
        List.Subset.trans hsub (List.subset_append_right _ _)⟩

theorem of_state_labelled {name : String} {d : State} {y : String × Graph}
    (hy : y ∈ State.labelled name d) :
    ∃ x ∈ d.nested, ∃ label, y ∈ x.2.labelled label ∧ x.2.labelled label ⊆ State.labelled name d := by
  cases d with
  | parallel s branches =>
    cases branches with
    | none => cases hy
    | some graphs =>
      rw [State.labelled, Branches.labelled?] at hy ⊢
      obtain ⟨g, hg, hlabel⟩ := of_branches_labelled hy
      obtain ⟨i, hi, rfl⟩ := List.mem_iff_getElem.mp hg
      exact ⟨_, List.mem_mapIdx.mpr ⟨i, hi, rfl⟩, hlabel⟩
  | map s processor =>
    cases processor with
    | none => cases hy
    | some g =>
      rw [State.labelled, Processor.labelled?] at hy ⊢
      exact ⟨("ItemProcessor", g), List.mem_cons_self, _, hy, fun _ => id⟩
  | _ => cases hy

theorem of_states_labelled {ss : List (String × State)} {y : String × Graph}
    (hy : y ∈ States.labelled ss) : ∃ s ∈ ss, y ∈ State.labelled s.1 s.2 := by
  induction ss with
  | nil => cases hy
  | cons s rest ih =>
    obtain ⟨name, d⟩ := s
    rw [States.labelled] at hy
    rcases List.mem_append.mp hy with hy | hy
    · exact ⟨_, List.mem_cons_self, hy⟩
    · obtain ⟨s, hs, hlabel⟩ := ih hy
      exact ⟨s, List.mem_cons_of_mem _ hs, hlabel⟩

/-- A graph of the whole is the whole itself or lies in a graph that is nested in one of its states. -/
theorem of_graph_labelled {label : String} {g : Graph} {y : String × Graph}
    (hy : y ∈ g.labelled label) : y = (label, g) ∨
      ∃ s ∈ g.stateList, ∃ x ∈ s.2.nested, ∃ label', y ∈ x.2.labelled label' ∧
        x.2.labelled label' ⊆ g.labelled label := by
  obtain ⟨comment, startAt, states, version, timeoutSeconds⟩ := g
  rw [Graph.labelled] at hy ⊢
  rcases List.mem_cons.mp hy with hy | hy
  · exact .inl hy
  · cases states with
    | none => cases hy
    | some ss =>
      obtain ⟨s, hs, hy⟩ := of_states_labelled hy
      obtain ⟨x, hx, label', hlabel, hsub⟩ := of_state_labelled hy
      exact .inr ⟨s, hs, x, hx, label', hlabel,
        List.Subset.trans hsub (List.Subset.trans (states_labelled hs) (List.subset_cons_self _ _))⟩

end StatesLanguage.Document
