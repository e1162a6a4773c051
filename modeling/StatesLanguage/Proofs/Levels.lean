import Mathlib.Algebra.Order.BigOperators.Group.List
import Mathlib.Data.Multiset.OrderedMonoid
import Mathlib.Logic.Relation
import StatesLanguage.Proofs.Closed

/-! What is reported for a document is what is wrong on its own level together with what is reported
for each graph inside it. No graph is passed over or visited twice, and no name of one level counts
on another. -/
namespace StatesLanguage.Document

open Validation

/-- The graphs that lie directly inside the states of a graph. -/
def Graph.nested (g : Graph) : List Graph := g.stateList.flatMap fun s => s.2.nested.map Prod.snd

/-- A graph that lies inside another one, at whatever depth. -/
def Graph.Inside : Graph → Graph → Prop := Relation.TransGen fun inner g => inner ∈ g.nested

/-- The state with the same graph in the place of each that is nested in it. -/
def State.refill (filler : Graph) : State → State
  | .parallel s branches => .parallel s (branches.map fun gs => gs.map fun _ => filler)
  | .map s processor => .map s (processor.map fun _ => filler)
  | s => s

/-- The graph with its own level as it was, and the same graph in the place of each nested one. -/
def Graph.refill (g filler : Graph) : Graph :=
  { g with states := g.states.map fun ss => ss.map fun s => (s.1, s.2.refill filler) }

/-- The codes of all that is reported for a graph that is taken as a document of its own. -/
def Graph.codes (g : Graph) : Multiset Code :=
  match g.validate with
  | .ok () => 0
  | .error e => (e.issues.map Issue.code : List Code)

def codesOf (found : List Issue) : Multiset Code := (found.map Issue.code : List Code)

/-- The codes of what is wrong on the level of a graph, whatever lies inside it. -/
def Graph.ownCodes (g : Graph) : Multiset Code :=
  codesOf (structureOf "" g ++ targetsOf "" g ++ fieldsOf g)

variable {filler g inner : Graph}

theorem validate_ok_iff : g.validate = .ok () ↔ issues g = [] := by
  refine ⟨issues_of_validate, fun h => ?_⟩
  unfold Graph.validate
  rw [h]

theorem codes_eq (g : Graph) : g.codes = codesOf (issues g) := by
  unfold Graph.codes Graph.validate
  split
  · rename_i h
    split at h
    · rename_i hissues
      rw [hissues]
      rfl
    · cases h
    · cases h
  · rename_i h
    split at h
    · cases h
    · rename_i hissues
      cases h
      rw [hissues]
      rfl
    · cases h
      rfl

theorem codes_eq_zero_iff : g.codes = 0 ↔ g.validate = .ok () := by
  rw [codes_eq, codesOf, validate_ok_iff, Multiset.coe_eq_zero, List.map_eq_nil_iff]

section walk

/-- The label of a graph is told in its issues, but does not count in its walk. -/
theorem labelled_graphs (label : String) (g : Graph) :
    (g.labelled label).map Prod.snd = g.all.map Prod.snd := by
  cases g
  rfl

theorem branches_graphs (name : String) (i : Nat) (gs : List Graph) :
    (Branches.labelled name i gs).map Prod.snd = gs.flatMap fun g => g.all.map Prod.snd := by
  induction gs generalizing i with
  | nil => rfl
  | cons g rest ih => rw [Branches.labelled, List.map_append, labelled_graphs, ih, List.flatMap_cons]

theorem state_graphs (name : String) (d : State) :
    (State.labelled name d).map Prod.snd = d.nested.flatMap fun x => x.2.all.map Prod.snd := by
  cases d with
  | parallel s branches =>
    cases branches with
    | none => rfl
    | some gs =>
      have hnested : (State.parallel s (some gs)).nested.map Prod.snd = gs := by
        refine List.ext_getElem ?_ fun i _ _ => ?_ <;> simp [State.nested]
      rw [State.labelled, Branches.labelled?, branches_graphs]
      conv_lhs => rw [← hnested, List.flatMap_map]
  | map s processor =>
    cases processor with
    | none => rfl
    | some g =>
      rw [State.labelled, Processor.labelled?, labelled_graphs]
      simp [State.nested]
  | _ => rfl

theorem states_graphs (ss : List (String × State)) :
    (States.labelled ss).map Prod.snd =
      ss.flatMap fun s => s.2.nested.flatMap fun x => x.2.all.map Prod.snd := by
  induction ss with
  | nil => rfl
  | cons s rest ih =>
    obtain ⟨name, d⟩ := s
    rw [States.labelled, List.map_append, state_graphs, ih, List.flatMap_cons]

/-- The graphs of a document are itself and those of each graph inside it, in that order. -/
theorem all_graphs (g : Graph) :
    g.all.map Prod.snd = g :: g.nested.flatMap fun inner => inner.all.map Prod.snd := by
  have hnested : g.nested.flatMap (fun inner => inner.all.map Prod.snd) =
      g.stateList.flatMap fun s => s.2.nested.flatMap fun x => x.2.all.map Prod.snd := by
    simp [Graph.nested, List.flatMap_assoc, List.flatMap_map]
  rw [hnested]
  obtain ⟨comment, startAt, states, version, timeoutSeconds⟩ := g
  rw [Graph.all, Graph.labelled, List.map_cons]
  cases states with
  | none => rfl
  | some ss => rw [States.labelled?, states_graphs, Graph.stateList, Option.getD_some]

end walk

section codes

theorem codesOf_append (xs ys : List Issue) : codesOf (xs ++ ys) = codesOf xs + codesOf ys := by
  rw [codesOf, List.map_append, ← Multiset.coe_add]
  rfl

theorem codesOf_flatMap {α : Type} (f : α → List Issue) (xs : List α) :
    codesOf (xs.flatMap f) = (xs.map fun x => codesOf (f x)).sum := by
  induction xs with
  | nil => rfl
  | cons x rest ih => rw [List.flatMap_cons, codesOf_append, ih, List.map_cons, List.sum_cons]

theorem codesOf_issueIf (condition : Bool) {issue issue' : Issue} (h : issue.code = issue'.code) :
    codesOf (issueIf condition issue) = codesOf (issueIf condition issue') := by
  cases condition with
  | false => rfl
  | true => simp only [codesOf, issueIf, if_true, List.map_singleton, h]

/-- A graph is reported under its label, but with the same codes under any label. -/
theorem structure_codes (label label' : String) (g : Graph) :
    codesOf (structureOf label g) = codesOf (structureOf label' g) := by
  simp only [structureOf, graphIssues, codesOf_append]
  congr 2
  · exact codesOf_issueIf _ rfl
  · exact codesOf_issueIf _ rfl

theorem targets_codes (label label' : String) (g : Graph) :
    codesOf (targetsOf label g) = codesOf (targetsOf label' g) := by
  simp only [targetsOf, startIssues, codesOf_append]
  congr 1
  split
  · rename_i start _ _ _
    exact codesOf_issueIf _ rfl
  · rfl

/-- The codes of a document are those of the levels of all its graphs. -/
theorem codes_all (g : Graph) : g.codes = ((g.all.map Prod.snd).map Graph.ownCodes).sum := by
  have hown (x : String × Graph) : codesOf (structureOf x.1 x.2) + codesOf (targetsOf x.1 x.2) +
      codesOf (fieldsOf x.2) = x.2.ownCodes := by
    rw [Graph.ownCodes, codesOf_append, codesOf_append, structure_codes x.1 "", targets_codes x.1 ""]
  rw [codes_eq, issues, codesOf_append, codesOf_append, codesOf_flatMap, codesOf_flatMap,
    codesOf_flatMap, List.map_map, ← List.sum_map_add, ← List.sum_map_add]
  exact congrArg List.sum (List.map_congr_left fun x _ => hown x)

/-- The codes of a document are those of its own level and those of each graph inside it. -/
theorem codes_nested (g : Graph) : g.codes = g.ownCodes + (g.nested.map Graph.codes).sum := by
  rw [codes_all, all_graphs, List.map_cons, List.sum_cons]
  congr 1
  induction g.nested with
  | nil => rfl
  | cons inner rest ih =>
    rw [List.flatMap_cons, List.map_append, List.sum_append, ih, ← codes_all, List.map_cons,
      List.sum_cons]

/-- A document is accepted when its own level is and every graph directly inside it. -/
theorem validate_iff (g : Graph) : g.validate = .ok () ↔
    g.ownCodes = 0 ∧ ∀ inner ∈ g.nested, inner.validate = .ok () := by
  rw [← codes_eq_zero_iff, codes_nested, add_eq_zero, List.sum_eq_zero_iff]
  simp only [List.forall_mem_map, codes_eq_zero_iff]

theorem inside_valid (h : g.validate = .ok ()) (hin : inner.Inside g) :
    inner.validate = .ok () := by
  induction hin using Relation.TransGen.head_induction_on with
  | single hin => exact ((validate_iff g).mp h).2 _ hin
  | head hin _ ih => exact ((validate_iff _).mp ih).2 _ hin

end codes

section refill

theorem stateIssues_refill (filler : Graph) (name : String) (d : State) :
    stateIssues name (d.refill filler) = stateIssues name d := by
  cases d with
  | parallel s branches =>
    cases branches with
    | none => rfl
    | some gs => cases gs <;> rfl
  | map s processor => cases processor <;> rfl
  | _ => rfl

theorem targets_refill (filler : Graph) (d : State) : targets (d.refill filler) = targets d := by
  cases d <;> rfl

theorem fieldIssues_refill (filler : Graph) (name : String) (d : State) :
    fieldIssues name (d.refill filler) = fieldIssues name d := by
  cases d <;> rfl

theorem stateList_refill (filler g : Graph) :
    (g.refill filler).stateList = g.stateList.map fun s => (s.1, s.2.refill filler) := by
  obtain ⟨comment, startAt, states, version, timeoutSeconds⟩ := g
  cases states <;> rfl

theorem state_refill (filler g : Graph) (name : String) :
    ((g.refill filler).state? name).isNone = (g.state? name).isNone := by
  rw [Graph.state?, Graph.state?, stateList_refill]
  induction g.stateList with
  | nil => rfl
  | cons s rest ih =>
    rw [List.map_cons, List.lookup_cons, List.lookup_cons]
    cases name == s.1 with
    | true => rfl
    | false => exact ih

theorem startIssues_refill (label : String) (g filler : Graph) :
    startIssues label (g.refill filler) = startIssues label g := by
  simp only [startIssues, state_refill]
  obtain ⟨comment, startAt, states, version, timeoutSeconds⟩ := g
  cases startAt <;> cases states <;> rfl

/-- Nothing that lies inside a graph counts on its own level. -/
theorem ownCodes_refill (filler g : Graph) : (g.refill filler).ownCodes = g.ownCodes := by
  have hstructure : structureOf "" (g.refill filler) = structureOf "" g := by
    simp only [structureOf, stateList_refill, List.flatMap_map, stateIssues_refill]
    congr 1
    obtain ⟨comment, startAt, states, version, timeoutSeconds⟩ := g
    cases states <;> rfl
  have htargets : targetsOf "" (g.refill filler) = targetsOf "" g := by
    simp only [targetsOf, stateList_refill, List.flatMap_map, targets_refill, state_refill]
    rw [startIssues_refill]
  have hfields : fieldsOf (g.refill filler) = fieldsOf g := by
    simp only [fieldsOf, stateList_refill, List.flatMap_map, fieldIssues_refill]
  rw [Graph.ownCodes, hstructure, htargets, hfields, Graph.ownCodes]

theorem nested_refill (filler g : Graph) :
    (g.refill filler).nested = g.nested.map fun _ => filler := by
  have hstate (d : State) :
      (d.refill filler).nested.map Prod.snd = d.nested.map fun _ => filler := by
    cases d with
    | parallel s branches =>
      cases branches with
      | none => rfl
      | some gs => refine List.ext_getElem ?_ fun i _ _ => ?_ <;> simp [State.nested, State.refill]
    | map s processor => cases processor <;> rfl
    | _ => rfl
  simp [Graph.nested, stateList_refill, List.flatMap_map, hstate, List.map_flatMap, Function.comp_def]

/-- With a valid graph in the place of each nested one, only the own level is reported. -/
theorem refill_codes (hfiller : filler.validate = .ok ()) (g : Graph) :
    (g.refill filler).codes = g.ownCodes := by
  have hnone : ((g.refill filler).nested.map Graph.codes).sum = 0 := by
    rw [nested_refill, List.map_map]
    refine List.sum_eq_zero fun x hx => ?_
    obtain ⟨_, -, rfl⟩ := List.mem_map.mp hx
    exact codes_eq_zero_iff.mpr hfiller
  rw [codes_nested, hnone, add_zero, ownCodes_refill]

end refill

/-- What is reported for a document is what is reported for it with a valid graph in the place of each
nested one, together with what is reported for each nested graph by itself. So it is accepted exactly
when its own level is and when every graph inside it, at whatever depth, would be accepted as a
document. -/
theorem codes_by_level (hfiller : filler.validate = .ok ()) (g : Graph) :
    g.codes = (g.refill filler).codes + (g.nested.map Graph.codes).sum ∧
    (g.validate = .ok () ↔ (g.refill filler).validate = .ok () ∧
      ∀ inner : Graph, inner.Inside g → inner.validate = .ok ()) := by
  have hown : (g.refill filler).codes = g.ownCodes := refill_codes hfiller g
  refine ⟨by rw [hown, codes_nested], fun h => ?_, fun ⟨hrefill, hinside⟩ => ?_⟩
  · refine ⟨?_, fun inner hinner => inside_valid h hinner⟩
    rw [← codes_eq_zero_iff, hown]
    exact ((validate_iff g).mp h).1
  · refine (validate_iff g).mpr ⟨by rwa [← codes_eq_zero_iff, hown] at hrefill, ?_⟩
    exact fun inner hinner => hinside inner (.single hinner)

section

/-- A document without issues. -/
def doneGraph : Graph := { startAt := some "Done", states := some [("Done", .succeed {})] }

/-- A document that leads nowhere on its own level, and with a state inside that lacks a field. -/
def lostGraph : Graph where
  startAt := some "Each"
  states := some [("Each", .map { transition := { next := some "Lost" } }
    (some {
      startAt := some "Work"
      states := some [("Work", .task { transition := { isEnd := true } })] }))]

/-- Each of the two issues belongs to a level of its own. -/
theorem lost_codes_by_level : doneGraph.validate = .ok () ∧
    (lostGraph.refill doneGraph).codes = {.invalidReference} ∧
    lostGraph.nested.map Graph.codes = [{.missingRequiredField}] ∧
    lostGraph.codes = {.invalidReference, .missingRequiredField} ∧
    lostGraph.validate ≠ .ok () := by
  have hdone : doneGraph.validate = .ok () := rfl
  have hown : (lostGraph.refill doneGraph).codes = {.invalidReference} := rfl
  have hnested : lostGraph.nested.map Graph.codes = [{.missingRequiredField}] := rfl
  obtain ⟨hcodes, hvalid⟩ := codes_by_level hdone lostGraph
  refine ⟨hdone, hown, hnested, by rw [hcodes, hown, hnested]; rfl, fun h => ?_⟩
  have hlevel : (lostGraph.refill doneGraph).codes = 0 := codes_eq_zero_iff.mpr (hvalid.mp h).1
  rw [hown] at hlevel
  exact Multiset.singleton_ne_zero _ hlevel

end

end StatesLanguage.Document
