import Mathlib.Tactic.MkIffOfInductiveProp
import StatesLanguage.Proofs.Closed
import StatesLanguage.Proofs.Forms

/-! The texts of a document that are left to be read when it is compiled: paths, intrinsic calls and
timestamps. Where all of them can be read, the parts of a state that pass their checks compile. -/
namespace StatesLanguage

namespace Document

/-- The text of a path field that gives one. -/
def PathField.text? : PathField → Option String
  | .path text => some text
  | _ => none

mutual

/-- The expressions of a template: what its dynamic entries hold, at every depth. -/
def expressions : Value → List String
  | .obj entries => entryExpressions entries
  | .arr items => itemExpressions items
  | _ => []

def entryExpressions : List (String × Value) → List String
  | [] => []
  | (key, v) :: rest =>
    (if Validation.isDynamicKey key then v.str?.toList else expressions v) ++ entryExpressions rest

def itemExpressions : List Value → List String
  | [] => []
  | v :: rest => expressions v ++ itemExpressions rest

end

/-- Whether an expression is a path and no call. -/
def isPathExpression (expression : String) : Bool := expression.toList.head? == some '$'

/-- The path that a comparison takes its operand from. -/
def comparisonPath? (comparison : String × Value) : Option String :=
  match Operator.ofKey? comparison.1 with
  | some (_, true) => comparison.2.str?
  | _ => none

mutual

/-- The paths of a rule and of the rules inside it. -/
def Rule.pathTexts : Rule → List String
  | ⟨subject, _, conj, disj, neg, _, comparisons⟩ =>
    subject.toList ++ comparisons.filterMap comparisonPath? ++ Rule.listPathTexts? conj ++
      Rule.listPathTexts? disj ++ Rule.pathTexts? neg

def Rule.listPathTexts? : Option (List Rule) → List String
  | none => []
  | some rules => Rule.listPathTexts rules

def Rule.listPathTexts : List Rule → List String
  | [] => []
  | r :: rest => Rule.pathTexts r ++ Rule.listPathTexts rest

def Rule.pathTexts? : Option Rule → List String
  | none => []
  | some r => Rule.pathTexts r

end

namespace State

/-- All expressions in the templates of a state. -/
def expressions (s : State) : List String := s.templates.flatMap fun t => Document.expressions t.2

/-- The paths that only some kinds of states have. -/
def kindPathTexts : State → List String
  | .wait s => s.secondsPath.toList ++ s.timestampPath.toList
  | .fail s => s.errorPath.toList ++ s.causePath.toList
  | .map s _ => s.itemsPath.toList
  | .choice s => (s.choices.getD []).flatMap Rule.pathTexts
  | _ => []

/-- All texts of a state that stand for paths. -/
def pathTexts (s : State) : List String :=
  s.pathFields.filterMap (fun f => f.2.text?) ++ s.kindPathTexts ++
    s.catchers.filterMap (fun c => c.resultPath.text?) ++ s.expressions.filter isPathExpression

/-- All texts of a state that stand for intrinsic calls. -/
def callTexts (s : State) : List String := s.expressions.filter fun e => !isPathExpression e

/-- The instant that a Wait state is told outright. -/
def timestampText? : State → Option String
  | .wait s => s.timestamp
  | _ => none

end State

/-- A graph whose paths, calls and timestamps can all be read. -/
@[mk_iff]
structure Graph.Legible (g : Graph) : Prop where
  paths : ∀ s ∈ g.stateList, ∀ text ∈ s.2.pathTexts, Succeeds (Path.parse text)
  calls : ∀ s ∈ g.stateList, ∀ text ∈ s.2.callTexts, Succeeds (Intrinsic.Call.parse text)
  timestamps : ∀ s ∈ g.stateList, ∀ text ∈ s.2.timestampText?, (Timestamp.parse? text).isSome

instance (g : Graph) : Decidable g.Legible :=
  decidable_of_iff' _ (Graph.legible_iff g)

end Document

open Document

namespace Template

theorem isDynamicKey_eq (key : String) :
    Validation.isDynamicKey key = (dynamicName? key).isSome := by
  unfold Validation.isDynamicKey dynamicName?
  split <;> simp_all

/-- An expression that can be read. -/
def Legible (e : String) : Prop :=
  (isPathExpression e = true → Succeeds (Path.parse e)) ∧
    (isPathExpression e = false → Succeeds (Intrinsic.Call.parse e))

theorem expression_succeeds {key e : String} (h : Legible e) :
    Succeeds (expression key (.str e)) := by
  unfold expression
  simp only
  split
  · rename_i rest heq
    exact (h.1 (by simp [isPathExpression, heq])).map.mapError
  · rename_i hnone
    refine (h.2 ?_).map.mapError
    cases htext : e.toList with
    | nil => simp [isPathExpression, htext]
    | cons c rest =>
      have hc : c ≠ '$' := fun heq => hnone rest (by rw [htext, heq])
      simp [isPathExpression, htext, hc]

variable {name field : String}

mutual

/-- A template without issues compiles when its expressions can be read. -/
theorem compile_succeeds : ∀ v : Value, Validation.templateIssues name field v = [] →
    (∀ e ∈ expressions v, Legible e) → Succeeds (compile v)
  | .obj fields, hissues, hread => by
    rw [Validation.templateIssues] at hissues
    rw [expressions] at hread
    rw [compile]
    split
    · exact (compileFields_succeeds fields hissues hread).map
    · exact .ok _
  | .arr items, hissues, hread => by
    rw [Validation.templateIssues] at hissues
    rw [expressions] at hread
    rw [compile]
    split
    · exact (compileItems_succeeds items hissues hread).map
    · exact .ok _
  | .null, _, _ | .bool _, _, _ | .int _, _, _ | .float _, _, _ | .str _, _, _ => by
    rw [compile]
    · exact .ok _
    all_goals simp

theorem compileFields_succeeds : ∀ fields : List (String × Value),
    Validation.entryIssues name field fields = [] → (∀ e ∈ entryExpressions fields, Legible e) →
    Succeeds (compileFields fields)
  | [], _, _ => by
    rw [compileFields]
    exact .ok _
  | (key, v) :: rest, hissues, hread => by
    rw [Validation.entryIssues, List.append_eq_nil_iff] at hissues
    rw [entryExpressions, List.forall_mem_append] at hread
    have hrest := compileFields_succeeds rest hissues.2 hread.2
    rw [compileFields]
    cases hname : dynamicName? key with
    | none =>
      have hkey : Validation.isDynamicKey key = false := by rw [isDynamicKey_eq, hname]; rfl
      simp only [hkey, Bool.false_eq_true, if_false] at hissues hread
      exact (compile_succeeds v hissues.1 hread.1).map.bind fun _ => hrest.bind fun _ => .ok _
    | some name' =>
      have hkey : Validation.isDynamicKey key = true := by rw [isDynamicKey_eq, hname]; rfl
      simp only [hkey, if_true] at hissues hread
      have hexpression := issueIf_nil hissues.1
      cases v with
      | str e =>
        have he : Legible e := hread.1 e (by simp [Value.str?])
        exact (expression_succeeds he).map.bind fun _ => hrest.bind fun _ => .ok _
      | _ => cases hexpression

theorem compileItems_succeeds : ∀ items : List Value,
    Validation.itemIssues name field items = [] → (∀ e ∈ itemExpressions items, Legible e) →
    Succeeds (compileItems items)
  | [], _, _ => by
    rw [compileItems]
    exact .ok _
  | v :: rest, hissues, hread => by
    rw [Validation.itemIssues, List.append_eq_nil_iff] at hissues
    rw [itemExpressions, List.forall_mem_append] at hread
    rw [compileItems]
    exact (compile_succeeds v hissues.1 hread.1).bind fun _ =>
      (compileItems_succeeds rest hissues.2 hread.2).bind fun _ => .ok _

end

end Template

namespace ChoiceRule

/-- A path that can be read. -/
theorem operand_succeeds {location key : String} {value : Value} {op : Operator} {byPath : Bool}
    (hkey : Operator.ofKey? key = some (op, byPath))
    (hissues : Validation.comparisonIssues location key value = [])
    (hread : ∀ text, comparisonPath? (key, value) = some text → Succeeds (Path.parse text)) :
    Succeeds (operand key byPath op value) := by
  cases byPath with
  | true =>
    simp only [Validation.comparisonIssues, hkey] at hissues
    have hpath := issueIf_nil hissues
    cases value with
    | str text =>
      have htext : Succeeds (Path.parse text) := hread text (by simp [comparisonPath?, hkey, Value.str?])
      exact htext.map.mapError
    | _ => cases hpath
  | false =>
    simp only [Validation.comparisonIssues, hkey] at hissues
    have haccepts := issueIf_nil hissues
    simp only [Bool.not_eq_eq_eq_not, Bool.not_false] at haccepts
    simp only [operand, Bool.false_eq_true, if_false, haccepts, if_true]
    exact .ok _

theorem compileComparison_succeeds {location key : String} {value : Value}
    {subject : Option String} (hsubject : Validation.subjectIssues location subject = [])
    (hissues : Validation.comparisonIssues location key value = [])
    (hread : ∀ text ∈ subject.toList, Succeeds (Path.parse text))
    (hoperand : ∀ text, comparisonPath? (key, value) = some text → Succeeds (Path.parse text)) :
    Succeeds (compileComparison subject (some (key, value))) := by
  cases subject with
  | none => cases hsubject
  | some text =>
    have htext : Succeeds (Path.parse text) := hread text (by simp)
    cases hkey : Operator.ofKey? key with
    | none =>
      simp only [Validation.comparisonIssues, hkey] at hissues
      cases hissues
    | some x =>
      obtain ⟨op, byPath⟩ := x
      refine htext.mapError.bind fun _ => ?_
      simp only [hkey]
      exact (operand_succeeds hkey hissues hoperand).bind fun _ => .ok _

mutual

/-- A rule without issues compiles when its paths can be read. -/
theorem compile_succeeds : ∀ (r : Rule) {location : String},
    Validation.ruleIssues location r = [] → (∀ text ∈ r.pathTexts, Succeeds (Path.parse text)) →
    Succeeds (compile r)
  | ⟨subject, next, all, any, negated, comment, comparisons⟩, location, hissues, hread => by
    unfold Validation.ruleIssues at hissues
    by_cases hcount : (Rule.mk subject next all any negated comment comparisons).operatorCount = 1
    case neg =>
      rw [if_pos hcount] at hissues
      cases hissues
    rw [if_neg (not_not_intro hcount)] at hissues
    simp only [List.append_eq_nil_iff] at hissues
    obtain ⟨⟨⟨hall, hany⟩, hnegated⟩, hcomparison⟩ := hissues
    simp only [Rule.pathTexts, List.forall_mem_append] at hread
    obtain ⟨⟨⟨⟨hsubject, hoperands⟩, hreadAll⟩, hreadAny⟩, hreadNegated⟩ := hread
    cases all with
    | some rules =>
      rw [Validation.listIssues?, List.append_eq_nil_iff] at hall
      rw [Rule.listPathTexts?] at hreadAll
      rw [compile]
      exact (compileAll_succeeds rules hall.2 hreadAll).map
    | none =>
    cases any with
    | some rules =>
      rw [Validation.listIssues?, List.append_eq_nil_iff] at hany
      rw [Rule.listPathTexts?] at hreadAny
      rw [compile]
      exact (compileAll_succeeds rules hany.2 hreadAny).map
    | none =>
    cases negated with
    | some r =>
      rw [Validation.negationIssues?] at hnegated
      rw [Rule.pathTexts?] at hreadNegated
      rw [compile]
      exact (compile_succeeds r hnegated hreadNegated).map
    | none =>
      have hone : comparisons.length = 1 := by
        simpa [Rule.operatorCount] using hcount
      obtain ⟨⟨key, value⟩, rfl⟩ := List.length_eq_one_iff.mp hone
      simp only [List.append_eq_nil_iff] at hcomparison
      rw [compile]
      refine compileComparison_succeeds hcomparison.1 hcomparison.2 hsubject fun text htext => ?_
      exact hoperands text (List.mem_filterMap.mpr ⟨_, List.mem_cons_self, htext⟩)

theorem compileAll_succeeds : ∀ (rules : List Rule) {location field : String} {i : Nat},
    Validation.listIssues location field i rules = [] →
    (∀ text ∈ Rule.listPathTexts rules, Succeeds (Path.parse text)) → Succeeds (compileAll rules)
  | [], _, _, _, _, _ => by
    rw [compileAll]
    exact .ok _
  | r :: rest, location, field, i, hissues, hread => by
    rw [Validation.listIssues, List.append_eq_nil_iff] at hissues
    rw [Rule.listPathTexts, List.forall_mem_append] at hread
    rw [compileAll]
    exact (compile_succeeds r hissues.1 hread.1).bind fun _ =>
      (compileAll_succeeds rest hissues.2 hread.2).bind fun _ => .ok _

end

end ChoiceRule

end StatesLanguage
