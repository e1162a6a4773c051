import Mathlib.Data.List.Find
import StatesLanguage.Proofs.Nesting

/-! What a machine computes at any time alike. A machine is steady when it neither waits nor retries
nor times out, draws no identifiers, and reads no instants from the context object. -/
namespace StatesLanguage

/-- Context objects that only the instants in them tell apart. -/
inductive Context.Agree : Value → Value → Prop where
  | object {id name : String} {input : Value} {started started' entered entered' : Instant}
    {retries : Nat} : Agree (object ⟨id, input, some started⟩ ⟨some name, some entered, retries⟩)
      (object ⟨id, input, some started'⟩ ⟨some name, some entered', retries⟩)
  | item {index : Nat} {item context context' : Value} : Agree context context' →
    Agree (withItem index item context) (withItem index item context')

/-- A path whose value includes no instant of the context object: it is the same at all times. -/
def Path.Timeless (p : Path) : Prop :=
  ∀ {input context context' : Value}, Context.Agree context context' →
    p.evaluate input context = p.evaluate input context'

theorem Path.timeless_of_input {p : Path} (h : p.inContext = false) : p.Timeless := by
  intro input context context' _
  simp [evaluate, h]

theorem Context.Agree.fields_eq {context context' : Value} (h : Context.Agree context context')
    {b : String} (hs : b ≠ "StartTime") (he : b ≠ "EnteredTime") :
    ∃ fields fields', context = .obj fields ∧ context' = .obj fields' ∧
      ∀ a, (fields.lookup a).bind (Path.Key.get? (.field b)) =
        (fields'.lookup a).bind (Path.Key.get? (.field b)) := by
  induction h with
  | object =>
    refine ⟨_, _, rfl, rfl, fun a => ?_⟩
    by_cases hx : a = "Execution"
    · subst hx
      simp [List.lookup_cons, Path.Key.get?, beq_false_of_ne hs]
    · by_cases hst : a = "State"
      · subst hst
        simp [List.lookup_cons, Path.Key.get?, beq_false_of_ne he]
      · simp [List.lookup_cons, beq_false_of_ne hx, beq_false_of_ne hst]
  | item _ ih =>
    obtain ⟨fields, fields', rfl, rfl, hfields⟩ := ih
    refine ⟨_, _, rfl, rfl, fun a => ?_⟩
    rw [lookup_setField, lookup_setField]
    split_ifs
    · rfl
    · exact hfields a

/-- A reference path is timeless when it leads into a part of the context object that is no
instant. -/
theorem Path.timeless_of_fields {p : Path} {a b : String} {rest : List Path.Key}
    (h : p.route = .reference (.field a :: .field b :: rest)) (hs : b ≠ "StartTime")
    (he : b ≠ "EnteredTime") : p.Timeless := by
  intro input context context' hc
  obtain ⟨fields, fields', rfl, rfl, hfields⟩ := hc.fields_eq hs he
  cases hp : p.inContext with
  | false => exact timeless_of_input hp hc
  | true =>
    have hget : ∀ fields, getAt? (.field a :: .field b :: rest) (.obj fields) =
        ((fields.lookup a).bind (Key.get? (.field b))).bind (getAt? rest) := by
      intro fields
      simp only [getAt?, Key.get?, Option.bind_assoc]
    simp only [evaluate, hp, h, if_true, hget, hfields a]

/-- An argument that is no path to an instant and holds no call for an identifier. -/
inductive Intrinsic.Argument.Steady : Intrinsic.Argument → Prop where
  | literal {v : Value} : Steady (.literal v)
  | path {p : Path} : p.Timeless → Steady (.path p)
  | call {f : Function} {arguments : List Argument} : f ≠ .uuid →
    (∀ a ∈ arguments, a.Steady) → Steady (.call f arguments)

/-- A call that asks for no identifier, at any depth, and reads no instants. -/
structure Intrinsic.Call.Steady (c : Intrinsic.Call) : Prop where
  function : c.function ≠ .uuid
  arguments : ∀ a ∈ c.arguments, a.Steady

inductive Template.Steady : Template → Prop where
  | literal {v : Value} : Steady (.literal v)
  | object {entries : List (String × Template)} : (∀ x ∈ entries, x.2.Steady) →
    Steady (.object entries)
  | array {items : List Template} : (∀ t ∈ items, t.Steady) → Steady (.array items)
  | path {p : Path} : p.Timeless → Steady (.path p)
  | call {c : Intrinsic.Call} : c.Steady → Steady (.call c)

inductive ChoiceRule.Steady : ChoiceRule → Prop where
  | conj {rules : List ChoiceRule} : (∀ r ∈ rules, r.Steady) → Steady (.conj rules)
  | disj {rules : List ChoiceRule} : (∀ r ∈ rules, r.Steady) → Steady (.disj rules)
  | neg {rule : ChoiceRule} : rule.Steady → Steady (.neg rule)
  | compare {subject : Path} {op : Operator} {operand : Operand} : subject.Timeless →
    (∀ p, operand = .path p → p.Timeless) → Steady (.compare subject op operand)

/-- The filter of an InputPath or OutputPath that selects no instant. -/
def FilterPath.Steady (f : FilterPath) : Prop := ∀ p, f = .path p → p.Timeless

structure DataFlow.Steady (f : DataFlow) : Prop where
  inputPath : f.inputPath.Steady
  parameters : ∀ t ∈ f.parameters, t.Steady
  resultSelector : ∀ t ∈ f.resultSelector, t.Steady
  outputPath : f.outputPath.Steady

namespace Machine

def FailText.Steady (t : FailText) : Prop := ∀ p, t = .path p → p.Timeless

structure Task.Steady (p : Task) : Prop where
  flow : p.flow.Steady
  credentials : ∀ t ∈ p.credentials, t.Steady
  timeout : p.timeoutSeconds = none
  retriers : p.handling.retriers = []

structure Map.Steady (p : Map) : Prop where
  flow : p.flow.Steady
  items : p.itemsPath.Timeless
  selector : ∀ t ∈ p.itemSelector, t.Steady
  retriers : p.handling.retriers = []

/-- A state whose own work depends on no time and no chance. -/
def State.Steady : State → Prop
  | .pass p => p.flow.Steady
  | .task p => p.Steady
  | .wait _ => False
  | .choice p => p.flow.Steady ∧ ∀ c ∈ p.choices, c.1.Steady
  | .succeed p => p.flow.Steady
  | .fail p => p.error.Steady ∧ p.cause.Steady
  | .parallel p _ => p.flow.Steady ∧ p.handling.retriers = []
  | .map p _ => p.Steady

end Machine

/-- A machine whose states are all steady, in the machines nested in it too. -/
inductive Machine.Steady : Machine → Prop where
  | intro {machine : Machine} : (∀ x ∈ machine.states, x.2.Steady) →
    (∀ x ∈ machine.states, ∀ sub ∈ x.2.machines, sub.Steady) → machine.Steady

section

variable {ids ids' : Identifiers} {input context context' : Value}

namespace Intrinsic

theorem apply_id {f : Function} (h : f ≠ .uuid) (id id' : String) (values : List Value) :
    apply id f values = apply id' f values := by
  fun_cases apply id f values
  all_goals simp_all [apply]

theorem evaluateArguments_congr {f : Function} {arguments : List Argument} {n : Nat}
    (h : ∀ a ∈ arguments, ∀ ids ids' f, evaluateArgument ids input context f a =
      evaluateArgument ids' input context' f a) (ids ids' : Identifiers) :
    evaluateArguments ids input context f n arguments =
      evaluateArguments ids' input context' f n arguments := by
  induction arguments generalizing n with
  | nil => rw [evaluateArguments, evaluateArguments]
  | cons a rest ih =>
    have ha := h a List.mem_cons_self (ids.part n) (ids'.part n) f
    have hrest := ih (n := n + 1) fun b hb => h b (List.mem_cons_of_mem _ hb)
    rw [evaluateArguments, evaluateArguments, ha, hrest]

theorem evaluateCall_congr {f : Function} {arguments : List Argument} (hf : f ≠ .uuid)
    (h : ∀ a ∈ arguments, ∀ ids ids' f, evaluateArgument ids input context f a =
      evaluateArgument ids' input context' f a) (ids ids' : Identifiers) :
    evaluateCall ids input context f arguments = evaluateCall ids' input context' f arguments := by
  rw [evaluateCall, evaluateCall, evaluateArguments_congr h ids ids']
  congr 1
  funext values
  rw [apply_id hf (ids []) (ids' [])]

theorem Argument.Steady.evaluate_eq {a : Argument} (h : a.Steady)
    (hc : Context.Agree context context') (ids ids' : Identifiers) (f : Function) :
    evaluateArgument ids input context f a = evaluateArgument ids' input context' f a := by
  induction h generalizing ids ids' f with
  | literal => rw [evaluateArgument, evaluateArgument]
  | path hp => rw [evaluateArgument, evaluateArgument, hp hc]
  | call hf _ ih =>
    rw [evaluateArgument, evaluateArgument]
    exact evaluateCall_congr hf ih ids ids'

theorem Call.Steady.evaluate_eq {c : Call} (h : c.Steady) (hc : Context.Agree context context') :
    c.evaluate ids input context = c.evaluate ids' input context' :=
  evaluateCall_congr h.function (fun a ha => (h.arguments a ha).evaluate_eq hc) ids ids'

end Intrinsic

namespace Template

theorem applyEntries_congr {entries : List (String × Template)} {n : Nat}
    (h : ∀ x ∈ entries, ∀ ids ids', x.2.apply ids input context =
      x.2.apply ids' input context') (ids ids' : Identifiers) :
    applyEntries ids input context n entries = applyEntries ids' input context' n entries := by
  induction entries generalizing n with
  | nil => rfl
  | cons x rest ih =>
    obtain ⟨key, t⟩ := x
    have ht := h (key, t) List.mem_cons_self (ids.part n) (ids'.part n)
    have hrest := ih (n := n + 1) fun y hy => h y (List.mem_cons_of_mem _ hy)
    rw [applyEntries, applyEntries, ht, hrest]

theorem applyItems_congr {items : List Template} {n : Nat}
    (h : ∀ t ∈ items, ∀ ids ids', t.apply ids input context = t.apply ids' input context')
    (ids ids' : Identifiers) :
    applyItems ids input context n items = applyItems ids' input context' n items := by
  induction items generalizing n with
  | nil => rfl
  | cons t rest ih =>
    have ht := h t List.mem_cons_self (ids.part n) (ids'.part n)
    have hrest := ih (n := n + 1) fun y hy => h y (List.mem_cons_of_mem _ hy)
    rw [applyItems, applyItems, ht, hrest]

theorem Steady.apply_eq {t : Template} (h : t.Steady) (hc : Context.Agree context context')
    (ids ids' : Identifiers) : t.apply ids input context = t.apply ids' input context' := by
  induction h generalizing ids ids' with
  | literal => rfl
  | object _ ih => rw [apply, apply, applyEntries_congr ih ids ids']
  | array _ ih => rw [apply, apply, applyItems_congr ih ids ids']
  | path hp => rw [apply, apply, hp hc]
  | call hcall => exact hcall.evaluate_eq hc

end Template

theorem applyTemplate_eq {t : Option Template} {otherwise : Value} (h : ∀ x ∈ t, x.Steady)
    (hc : Context.Agree context context') :
    applyTemplate? t otherwise ids input context = applyTemplate? t otherwise ids' input context' := by
  cases t with
  | none => rfl
  | some t => exact (h t rfl).apply_eq hc ids ids'

namespace ChoiceRule

theorem holdAll_congr {rules : List ChoiceRule}
    (h : ∀ r ∈ rules, r.holds input context = r.holds input context') :
    holdAll input context rules = holdAll input context' rules := by
  induction rules with
  | nil => rfl
  | cons r rest ih =>
    rw [holdAll, holdAll, h r List.mem_cons_self, ih fun x hx => h x (List.mem_cons_of_mem _ hx)]

theorem holdAny_congr {rules : List ChoiceRule}
    (h : ∀ r ∈ rules, r.holds input context = r.holds input context') :
    holdAny input context rules = holdAny input context' rules := by
  induction rules with
  | nil => rfl
  | cons r rest ih =>
    rw [holdAny, holdAny, h r List.mem_cons_self, ih fun x hx => h x (List.mem_cons_of_mem _ hx)]

theorem Steady.holds_eq {r : ChoiceRule} (h : r.Steady) (hc : Context.Agree context context') :
    r.holds input context = r.holds input context' := by
  induction h with
  | conj _ ih => rw [holds, holds, holdAll_congr ih]
  | disj _ ih => rw [holds, holds, holdAny_congr ih]
  | neg _ ih => rw [holds, holds, ih]
  | @compare subject op operand hs ho =>
    cases operand with
    | literal v => rw [holds, holds, hs hc]
    | path p => rw [holds, holds, hs hc, ho p rfl hc]

end ChoiceRule

theorem FilterPath.Steady.apply_eq {f : FilterPath} {data : Value} (h : f.Steady)
    (hc : Context.Agree context context') : f.apply data context = f.apply data context' := by
  cases f with
  | whole | nothing => rfl
  | path p => rw [apply, apply, h p rfl hc]

namespace DataFlow.Steady

variable {f : DataFlow} {data : Value}

theorem filteredInput_eq (h : f.Steady) (hc : Context.Agree context context') :
    f.filteredInput data context = f.filteredInput data context' :=
  h.inputPath.apply_eq hc

theorem effectiveInput_eq (h : f.Steady) (hc : Context.Agree context context') :
    f.effectiveInput ids data context = f.effectiveInput ids' data context' := by
  rw [effectiveInput, effectiveInput, h.filteredInput_eq hc]
  exact applyTemplate_eq h.parameters hc

theorem complete_eq {next : Option String} {raw : Value} (h : f.Steady) (m m' : Moment)
    (hc : Context.Agree context context') :
    f.complete m next data context raw = f.complete m' next data context' raw := by
  have hresult : applyTemplate? f.resultSelector raw m.outputIds raw context =
      applyTemplate? f.resultSelector raw m'.outputIds raw context' :=
    applyTemplate_eq h.resultSelector hc
  simp only [complete, output, hresult, h.outputPath.apply_eq hc]

end DataFlow.Steady

namespace Machine

variable {m m' : Moment} {data : Value}

theorem Pass.advance_eq {p : Pass} (hp : p.flow.Steady) (hc : Context.Agree context context') :
    p.advance m data context = p.advance m' data context' := by
  have hinput : p.flow.effectiveInput m.inputIds data context =
      p.flow.effectiveInput m'.inputIds data context' := hp.effectiveInput_eq hc
  simp only [advance, hinput, hp.complete_eq m m' hc]

theorem Succeed.advance_eq {p : Succeed} (hp : p.flow.Steady)
    (hc : Context.Agree context context') :
    p.advance m data context = p.advance m' data context' := by
  have hinput : p.flow.effectiveInput m.inputIds data context =
      p.flow.effectiveInput m'.inputIds data context' := hp.effectiveInput_eq hc
  simp only [advance, hinput, hp.complete_eq m m' hc]

theorem Choice.advance_eq {p : Choice} {name : String} (hp : p.flow.Steady)
    (hrules : ∀ c ∈ p.choices, c.1.Steady) (hc : Context.Agree context context') :
    p.advance m name data context = p.advance m' name data context' := by
  have hinput : p.flow.effectiveInput m.inputIds data context =
      p.flow.effectiveInput m'.inputIds data context' := hp.effectiveInput_eq hc
  have hchosen : ∀ input, (p.choices.find? fun c => c.1.holds input context) =
      p.choices.find? fun c => c.1.holds input context' := by
    intro input
    refine List.find?_congr ?_
    intro c hmem
    exact (hrules c hmem).holds_eq hc
  simp only [advance, hinput, hp.complete_eq m m' hc, hchosen]

theorem FailText.Steady.resolve_eq {t : FailText} (h : t.Steady)
    (hc : Context.Agree context context') : t.resolve data context = t.resolve data context' := by
  cases t with
  | absent | literal => rfl
  | path p =>
    have hp : p.evaluate data context = p.evaluate data context' := h p rfl hc
    rw [FailText.resolve, FailText.resolve, StatesLanguage.resolve, StatesLanguage.resolve, hp]

theorem Fail.advance_eq {p : Fail} (herror : p.error.Steady) (hcause : p.cause.Steady)
    (hc : Context.Agree context context') : p.advance data context = p.advance data context' := by
  simp only [advance, herror.resolve_eq hc, hcause.resolve_eq hc]

end Machine

end

end StatesLanguage
