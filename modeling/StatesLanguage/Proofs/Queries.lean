import StatesLanguage.Jmespath.Query

/-! What expressions select when none of their slices has the step zero: something from every
document, and null from null. -/
namespace StatesLanguage.Jmespath

/-- An implementation that reads positions and bounds of any size, as the language has them. -/
def Dialect.Unbounded (d : Dialect) : Prop := ∀ n, d.reads n = true

/-- An implementation for which integers are equal only if they are the same, as in the language. -/
def Dialect.Exact (d : Dialect) : Prop := ∀ m n : Int, d.equal (.int m) (.int n) = (m == n)

/-- The language as it is defined. -/
def Dialect.ideal : Dialect where
  reads _ := true
  equal
    | .int m, .int n => m == n
    | a, b =>
      match a.float?, b.float? with
      | some x, some y => x == y
      | _, _ => false

section

variable {each rest : Value → Option Value} {items : List Value} {q : Query} {item v : Value}
  {sts : List Step} {d : Dialect}

/-- A selector that is not a slice of step zero. -/
def Selector.Moves : Selector → Prop
  | .slice _ _ step => step ≠ some 0
  | _ => True

def Operand.Moves : Operand → Prop
  | .path selectors => ∀ s ∈ selectors, s.Moves
  | .literal _ => True

def Clause.Moves : Clause → Prop
  | .test o => o.Moves
  | .compare _ l r => l.Moves ∧ r.Moves

/-- A condition without a slice of step zero. -/
def Condition.Moves (c : Condition) : Prop := ∀ clauses ∈ c, ∀ clause ∈ clauses, clause.Moves

def Step.Moves : Step → Prop
  | .select s => s.Moves
  | .filter c => Condition.Moves c

def Query.Moves : Query → Prop
  | .here => True
  | .select s rest => s.Moves ∧ rest.Moves
  | .filter c each rest => Condition.Moves c ∧ each.Moves ∧ rest.Moves

/-- A function with a value for every document. -/
def Total (each : Value → Option Value) : Prop := ∀ v, ∃ w, each v = some w

theorem project_total (h : Total each) (items : List Value) : ∃ w, project each items = some w := by
  suffices ∃ ws, items.mapM each = some ws by
    obtain ⟨ws, hws⟩ := this
    exact ⟨_, by rw [project, hws]; rfl⟩
  induction items with
  | nil => exact ⟨[], rfl⟩
  | cons v items ih =>
    obtain ⟨w, hw⟩ := h v
    obtain ⟨ws, hws⟩ := ih
    exact ⟨w :: ws, by rw [List.mapM_cons, hw, hws]; rfl⟩

theorem Selector.step_ne_zero {start stop step : Option Int}
    (h : (Selector.slice start stop step).Moves) : step.getD 1 ≠ 0 := by
  cases step with
  | none => decide
  | some n => exact fun hn => h (congrArg some hn)

theorem Selector.follow_total {s : Selector} (hs : s.Moves) (h : Total rest) :
    Total (s.follow rest) := by
  intro v
  cases s with
  | field name => exact h _
  | index i => exact h _
  | items =>
    cases v with
    | arr vs => exact project_total h vs
    | _ => exact ⟨_, rfl⟩
  | values =>
    cases v with
    | obj fields => exact project_total h _
    | _ => exact ⟨_, rfl⟩
  | slice start stop step =>
    have hstep : ¬ step.getD 1 = 0 := Selector.step_ne_zero hs
    cases v with
    | arr vs => simpa only [follow, if_neg hstep] using project_total h _
    | _ => exact ⟨.null, by simp only [follow, if_neg hstep]⟩

theorem followAll_total {selectors : List Selector} (h : ∀ s ∈ selectors, s.Moves) :
    Total (followAll selectors) := by
  induction selectors with
  | nil => exact fun v => ⟨v, rfl⟩
  | cons s selectors ih =>
    obtain ⟨hs, hrest⟩ := List.forall_mem_cons.mp h
    exact Selector.follow_total hs (ih hrest)

theorem Operand.value_total {o : Operand} (h : o.Moves) (item : Value) :
    ∃ v, o.value? item = some v := by
  cases o with
  | path selectors => exact followAll_total h item
  | literal v => exact ⟨v, rfl⟩

theorem Clause.holds_total {c : Clause} (h : c.Moves) (item : Value) :
    ∃ b, c.holds? d item = some b := by
  cases c with
  | test o =>
    obtain ⟨v, hv⟩ := Operand.value_total h item
    exact ⟨_, by rw [holds?, hv]; rfl⟩
  | compare c l r =>
    obtain ⟨v, hv⟩ := Operand.value_total h.1 item
    obtain ⟨w, hw⟩ := Operand.value_total h.2 item
    exact ⟨_, by rw [holds?, hv, hw]; rfl⟩

theorem allHold_total {clauses : List Clause} (h : ∀ c ∈ clauses, c.Moves) (item : Value) :
    ∃ b, allHold? d item clauses = some b := by
  induction clauses with
  | nil => exact ⟨true, rfl⟩
  | cons c clauses ih =>
    obtain ⟨hc, hrest⟩ := List.forall_mem_cons.mp h
    obtain ⟨b, hb⟩ := Clause.holds_total (d := d) hc item
    rw [allHold?, hb]
    cases b with
    | true => exact ih hrest
    | false => exact ⟨false, rfl⟩

theorem Condition.holds_total {c : Condition} (h : Condition.Moves c) (item : Value) :
    ∃ b, Condition.holds? d item c = some b := by
  induction c with
  | nil => exact ⟨false, rfl⟩
  | cons clauses c ih =>
    obtain ⟨hclauses, hrest⟩ := List.forall_mem_cons.mp h
    obtain ⟨b, hb⟩ := allHold_total (d := d) hclauses item
    rw [holds?, hb]
    cases b with
    | true => exact ⟨true, rfl⟩
    | false => exact ih hrest

/-- An expression without a slice of step zero selects something from every document. -/
theorem Query.eval_total (h : q.Moves) : Total (q.eval d) := by
  induction q with
  | here => exact fun v => ⟨v, rfl⟩
  | select s rest ih => exact Selector.follow_total h.1 (ih h.2)
  | filter c each rest iheach ihrest =>
    obtain ⟨hc, heach, hrest⟩ := h
    have hitem : Total (fun item => do
        if ← Condition.holds? d item c then each.eval d item else some .null) := by
      intro item
      obtain ⟨b, hb⟩ := Condition.holds_total (d := d) hc item
      cases b with
      | true => simpa [hb] using iheach heach item
      | false => exact ⟨.null, by simp [hb]⟩
    intro v
    cases v with
    | arr items =>
      obtain ⟨found, hfound⟩ := project_total hitem items
      rw [eval, hfound]
      exact ihrest hrest found
    | _ => exact ihrest hrest _

/-- From null an expression selects null. -/
theorem Query.eval_null (h : q.Moves) : q.eval d .null = some .null := by
  induction q with
  | here => rfl
  | select s rest ih =>
    cases s with
    | field | index => exact ih h.2
    | items | values => rfl
    | slice start stop step =>
      have hstep : ¬ step.getD 1 = 0 := Selector.step_ne_zero h.1
      simp only [eval, Selector.follow, if_neg hstep]
  | filter c each rest _ ih => exact ih h.2.2

/-- However the steps are grouped, the parts move if the steps do. -/
theorem grouping_moves (h : ∀ st ∈ sts, st.Moves) :
    (grouping sts).each.Moves ∧ (grouping sts).rest.Moves ∧ (grouping sts).whole.Moves := by
  induction sts with
  | nil => exact ⟨trivial, trivial, trivial⟩
  | cons st sts ih =>
    obtain ⟨hst, hrest⟩ := List.forall_mem_cons.mp h
    obtain ⟨heach, hothers, hwhole⟩ := ih hrest
    cases st with
    | filter c => exact ⟨⟨hst, heach, trivial⟩, hothers, hst, heach, hothers⟩
    | select s =>
      simp only [grouping]
      split
      · exact ⟨⟨hst, hwhole⟩, trivial, hst, hwhole⟩
      · split
        · exact ⟨⟨hst, trivial⟩, hwhole, hst, hwhole⟩
        · exact ⟨⟨hst, heach⟩, hothers, hst, hwhole⟩

theorem Query.ofSteps_moves (h : ∀ st ∈ sts, st.Moves) : (ofSteps sts).Moves :=
  (grouping_moves h).2.2

theorem Query.ofSteps_select (s : Selector) (sts : List Step) :
    ofSteps (.select s :: sts) = .select s (ofSteps sts) := by
  rw [ofSteps, grouping]
  split
  · rfl
  · split <;> rfl

end

end StatesLanguage.Jmespath
