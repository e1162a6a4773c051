import StatesLanguage.Proofs.Expressions
import StatesLanguage.Proofs.Patterns
import StatesLanguage.Validation.Check

/-! What a document is told about the entries of its templates. An entry whose value can be read as
a call is reported all the same when the call does not stand on one line, or when something
separates its name from the parenthesis. -/
namespace StatesLanguage

namespace Validation

section

/-- The template has an entry, at some depth, that takes its value from an expression. -/
inductive HasEntry (key : String) (v : Value) : Value → Prop where
  | here {fields : List (String × Value)} : isDynamicKey key = true → (key, v) ∈ fields →
      HasEntry key v (.obj fields)
  | field {fields : List (String × Value)} {k : String} {t : Value} : (k, t) ∈ fields →
      isDynamicKey k = false → HasEntry key v t → HasEntry key v (.obj fields)
  | item {items : List Value} {t : Value} : t ∈ items → HasEntry key v t →
      HasEntry key v (.arr items)

variable {name field key k : String} {v t : Value} {issue other : Issue} {condition : Bool}
  {fields : List (String × Value)} {items : List Value}

theorem hasEntry_cons : HasEntry key v (.obj ((k, t) :: fields)) ↔
    (if isDynamicKey k = true then key = k ∧ v = t else HasEntry key v t) ∨
      HasEntry key v (.obj fields) := by
  constructor
  · intro h
    cases h with
    | here hkey hmem =>
      rcases List.mem_cons.mp hmem with heq | hmem
      · obtain ⟨rfl, rfl⟩ := Prod.mk.inj heq
        exact .inl (by rw [if_pos hkey]; exact ⟨rfl, rfl⟩)
      · exact .inr (.here hkey hmem)
    | field hmem hkey h =>
      rcases List.mem_cons.mp hmem with heq | hmem
      · obtain ⟨rfl, rfl⟩ := Prod.mk.inj heq
        exact .inl (by rw [hkey]; exact h)
      · exact .inr (.field hmem hkey h)
  · rintro (h | h)
    · split at h
      · obtain ⟨rfl, rfl⟩ := h
        exact .here ‹_› List.mem_cons_self
      · exact .field List.mem_cons_self (Bool.eq_false_iff.mpr ‹_›) h
    · cases h with
      | here hkey hmem => exact .here hkey (List.mem_cons_of_mem _ hmem)
      | field hmem hkey h => exact .field (List.mem_cons_of_mem _ hmem) hkey h

theorem hasEntry_item_cons : HasEntry key v (.arr (t :: items)) ↔
    HasEntry key v t ∨ HasEntry key v (.arr items) := by
  constructor
  · intro h
    cases h with
    | item hmem h =>
      rcases List.mem_cons.mp hmem with rfl | hmem
      · exact .inl h
      · exact .inr (.item hmem h)
  · rintro (h | h)
    · exact .item List.mem_cons_self h
    · cases h with
      | item hmem h => exact .item (List.mem_cons_of_mem _ hmem) h

theorem mem_issueIf : issue ∈ issueIf condition other ↔ condition = true ∧ issue = other := by
  cases condition <;> simp [issueIf]

/-- The issue is about an entry of the template that is no expression. -/
def OfEntry (name field : String) (issue : Issue) (t : Value) : Prop :=
  ∃ key v, HasEntry key v t ∧ isExpression v = false ∧ issue = .badEntry name field key v

theorem ofEntry_cons : OfEntry name field issue (.obj ((k, t) :: fields)) ↔
    (if isDynamicKey k = true then isExpression t = false ∧ issue = .badEntry name field k t
      else OfEntry name field issue t) ∨ OfEntry name field issue (.obj fields) := by
  simp only [OfEntry, hasEntry_cons, or_and_right, exists_or]
  refine or_congr_left ?_
  split
  · constructor
    · rintro ⟨key, v, ⟨rfl, rfl⟩, h⟩
      exact h
    · exact fun h => ⟨k, t, ⟨rfl, rfl⟩, h⟩
  · rfl

mutual

/-- The issues of a template are those of its entries whose value is no expression. -/
theorem mem_templateIssues : ∀ t : Value,
    issue ∈ templateIssues name field t ↔ OfEntry name field issue t
  | .obj fields => mem_entryIssues fields
  | .arr items => mem_itemIssues items
  | .null | .bool _ | .int _ | .float _ | .str _ => by
    refine ⟨fun h => by simp [templateIssues] at h, ?_⟩
    rintro ⟨key, v, h, -⟩
    cases h

theorem mem_entryIssues : ∀ fields : List (String × Value),
    issue ∈ entryIssues name field fields ↔ OfEntry name field issue (.obj fields)
  | [] => by
    refine ⟨fun h => by simp [entryIssues] at h, ?_⟩
    rintro ⟨key, v, ⟨⟩, -⟩ <;> cases ‹_ ∈ []›
  | (k, t) :: rest => by
    rw [entryIssues, List.mem_append, mem_entryIssues rest, ofEntry_cons]
    split
    · rw [mem_issueIf, Bool.not_eq_true']
    · rw [mem_templateIssues t]

theorem mem_itemIssues : ∀ items : List Value,
    issue ∈ itemIssues name field items ↔ OfEntry name field issue (.arr items)
  | [] => by
    refine ⟨fun h => by simp [itemIssues] at h, ?_⟩
    rintro ⟨key, v, ⟨⟩, -⟩
    cases ‹_ ∈ []›
  | t :: rest => by
    rw [itemIssues, List.mem_append, mem_templateIssues t, mem_itemIssues rest]
    simp only [OfEntry, hasEntry_item_cons, or_and_right, exists_or]

end

end

section

/-- An issue about an entry of a template. -/
def Issue.isEntry : Issue → Bool
  | .badEntry _ _ _ _ => true
  | _ => false

/-- None of the issues is about an entry of a template. -/
def Elsewhere (found : List Issue) : Prop := ∀ issue ∈ found, issue.isEntry = false

variable {α : Type} {found more : List Issue} {condition : Bool} {issue : Issue}

theorem Elsewhere.not_mem (h : Elsewhere found) (hissue : issue.isEntry = true) :
    issue ∉ found := by
  intro hmem
  rw [h issue hmem] at hissue
  cases hissue

theorem Elsewhere.nil : Elsewhere [] := fun _ h => by cases h

theorem Elsewhere.single (h : issue.isEntry = false) : Elsewhere [issue] := by
  intro other hother
  rw [List.mem_singleton.mp hother, h]

theorem Elsewhere.append (h : Elsewhere found) (h' : Elsewhere more) :
    Elsewhere (found ++ more) :=
  List.forall_mem_append.mpr ⟨h, h'⟩

theorem Elsewhere.issueIf (h : issue.isEntry = false) : Elsewhere (issueIf condition issue) := by
  intro other hother
  rw [(mem_issueIf.mp hother).2, h]

theorem Elsewhere.flatMap {xs : List α} {f : α → List Issue} (h : ∀ x, Elsewhere (f x)) :
    Elsewhere (xs.flatMap f) := by
  intro issue hissue
  obtain ⟨x, -, hx⟩ := List.mem_flatMap.mp hissue
  exact h x issue hx

theorem Elsewhere.mapIdx {xs : List α} {f : Nat → α → List Issue} (h : ∀ i x, Elsewhere (f i x)) :
    Elsewhere (xs.mapIdx f).flatten := by
  intro issue hissue
  obtain ⟨found, hfound, hmem⟩ := List.mem_flatten.mp hissue
  obtain ⟨i, hi, rfl⟩ := List.mem_mapIdx.mp hfound
  exact h i _ issue hmem

theorem Elsewhere.map {xs : List α} {f : α → Issue} (h : ∀ x, (f x).isEntry = false) :
    Elsewhere (xs.map f) := by
  intro issue hissue
  obtain ⟨x, -, rfl⟩ := List.mem_map.mp hissue
  exact h x

variable (name field label location : String)

theorem structureOf_elsewhere (g : Document.Graph) : Elsewhere (structureOf label g) := by
  refine .append (.append (.issueIf rfl) (.issueIf rfl)) (.flatMap fun s => ?_)
  refine .append (.append (.map fun _ => rfl) (.map fun _ => rfl)) ?_
  unfold transitionIssues
  split
  · exact .nil
  · exact .append (.issueIf rfl) (.issueIf rfl)

theorem targetsOf_elsewhere (g : Document.Graph) : Elsewhere (targetsOf label g) := by
  refine .append ?_ (.flatMap fun s => .flatMap fun t => .issueIf rfl)
  unfold startIssues
  split
  · exact .issueIf rfl
  · exact .nil

theorem pathFieldIssues_elsewhere (p : String × Document.PathField) :
    Elsewhere (pathFieldIssues name p) := by
  unfold pathFieldIssues
  split
  · split
    · exact .issueIf rfl
    · exact .issueIf rfl
  · exact .nil

theorem kindPathIssues_elsewhere (s : Document.State) : Elsewhere (kindPathIssues name s) := by
  have hgiven (field : String) (path : Option String) :
      Elsewhere (kindPathIssues.given name field path) := .flatMap fun _ => .issueIf rfl
  unfold kindPathIssues
  split
  · exact .append (hgiven _ _) (hgiven _ _)
  · exact .append (hgiven _ _) (hgiven _ _)
  · exact hgiven _ _
  · exact .nil

theorem subjectIssues_elsewhere (subject : Option String) :
    Elsewhere (subjectIssues location subject) := by
  unfold subjectIssues
  split
  · exact .single rfl
  · exact .issueIf rfl

theorem comparisonIssues_elsewhere (key : String) (operand : Value) :
    Elsewhere (comparisonIssues location key operand) := by
  unfold comparisonIssues
  split
  · exact .single rfl
  · exact .issueIf rfl
  · exact .issueIf rfl

mutual

theorem ruleIssues_elsewhere (location : String) :
    ∀ r : Document.Rule, Elsewhere (ruleIssues location r)
  | ⟨subject, next, conj, disj, neg, comment, comparisons⟩ => by
    have hnested := ((listIssues?_elsewhere location "And" conj).append
      (listIssues?_elsewhere location "Or" disj)).append (negationIssues?_elsewhere location neg)
    unfold ruleIssues
    split
    · exact .single rfl
    · refine hnested.append ?_
      split
      · exact (subjectIssues_elsewhere _ _).append (comparisonIssues_elsewhere _ _ _)
      · exact .nil

theorem listIssues?_elsewhere (location field : String) :
    ∀ rules : Option (List Document.Rule), Elsewhere (listIssues? location field rules)
  | none => .nil
  | some rules => .append (.issueIf rfl) (listIssues_elsewhere location field 0 rules)

theorem listIssues_elsewhere (location field : String) (i : Nat) :
    ∀ rules : List Document.Rule, Elsewhere (listIssues location field i rules)
  | [] => .nil
  | r :: rest =>
    .append (ruleIssues_elsewhere _ r) (listIssues_elsewhere location field (i + 1) rest)

theorem negationIssues?_elsewhere (location : String) :
    ∀ r : Option Document.Rule, Elsewhere (negationIssues? location r)
  | none => .nil
  | some r => ruleIssues_elsewhere _ r

end

theorem choiceIssues_elsewhere (s : Document.State) : Elsewhere (choiceIssues name s) := by
  unfold choiceIssues
  split
  · exact .mapIdx fun _ _ => .append (.issueIf rfl) (ruleIssues_elsewhere _ _)
  · exact .nil

theorem errorNameIssues_elsewhere (names : List String) (isLast : Bool) :
    Elsewhere (errorNameIssues location names isLast) := by
  unfold errorNameIssues
  split
  · exact .single rfl
  · exact .issueIf rfl

theorem handlerIssues_elsewhere (s : Document.State) : Elsewhere (handlerIssues name s) :=
  .append
    (.mapIdx fun _ _ =>
      .append (.append (errorNameIssues_elsewhere _ _ _) (.issueIf rfl)) (.issueIf rfl))
    (.mapIdx fun _ _ => .append (errorNameIssues_elsewhere _ _ _) (.issueIf rfl))

theorem waitIssues_elsewhere (s : Document.State) : Elsewhere (waitIssues name s) := by
  unfold waitIssues
  split
  · exact .issueIf rfl
  · exact .nil

theorem toleranceIssues_elsewhere (s : Document.State) : Elsewhere (toleranceIssues name s) := by
  unfold toleranceIssues
  split
  · exact .flatMap fun _ => .issueIf rfl
  · exact .nil

end

section

variable {name field key : String} {v : Value} {s : Document.State} {g : Document.Graph}
  {issue : Issue}

/-- Only the templates of a state bring about issues with entries. -/
theorem mem_fieldIssues (hissue : issue.isEntry = true) : issue ∈ fieldIssues name s ↔
    ∃ t ∈ s.templates, OfEntry name t.1 issue t.2 := by
  have hpaths : Elsewhere (s.pathFields.flatMap (pathFieldIssues name)) :=
    .flatMap (pathFieldIssues_elsewhere name)
  have hcatchers : Elsewhere
      (s.catchers.flatMap fun c => pathFieldIssues name ("ResultPath", c.resultPath)) :=
    .flatMap fun _ => pathFieldIssues_elsewhere name _
  simp only [fieldIssues, pathsOf, List.mem_append, hpaths.not_mem hissue,
    (kindPathIssues_elsewhere name s).not_mem hissue, hcatchers.not_mem hissue,
    (waitIssues_elsewhere name s).not_mem hissue, (choiceIssues_elsewhere name s).not_mem hissue,
    (handlerIssues_elsewhere name s).not_mem hissue,
    (toleranceIssues_elsewhere name s).not_mem hissue, false_or, or_false, List.mem_flatMap,
    mem_templateIssues]

/-- The issues with entries are those of the templates of all states, however deeply nested. -/
theorem mem_issues (hissue : issue.isEntry = true) : issue ∈ issues g ↔
    ∃ x ∈ g.all, ∃ s ∈ x.2.stateList, ∃ t ∈ s.2.templates, OfEntry s.1 t.1 issue t.2 := by
  have hstructure : Elsewhere (g.all.flatMap fun x => structureOf x.1 x.2) :=
    .flatMap fun x => structureOf_elsewhere x.1 x.2
  have htargets : Elsewhere (g.all.flatMap fun x => targetsOf x.1 x.2) :=
    .flatMap fun x => targetsOf_elsewhere x.1 x.2
  simp only [issues, List.mem_append, hstructure.not_mem hissue, htargets.not_mem hissue, false_or,
    List.mem_flatMap, fieldsOf, mem_fieldIssues hissue]

end

end Validation

open Intrinsic

section

variable {e : String} {c : Call} {cs : List Char}

/-- A text with the form of a call: a name of letters, and any line in the parentheses. -/
theorem Path.matches_callForm : Pattern.Matches Path.callForm cs ↔
    ∃ name body, cs = opening ++ name ++ '(' :: (body ++ [')']) ∧ name ≠ [] ∧
      (∀ c ∈ name, c.isAlpha = true) ∧ '\n' ∉ body := by
  have hline (body : List Char) : (∀ c ∈ body, (c != '\n') = true) ↔ '\n' ∉ body := by
    simp only [bne_iff_ne]
    exact List.forall_mem_ne'
  simp only [Path.callForm, Pattern.sequence, List.foldr_cons, List.foldr_nil, Pattern.matches_seq,
    Pattern.matches_literal, Pattern.matches_many_one, Pattern.matches_char,
    Pattern.matches_star_one, Pattern.matches_empty, hline]
  constructor
  · rintro ⟨_, _, rfl, rfl, name, _, rfl, ⟨hne, hname⟩, _, _, rfl, rfl, body, _, rfl, hbody, _, _,
      rfl, rfl, rfl⟩
    exact ⟨name, body, by simp [opening], hne, hname, hbody⟩
  · rintro ⟨name, body, rfl, hne, hname, hbody⟩
    exact ⟨_, _, by simp [opening], rfl, name, _, rfl, ⟨hne, hname⟩, _, _, rfl, rfl, body, _, rfl,
      hbody, _, _, rfl, rfl, rfl⟩

theorem Intrinsic.Function.name_of_ofName? {f : Function} {name : String}
    (h : ofName? name = some f) : f.name = name := by
  unfold ofName? at h
  have hsame := List.find?_some h
  exact beq_iff_eq.mp hsame

theorem Intrinsic.Function.name_letters (f : Function) :
    f.name.toList ≠ [] ∧ ∀ c ∈ f.name.toList, c.isAlpha = true := by
  have hall : f.name.toList.all Char.isAlpha = true := by cases f <;> rfl
  exact ⟨by cases f <;> simp [Function.name], List.all_eq_true.mp hall⟩

/-- The function of a call is spelled behind the opening. -/
theorem Intrinsic.readCall_name {text : String} {fuel : Nat} {rest : List Char}
    (h : readCall text fuel (opening ++ cs) = .ok (c, rest)) :
    c.function.name.toList = cs.takeWhile Char.isAlphanum := by
  have hstart : trimStart (opening ++ cs) = opening ++ cs := Path.trimStart_cons (by decide) _
  cases fuel with
  | zero =>
    rw [readCall] at h
    cases h
  | succ fuel =>
    rw [readCall] at h
    simp only [hstart, isPrefixOf_opening, Bool.not_true, Bool.false_eq_true, if_false,
      List.drop_left] at h
    split at h
    · cases h
    · rename_i f hf
      have hname : f.name.toList = cs.takeWhile Char.isAlphanum := by
        rw [Function.name_of_ofName? hf, String.toList_ofList]
      obtain ⟨_, -, h⟩ := bind_ok h
      -- with or without arguments, the call is of that function
      split at h
      all_goals
        obtain ⟨⟨arguments, _⟩, -, h⟩ := bind_ok h
        split at h
        · cases h
          exact hname
        · cases h

theorem Intrinsic.parse_name (htext : e.toList = opening ++ cs) (h : Call.parse e = .ok c) :
    c.function.name.toList = cs.takeWhile Char.isAlphanum := by
  obtain ⟨⟨c', rest⟩, hread, h⟩ := bind_ok h
  rw [htext] at hread
  dsimp only at h
  split at h
  · cases h
    exact Intrinsic.readCall_name hread
  · cases h

theorem Path.isValid_opening (htext : e.toList = opening ++ cs) : Path.isValid e = false := by
  have hbody : Path.body e.toList = opening ++ cs := by
    rw [htext]
    rfl
  rw [Path.isValid, hbody, Bool.eq_false_iff, ne_eq, Pattern.accepts_iff, Path.pathForm,
    Pattern.matches_seq]
  rintro ⟨xs, ys, heq, hdollar, -⟩
  rw [Pattern.matches_char.mp hdollar] at heq
  cases heq

/-- A call that can be read has the form of one just when it stands on one line and its parenthesis
follows the name of its function. -/
theorem Path.isCall_iff (htext : e.toList = opening ++ cs) (hcloses : e.toList.getLast? = some ')')
    (hcall : Call.parse e = .ok c) : Path.isCall e = true ↔
      '\n' ∉ e.toList ∧ opening ++ c.function.name.toList ++ ['('] <+: e.toList := by
  have hname := Intrinsic.parse_name htext hcall
  rw [Path.isCall, Pattern.accepts_iff, Path.matches_callForm]
  constructor
  · rintro ⟨name, body, heq, -, halpha, hbody⟩
    have hcs : cs = name ++ '(' :: (body ++ [')']) := by
      rw [htext, List.append_assoc] at heq
      exact List.append_cancel_left heq
    have halnum : ∀ c ∈ name, c.isAlphanum = true := fun c hc => by
      rw [Char.isAlphanum, halpha c hc, Bool.true_or]
    have hspan : c.function.name.toList = name := by
      rw [hname, hcs, List.takeWhile_append_of_pos halnum, List.takeWhile_cons_of_neg (by decide),
        List.append_nil]
    rw [hspan]
    refine ⟨?_, body ++ [')'], by rw [heq]; simp⟩
    have hletters : '\n' ∉ name := fun h => absurd (halpha _ h) (by decide)
    rw [heq]
    simp [opening, hletters, hbody]
  · rintro ⟨hline, rest, hrest⟩
    obtain ⟨body, rfl⟩ : ∃ body, rest = body ++ [')'] := by
      rcases List.eq_nil_or_concat rest with rfl | ⟨body, d, rfl⟩
      · simp [← hrest] at hcloses
      · rw [List.concat_eq_append] at hrest ⊢
        rw [← hrest, ← List.append_assoc, List.getLast?_concat] at hcloses
        exact ⟨body, by rw [Option.some.inj hcloses]⟩
    obtain ⟨hne, hletters⟩ := c.function.name_letters
    refine ⟨_, body, by rw [← hrest]; simp, hne, hletters, fun hmem => hline ?_⟩
    rw [← hrest]
    simp [hmem]

namespace Validation

/-- Such a call is reported, as the value of an entry at any depth of any template, just when it
spreads over several lines or something stands between the name of its function and the
parenthesis. -/
theorem call_reported_iff (hopens : opening <+: e.toList) (hcloses : e.toList.getLast? = some ')')
    (hcall : Call.parse e = .ok c) {g : Document.Graph} {x : String × Document.Graph}
    {s : String × Document.State} {t : String × Value} {key : String} (hx : x ∈ g.all)
    (hs : s ∈ x.2.stateList) (ht : t ∈ s.2.templates) (hentry : HasEntry key (.str e) t.2) :
    Issue.badEntry s.1 t.1 key (.str e) ∈ issues g ↔
      '\n' ∈ e.toList ∨ ¬ opening ++ c.function.name.toList ++ ['('] <+: e.toList := by
  obtain ⟨cs, htext⟩ := hopens
  have hform := Path.isCall_iff htext.symm hcloses hcall
  have hexpression : isExpression (.str e) = Path.isCall e := by
    rw [isExpression, Path.isValid_opening htext.symm, Bool.false_or]
  have hreported :
      Issue.badEntry s.1 t.1 key (.str e) ∈ issues g ↔ isExpression (.str e) = false := by
    rw [mem_issues rfl]
    constructor
    · rintro ⟨_, _, _, _, _, _, _, _, -, hfalse, heq⟩
      injection heq with _ _ _ hvalue
      rwa [hvalue]
    · exact fun hfalse => ⟨x, hx, s, hs, t, ht, key, .str e, hentry, hfalse, rfl⟩
  rw [hreported, hexpression, Bool.eq_false_iff, ne_eq, hform, not_and_or, not_not]

/-- A template with that expression deep inside it. -/
def pairTemplate (e : String) : Value := .obj [("pair", .arr [.obj [("x.$", .str e)]])]

theorem pairTemplate_entry (e : String) : HasEntry "x.$" (.str e) (pairTemplate e) :=
  .field List.mem_cons_self rfl (.item List.mem_cons_self (.here rfl List.mem_cons_self))

def pairState (e : String) : Document.State :=
  .pass { transition := { isEnd := true }, parameters := some (pairTemplate e) }

def pairGraph (e : String) : Document.Graph where
  startAt := some "P"
  states := some [("P", pairState e)]

/-- A call that spreads over two lines. -/
def spread : String := "States.UUID(\n)"

/-- All three calls can be read. The first two are reported and the third is not. -/
theorem spread_reported :
    Issue.badEntry "P" "Parameters" "x.$" (.str spread) ∈ issues (pairGraph spread) ∧
    Issue.badEntry "P" "Parameters" "x.$" (.str "States.UUID ()") ∈
      issues (pairGraph "States.UUID ()") ∧
    Issue.badEntry "P" "Parameters" "x.$" (.str "States.UUID()") ∉
      issues (pairGraph "States.UUID()") := by
  have hspread : Call.parse spread = .ok ⟨.uuid, []⟩ := rfl
  have hapart : Call.parse "States.UUID ()" = .ok ⟨.uuid, []⟩ := rfl
  have hplain : Call.parse "States.UUID()" = .ok ⟨.uuid, []⟩ := rfl
  have hlines := call_reported_iff (by decide) rfl hspread (g := pairGraph spread)
    (x := (_, pairGraph spread)) (s := ("P", pairState spread)) (t := ("Parameters", _))
    List.mem_cons_self List.mem_cons_self List.mem_cons_self (pairTemplate_entry spread)
  have hblank := call_reported_iff (by decide) rfl hapart (g := pairGraph "States.UUID ()")
    (x := (_, pairGraph _)) (s := ("P", pairState _)) (t := ("Parameters", _))
    List.mem_cons_self List.mem_cons_self List.mem_cons_self (pairTemplate_entry _)
  have hnone := call_reported_iff (by decide) rfl hplain (g := pairGraph "States.UUID()")
    (x := (_, pairGraph _)) (s := ("P", pairState _)) (t := ("Parameters", _))
    List.mem_cons_self List.mem_cons_self List.mem_cons_self (pairTemplate_entry _)
  exact ⟨hlines.mpr (.inl (by decide)), hblank.mpr (.inr (by decide)),
    fun h => (hnone.mp h).elim (by decide) (by decide)⟩

end Validation

end

end StatesLanguage
